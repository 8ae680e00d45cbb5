import GrammarLint.Console.CellWidth
import GrammarLint.Text.Search
import GrammarLint.Text.Space

namespace GrammarLint.Console

open Text (CodePoint isSpace stripRight)

/-- What becomes of a word that is longer than a line. -/
inductive Overflow where
  /-- It goes on in the next line. -/
  | fold
  /-- It is cut off with an ellipsis. -/
  | ellipsis
deriving DecidableEq, Repr

/-- The next word with the white space before and behind it, and the rest. -/
def nextWord (cs : List CodePoint) : List CodePoint × List CodePoint :=
  let lead := cs.takeWhile isSpace
  let cs := cs.dropWhile isSpace
  let word := cs.takeWhile (!isSpace ·)
  let cs := cs.dropWhile (!isSpace ·)
  (lead ++ word ++ cs.takeWhile isSpace, cs.dropWhile isSpace)

/-- The words of a line with the white space around them. White space alone is no word. Each word
takes a character, so the length of the line is fuel enough. -/
def wordsFrom : (fuel : Nat) → List CodePoint → List (List CodePoint)
  | 0, _ => []
  | fuel + 1, cs =>
    if cs.all isSpace then []
    else
      let (word, rest) := nextWord cs
      word :: wordsFrom fuel rest

def words (cs : List CodePoint) : List (List CodePoint) := wordsFrom cs.length cs

/-- Cuts a word into pieces of at most `width` cells. `piece` is the last one so far, in reverse,
with `used` cells. -/
def chop (width : Nat) (piece : List CodePoint) (used : Nat) : List CodePoint → List (List CodePoint)
  | [] => [piece.reverse]
  | c :: rest =>
    if width < used + pointCells c then piece.reverse :: chop width [c] (pointCells c) rest
    else chop width (c :: piece) (used + pointCells c) rest

def beginnings (start : Nat) : List (List CodePoint) → List Nat
  | [] => []
  | piece :: rest => start :: beginnings (start + piece.length) rest

/-- The places where a line has to be broken. `start` is the place of the next word and `used` the
number of cells in the line so far. -/
def breaks (width : Nat) (overflow : Overflow) (start used : Nat) : List (List CodePoint) → List Nat
  | [] => []
  | word :: rest =>
    let next := start + word.length
    let size := cells (stripRight word)
    if used + size ≤ width then breaks width overflow next (used + cells word) rest
    else if width < size then
      match overflow with
      | .fold =>
        let pieces := chop width [] 0 word
        (beginnings start pieces).filter (0 < ·) ++
          breaks width overflow next (cells (pieces.getLast?.getD [])) rest
      | .ellipsis =>
        [start].filter (0 < ·) ++ breaks width overflow next (cells word) rest
    else if 0 < used && 0 < start then start :: breaks width overflow next (cells word) rest
    else breaks width overflow next used rest

/-- Cuts a line at some places, which are counted from `start`. -/
def cutAt (start : Nat) (cs : List CodePoint) : List Nat → List (List CodePoint)
  | [] => [cs]
  | place :: rest => cs.take (place - start) :: cutAt place (cs.drop (place - start)) rest

/-- Takes away white space at the end, as far as the line is too long. -/
def trimEnd (width : Nat) (cs : List CodePoint) : List CodePoint :=
  let blanks := (cs.reverse.takeWhile isSpace).length
  cs.take (cs.length - min blanks (cs.length - width))

/-- The first characters of a line that fill `width` cells; half a character is a blank. -/
def fillCells (width : Nat) : List CodePoint → List CodePoint
  | [] => List.replicate width ' '
  | c :: rest =>
    if pointCells c ≤ width then c :: fillCells (width - pointCells c) rest
    else List.replicate width ' '

def truncate (width : Nat) (overflow : Overflow) (cs : List CodePoint) : List CodePoint :=
  if cells cs ≤ width then cs
  else
    match overflow with
    | .fold => fillCells width cs
    | .ellipsis => fillCells (width - 1) cs ++ [.char '…']

/-- Sets each tab to the next multiple of eight cells. `used` is the number of cells so far. -/
def expandTabs (used : Nat) : List CodePoint → List CodePoint
  | [] => []
  | .char '\t' :: rest =>
    let size := 8 - used % 8
    List.replicate size (.char ' ') ++ expandTabs (used + size) rest
  | c :: rest => c :: expandTabs (used + pointCells c) rest

/-- A text in lines of at most `width` cells. -/
def wrap (width : Nat) (overflow : Overflow) (text : List CodePoint) : List (List CodePoint) :=
  (Text.splitAt (.char '\n') text).flatMap fun line =>
    let line := if line.contains '\t' then expandTabs 0 line else line
    (cutAt 0 line (breaks width overflow 0 0 (words line))).map fun piece =>
      truncate width overflow (trimEnd width piece)

end GrammarLint.Console
