import GrammarLint.Console.Wrap

namespace GrammarLint.Console

open Text (CodePoint)

structure Column where
  title : List CodePoint
  centered : Bool := false

/-- A table with a head. The rows have a text for each column. -/
structure Table where
  columns : List Column
  rows : List (List (List CodePoint))

def longestLine (text : List CodePoint) : Nat :=
  ((Text.splitAt (.char '\n') text).map cells).foldl max 0

namespace Table

def texts (table : Table) : List (List (List CodePoint)) :=
  table.columns.zipIdx.map fun (column, i) =>
    column.title :: table.rows.map fun row => (row[i]?).getD []

/-- The nearest whole number to a quotient; of two the even one. -/
def roundedQuotient (n d : Nat) : Nat :=
  let q := n / d
  if d < 2 * (n % d) || 2 * (n % d) == d && q % 2 == 1 then q + 1 else q

/-- Takes `total` away from the marked widths, in equal parts of at most `most` each. `marked`
counts them. -/
def takeAway (total marked most : Nat) : List (Nat × Bool) → List Nat
  | [] => []
  | (width, false) :: rest => width :: takeAway total marked most rest
  | (width, true) :: rest =>
    let part := min most (roundedQuotient total marked)
    (width - part) :: takeAway (total - part) (marked - 1) most rest

/-- Makes the widest columns narrower until all fit. Each round either ends it or makes fewer
widths differ, so the number of columns is fuel enough. -/
def collapse (room : Nat) : (fuel : Nat) → List Nat → List Nat
  | 0, widths => widths
  | fuel + 1, widths =>
    let excess := widths.foldl (· + ·) 0 - room
    let widest := widths.foldl max 0
    let second := (widths.filter (· != widest)).foldl max 0
    if excess == 0 || widest == second then widths
    else
      collapse room fuel <| takeAway excess (widths.count widest) (min excess (widest - second))
        (widths.map fun width => (width, width == widest))

/-- The widths of the columns with a blank on both sides, for a line of `width` cells. -/
def widths (table : Table) (width : Nat) : List Nat :=
  let room := width - (table.columns.length + 1)
  let natural := table.texts.map fun texts => 2 + (texts.map longestLine).foldl max 0
  if natural.foldl (· + ·) 0 ≤ room then natural
  else
    (collapse room natural.length natural).zipWith min natural

def setLine (centered : Bool) (width : Nat) (line : List CodePoint) : List CodePoint :=
  if centered then
    let line := Text.stripRight line
    let left := (width - cells line) / 2
    let line := List.replicate left (.char ' ') ++ line
    line ++ List.replicate (width - cells line) (.char ' ')
  else line ++ List.replicate (width - cells line) (.char ' ')

/-- The lines of a cell with a blank on both sides. -/
def cellLines (centered : Bool) (width : Nat) (text : List CodePoint) : List (List CodePoint) :=
  (wrap (width - 2) .ellipsis text).map fun line =>
    .char ' ' :: (setLine centered (width - 2) line ++ [.char ' '])

/-- A row between bars. Short cells are filled with blanks. -/
def rowLines (bar : CodePoint) (cells : List (Nat × List (List CodePoint))) : List (List CodePoint) :=
  let height := (cells.map (·.2.length)).foldl max 0
  (List.range height).map fun i =>
    cells.foldl (fun line (width, lines) =>
      line ++ (lines[i]?).getD (List.replicate width (.char ' ')) ++ [bar]) [bar]

def rule (left line cross right : CodePoint) (widths : List Nat) : List CodePoint :=
  left :: ((widths.map fun width => List.replicate width line).intersperse [cross]).flatten ++ [right]

/-- The lines of a table that is at most `width` cells wide. -/
def lines (table : Table) (width : Nat) : List (List CodePoint) :=
  let widths := table.widths width
  let row (bar : CodePoint) (texts : List (List CodePoint)) : List (List CodePoint) :=
    rowLines bar <| (table.columns.zip (widths.zip texts)).map fun (column, width, text) =>
      (width, cellLines column.centered width text)
  [rule '┏' '━' '┳' '┓' widths] ++ row '┃' (table.columns.map (·.title)) ++
    [rule '┡' '━' '╇' '┩' widths] ++ table.rows.flatMap (row '│') ++
    [rule '└' '─' '┴' '┘' widths]

end Table

end GrammarLint.Console
