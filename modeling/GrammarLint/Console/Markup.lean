import GrammarLint.Text.Loose

namespace GrammarLint.Console

open Text (CodePoint)

/-! Texts for a console may hold tags in brackets that set a style, such as `[bold]`. Without
colours only the rest of the text is shown. A backslash takes a tag for what it is. -/

def startsTag : CodePoint → Bool
  | .char c => decide ('a' ≤ c) && decide (c ≤ 'z') || c == '#' || c == '/' || c == '@'
  | .half _ => false

def isBracket (c : CodePoint) : Bool := c == .char '[' || c == .char ']'

/-- The text of a tag behind its opening bracket, and what comes behind it. -/
def tag? : List CodePoint → Option (List CodePoint × List CodePoint)
  | c :: rest =>
    let inside := rest.takeWhile (!isBracket ·)
    match rest.dropWhile (!isBracket ·) with
    | .char ']' :: behind => if startsTag c then some (c :: inside, behind) else none
    | _ => none
  | [] => none

/-- A stretch of text, which may hold brackets behind backslashes, or one that is shown as it
stands. -/
inductive Stretch where
  | text (cs : List CodePoint)
  | exact (cs : List CodePoint)
deriving DecidableEq, Repr

/-- The stretches between the tags. `before` holds the last characters in reverse. Each step takes
a character, so the length of the text is fuel enough. -/
def stretches : (fuel : Nat) → (before : List CodePoint) → List CodePoint → List Stretch
  | 0, before, _ => [.text before.reverse]
  | _, before, [] => [.text before.reverse]
  | fuel + 1, before, c :: rest =>
    let slashes := (c :: rest).takeWhile (· == .char '\\')
    match (c :: rest).drop slashes.length with
    | .char '[' :: inner =>
      match tag? inner with
      | some (tag, behind) =>
        .text before.reverse :: .exact (List.replicate (slashes.length / 2) '\\') ::
          .exact (if slashes.length % 2 == 1 then .char '[' :: (tag ++ [.char ']']) else []) ::
          stretches fuel [] behind
      | none => stretches fuel (.char '[' :: (slashes ++ before)) inner
    | after =>
      if slashes.isEmpty then stretches fuel (c :: before) rest
      else stretches fuel (slashes ++ before) after

/-- A bracket behind a backslash stands for itself. -/
def unescape : List CodePoint → List CodePoint
  | .char '\\' :: .char '[' :: rest => .char '[' :: unescape rest
  | c :: rest => c :: unescape rest
  | [] => []

def Stretch.shown : Stretch → List CodePoint
  | .text cs => unescape cs
  | .exact cs => cs

/-- Control characters that a console does not show. -/
def isStripped (c : CodePoint) : Bool := [7, 8, 11, 12, 13].contains c.value

/-- The text that is shown. It is so only of texts that hold no name of a picture between colons, and
no closing tag without an opening one. -/
def plain (markup : List CodePoint) : List CodePoint :=
  let shown :=
    if markup.contains '[' then (stretches markup.length [] markup).flatMap Stretch.shown
    else markup
  shown.filter (!isStripped ·)

end GrammarLint.Console
