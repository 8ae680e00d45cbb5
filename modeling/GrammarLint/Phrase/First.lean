import GrammarLint.Phrase.Rules

namespace GrammarLint.Phrase

open Lexical (Kind)

/-- A token that may come next: its place, the kinds it may have there, and the calls, innermost
first, that lead to the place. -/
structure Read where
  point : Point
  kinds : List Kind
  calls : List Point
deriving DecidableEq, Repr

/-- What may come first in a form, and whether the form may be passed without a token. -/
structure First where
  reads : List Read
  passable : Bool
deriving DecidableEq, Repr

namespace First

def passed : First := ⟨[], true⟩

def admits (first : First) (kind : Kind) : Bool := first.reads.any (·.kinds.contains kind)

def andThen (first second : First) : First :=
  if first.passable then ⟨first.reads ++ second.reads, second.passable⟩ else first

def orElse (first second : First) : First :=
  ⟨first.reads ++ second.reads, first.passable || second.passable⟩

/-- The same, reached through a call. -/
def through (point : Point) (first : First) : First :=
  { first with reads := first.reads.map fun read => { read with calls := read.calls ++ [point] } }

end First

namespace Form

/-- What may come first in a form of `category`, given the same for all categories. -/
@[simp] def firstWith (known : Category → First) (category : Category) : Form → First
  | .empty => .passed
  | .token index kind => ⟨[⟨⟨category, index⟩, [kind], []⟩], false⟩
  | .oneOf index kinds => ⟨[⟨⟨category, index⟩, kinds, []⟩], false⟩
  | .call index callee => (known callee).through ⟨category, index⟩
  | .seq f g => (f.firstWith known category).andThen (g.firstWith known category)
  | .alt f g => (f.firstWith known category).orElse (g.firstWith known category)
  | .choice _ _ f => f.firstWith known category
  | .optional _ _ f => (f.firstWith known category).orElse .passed
  | .star _ _ _ _ f => (f.firstWith known category).orElse .passed
  | .plus _ _ f => f.firstWith known category
  | .rounds _ _ _ f => (f.firstWith known category).orElse .passed

end Form

def lookUp (table : Array First) (category : Category) : First :=
  table.getD category.code .passed

/-- A better table from a table in which calls may still be missing. -/
def refineFirsts (table : Array First) : Array First :=
  (Category.all.map fun c => c.form.firstWith (lookUp table) c).toArray

/-- No category starts with a call of itself, so after as many rounds as there are categories
nothing is missing. -/
def firstTable : Array First :=
  Category.all.foldl (fun table _ => refineFirsts table) (Category.all.map fun _ => ⟨[], false⟩).toArray

def Category.first (category : Category) : First := lookUp firstTable category

def Form.first (category : Category) (form : Form) : First :=
  form.firstWith Category.first category

/-- What may come first in a list of forms of `category` that follow each other. -/
def firstOf (category : Category) : List Form → First
  | [] => .passed
  | form :: rest => (form.first category).andThen (firstOf category rest)

/-- The tokens and calls of a form by number, each with the forms that follow it up to the end of
the phrase; calls also with their category. -/
@[simp] def Form.places (rest : List Form) : Form → List (Nat × Option Category × List Form)
  | .empty => []
  | .token index _ => [(index, none, rest)]
  | .oneOf index _ => [(index, none, rest)]
  | .call index callee => [(index, some callee, rest)]
  | .seq f g => f.places (g :: rest) ++ g.places rest
  | .alt f g => f.places rest ++ g.places rest
  | .choice _ _ f => f.places rest
  | .optional _ _ f => f.places rest
  | .star _ back lookahead greedy f => f.places (.rounds back lookahead greedy f :: rest)
  | .plus _ back f => f.places (.rounds back .one true f :: rest)
  | .rounds back lookahead greedy f => f.places (.rounds back lookahead greedy f :: rest)

/-- All calls of categories: the place of the call and what is called. -/
def calls : List (Point × Category) :=
  Category.all.flatMap fun category =>
    (category.form.places []).filterMap fun place =>
      place.2.1.map fun callee => (⟨category, place.1⟩, callee)

/-- For each category and each number in it, what may come behind that place in the phrase. -/
def afterTable : Array (Array First) :=
  (Category.all.map fun category =>
    (category.form.places []).foldl
      (fun row place =>
        let row := row ++ Array.replicate (place.1 + 1 - row.size) First.passed
        row.setIfInBounds place.1 (firstOf category place.2.2))
      (#[] : Array First)).toArray

/-- What may come behind the token or call at a place, up to the end of the phrase. -/
def Point.after (point : Point) : First :=
  (afterTable.getD point.category.code #[]).getD point.index .passed

def Category.callers (category : Category) : List Point :=
  calls.filterMap fun call => if call.2 = category then some call.1 else none

/-- The categories whose end may be reached together with the end of one of the given. -/
def endTogether (categories : List Category) : List Category :=
  categories.foldl (fun known category =>
    category.callers.foldl (fun known point =>
      if point.after.passable && !known.contains point.category then known ++ [point.category]
      else known) known) categories

/-- What may follow a phrase of a category, whatever phrase it is part of. It is passable if the
phrase may be the last of the outermost phrase. -/
def beyondTable : Array First :=
  (Category.all.map fun category =>
    let ends := Category.all.foldl (fun known _ => endTogether known) [category]
    ⟨ends.flatMap fun c => c.callers.flatMap fun point => point.after.reads,
      ends.any (·.callers.isEmpty)⟩).toArray

def Category.beyond (category : Category) : First := lookUp beyondTable category

end GrammarLint.Phrase
