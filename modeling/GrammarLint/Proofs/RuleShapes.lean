import Mathlib.Data.List.Forall2
import GrammarLint.Proofs.CheckPlaces
import GrammarLint.Proofs.LiteralTexts

open List

namespace GrammarLint

namespace Text

variable {c : Char}

theorem contains_operators (isOperator : c ∈ operatorChars) (text : List Char) :
    (operators text).contains c = text.contains c := by
  simp [operators, isOperator]

/-- What only operators change is the same for all of a text. -/
theorem foldl_operators {α : Type} {k : α → Char → α} (still : ∀ a, ∀ c ∉ operatorChars, k a c = a) (a : α)
    (text : List Char) : (operators text).foldl k a = text.foldl k a := by
  induction text generalizing a with
  | nil => rfl
  | cons c text ih =>
    by_cases isOperator : c ∈ operatorChars
    · rw [operators, filter_cons_of_pos (by simpa using isOperator)]
      exact ih (k a c)
    · rw [operators, filter_cons_of_neg (by simpa using isOperator), foldl_cons, still a c isOperator]
      exact ih a

end Text

/-- Elements with the same operators in them. -/
structure Element.Alike (e e' : Element) : Prop where
  operators : Text.operators e'.text.toList = Text.operators e.text.toList
  mentions : Check.mentionsRepetition e' = Check.mentionsRepetition e

theorem Element.Alike.contains {e e' : Element} (alike : e.Alike e') {c : Char}
    (isOperator : c ∈ Text.operatorChars) : e'.text.toList.contains c = e.text.toList.contains c := by
  rw [← Text.contains_operators isOperator, alike.operators, Text.contains_operators isOperator]

theorem forall₂_any {α : Type} {R : α → α → Prop} {items others : List α} {p : α → Bool}
    (alike : List.Forall₂ R items others) (each : ∀ a b, R a b → p b = p a) : others.any p = items.any p := by
  induction alike with
  | nil => rfl
  | cons here _ ih => rw [any_cons, any_cons, each _ _ here, ih]

theorem forall₂_flatMap {α β γ : Type} {R : β → γ → Prop} {items : List α} {k : α → List β} {k' : α → List γ}
    (each : ∀ a ∈ items, List.Forall₂ R (k a) (k' a)) :
    List.Forall₂ R (items.flatMap k) (items.flatMap k') := by
  induction items with
  | nil => exact .nil
  | cons a items ih =>
    obtain ⟨here, later⟩ := forall_mem_cons.mp each
    exact rel_append here (ih later)

namespace Check

/-- What a character does to the depth of groups and to the greatest one so far. -/
def groupStep (counts : Bool) (depths : Nat × Nat) (c : Char) : Nat × Nat :=
  if c == '(' then (depths.1 + 1, depths.2)
  else if c == ')' then (depths.1 - 1, if counts then max depths.2 depths.1 else depths.2)
  else depths

theorem groupStep_still (counts : Bool) (depths : Nat × Nat) :
    ∀ c ∉ Text.operatorChars, groupStep counts depths c = depths := by
  intro c other
  have noOpening : c ≠ '(' := fun same => other (same ▸ by decide)
  have noClosing : c ≠ ')' := fun same => other (same ▸ by decide)
  simp [groupStep, noOpening, noClosing]

theorem optionalDepth_cons (current deepest : Nat) (e : Element) (rest : List Element) :
    optionalDepth current deepest (e :: rest) =
      optionalDepth (e.text.toList.foldl (groupStep (e.text.toList.contains '?')) (current, deepest)).1
        (e.text.toList.foldl (groupStep (e.text.toList.contains '?')) (current, deepest)).2 rest := rfl

section Elements

variable {elements others : List Element} (alike : List.Forall₂ Element.Alike elements others)

include alike

theorem starsInARow_alike : starsInARow others = starsInARow elements := by
  induction alike with
  | nil => rfl
  | cons here later ih =>
    have star : '*' ∈ Text.operatorChars := by decide
    cases later with
    | nil => rfl
    | cons next later => rw [starsInARow, starsInARow, here.contains star, next.contains star, ih]

theorem optionalDepth_alike (current deepest : Nat) :
    optionalDepth current deepest others = optionalDepth current deepest elements := by
  induction alike generalizing current deepest with
  | nil => rfl
  | cons here _ ih =>
    rw [optionalDepth_cons, optionalDepth_cons, here.contains (by decide), ih,
      ← Text.foldl_operators (groupStep_still _), here.operators, Text.foldl_operators (groupStep_still _)]

theorem operators_alike : Text.operators (others.flatMap (·.text.toList)) =
    Text.operators (elements.flatMap (·.text.toList)) := by
  rw [Text.operators, Text.operators, filter_flatMap, filter_flatMap]
  induction alike with
  | nil => rfl
  | cons here _ ih =>
    rw [flatMap_cons, ih]
    exact congrArg (· ++ _) here.operators

end Elements

theorem depthFrom_operators {brackets : Brackets}
    (known : brackets.opening ++ brackets.closing ⊆ Text.operatorChars) (current deepest : Nat)
    (text : List Char) :
    depthFrom brackets current deepest (Text.operators text) = depthFrom brackets current deepest text := by
  induction text generalizing current deepest with
  | nil => rfl
  | cons c text ih =>
    by_cases isOperator : c ∈ Text.operatorChars
    · rw [Text.operators, filter_cons_of_pos (by simpa using isOperator)]
      simp only [depthFrom, ← ih]
      rfl
    · have noOpening : c ∉ brackets.opening := fun inside =>
        isOperator (known (mem_append_left _ inside))
      have noClosing : c ∉ brackets.closing := fun inside =>
        isOperator (known (mem_append_right _ inside))
      rw [Text.operators, filter_cons_of_neg (by simpa using isOperator), ← Text.operators, ih]
      simp [depthFrom, noOpening, noClosing]

end Check

/-- A rule and another with its alternatives, both side by side, that differ in places and in what is no
operator in the texts of elements. -/
structure Rule.Alike (h : Range → Range) (sides : List (Alternative × Alternative)) (r other : Rule) :
    Prop where
  name : other.name = r.name
  isLexer : other.isLexer = r.isLexer
  range : other.range = r.range.map h
  left : r.alternatives = sides.map Prod.fst
  right : other.alternatives = sides.map Prod.snd
  elements : ∀ side ∈ sides, List.Forall₂ Element.Alike side.1.elements side.2.elements

namespace Rule.Alike

variable {h : Range → Range} {sides : List (Alternative × Alternative)} {r other : Rule}
  (alike : r.Alike h sides other)

include alike

theorem alternatives_length : other.alternatives.length = r.alternatives.length := by
  rw [alike.left, alike.right, length_map, length_map]

theorem forall₂_elements : List.Forall₂ Element.Alike r.elements other.elements := by
  rw [Rule.elements, Rule.elements, alike.left, alike.right, flatMap_map, flatMap_map]
  exact forall₂_flatMap alike.elements

theorem elementCount : Check.elementCount other = Check.elementCount r := alike.forall₂_elements.length_eq.symm

theorem nestingDepth {brackets : Check.Brackets}
    (known : brackets.opening ++ brackets.closing ⊆ Text.operatorChars) :
    Check.nestingDepth brackets other = Check.nestingDepth brackets r := by
  rw [Check.nestingDepth, Check.nestingDepth, alike.left, alike.right, map_map, map_map]
  refine congrArg (foldl max 0) (map_congr_left fun side mem => ?_)
  have same := Check.operators_alike (alike.elements side mem)
  simp only [Function.comp_apply, Check.alternativeDepth, Check.wholeText]
  rw [← Check.depthFrom_operators known, same, Check.depthFrom_operators known]

theorem isComplex : Check.isComplex other = Check.isComplex r := by
  rw [Check.isComplex, Check.isComplex, alike.alternatives_length, alike.elementCount,
    forall₂_any alike.forall₂_elements fun e e' same => ?_]
  rw [same.contains (by decide), same.contains (by decide)]

end Rule.Alike

section Lists

variable {α β γ : Type} {R : α → β → Prop} {items : List α} {others : List β} {view : γ → γ}

variable (alike : List.Forall₂ R items others)

include alike

theorem filterMapM_forall₂ {k : α → Except Fault (Option γ)} {k' : β → Except Fault (Option γ)} (each : ∀ a b, R a b → k' b = (k a).map (Option.map view)) :
    others.filterMapM k' = (items.filterMapM k).map (map view) := by
  rw [map_filterMapM]
  induction alike with
  | nil => rfl
  | cons here _ ih => rw [filterMapM_cons, filterMapM_cons, each _ _ here, ih]

theorem flatMap_forall₂ {k : α → List γ} {k' : β → List γ}
    (each : ∀ a b, R a b → k' b = (k a).map view) : others.flatMap k' = (items.flatMap k).map view := by
  induction alike with
  | nil => rfl
  | cons here _ ih => rw [flatMap_cons, flatMap_cons, map_append, each _ _ here, ih]

theorem filter_map_forall₂ {p : α → Bool} {p' : β → Bool} {k : α → γ} {k' : β → γ} (each : ∀ a b, R a b → p' b = p a ∧ k' b = view (k a)) :
    (others.filter p').map k' = ((items.filter p).map k).map view := by
  induction alike with
  | nil => rfl
  | cons here _ ih =>
    obtain ⟨same, image⟩ := each _ _ here
    rw [filter_cons, filter_cons, same]
    split
    · rw [map_cons, map_cons, map_cons, image, ih]
    · exact ih

end Lists

namespace Check

variable {h : Range → Range} {g other : Grammar} {config : RuleConfig}

theorem bind_map {α β γ : Type} {x : Except Fault α} {k : α → Except Fault β} {k' : α → Except Fault γ} {view : β → γ}
    (each : ∀ a, k' a = (k a).map view) : (x >>= k') = (x >>= k).map view := by
  cases x with
  | error fault => rfl
  | ok a => exact each a

section Sizes

variable (file : other.file = g.file)
  (rules : List.Forall₂ (fun r r' => ∃ sides, r.Alike h sides r') g.rules other.rules)

include file rules

theorem complexity_alike :
    complexity.run other config = (complexity.run g config).map (map (Issue.relocate h)) := by
  refine bind_map fun _ => bind_map fun _ => bind_map fun _ => filterMapM_forall₂ rules fun r r' related => ?_
  obtain ⟨sides, alike⟩ := related
  rw [alike.alternatives_length, alike.nestingDepth (by decide), alike.elementCount]
  cases excesses _ with
  | error fault => rfl
  | ok found => cases found <;> simp [Issue.of, Issue.relocate, file, alike.name, alike.range]

theorem deepNesting_alike :
    deepNesting.run other config = (deepNesting.run g config).map (map (Issue.relocate h)) := by
  simp only [deepNesting]
  refine bind_map fun maxDepth => filterMapM_forall₂ rules fun r r' related => ?_
  obtain ⟨sides, alike⟩ := related
  rw [Rule.Alike.nestingDepth alike (by decide)]
  cases exceeds _ maxDepth with
  | error fault => rfl
  | ok deep => cases deep <;> simp [Issue.of, Issue.relocate, file, alike.name, alike.range]

theorem ruleDocumentation_alike :
    ruleDocumentation.run other config =
      (ruleDocumentation.run g config).map (map (Issue.relocate h)) := by
  refine congrArg Except.ok (filter_map_forall₂ rules fun r r' ⟨sides, alike⟩ => ⟨alike.isComplex, ?_⟩)
  simp [Issue.of, Issue.relocate, file, alike.name, alike.range]

end Sizes

end Check

end GrammarLint
