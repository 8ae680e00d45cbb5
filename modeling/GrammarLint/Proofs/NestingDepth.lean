import Mathlib
import GrammarLint.Check.Size

open List

namespace GrammarLint.Check

namespace Brackets

/-- How many more brackets a text opens than it closes. -/
def excess (brackets : Brackets) (text : List Char) : Int :=
  text.countP brackets.opening.contains - text.countP brackets.closing.contains

/-- A text in which brackets are closed in the order in which they are opened, with the number of
brackets that lie in each other. Which bracket closes which is left open. -/
inductive Nested (brackets : Brackets) : List Char → Nat → Prop
  | nil : Nested brackets [] 0
  | plain {c : Char} {rest : List Char} {depth : Nat} (notOpening : brackets.opening.contains c = false)
      (notClosing : brackets.closing.contains c = false) (behind : Nested brackets rest depth) :
      Nested brackets (c :: rest) depth
  | block {first last : Char} {inner rest : List Char} {inside outside : Nat}
      (opens : brackets.opening.contains first = true) (closes : brackets.closing.contains last = true)
      (within : Nested brackets inner inside) (behind : Nested brackets rest outside) :
      Nested brackets (first :: inner ++ last :: rest) (max (inside + 1) outside)

def Apart (brackets : Brackets) : Prop := ∀ c ∈ brackets.opening, c ∉ brackets.closing

/-- How many brackets are open behind a character. -/
def step (brackets : Brackets) (current : Nat) (c : Char) : Nat :=
  if brackets.opening.contains c then current + 1
  else if brackets.closing.contains c then current - 1
  else current

def openBehind (brackets : Brackets) (current : Nat) (text : List Char) : Nat := text.foldl brackets.step current

variable {brackets : Brackets}

theorem Apart.notOpening (apart : brackets.Apart) {c : Char} (closes : brackets.closing.contains c = true) :
    brackets.opening.contains c = false := by
  rw [contains_iff_mem] at closes
  rw [Bool.eq_false_iff, ne_eq, contains_iff_mem]
  exact fun opens => apart c opens closes

theorem excess_concat (apart : brackets.Apart) (text : List Char) (c : Char) :
    brackets.excess (text ++ [c]) = brackets.excess text +
      if brackets.opening.contains c then 1 else if brackets.closing.contains c then -1 else 0 := by
  simp only [excess, countP_append, countP_singleton]
  cases closes : brackets.closing.contains c with
  | true =>
    simp only [apart.notOpening closes, Bool.false_eq_true, if_false, if_true]
    omega
  | false =>
    simp only [Bool.false_eq_true, if_false]
    split <;> omega

end Brackets

open Brackets

section Reading

variable {brackets : Brackets}

theorem depthFrom_append (current deepest : Nat) (text rest : List Char) :
    depthFrom brackets current deepest (text ++ rest) =
      depthFrom brackets (brackets.openBehind current text) (depthFrom brackets current deepest text) rest := by
  induction text generalizing current deepest with
  | nil => rfl
  | cons c text ih =>
    simp only [cons_append, depthFrom, openBehind, foldl_cons, step]
    split
    · exact ih ..
    · split <;> exact ih ..

/-- One more character: the heaviest text at the end grows, or starts again where it would fall below zero. -/
theorem greatest_suffix_concat (apart : brackets.Apart) {text : List Char} {current : Nat}
    (greatest : IsGreatest (brackets.excess '' {w | w <:+ text}) current) (c : Char) :
    IsGreatest (brackets.excess '' {w | w <:+ text ++ [c]}) (brackets.step current c) := by
  obtain ⟨⟨most, ends, reached⟩, bound⟩ := greatest
  constructor
  · by_cases fresh : brackets.closing.contains c = true ∧ current = 0
    · obtain ⟨closes, rfl⟩ := fresh
      refine ⟨[], nil_suffix, ?_⟩
      simp only [step, apart.notOpening closes, closes, Bool.false_eq_true, if_false, if_true]
      rfl
    · refine ⟨most ++ [c], suffix_concat_iff.mpr (.inr ⟨most, rfl, ends⟩), ?_⟩
      rw [excess_concat apart, reached, step]
      split
      · rfl
      · split
        · have positive : current ≠ 0 := fun zero => fresh ⟨‹_›, zero⟩
          omega
        · omega
  · rintro _ ⟨w, atEnd, rfl⟩
    rcases suffix_concat_iff.mp atEnd with rfl | ⟨front, rfl, before⟩
    · exact Int.natCast_nonneg _
    · have below := bound ⟨front, before, rfl⟩
      rw [excess_concat apart, step]
      split
      · omega
      · split <;> omega

/-- The counter is the greatest excess of a text at the end of what is read, and the depth that of any text in it. -/
theorem greatest_excess (apart : brackets.Apart) (text : List Char) :
    IsGreatest (brackets.excess '' {w | w <:+ text}) (brackets.openBehind 0 text) ∧
    IsGreatest (brackets.excess '' {w | w <:+: text}) (depthFrom brackets 0 0 text) := by
  induction text using reverseRecOn with
  | nil => simp [openBehind, depthFrom, excess]
  | append_singleton text c ih =>
    obtain ⟨suffixes, infixes⟩ := ih
    have counter : brackets.openBehind 0 (text ++ [c]) = brackets.step (brackets.openBehind 0 text) c := by
      simp [openBehind]
    have next := greatest_suffix_concat apart suffixes c
    have below : (brackets.openBehind 0 text : Int) ≤ depthFrom brackets 0 0 text := by
      obtain ⟨w, ends, reached⟩ := suffixes.1
      exact reached ▸ infixes.2 ⟨w, ends.isInfix, rfl⟩
    have depth : depthFrom brackets 0 0 (text ++ [c]) =
        max (depthFrom brackets 0 0 text) (brackets.step (brackets.openBehind 0 text) c) := by
      rw [depthFrom_append, step]
      simp only [depthFrom]
      split
      · rfl
      · split <;> omega
    refine ⟨counter ▸ next, ?_, ?_⟩
    · rcases max_choice (depthFrom brackets 0 0 text) (brackets.step (brackets.openBehind 0 text) c) with old | new
      · obtain ⟨w, within, reached⟩ := infixes.1
        exact ⟨w, infix_concat_iff.mpr (.inr within), by rw [reached, depth, old]⟩
      · obtain ⟨w, ends, reached⟩ := next.1
        exact ⟨w, ends.isInfix, by rw [reached, depth, new]⟩
    · rintro _ ⟨w, within, rfl⟩
      rcases infix_concat_iff.mp within with ends | within
      · have bound := next.2 ⟨w, ends, rfl⟩
        omega
      · have bound := infixes.2 ⟨w, within, rfl⟩
        omega

/-- Behind a text in which all brackets are closed the counter is what it was. -/
theorem depthFrom_nested (apart : brackets.Apart) {text : List Char} {depth : Nat}
    (nested : brackets.Nested text depth) {current deepest : Nat} (below : current ≤ deepest) (rest : List Char) :
    depthFrom brackets current deepest (text ++ rest) =
      depthFrom brackets current (max deepest (current + depth)) rest := by
  induction nested generalizing current deepest rest with
  | nil => rw [nil_append, Nat.add_zero, max_eq_left below]
  | plain notOpening notClosing behind ih =>
    rw [cons_append, depthFrom]
    simp only [notOpening, notClosing, Bool.false_eq_true, if_false]
    exact ih below rest
  | @block first last inner behindBlock inside outside opens closes within behind ihWithin ihBehind =>
    have closed : depthFrom brackets (current + 1) (max (max deepest (current + 1)) (current + 1 + inside))
        (last :: (behindBlock ++ rest)) = depthFrom brackets current
          (max (max (max deepest (current + 1)) (current + 1 + inside)) (current + outside)) rest := by
      rw [depthFrom]
      simp only [apart.notOpening closes, closes, Bool.false_eq_true, if_false, if_true, Nat.add_sub_cancel]
      exact ihBehind (by omega) rest
    rw [append_assoc, cons_append, cons_append, depthFrom, if_pos opens,
      ihWithin (le_max_right ..), closed]
    congr 1
    omega

/-- A bracket that closes nothing leaves the depth as it is. -/
theorem depthFrom_unmatched (apart : brackets.Apart) {front : List Char} {c : Char}
    (closes : brackets.closing.contains c = true) (unmatched : ∀ w, w <:+ front → brackets.excess w ≤ 0)
    (back : List Char) :
    depthFrom brackets 0 0 (front ++ c :: back) = depthFrom brackets 0 0 (front ++ back) := by
  have none : brackets.openBehind 0 front = 0 := by
    obtain ⟨w, ends, reached⟩ := (greatest_excess apart front).1.1
    have low := unmatched w ends
    omega
  rw [depthFrom_append, depthFrom_append, none, depthFrom]
  simp only [apart.notOpening closes, closes, Bool.false_eq_true, if_false, if_true, Nat.zero_sub]

end Reading

theorem isGreatest_foldl_max {α : Type} (depth : α → Nat) {items : List α} (some : items ≠ []) :
    IsGreatest (depth '' {a | a ∈ items}) ((items.map depth).foldl max 0) := by
  obtain ⟨reached, bound⟩ := max?_eq_some_iff.mp (List.max?_cons' (x := 0))
  have above : ∀ a ∈ items, depth a ≤ (items.map depth).foldl max 0 := fun a mem =>
    bound _ (mem_cons_of_mem _ (mem_map_of_mem mem))
  refine ⟨?_, by rintro _ ⟨a, mem, rfl⟩; exact above a mem⟩
  rcases mem_cons.mp reached with zero | most
  · obtain ⟨a, mem⟩ := exists_mem_of_ne_nil items some
    exact ⟨a, mem, by have := above a mem; omega⟩
  · exact mem_map.mp most

theorem apart_of_known {brackets : Brackets} (known : brackets = parentheses ∨ brackets = allBrackets) :
    brackets.Apart := by
  rcases known with rfl | rfl <;> simp [Apart, parentheses, allBrackets]

/-- The depth of a rule is the greatest excess of opening over closing brackets in any stretch of the text of
an alternative. In texts whose brackets are all closed it is the number of brackets that lie in each other, and
a bracket that closes nothing does not change it. -/
theorem nestingDepth_greatest (r : Rule) {brackets : Brackets}
    (known : brackets = parentheses ∨ brackets = allBrackets) :
    (r.alternatives = [] → nestingDepth brackets r = 0) ∧
    (r.alternatives ≠ [] → IsGreatest (brackets.excess '' {w | ∃ a ∈ r.alternatives, w <:+: wholeText a})
      (nestingDepth brackets r)) ∧
    (r.alternatives ≠ [] → ∀ depth : Alternative → Nat,
      (∀ a ∈ r.alternatives, brackets.Nested (wholeText a) (depth a)) →
      IsGreatest (depth '' {a | a ∈ r.alternatives}) (nestingDepth brackets r)) ∧
    ∀ (a b : Alternative) (front back : List Char) (c : Char), brackets.closing.contains c = true →
      (∀ w, w <:+ front → brackets.excess w ≤ 0) → wholeText a = front ++ c :: back →
      wholeText b = front ++ back → alternativeDepth brackets a = alternativeDepth brackets b := by
  have apart := apart_of_known known
  refine ⟨fun none => by simp [nestingDepth, none], fun some => ?_, fun some depth nested => ?_, ?_⟩
  · obtain ⟨⟨a, member, deepest⟩, bound⟩ := isGreatest_foldl_max (alternativeDepth brackets) some
    constructor
    · obtain ⟨w, within, reached⟩ := (greatest_excess apart (wholeText a)).2.1
      exact ⟨w, ⟨a, member, within⟩, reached.trans (congrArg Nat.cast deepest)⟩
    · rintro _ ⟨w, ⟨b, isAlternative, within⟩, rfl⟩
      have heavy := (greatest_excess apart (wholeText b)).2.2 ⟨w, within, rfl⟩
      have deep := bound ⟨b, isAlternative, rfl⟩
      exact heavy.trans (Int.ofNat_le.mpr deep)
  · have same : r.alternatives.map (alternativeDepth brackets) = r.alternatives.map depth := by
      refine map_congr_left fun a member => ?_
      have read := depthFrom_nested apart (nested a member) (le_refl 0) []
      rw [append_nil] at read
      rw [alternativeDepth, read, depthFrom, Nat.zero_add, Nat.zero_max]
    rw [nestingDepth, same]
    exact isGreatest_foldl_max depth some
  · intro a b front back c closes unmatched textA textB
    rw [alternativeDepth, alternativeDepth, textA, textB]
    exact depthFrom_unmatched apart closes unmatched back

def bracketed (text : String) : Alternative := ⟨[⟨text, none, none, .unknown⟩], none, none⟩

def unevenRule : Rule := ⟨"r", false, false, none, none, [bracketed "x)(y[", bracketed "(x[y])"]⟩

theorem nestingDepth_greatest_unevenRule : nestingDepth allBrackets unevenRule = 2 ∧
    IsGreatest (allBrackets.excess '' {w | ∃ a ∈ unevenRule.alternatives, w <:+: wholeText a})
      (nestingDepth allBrackets unevenRule) ∧ allBrackets.Nested "(x[y])".toList 2 ∧
    alternativeDepth allBrackets (bracketed "x)(y[") = alternativeDepth allBrackets (bracketed "x(y[") := by
  have inner : allBrackets.Nested "x[y]".toList 1 :=
    .plain rfl rfl (Nested.block rfl rfl (.plain rfl rfl .nil) .nil)
  have unmatched : ∀ w ∈ ['x'].tails, allBrackets.excess w ≤ 0 := by decide
  obtain ⟨-, greatest, -, closed⟩ := nestingDepth_greatest unevenRule (.inr rfl)
  exact ⟨by decide +kernel, greatest (by decide), Nested.block rfl rfl inner .nil,
    closed _ _ ['x'] "(y[".toList ')' rfl (fun w ends => unmatched w ((mem_tails ..).mpr ends)) rfl rfl⟩

end GrammarLint.Check
