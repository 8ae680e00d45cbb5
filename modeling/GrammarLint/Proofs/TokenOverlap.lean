import GrammarLint.Proofs.CheckLocality
import GrammarLint.Proofs.CheckPlaces

open List

namespace GrammarLint.Check

section Pairs

variable {α β : Type}

theorem mem_pairs_of_sorted [LinearOrder α] {items : List α} (sorted : items.Pairwise (· < ·)) {a b : α} :
    (a, b) ∈ pairs items ↔ a ∈ items ∧ b ∈ items ∧ a < b := by
  induction items with
  | nil => simp [pairs]
  | cons first items ih =>
    obtain ⟨below, sorted⟩ := pairwise_cons.mp sorted
    simp only [pairs, mem_append, mem_map, Prod.mk.injEq, ih sorted, mem_cons]
    constructor
    · rintro (⟨_, mem, rfl, rfl⟩ | ⟨isFirst, isSecond, before⟩)
      · exact ⟨.inl rfl, .inr mem, below _ mem⟩
      · exact ⟨.inr isFirst, .inr isSecond, before⟩
    · rintro ⟨rfl | isFirst, rfl | isSecond, before⟩
      · exact absurd before (lt_irrefl _)
      · exact .inl ⟨b, isSecond, rfl, rfl⟩
      · exact absurd (below a isFirst) before.asymm
      · exact .inr ⟨isFirst, isSecond, before⟩

theorem nodup_pairs {items : List α} (apart : items.Nodup) : (pairs items).Nodup := by
  induction items with
  | nil => exact nodup_nil
  | cons first items ih =>
    obtain ⟨new, apart⟩ := nodup_cons.mp apart
    refine .append (apart.map (Prod.mk_right_injective first)) (ih apart) ?_
    intro pair here later
    obtain ⟨_, -, rfl⟩ := mem_map.mp here
    exact new (mem_of_mem_pairs later).1

/-- The unordered pairs of items do not depend on the order of the items. -/
theorem pairs_perm {items others : List α} (perm : items.Perm others) :
    ((pairs items).map fun p => s(p.1, p.2)).Perm ((pairs others).map fun p => s(p.1, p.2)) := by
  induction perm with
  | nil => exact .nil
  | cons a perm ih =>
    simp only [pairs, map_append, map_map]
    exact (perm.map _).append ih
  | swap a b items =>
    simp only [pairs, map_append, map_cons, map_map, cons_append]
    rw [Sym2.eq_swap]
    refine .cons _ ?_
    rw [← append_assoc, ← append_assoc]
    exact perm_append_comm.append_right _
  | trans _ _ first second => exact first.trans second

end Pairs

section Symmetry

variable (r s : Rule)

/-- A rule for identifiers can take the keyword that another rule is for. -/
def TakesKeyword : Prop := isIdentifierText (firstText r) = true ∧ isKeywordLike s = true

/-- Both rules are for numbers and can take the same text. -/
def NumbersClash : Prop := isNumeric r = true ∧ isNumeric s = true ∧ numbersOverlap r s = true

theorem overlap_isSome_iff : (overlap r s).isSome = true ↔
    (∃ text, text ∈ literals r ∧ text ∈ literals s) ∨ TakesKeyword r s ∨ TakesKeyword s r ∨ NumbersClash r s := by
  have common : ((literals r).filter (literals s).contains).isEmpty = false ↔
      ∃ text, text ∈ literals r ∧ text ∈ literals s := by
    simp
  rw [overlap, TakesKeyword, TakesKeyword, NumbersClash]
  split_ifs with shared first second numbers
  · exact iff_of_true rfl (.inl (by simpa using shared))
  · simp_all
  · simp_all
  · simp_all
  · simp_all

/-- The tests for numbers ask the same of both rules. -/
theorem numbersOverlap_comm : numbersOverlap r s = numbersOverlap s r := by
  simp only [numbersOverlap]
  grind

theorem overlap_comm : (overlap r s).isSome = (overlap s r).isSome := by
  rw [Bool.eq_iff_iff, overlap_isSome_iff, overlap_isSome_iff]
  have literal : (∃ text, text ∈ literals r ∧ text ∈ literals s) ↔ ∃ text, text ∈ literals s ∧ text ∈ literals r :=
    exists_congr fun _ => and_comm
  have numbers : NumbersClash r s ↔ NumbersClash s r := by
    rw [NumbersClash, numbersOverlap_comm]
    exact and_left_comm
  rw [literal, numbers]
  exact or_congr_right or_left_comm

end Symmetry

section Reports

/-- The issue on two token rules. -/
def overlapIssue (g : Grammar) (config : RuleConfig) (r s : Rule) : Issue :=
  let reason := (overlap r s).getD ""
  .of "T001" g config r.range s!"Token '{r.name}' may overlap with '{s.name}': {reason}"
    "Review token order or make patterns more specific"
    "Consider reordering tokens or using more specific patterns"

/-- The places of two rules that may take the same text, the earlier one first. -/
def overlapPlaces (rules : List Rule) : List (Fin rules.length × Fin rules.length) :=
  (pairs (finRange rules.length)).filter fun p => (overlap (rules.get p.1) (rules.get p.2)).isSome

/-- The rules at these places, without regard to their order. -/
def overlappingPairs (rules : List Rule) : List (Sym2 Rule) :=
  (overlapPlaces rules).map fun p => s(rules.get p.1, rules.get p.2)

theorem pairs_eq_map (rules : List Rule) :
    pairs rules = (pairs (finRange rules.length)).map fun p => (rules.get p.1, rules.get p.2) := by
  conv_lhs => rw [← map_get_finRange rules, pairs_map]
  rfl

theorem overlappingTokens_run (g : Grammar) (config : RuleConfig) : overlappingTokens.run g config =
    .ok ((overlapPlaces g.tokenRules).map fun p =>
      overlapIssue g config (g.tokenRules.get p.1) (g.tokenRules.get p.2)) := by
  have found (pairs : List (Rule × Rule)) : (pairs.filterMap fun pair => (overlap pair.1 pair.2).map fun reason =>
      Issue.of "T001" g config pair.1.range
        s!"Token '{pair.1.name}' may overlap with '{pair.2.name}': {reason}"
        "Review token order or make patterns more specific"
        "Consider reordering tokens or using more specific patterns") =
      (pairs.filter fun pair => (overlap pair.1 pair.2).isSome).map fun pair =>
        overlapIssue g config pair.1 pair.2 := by
    induction pairs with
    | nil => rfl
    | cons pair pairs ih =>
      cases reason : overlap pair.1 pair.2 <;> simp [reason, ih, overlapIssue]
  refine congrArg Except.ok ((found (pairs g.tokenRules)).trans ?_)
  rw [pairs_eq_map, filter_map, map_map]
  rfl

variable {rules : List Rule} {i j : Fin rules.length}

theorem mem_overlapPlaces :
    (i, j) ∈ overlapPlaces rules ↔ i < j ∧ (overlap (rules.get i) (rules.get j)).isSome = true := by
  rw [overlapPlaces, mem_filter, mem_pairs_of_sorted (pairwise_lt_finRange _)]
  simp

/-- Each two places come up at most once. -/
theorem nodup_overlapPlaces (rules : List Rule) : ((overlapPlaces rules).map fun p => s(p.1, p.2)).Nodup := by
  refine .map_on ?_ ((nodup_pairs (nodup_finRange _)).filter _)
  rintro ⟨i, j⟩ isPlace ⟨k, l⟩ isOther same
  have first := (mem_overlapPlaces.mp isPlace).1
  have second := (mem_overlapPlaces.mp isOther).1
  rcases Sym2.eq_iff.mp same with ⟨rfl, rfl⟩ | ⟨rfl, rfl⟩
  · rfl
  · exact absurd first second.asymm

/-- Two places come up, in either order, exactly if the rules there overlap. -/
theorem mem_unordered_overlapPlaces :
    s(i, j) ∈ (overlapPlaces rules).map (fun p => s(p.1, p.2)) ↔
      i ≠ j ∧ (overlap (rules.get i) (rules.get j)).isSome = true := by
  simp only [mem_map, Prod.exists, mem_overlapPlaces]
  constructor
  · rintro ⟨k, l, ⟨before, overlaps⟩, same⟩
    rcases Sym2.eq_iff.mp same with ⟨rfl, rfl⟩ | ⟨rfl, rfl⟩
    · exact ⟨before.ne, overlaps⟩
    · exact ⟨before.ne', overlap_comm .. ▸ overlaps⟩
  · rintro ⟨differ, overlaps⟩
    rcases lt_or_gt_of_ne differ with before | after
    · exact ⟨i, j, ⟨before, overlaps⟩, rfl⟩
    · exact ⟨j, i, ⟨after, overlap_comm .. ▸ overlaps⟩, Sym2.eq_swap⟩

theorem overlappingPairs_perm {others : List Rule} (perm : rules.Perm others) :
    (overlappingPairs rules).Perm (overlappingPairs others) := by
  have listed (rules : List Rule) : overlappingPairs rules =
      ((pairs rules).map fun p => s(p.1, p.2)).filter
        (Sym2.lift ⟨fun r s => (overlap r s).isSome, overlap_comm⟩) := by
    rw [pairs_eq_map, map_map, filter_map]
    rfl
  rw [listed, listed]
  exact (pairs_perm perm).filter _

end Reports

/-- Overlapping is symmetric. There is one issue for each two places of token rules that overlap, and the pairs of
rules that are reported do not depend on the order of the rules. -/
theorem overlappingTokens_unordered : (∀ r s : Rule, (overlap r s).isSome = (overlap s r).isSome) ∧
    ∀ (g : Grammar) (config : RuleConfig),
      overlappingTokens.run g config = .ok ((overlapPlaces g.tokenRules).map fun p =>
        overlapIssue g config (g.tokenRules.get p.1) (g.tokenRules.get p.2)) ∧
      ((overlapPlaces g.tokenRules).map fun p => s(p.1, p.2)).Nodup ∧
      (∀ i j, s(i, j) ∈ (overlapPlaces g.tokenRules).map (fun p => s(p.1, p.2)) ↔
        i ≠ j ∧ (overlap (g.tokenRules.get i) (g.tokenRules.get j)).isSome = true) ∧
      ∀ rules, g.rules.Perm rules →
        (overlappingPairs g.tokenRules).Perm (overlappingPairs (g.withRules rules).tokenRules) :=
  ⟨overlap_comm, fun g config => ⟨overlappingTokens_run g config, nodup_overlapPlaces _,
    fun _ _ => mem_unordered_overlapPlaces, fun _ perm => overlappingPairs_perm (perm.filter _)⟩⟩

/-- A keyword, a rule for identifiers that takes it, and two rules for numbers. -/
def keywordAndNumbers : Grammar where
  file := "L.g4"
  kind := .lexer
  name := "L"
  range := none
  rules := [⟨"IF", true, false, none, none, [⟨[⟨"'if'", none, none, .terminal⟩], none, none⟩]⟩,
    ⟨"ID", true, false, none, none, [⟨[⟨"[a-z]", none, none, .charSet⟩], none, none⟩]⟩,
    ⟨"INT", true, false, none, none, [⟨[⟨"[0-9]", none, none, .charSet⟩], none, none⟩]⟩,
    ⟨"FLOAT", true, false, none, none,
      [⟨[⟨"INT", none, none, .tokenRef⟩, ⟨"'.'", none, none, .terminal⟩], none, none⟩]⟩]

theorem overlappingTokens_unordered_keywordAndNumbers :
    (overlapPlaces keywordAndNumbers.tokenRules).map (fun p => (p.1.val, p.2.val)) = [(0, 1), (2, 3)] ∧
    keywordAndNumbers.rules.Perm keywordAndNumbers.rules.reverse ∧
    (overlappingPairs keywordAndNumbers.tokenRules).Perm
      (overlappingPairs (keywordAndNumbers.withRules keywordAndNumbers.rules.reverse).tokenRules) := by
  have perm : keywordAndNumbers.rules.Perm keywordAndNumbers.rules.reverse := (reverse_perm _).symm
  exact ⟨by decide +kernel, perm, (overlappingTokens_unordered.2 keywordAndNumbers {}).2.2.2 _ perm⟩

end GrammarLint.Check
