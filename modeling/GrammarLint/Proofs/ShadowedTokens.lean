import GrammarLint.Proofs.EntryRules

open List

namespace GrammarLint.Check

section Keywords

variable {earlier r : Rule}

/-- All that a rule is for are words: each of its alternatives has elements, and all are words. -/
def IsKeyword (r : Rule) : Prop :=
  r.alternatives ≠ [] ∧ ∀ a ∈ r.alternatives, a.elements ≠ [] ∧ ∀ e ∈ a.elements, isWord e = true

instance : DecidablePred IsKeyword := fun r =>
  inferInstanceAs (Decidable (r.alternatives ≠ [] ∧
    ∀ a ∈ r.alternatives, a.elements ≠ [] ∧ ∀ e ∈ a.elements, isWord e = true))

/-- Some alternative has a word among its elements, and none before it is empty. -/
def HasWord (r : Rule) : Prop :=
  ∃ front a back, r.alternatives = front ++ a :: back ∧ (∀ b ∈ front, b.elements ≠ []) ∧
    ∃ e ∈ a.elements, isWord e = true

theorem isSpecificKeyword_iff : isSpecificKeyword r = true ↔ HasWord r := by
  simp only [isSpecificKeyword, HasWord, any_eq_true]
  constructor
  · rintro ⟨a, kept, word⟩
    obtain ⟨front, later, cut⟩ := append_of_mem kept
    have whole := takeWhile_append_dropWhile (p := fun a : Alternative => !a.elements.isEmpty) (l := r.alternatives)
    rw [cut, append_assoc] at whole
    refine ⟨front, a, _, whole.symm, fun b before => ?_, word⟩
    have filled := mem_takeWhile_imp (cut ▸ mem_append_left _ before)
    simpa using filled
  · rintro ⟨front, a, back, whole, filled, e, inside, word⟩
    refine ⟨a, ?_, e, inside, word⟩
    rw [whole, takeWhile_append_of_pos fun b before => by simpa using filled b before, takeWhile_cons,
      if_pos (by simpa using ne_nil_of_mem inside)]
    simp

theorem IsKeyword.hasWord (keyword : IsKeyword r) : HasWord r := by
  obtain ⟨some_, words⟩ := keyword
  obtain ⟨first, rest, alternatives⟩ := exists_cons_of_ne_nil some_
  obtain ⟨filled, word⟩ := words first (alternatives ▸ mem_cons_self)
  obtain ⟨e, elements, inside⟩ := exists_cons_of_ne_nil filled
  exact ⟨[], first, rest, alternatives, nofun, e, inside ▸ mem_cons_self, word e (inside ▸ mem_cons_self)⟩

/-- What makes an earlier rule shadow a later one. -/
theorem shadows_iff : shadows earlier r = true ↔ samePatterns earlier r = true ∨ takesAnything earlier = true ∨
    isIdentifierLike earlier = true ∧ HasWord r := by
  rw [shadows, Bool.or_eq_true, Bool.or_eq_true, Bool.and_eq_true, isSpecificKeyword_iff, or_assoc]

end Keywords

section Reports

variable {g : Grammar} {config : RuleConfig} {rules shadowing : List Rule} {r : Rule} {e : Rule}

def withShadowing (place : List Rule × Rule) : List Rule × Rule := (place.1.filter (shadows · place.2), place.2)

/-- The rules that are shadowed. -/
def shadowReports (rules : List Rule) : List (List Rule × Rule) :=
  ((withEarlier [] rules).map withShadowing).filter (!·.1.isEmpty)

/-- The issue on a shadowed rule. -/
def shadowIssue (g : Grammar) (config : RuleConfig) (report : List Rule × Rule) : Issue :=
  let names := report.1.map (·.name)
  .of "T002" g config report.2.range
    s!"Token '{report.2.name}' may be unreachable (shadowed by: {Text.commaList names})"
    "Reorder tokens or make patterns more specific"
    s!"Move '{report.2.name}' before shadowing rules or use more specific pattern"

theorem filterMap_eq_map_filter {α β : Type} (p : α → Bool) (f : α → β) (items : List α) :
    items.filterMap (fun a => if p a then none else some (f a)) = (items.filter (!p ·)).map f := by
  induction items with
  | nil => rfl
  | cons a items ih => cases kept : p a <;> simp [kept, ih]

theorem unreachableToken_run (g : Grammar) (config : RuleConfig) :
    unreachableToken.run g config = .ok ((shadowReports g.tokenRules).map (shadowIssue g config)) := by
  have run : unreachableToken.run g config = .ok ((withEarlier [] g.tokenRules).filterMap fun place =>
      if ((withShadowing place).1.map (·.name)).isEmpty then none
      else some (shadowIssue g config (withShadowing place))) := rfl
  simp only [run, isEmpty_map]
  rw [filterMap_eq_map_filter (fun place => (withShadowing place).1.isEmpty), shadowReports, filter_map,
    map_map]
  rfl

theorem mem_shadowReports : (shadowing, r) ∈ shadowReports rules ↔ shadowing ≠ [] ∧
    ∃ front back, rules = front ++ r :: back ∧ shadowing = front.filter (shadows · r) := by
  simp only [shadowReports, withShadowing, mem_filter, mem_map, Prod.mk.injEq, Bool.not_eq_true',
    isEmpty_eq_false_iff]
  rw [and_comm]
  refine and_congr_right fun _ => ⟨?_, ?_⟩
  · rintro ⟨⟨front, _⟩, place, rfl, rfl⟩
    obtain ⟨_, back, whole, rfl⟩ := mem_withEarlier.mp place
    exact ⟨_, back, whole, rfl⟩
  · rintro ⟨front, back, whole, rfl⟩
    exact ⟨(front, r), mem_withEarlier.mpr ⟨front, back, whole, rfl⟩, rfl, rfl⟩

theorem pair_sublist_iff :
    [e, r].Sublist rules ↔ ∃ front back, rules = front ++ r :: back ∧ e ∈ front := by
  rw [cons_sublist_iff]
  simp only [singleton_sublist]
  constructor
  · rintro ⟨front, rest, rfl, before, later⟩
    obtain ⟨middle, back, rfl⟩ := append_of_mem later
    exact ⟨front ++ middle, back, (append_assoc ..).symm, mem_append_left _ before⟩
  · rintro ⟨front, back, rfl, before⟩
    exact ⟨front, r :: back, rfl, before, mem_cons_self⟩

/-- A rule is reported as shadowed by one before it that shadows it. -/
theorem exists_report_iff : (∃ shadowing, (shadowing, r) ∈ shadowReports rules ∧ e ∈ shadowing) ↔
    [e, r].Sublist rules ∧ shadows e r = true := by
  simp only [mem_shadowReports, pair_sublist_iff]
  constructor
  · rintro ⟨_, ⟨-, front, back, whole, rfl⟩, mem⟩
    obtain ⟨before, shadow⟩ := mem_filter.mp mem
    exact ⟨⟨front, back, whole, before⟩, shadow⟩
  · rintro ⟨⟨front, back, whole, before⟩, shadow⟩
    have mem : e ∈ front.filter (shadows · r) := mem_filter.mpr ⟨before, shadow⟩
    exact ⟨_, ⟨ne_nil_of_mem mem, front, back, whole, rfl⟩, mem⟩

end Reports

/-- An earlier rule that has neither the same patterns nor takes anything is said to shadow a rule if it looks like
one for identifiers and the rule has a word somewhere, with no empty alternative before. All keywords have
one, but so do other rules, and these are reported too. -/
theorem unreachableToken_shadowed_iff (g : Grammar) (config : RuleConfig) :
    unreachableToken.run g config = .ok ((shadowReports g.tokenRules).map (shadowIssue g config)) ∧
    (∀ e r, (∃ shadowing, (shadowing, r) ∈ shadowReports g.tokenRules ∧ e ∈ shadowing) ↔
      [e, r].Sublist g.tokenRules ∧
        (samePatterns e r = true ∨ takesAnything e = true ∨ isIdentifierLike e = true ∧ HasWord r)) ∧
    (∀ r, IsKeyword r → HasWord r) ∧
    ((∀ e r, (∃ shadowing, (shadowing, r) ∈ shadowReports g.tokenRules ∧ e ∈ shadowing) →
        samePatterns e r = false → takesAnything e = false → IsKeyword r) ↔
      ∀ e r, [e, r].Sublist g.tokenRules → samePatterns e r = false → takesAnything e = false →
        isIdentifierLike e = true → HasWord r → IsKeyword r) := by
  refine ⟨unreachableToken_run g config, fun e r => ?_, fun _ => IsKeyword.hasWord, ?_⟩
  · rw [exists_report_iff, shadows_iff]
  · refine forall₂_congr fun e r => ?_
    rw [exists_report_iff, shadows_iff]
    constructor
    · intro reported before differ narrow looks word
      exact reported ⟨before, .inr (.inr ⟨looks, word⟩)⟩ differ narrow
    · rintro keyword ⟨before, same | anything | ⟨looks, word⟩⟩ differ narrow
      · exact absurd same (by simp [differ])
      · exact absurd anything (by simp [narrow])
      · exact keyword before differ narrow looks word

/-- A rule for identifiers and one for numbers behind a letter. -/
def prefixedNumber : Grammar where
  file := "L.g4"
  kind := .lexer
  name := "L"
  range := none
  rules := [⟨"ID", true, false, none, none, [⟨[⟨"[a-z]+", none, none, .unknown⟩], none, none⟩]⟩,
    ⟨"HEX", true, false, none, none,
      [⟨[⟨"'x'", none, none, .terminal⟩, ⟨"[0-9]+", none, none, .unknown⟩], none, none⟩]⟩]

/-- The rule for numbers is reported though it is no keyword. -/
theorem prefixed_number_reported : ∃ e r, prefixedNumber.tokenRules = [e, r] ∧ samePatterns e r = false ∧
    takesAnything e = false ∧ ¬ IsKeyword r ∧
    (unreachableToken.run prefixedNumber {}).toOption.map (·.map (·.message)) =
      some ["Token 'HEX' may be unreachable (shadowed by: ID)"] := by
  refine ⟨_, _, rfl, ?_⟩
  decide +kernel

end GrammarLint.Check
