import GrammarLint.Proofs.CheckRuns

open List

namespace GrammarLint

open Json (Value)
open Text (Loose)

namespace Check

section Earlier

variable {α β : Type}

theorem withEarlier_append (before items more : List α) :
    withEarlier before (items ++ more) = withEarlier before items ++ withEarlier (before ++ items) more := by
  induction items generalizing before with
  | nil => rw [append_nil]; rfl
  | cons a items ih => simp [withEarlier, ih]

theorem map_snd_withEarlier (before items : List α) : (withEarlier before items).map (·.2) = items := by
  induction items generalizing before with
  | nil => rfl
  | cons a items ih => simp [withEarlier, ih]

/-- An item with those before it is a cut of the list. -/
theorem mem_withEarlier {before earlier items : List α} {a : α} :
    (earlier, a) ∈ withEarlier before items ↔
      ∃ front back, items = front ++ a :: back ∧ earlier = before ++ front := by
  constructor
  · intro mem
    induction items generalizing before with
    | nil => cases mem
    | cons first items ih =>
      rcases mem_cons.mp mem with here | later
      · cases here
        exact ⟨[], items, rfl, by simp⟩
      · obtain ⟨front, back, rfl, rfl⟩ := ih later
        exact ⟨first :: front, back, rfl, by simp⟩
  · rintro ⟨front, back, rfl, rfl⟩
    rw [withEarlier_append, withEarlier]
    simp

def changeAt (change : List α × α → β) (items : List α) : List β := (withEarlier [] items).map change

theorem changeAt_append (change : List α × α → β) (items : List α) (a : α) :
    changeAt change (items ++ [a]) = changeAt change items ++ [change (items, a)] := by
  simp [changeAt, withEarlier_append, withEarlier]

/-- Before a changed item stand the changed items. -/
theorem withEarlier_changeAt (change : List α × α → β) (items : List α) :
    withEarlier [] (changeAt change items) =
      (withEarlier [] items).map fun place => (changeAt change place.1, change place) := by
  induction items using reverseRecOn with
  | nil => rfl
  | append_singleton items a ih =>
    rw [changeAt_append, withEarlier_append, withEarlier_append, ih, map_append]
    rfl

end Earlier

end Check

namespace Rule

variable {r : Rule} {keep : Rule → Bool}

theorem same_iff {s : Rule} : r.same s = true ↔ r.key = s.key := beq_iff_eq

/-- The first rules of each key, among those with a property that depends on the key alone. -/
theorem distinct_filter (byKey : ∀ r s : Rule, r.key = s.key → keep r = keep s)
    (before rules : List Rule) :
    ((Check.withEarlier before rules).filter fun place => keep place.2 && !place.1.any (·.same place.2)).map (·.2) =
      (distinct (rules.filter keep)).filter fun r => !before.any (·.same r) := by
  induction rules generalizing before with
  | nil => rfl
  | cons first rules ih =>
    have later : ((Check.withEarlier (before ++ [first]) rules).filter fun place =>
        keep place.2 && !place.1.any (·.same place.2)).map (·.2) =
        ((distinct (rules.filter keep)).filter fun r => !first.same r).filter fun r => !before.any (·.same r) := by
      rw [ih]
      simp
    rw [Check.withEarlier, filter_cons, filter_cons]
    cases kept : keep first with
    | true =>
      simp only [Bool.true_and, if_true, distinct, filter_cons]
      split <;> simp [later]
    | false =>
      -- no rule of the same key is kept either
      have apart : (distinct (rules.filter keep)).filter (fun r => !first.same r) = distinct (rules.filter keep) := by
        refine filter_eq_self.mpr fun r mem => ?_
        have keeps := (mem_filter.mp (mem_of_mem_distinct mem)).2
        rw [Bool.not_eq_true', Bool.eq_false_iff, ne_eq, same_iff]
        intro sameKey
        rw [byKey first r sameKey, keeps] at kept
        cases kept
      simp [later, apart]

/-- Among the rules with such a property, those come out of which no other of the same key stands before
them. -/
theorem mem_distinct_filter (byKey : ∀ r s : Rule, r.key = s.key → keep r = keep s)
    {rules : List Rule} :
    r ∈ distinct (rules.filter keep) ↔ keep r = true ∧ rules.find? (·.same r) = some r := by
  have first := distinct_filter byKey [] rules
  simp only [any_nil, Bool.not_false, filter_true] at first
  rw [← first, find?_eq_some_iff_append]
  simp only [mem_map, mem_filter, Bool.and_eq_true]
  constructor
  · rintro ⟨⟨earlier, _⟩, ⟨mem, kept, alone⟩, rfl⟩
    obtain ⟨_, back, rfl, rfl⟩ := Check.mem_withEarlier.mp mem
    refine ⟨kept, same_iff.mpr rfl, earlier, back, rfl, ?_⟩
    simpa using alone
  · rintro ⟨kept, -, front, back, rfl, alone⟩
    refine ⟨(front, r), ⟨Check.mem_withEarlier.mpr ⟨front, back, rfl, rfl⟩, kept, ?_⟩, rfl⟩
    simpa using alone

def references (r : Rule) : List String := (r.elements.filter Check.refersToRule).map (·.text)

end Rule

theorem filterM_eq_filter {ε α : Type} {items : List α} {f : α → Except ε Bool} {keep : α → Bool}
    (each : ∀ a, f a = .ok (keep a)) : items.filterM f = .ok (items.filter keep) := by
  have general (kept : List α) : items.filterAuxM f kept = .ok ((items.filter keep).reverse ++ kept) := by
    induction items generalizing kept with
    | nil => rfl
    | cons a items ih =>
      rw [filterAuxM, each, ok_bind, ih, filter_cons]
      cases keep a <;> simp
  rw [filterM, general, append_nil, ok_bind, reverse_reverse]
  rfl

namespace Check

section Looks

variable {rules others : List Rule} {r s : Rule}

theorem referencedNames_eq_flatMap (rules : List Rule) : referencedNames rules = rules.flatMap Rule.references := by
  rw [referencedNames, filter_flatMap, map_flatMap]
  rfl

/-- Whether a rule looks like a main rule depends on its key, the keys of all rules and the references in
them. -/
theorem looksLikeEntry_congr (keys : rules.map Rule.key = others.map Rule.key)
    (references : rules.flatMap Rule.references = others.flatMap Rule.references) (same : r.key = s.key) :
    looksLikeEntry rules r = looksLikeEntry others s := by
  have index (rules : List Rule) (r : Rule) :
      rules.findIdx (·.same r) = (rules.map Rule.key).findIdx (· == r.key) := by
    rw [findIdx_map]
    rfl
  have first (rules : List Rule) (r : Rule) :
      rules.head?.any (r.same ·) = (rules.map Rule.key).head?.any (r.key == ·) := by
    rw [head?_map, Option.any_map]
    rfl
  have name : r.name = s.name := congrArg Prod.fst same
  simp [looksLikeEntry, referencedNames_eq_flatMap, references, index, first, keys, same, name, lowerName]

end Looks

def entryMessage (name : String) : String := s!"Potential main parser rule '{name}' should end with EOF token"

/-- The report of a rule that should end with the end of file. -/
def entryIssue (g : Grammar) (config : RuleConfig) (r : Rule) : Issue :=
  let content := if r.alternatives.isEmpty then "/* rule content */ EOF" else "/* existing content */ EOF"
  .of "S001" g config r.range (entryMessage r.name) "Add EOF token to rule if this is a main entry point"
    s!"{r.name}: {content};"

theorem endOfFile_run {g : Grammar} {config : RuleConfig} {mainRules : Value} {entries : List Rule}
    (threshold : config.threshold "mainRules" (.arr []) = .ok mainRules)
    (found : entryRules g.parserRules mainRules = .ok entries) :
    endOfFile.run g config = .ok (((if !config.enabled.truthy || g.kind == .lexer then [] else entries).filter
      (!endsInEndOfFile ·)).map (entryIssue g config)) := by
  have empty (noRules : g.parserRules.isEmpty = true) : entries = [] := by
    refine eq_nil_iff_forall_not_mem.mpr fun r mem => ?_
    rw [isEmpty_iff.mp noRules] at found
    cases mem_of_mem_entryRules found mem
  simp only [endOfFile]
  split
  · rename_i idle
    rcases Bool.or_eq_true_iff.mp idle with off | noRules
    · rw [if_pos off]
      rfl
    · rw [empty noRules, ite_self]
      rfl
  · rename_i busy
    rw [Bool.or_eq_true, not_or] at busy
    rw [threshold, ok_bind, found, if_neg busy.1]
    rfl

end Check

end GrammarLint
