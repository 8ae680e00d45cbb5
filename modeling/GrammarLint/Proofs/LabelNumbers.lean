import GrammarLint.Proofs.SharedLiterals

open List

namespace GrammarLint

def Rule.labelAt (r : Rule) (i : Nat) : Option String := r.alternatives[i]?.bind Alternative.label?

namespace Check

def isRepeated (r : Rule) (label : String) : Bool := decide (1 < (labeledWith label r).length)

def numberedLabel (label : String) (i : Nat) : String := label ++ "_" ++ toString (i + 1)

def repeatedUses (r : Rule) : List (Alternative × Nat) :=
  r.alternatives.zipIdx.filter fun place => place.1.label?.any (isRepeated r)

/-- The report of a repeated label, with the label that it proposes. -/
def repeatIssue (g : Grammar) (config : RuleConfig) (r : Rule) (place : Alternative × Nat) : Issue :=
  let label := place.1.label?.getD ""
  .of "L003" g config (place.1.range.or r.range)
    s!"Duplicate label '{label}' in rule '{r.name}' (alternative {place.2 + 1})"
    "Use unique label" s!"Change to #{numberedLabel label place.2} or another unique name"

/-- The rule with the proposed labels. -/
def numberRepeated (r : Rule) : Rule :=
  { r with alternatives := r.alternatives.zipIdx.map fun place =>
      { place.1 with label := place.1.label.map fun label =>
          if isRepeated r label then numberedLabel label place.2 else label } }

def numberLabels (g : Grammar) : Grammar :=
  g.withRules (g.rules.map fun r => if r.isLexer then r else numberRepeated r)

variable {g : Grammar} {r : Rule} {label other : String} {i j : Nat}

theorem mem_labeledWith {place : Alternative × Nat} : place ∈ labeledWith label r ↔
    r.alternatives[place.2]? = some place.1 ∧ place.1.label? = some label := by
  simp [labeledWith, mem_zipIdx_iff_getElem?]

theorem isRepeated_iff : isRepeated r label = true ↔
    ∃ i j, i ≠ j ∧ r.labelAt i = some label ∧ r.labelAt j = some label := by
  have once : (labeledWith label r).Nodup :=
    (List.Nodup.of_map Prod.snd (nodup_zipIdx_map_snd r.alternatives)).filter _
  rw [isRepeated, decide_eq_true_eq, ← toFinset_card_of_nodup once, Finset.one_lt_card]
  simp only [mem_toFinset, mem_labeledWith, Rule.labelAt, Option.bind_eq_some_iff]
  constructor
  · rintro ⟨⟨a, i⟩, first, ⟨b, j⟩, second, apart⟩
    refine ⟨i, j, ?_, ⟨a, first⟩, ⟨b, second⟩⟩
    rintro rfl
    exact apart (by simp_all)
  · rintro ⟨i, j, apart, ⟨a, first⟩, ⟨b, second⟩⟩
    exact ⟨⟨a, i⟩, first, ⟨b, j⟩, second, fun same => apart (congrArg Prod.snd same)⟩

/-- The number at the end tells at which place a label is proposed. -/
theorem numberedLabel_inj (same : numberedLabel label i = numberedLabel other j) : i = j := by
  have digits (label : String) (i : Nat) :
      ((numberedLabel label i).toList.reverse.takeWhile (· != '_')).reverse = Nat.toDigits 10 (i + 1) := by
    have plain : ∀ c ∈ (Nat.toDigits 10 (i + 1)).reverse, (c != '_') = true := by
      intro c mem
      have digit := Nat.isDigit_of_mem_toDigits (by decide) (by decide) (mem_reverse.mp mem)
      rw [bne_iff_ne]
      rintro rfl
      cases digit
    simp [numberedLabel, takeWhile_append_of_pos plain]
  have sameDigits := (digits label i).symm.trans ((same ▸ rfl : _ = _).trans (digits other j))
  have parsed := congrArg (fun digits => Nat.ofDigitChars 10 digits 0) sameDigits
  simpa using parsed

theorem labelAt_numberRepeated (r : Rule) (i : Nat) : (numberRepeated r).labelAt i =
    (r.labelAt i).map fun label => if isRepeated r label then numberedLabel label i else label := by
  have notEmpty (label : String) (i : Nat) : (numberedLabel label i).isEmpty = false := by
    simp [numberedLabel]
  simp only [Rule.labelAt, numberRepeated, getElem?_map, getElem?_zipIdx, Nat.zero_add]
  cases r.alternatives[i]? with
  | none => rfl
  | some a =>
    simp only [Option.map_some, Option.bind_some, Alternative.label?]
    cases a.label with
    | none => rfl
    | some label =>
      by_cases empty : label.isEmpty = true
      · have unlabeled : isRepeated r label = false := by
          rw [← Bool.not_eq_true, isRepeated_iff]
          simp_all [Rule.labelAt, Option.bind_eq_some_iff, Alternative.label?, Option.filter_eq_some_iff]
        simp [unlabeled, Option.filter, empty]
      · simp only [Option.map_some, Option.filter, empty, Bool.not_false, if_true]
        split <;> simp_all

/-- After the advice a label is repeated just if a proposed one is the label of another alternative. -/
theorem isRepeated_numberRepeated : (∃ label, isRepeated (numberRepeated r) label = true) ↔
    ∃ i j label, r.labelAt i = some label ∧ isRepeated r label = true ∧
      r.labelAt j = some (numberedLabel label i) ∧ isRepeated r (numberedLabel label i) = false := by
  simp only [isRepeated_iff (r := numberRepeated r), labelAt_numberRepeated, Option.map_eq_some_iff]
  constructor
  · rintro ⟨new, i, j, apart, ⟨first, atFirst, isNew⟩, ⟨second, atSecond, alsoNew⟩⟩
    split at isNew <;> split at alsoNew <;> subst isNew
    · -- Two proposed labels differ in their numbers.
      exact absurd (numberedLabel_inj alsoNew).symm apart
    · subst alsoNew
      exact ⟨i, j, first, atFirst, ‹_›, atSecond, Bool.eq_false_iff.mpr ‹_›⟩
    · subst alsoNew
      exact ⟨j, i, second, atSecond, ‹_›, atFirst, Bool.eq_false_iff.mpr ‹_›⟩
    · subst alsoNew
      exact absurd (isRepeated_iff.mpr ⟨i, j, apart, atFirst, atSecond⟩) ‹_›
  · rintro ⟨i, j, label, atFirst, again, atSecond, single⟩
    refine ⟨numberedLabel label i, i, j, ?_, ⟨label, atFirst, if_pos again⟩, ⟨_, atSecond, by simp [single]⟩⟩
    rintro rfl
    rw [← Option.some.inj (atFirst.symm.trans atSecond), again] at single
    cases single

/-- The reports are those of the alternatives with repeated labels. -/
theorem duplicateLabels_run (g : Grammar) (config : RuleConfig) :
    ∃ issues, duplicateLabels.run g config = .ok issues ∧
      issues.Perm (g.parserRules.flatMap fun r => (repeatedUses r).map (repeatIssue g config r)) := by
  refine ⟨_, rfl, .flatMap_left _ fun r _ => ?_⟩
  have known : ∀ place ∈ repeatedUses r, place.1.label? ∈ (labelsOf r).map some := by
    intro place mem
    obtain ⟨inRule, again⟩ := mem_filter.mp mem
    obtain ⟨label, named, -⟩ := (Option.any_eq_true ..).mp again
    rw [named]
    refine mem_map_of_mem (mem_eraseDups.mpr (mem_filterMap.mpr ⟨place.1, ?_, named⟩))
    exact mem_of_getElem? (mem_zipIdx_iff_getElem?.mp inRule)
  have apart : ((labelsOf r).map some).Nodup := (Text.nodup_eraseDups _).map (Option.some_injective String)
  have sorted := flatMap_filter_perm (fun place : Alternative × Nat => place.1.label?) apart known
  rw [flatMap_map] at sorted
  refine .trans (.of_eq ?_) (sorted.map (repeatIssue g config r))
  rw [map_flatMap]
  refine flatMap_congr fun label _ => ?_
  have group : (repeatedUses r).filter (·.1.label? == some label) =
      if isRepeated r label then labeledWith label r else [] := by
    rw [repeatedUses, filter_filter]
    split
    · refine filter_congr fun place _ => ?_
      by_cases here : place.1.label? = some label <;> simp_all
    · refine filter_eq_nil_iff.mpr fun place _ => ?_
      by_cases here : place.1.label? = some label <;> simp_all
  rw [group]
  by_cases few : (labeledWith label r).length ≤ 1
  · simp [isRepeated, few]
  · rw [if_neg few, if_pos (by simpa [isRepeated] using few)]
    have text (s : String) : toString s = s := rfl
    refine map_congr_left fun place mem => ?_
    simp [repeatIssue, (mem_labeledWith.mp mem).2, numberedLabel, text, String.append_assoc]

theorem duplicateLabels_silent (g : Grammar) (config : RuleConfig) :
    duplicateLabels.run g config = .ok [] ↔ ∀ r ∈ g.parserRules, ¬∃ label, isRepeated r label = true := by
  obtain ⟨issues, run, perm⟩ := duplicateLabels_run g config
  have none : issues = [] ↔ g.parserRules.flatMap (fun r => (repeatedUses r).map (repeatIssue g config r)) = [] :=
    ⟨fun nil => (nil ▸ perm).nil_eq.symm, fun nil => (nil ▸ perm).eq_nil⟩
  rw [run, Except.ok.injEq, none, flatMap_eq_nil_iff]
  refine forall₂_congr fun r _ => ?_
  rw [map_eq_nil_iff, repeatedUses, filter_eq_nil_iff]
  constructor
  · rintro silent ⟨label, again⟩
    obtain ⟨i, -, -, here, -⟩ := isRepeated_iff.mp again
    obtain ⟨a, inRule, named⟩ := Option.bind_eq_some_iff.mp here
    exact silent (a, i) (mem_zipIdx_iff_getElem?.mpr inRule) ((Option.any_eq_true ..).mpr ⟨label, named, again⟩)
  · intro silent place _ again
    obtain ⟨label, -, again⟩ := (Option.any_eq_true ..).mp again
    exact silent ⟨label, again⟩

/-- The reports are those of the alternatives with repeated labels. When these have the labels that the reports
propose, nothing is reported just if no proposed label is that of an alternative whose label is not repeated. -/
theorem duplicateLabels_numbered_iff (g : Grammar) (config : RuleConfig) :
    (∃ issues, duplicateLabels.run g config = .ok issues ∧
      issues.Perm (g.parserRules.flatMap fun r => (repeatedUses r).map (repeatIssue g config r))) ∧
    (duplicateLabels.run (numberLabels g) config = .ok [] ↔
      ∀ r ∈ g.parserRules, ¬∃ i j label, r.labelAt i = some label ∧ isRepeated r label = true ∧
        r.labelAt j = some (numberedLabel label i) ∧ isRepeated r (numberedLabel label i) = false) := by
  have rules : (numberLabels g).parserRules = g.parserRules.map numberRepeated := by
    simp only [numberLabels, Grammar.parserRules, Grammar.withRules_rules, filter_map]
    refine (congrArg _ (filter_congr fun r _ => ?_)).trans (map_congr_left fun r member => ?_)
    · dsimp only [Function.comp_apply]
      split <;> rfl
    · rw [if_neg (by simpa using (mem_filter.mp member).2)]
  refine ⟨duplicateLabels_run g config, ?_⟩
  rw [duplicateLabels_silent, rules, forall_mem_map]
  simp [isRepeated_numberRepeated]

/-- Two alternatives with one label, and a third one with the label that is proposed for the first. -/
def takenLabel : Grammar :=
  let labeled (label : String) : Alternative := ⟨[], some label, none⟩
  ⟨"G.g4", .parser, "G", none, [⟨"r", false, false, none, none, [labeled "a", labeled "a", labeled "a_1"]⟩]⟩

/-- A proposed label can be taken. -/
theorem takenLabel_reported :
    (duplicateLabels.run takenLabel {}).toOption.map (·.map fun issue => issue.suggestions.map (·.fix)) =
      some [["Change to #a_1 or another unique name"], ["Change to #a_2 or another unique name"]] ∧
    (duplicateLabels.run (numberLabels takenLabel) {}).toOption.map (·.map (·.message)) =
      some ["Duplicate label 'a_1' in rule 'r' (alternative 1)",
        "Duplicate label 'a_1' in rule 'r' (alternative 3)"] := by
  decide +kernel

end Check

end GrammarLint
