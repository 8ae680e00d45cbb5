import GrammarLint.Proofs.TokenOverlap

open List

namespace GrammarLint.Check

/-- Both alternatives have a first element, and these have the same text. -/
def ShareStart (a b : Alternative) : Prop :=
  ∃ e f, a.elements.head? = some e ∧ b.elements.head? = some f ∧ e.text = f.text

def commonStart : Slowness :=
  ⟨"Factor out common prefix or reorder alternatives", "alternatives with common prefix require backtracking"⟩

def sameToken (i j : Nat) (token : String) : (Nat × Nat) × String :=
  ((i, j), s!"alternatives {i + 1} and {j + 1} start with same token '{token}'")

section Alternatives

variable {a b : Alternative} {alternatives later : List Alternative}

theorem startAlike_iff : startAlike a b = true ↔ ShareStart a b := by
  unfold startAlike ShareStart Alternative.firstText?
  cases a.elements.head? <;> cases b.elements.head? <;> simp

theorem conflictWithLater_cons : conflictWithLater a (b :: later) = some commonStart ↔
    ShareStart a b ∨ optionalConflict a b = false ∧ conflictWithLater a later = some commonStart := by
  rw [conflictWithLater, ← startAlike_iff]
  split
  · simp [*, commonStart]
  · split <;> simp [*, commonStart]

/-- The later alternatives are looked through up to the first that conflicts in either way. -/
theorem conflictWithLater_eq_commonStart :
    conflictWithLater a later = some commonStart ↔ ∃ between b, between ++ [b] <+: later ∧
      ShareStart a b ∧ ∀ c ∈ between, optionalConflict a c = false := by
  induction later with
  | nil => simp [conflictWithLater]
  | cons b later ih =>
    rw [conflictWithLater_cons, ih]
    constructor
    · rintro (alike | ⟨apart, between, c, front, alike, others⟩)
      · exact ⟨[], b, prefix_append [b] later, alike, by simp⟩
      · exact ⟨b :: between, c, cons_prefix_cons.mpr ⟨rfl, front⟩, alike,
          forall_mem_cons.mpr ⟨apart, others⟩⟩
    · rintro ⟨_ | ⟨d, between⟩, c, front, alike, others⟩
      · obtain ⟨rfl, -⟩ := cons_prefix_cons.mp front
        exact .inl alike
      · obtain ⟨rfl, ahead⟩ := cons_prefix_cons.mp front
        obtain ⟨apart, others⟩ := forall_mem_cons.mp others
        exact .inr ⟨apart, between, c, ahead, alike, others⟩

theorem commonStart_mem_conflicts : commonStart ∈ conflicts alternatives ↔
    ∃ a between b, a :: (between ++ [b]) <:+: alternatives ∧ ShareStart a b ∧
      ∀ c ∈ between, optionalConflict a c = false := by
  induction alternatives with
  | nil => simp [conflicts]
  | cons a later ih =>
    rw [conflicts, mem_append, Option.mem_toList, conflictWithLater_eq_commonStart, ih]
    simp only [infix_cons_iff, cons_prefix_cons]
    constructor
    · rintro (⟨between, b, front, shown⟩ | ⟨c, between, b, inside, shown⟩)
      · exact ⟨a, between, b, .inl ⟨rfl, front⟩, shown⟩
      · exact ⟨c, between, b, .inr inside, shown⟩
    · rintro ⟨c, between, b, ⟨rfl, front⟩ | inside, shown⟩
      · exact .inl ⟨between, b, front, shown⟩
      · exact .inr ⟨c, between, b, inside, shown⟩

end Alternatives

theorem commonStart_mem_backtrackings {r : Rule} :
    commonStart ∈ backtrackings r ↔ commonStart ∈ conflicts r.alternatives := by
  have repeated (a : Alternative) : commonStart ∉ repetitions r.alternatives a := by
    unfold repetitions
    split <;> split <;> simp [commonStart]
  have deep (a : Alternative) : commonStart ∉ deepOptionals a := by
    unfold deepOptionals
    simp [commonStart]
  simp [backtrackings, repeated, deep]

theorem sameToken_mem_pairAmbiguities {x y : Alternative × Nat} :
    (∃ token, (sameToken x.2 y.2 token).2 ∈ pairAmbiguities x y) ↔ ShareStart x.1 y.1 := by
  unfold pairAmbiguities ShareStart sameToken Alternative.firstText?
  cases x.1.elements.head? with
  | none => simp
  | some e =>
    cases y.1.elements.head? with
    | none => simp
    | some f =>
      have differ (token : String) : " start with same token '" ++ (token ++ "'") ≠
          " have optional elements that may cause ambiguity" := fun same => by
        simpa using congrArg String.toList same
      simp [String.append_assoc, toString, differ]

theorem sameToken_mem_ambiguities {r : Rule} : (∃ i j token, sameToken i j token ∈ ambiguities r) ↔
    ∃ a b, [a, b] <+ r.alternatives ∧ ShareStart a b := by
  have places : pairs r.alternatives = (pairs r.alternatives.zipIdx).map (Prod.map Prod.fst Prod.fst) := by
    rw [← pairs_map, zipIdx_map_fst]
  simp only [← mem_pairs, places, mem_map, ambiguities, alternativePairs, mem_flatMap]
  constructor
  · rintro ⟨i, j, token, ⟨x, y⟩, mem, _, inPair, same⟩
    cases same
    exact ⟨x.1, y.1, ⟨(x, y), mem, rfl⟩, sameToken_mem_pairAmbiguities.mp ⟨token, inPair⟩⟩
  · rintro ⟨a, b, ⟨⟨x, y⟩, mem, same⟩, alike⟩
    cases same
    obtain ⟨token, inPair⟩ := sameToken_mem_pairAmbiguities.mpr alike
    exact ⟨x.2, y.2, token, (x, y), mem, _, inPair, rfl⟩

/-- The check for ambiguity calls two alternatives alike wherever two of them start with the same text. The
one for backtracking finds this only where no alternative between the two meets the first one in an optional
group: it goes on to the next alternative as soon as it has found either. -/
theorem commonStart_reported_iff (r : Rule) :
    ((∃ i j token, sameToken i j token ∈ ambiguities r) ↔
      ∃ a b, [a, b] <+ r.alternatives ∧ ShareStart a b) ∧
    (commonStart ∈ backtrackings r ↔ ∃ a between b, a :: (between ++ [b]) <:+: r.alternatives ∧
      ShareStart a b ∧ ∀ c ∈ between, optionalConflict a c = false) :=
  ⟨sameToken_mem_ambiguities, commonStart_mem_backtrackings.trans commonStart_mem_conflicts⟩

/-- An optional group, what is in it, and the group again. -/
def groupTwice : Rule :=
  let start (text : String) : Alternative := ⟨[⟨text, none, none, .unknown⟩], none, none⟩
  ⟨"r", false, false, none, none, [start "(a)?", start "a", start "(a)?"]⟩

/-- The first and the last alternative are the same, but the one between them hides this. -/
theorem commonStart_hidden : sameToken 0 2 "(a)?" ∈ ambiguities groupTwice ∧
    commonStart ∉ backtrackings groupTwice := by
  decide +kernel

end GrammarLint.Check
