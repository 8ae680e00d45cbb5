import Mathlib.Data.List.Basic

open List

namespace GrammarLint

/-- What succeeds has succeeded in both steps. -/
theorem bind_ok {ε α β : Type} {x : Except ε α} {f : α → Except ε β} {b : β}
    (bound : x >>= f = .ok b) : ∃ a, x = .ok a ∧ f a = .ok b := by
  cases x with
  | error fault => cases bound
  | ok a => exact ⟨a, rfl, bound⟩

theorem ok_bind {ε α β : Type} (a : α) (f : α → Except ε β) : Except.ok a >>= f = f a := rfl

theorem mapError_eq_ok {ε ε' α : Type} {f : ε → ε'} {x : Except ε α} {a : α} :
    x.mapError f = .ok a ↔ x = .ok a := by
  cases x <;> simp [Except.mapError]

section Lists

variable {ε α β : Type} {items : List α}

theorem filterM_ok {f : α → Except ε Bool} (each : ∀ a ∈ items, ∃ b, f a = .ok b) :
    ∃ found, items.filterM f = .ok found := by
  suffices general : ∀ kept, ∃ found, items.filterAuxM f kept = .ok found by
    obtain ⟨found, ran⟩ := general []
    exact ⟨found.reverse, by rw [filterM, ran]; rfl⟩
  induction items with
  | nil => exact fun kept => ⟨kept, rfl⟩
  | cons a items ih =>
    intro kept
    obtain ⟨keep, one⟩ := each a mem_cons_self
    rw [filterAuxM, one]
    exact ih (fun a' inItems => each a' (mem_cons_of_mem _ inItems)) _

theorem mem_of_filterM {f : α → Except ε Bool} {found : List α}
    (ran : items.filterM f = .ok found) {a : α} (mem : a ∈ found) : a ∈ items := by
  suffices general : ∀ kept found, items.filterAuxM f kept = .ok found → a ∈ found →
      a ∈ kept ∨ a ∈ items by
    obtain ⟨reversed, each, same⟩ := bind_ok ran
    cases same
    simpa using general [] reversed each (mem_reverse.mp mem)
  clear ran mem
  induction items with
  | nil =>
    intro kept found ran mem
    cases ran
    exact .inl mem
  | cons b items ih =>
    intro kept found ran mem
    obtain ⟨keep, -, later⟩ := bind_ok ran
    rcases ih _ _ later mem with before | behind
    · cases keep
      · exact .inl before
      · rcases mem_cons.mp before with rfl | inKept
        · exact .inr mem_cons_self
        · exact .inl inKept
    · exact .inr (mem_cons_of_mem _ behind)

theorem mapM_ok_forall {f : α → Except ε β} {Q : β → Prop} (each : ∀ a ∈ items, ∃ b, f a = .ok b ∧ Q b) :
    ∃ found, items.mapM f = .ok found ∧ ∀ b ∈ found, Q b := by
  induction items with
  | nil => exact ⟨[], rfl, by simp⟩
  | cons a items ih =>
    obtain ⟨first, one, here⟩ := each a mem_cons_self
    obtain ⟨found, ran, later⟩ := ih fun a' inItems => each a' (mem_cons_of_mem _ inItems)
    rw [mapM_cons, one, ran]
    exact ⟨_, rfl, forall_mem_cons.mpr ⟨here, later⟩⟩

theorem mapM_ok {f : α → Except ε β} (each : ∀ a ∈ items, ∃ b, f a = .ok b) :
    ∃ found, items.mapM f = .ok found := by
  obtain ⟨found, ran, -⟩ := mapM_ok_forall (Q := fun _ => True) fun a mem => by simpa using each a mem
  exact ⟨found, ran⟩

theorem mapM_eq_ok {f : α → Except ε β} {h : α → β} (each : ∀ a ∈ items, f a = .ok (h a)) :
    items.mapM f = .ok (items.map h) := by
  induction items with
  | nil => rfl
  | cons a items ih =>
    obtain ⟨one, later⟩ := forall_mem_cons.mp each
    rw [mapM_cons, one, ih later]
    rfl

/-- No fault, and a result for each item. -/
theorem of_mapM_eq_ok [Inhabited β] {f : α → Except ε β} {found : List β}
    (ran : items.mapM f = .ok found) :
    ∃ h : α → β, found = items.map h ∧ ∀ a ∈ items, f a = .ok (h a) := by
  have each : ∀ a ∈ items, f a = .ok ((f a).toOption.getD default) := by
    induction items generalizing found with
    | nil => simp
    | cons a items ih =>
      rw [mapM_cons] at ran
      obtain ⟨first, one, rest⟩ := bind_ok ran
      obtain ⟨others, later, -⟩ := bind_ok rest
      refine forall_mem_cons.mpr ⟨?_, ih later⟩
      rw [one]
      rfl
  exact ⟨_, Except.ok.inj (ran.symm.trans (mapM_eq_ok each)), each⟩

theorem filterMapM_eq_map {f : α → Except ε (Option β)} :
    items.filterMapM f = (items.mapM f).map (filterMap id) := by
  induction items with
  | nil => rfl
  | cons a items ih =>
    rw [filterMapM_cons, mapM_cons, ih]
    rcases f a with fault | (- | b)
    · rfl
    · cases items.mapM f <;> rfl
    · cases items.mapM f <;> rfl

section Kept

variable {f : α → Except ε (Option β)} {found : List β}

theorem filterMapM_eq_ok {h : α → Option β} (each : ∀ a ∈ items, f a = .ok (h a)) :
    items.filterMapM f = .ok (items.filterMap h) := by
  rw [filterMapM_eq_map, mapM_eq_ok each, Except.map, filterMap_map, Function.id_comp]

theorem of_filterMapM_eq_ok (ran : items.filterMapM f = .ok found) :
    ∃ h : α → Option β, found = items.filterMap h ∧ ∀ a ∈ items, f a = .ok (h a) := by
  rw [filterMapM_eq_map] at ran
  cases mapped : items.mapM f with
  | error fault => simp [mapped, Except.map] at ran
  | ok results =>
    obtain ⟨h, rfl, each⟩ := of_mapM_eq_ok mapped
    exact ⟨h, Except.ok.inj (ran.symm.trans (filterMapM_eq_map.symm.trans (filterMapM_eq_ok each))), each⟩

/-- What is kept comes from an item. -/
theorem mem_of_filterMapM (ran : items.filterMapM f = .ok found) {b : β} (mem : b ∈ found) :
    ∃ a ∈ items, f a = .ok (some b) := by
  obtain ⟨h, rfl, each⟩ := of_filterMapM_eq_ok ran
  obtain ⟨a, inItems, kept⟩ := mem_filterMap.mp mem
  exact ⟨a, inItems, kept ▸ each a inItems⟩

theorem filterMapM_ok (each : ∀ a ∈ items, ∃ b, f a = .ok b) : ∃ found, items.filterMapM f = .ok found := by
  obtain ⟨results, ran⟩ := mapM_ok each
  rw [filterMapM_eq_map, ran]
  exact ⟨_, rfl⟩

theorem each_of_filterMapM (ran : items.filterMapM f = .ok found) : ∀ a ∈ items, ∃ b, f a = .ok b := by
  obtain ⟨h, -, each⟩ := of_filterMapM_eq_ok ran
  exact fun a inItems => ⟨h a, each a inItems⟩

end Kept

theorem filterMapM_map_eq_ok {γ : Type} {f : β → Except ε (Option γ)} {g : α → β} {h : α → γ}
    (each : ∀ a ∈ items, f (g a) = .ok (some (h a))) :
    (items.map g).filterMapM f = .ok (items.map h) := by
  rw [filterMapM_eq_map, mapM_map, Function.comp_def, mapM_eq_ok each]
  exact congrArg Except.ok (by simp)

end Lists

end GrammarLint
