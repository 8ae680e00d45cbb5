import GrammarLint.Proofs.Continuation

open List

namespace GrammarLint.Phrase

open Lexical (Kind)

namespace First

variable {a b : First} {read : Read}

@[simp] theorem mem_reads_andThen :
    read ∈ (a.andThen b).reads ↔ read ∈ a.reads ∨ a.passable = true ∧ read ∈ b.reads := by
  unfold andThen
  split <;> simp_all

@[simp] theorem passable_andThen (a b : First) :
    (a.andThen b).passable = (a.passable && b.passable) := by
  unfold andThen
  split <;> simp_all

@[simp] theorem mem_reads_orElse :
    read ∈ (a.orElse b).reads ↔ read ∈ a.reads ∨ read ∈ b.reads := by
  simp [orElse]

@[simp] theorem passable_orElse (a b : First) :
    (a.orElse b).passable = (a.passable || b.passable) := rfl

@[simp] theorem reads_passed : passed.reads = [] := rfl

@[simp] theorem passable_passed : passed.passable = true := rfl

@[simp] theorem passable_through (point : Point) (first : First) :
    (first.through point).passable = first.passable := rfl

theorem mem_reads_through {point : Point} {first : First} :
    read ∈ (first.through point).reads ↔
      ∃ inner ∈ first.reads, read = { inner with calls := inner.calls ++ [point] } := by
  simp [through, eq_comm]

/-- Whatever the first may begin with, or pass, the second may too. -/
structure Le (a b : First) : Prop where
  reads : a.reads ⊆ b.reads
  passable : a.passable = true → b.passable = true

theorem Le.refl (a : First) : a.Le a := ⟨List.Subset.refl _, id⟩

theorem Le.trans {c : First} (first : a.Le b) (second : b.Le c) : a.Le c :=
  ⟨List.Subset.trans first.reads second.reads, second.passable ∘ first.passable⟩

theorem le_orElse_left (a b : First) : a.Le (a.orElse b) :=
  ⟨subset_append_left _ _, fun passable => by simp [passable]⟩

theorem le_orElse_right (a b : First) : b.Le (a.orElse b) :=
  ⟨subset_append_right _ _, fun passable => by simp [passable]⟩

theorem Le.andThen_left (le : a.Le b) (c : First) : (a.andThen c).Le (b.andThen c) := by
  constructor
  · intro read mem
    rcases mem_reads_andThen.mp mem with here | ⟨passable, later⟩
    · exact mem_reads_andThen.mpr (.inl (le.reads here))
    · exact mem_reads_andThen.mpr (.inr ⟨le.passable passable, later⟩)
  · simp only [passable_andThen, Bool.and_eq_true]
    exact .imp_left le.passable

theorem andThen_assoc_le (a b c : First) : (a.andThen (b.andThen c)).Le ((a.andThen b).andThen c) := by
  constructor
  · intro read
    simp only [mem_reads_andThen, passable_andThen, Bool.and_eq_true]
    tauto
  · simp [Bool.and_assoc]

/-- Nothing new comes first where the same may be repeated. -/
theorem andThen_again_le (a b : First) : (a.andThen ((a.orElse .passed).andThen b)).Le (a.andThen b) := by
  constructor
  · intro read
    simp only [mem_reads_andThen, mem_reads_orElse, reads_passed, not_mem_nil, or_false]
    tauto
  · simp

end First

theorem lookUp_map (f : Category → First) (cat : Category) :
    lookUp (Category.all.map f).toArray cat = f cat := by
  cases cat <;> rfl

theorem lookUp_refineFirsts (table : Array First) (cat : Category) :
    lookUp (refineFirsts table) cat = cat.form.firstWith (lookUp table) cat :=
  lookUp_map _ cat

/-- The table of first tokens misses nothing: one more round changes none of it. -/
theorem Category.first_eq (cat : Category) : cat.form.first cat = cat.first := by
  have checked : ∀ c ∈ Category.all, c.form.firstWith Category.first c = c.first := by
    decide +kernel
  exact checked cat (mem_all cat)

theorem firstOf_form (cat : Category) : firstOf cat [cat.form] = cat.first := by
  have same := cat.first_eq
  unfold firstOf firstOf First.andThen
  rw [same]
  split
  · cases found : cat.first
    simp_all [First.passed]
  · rfl

/-- The row of a category with the entries for some of its places filled in. -/
def afterRow (cat : Category) (row : Array First)
    (places : List (Nat × Option Category × List Form)) : Array First :=
  places.foldl
    (fun row place =>
      let row := row ++ Array.replicate (place.1 + 1 - row.size) First.passed
      row.setIfInBounds place.1 (firstOf cat place.2.2)) row

theorem afterRow_cons (cat : Category) (row : Array First)
    (place : Nat × Option Category × List Form) (places : List (Nat × Option Category × List Form)) :
    afterRow cat row (place :: places) = afterRow cat
      ((row ++ Array.replicate (place.1 + 1 - row.size) First.passed).setIfInBounds place.1
        (firstOf cat place.2.2)) places := rfl

theorem getD_grow (row : Array First) (n i : Nat) :
    (row ++ Array.replicate n First.passed).getD i .passed = row.getD i .passed := by
  simp only [Array.getD_eq_getD_getElem?, Array.getElem?_append, Array.getElem?_replicate]
  split
  · rfl
  · rw [Array.getElem?_eq_none (by omega)]
    split <;> rfl

theorem getD_afterRow (cat : Category) (row : Array First)
    (places : List (Nat × Option Category × List Form)) (nodup : (places.map (·.1)).Nodup) (i : Nat) :
    (afterRow cat row places).getD i .passed =
      ((places.find? (·.1 == i)).map fun place => firstOf cat place.2.2).getD
        (row.getD i .passed) := by
  induction places generalizing row with
  | nil => rfl
  | cons place places ih =>
    rw [map_cons, nodup_cons] at nodup
    rw [afterRow_cons, ih _ nodup.2]
    by_cases here : place.1 = i
    · have absent : places.find? (·.1 == i) = none := by
        rw [find?_eq_none]
        intro other mem same
        exact nodup.1 (mem_map.mpr ⟨other, mem, by simpa [here] using same⟩)
      rw [absent, find?_cons_of_pos (by simpa using here)]
      subst here
      simp only [Option.map_none, Option.getD_none, Option.map_some, Option.getD_some,
        Array.getD_eq_getD_getElem?]
      rw [Array.getElem?_setIfInBounds_self_of_lt (by simp; omega)]
      rfl
    · rw [find?_cons_of_neg (by simpa using here)]
      congr 1
      simp only [Array.getD_eq_getD_getElem?, Array.getElem?_setIfInBounds_ne here]
      simpa only [Array.getD_eq_getD_getElem?] using getD_grow row _ i

/-- The table of what may come behind a place agrees with the forms that follow it. -/
theorem Point.after_eq (point : Point) : point.after = firstOf point.category point.following := by
  have row : afterTable.getD point.category.code #[] =
      afterRow point.category #[] (point.category.form.places []) := by
    cases point with
    | mk cat index => cases cat <;> rfl
  unfold Point.after Point.following
  rw [row, getD_afterRow _ _ _ (places_nodup point.category)]
  cases (point.category.form.places []).find? (·.1 == point.index) <;> rfl

/-- Every first token leads on, and passing leads on, to words of the form with what follows it. -/
structure First.SoundFor (first : First) (cat : Category) (form : Form) (rest : List Form) :
    Prop where
  read : ∀ {calls : List Point} {read : Read} {kind : Kind} {word : List Kind},
    read ∈ first.reads → kind ∈ read.kinds →
    Accepts read.point.category read.point.following (read.calls ++ calls) word →
    Accepts cat (form :: rest) calls (kind :: word)
  pass : ∀ {calls : List Point} {word : List Kind}, first.passable = true →
    Accepts cat rest calls word → Accepts cat (form :: rest) calls word

variable {cat : Category} {rest forms : List Form} {calls : List Point} {word : List Kind}

theorem firstWith_sound {known : Category → First}
    (callees : ∀ callee, (known callee).SoundFor callee callee.form []) (form : Form)
    (located : Located cat (form :: rest)) :
    (form.firstWith known cat).SoundFor cat form rest := by
  induction form generalizing rest with
  | empty => exact ⟨by simp, fun _ later => .empty later⟩
  | token index kind =>
    refine ⟨fun mem inKinds later => ?_, by simp⟩
    simp only [Form.firstWith, mem_singleton] at mem
    subst mem
    cases mem_singleton.mp inKinds
    exact .token (by simpa [located.following_token] using later)
  | oneOf index kinds =>
    refine ⟨fun mem inKinds later => ?_, by simp⟩
    simp only [Form.firstWith, mem_singleton] at mem
    subst mem
    exact .oneOf inKinds (by simpa [located.following_oneOf] using later)
  | call index callee =>
    refine ⟨fun mem inKinds later => ?_, fun passable later => ?_⟩
    · obtain ⟨inner, inCallee, rfl⟩ := First.mem_reads_through.mp mem
      exact .call ((callees callee).read inCallee inKinds (by simpa using later))
    · exact .call ((callees callee).pass passable (.back (by rwa [located.following_call])))
  | seq f g first second =>
    have inFirst := first located.seq
    have inSecond := second located.seq.tail
    refine ⟨fun mem inKinds later => .seq ?_, fun passable later => .seq ?_⟩
    · rcases First.mem_reads_andThen.mp mem with early | ⟨passable, late⟩
      · exact inFirst.read early inKinds later
      · exact inFirst.pass passable (inSecond.read late inKinds later)
    · simp only [Form.firstWith, First.passable_andThen, Bool.and_eq_true] at passable
      exact inFirst.pass passable.1 (inSecond.pass passable.2 later)
  | alt f g first second =>
    have inFirst := first located.left
    have inSecond := second located.right
    refine ⟨fun mem inKinds later => ?_, fun passable later => ?_⟩
    · rcases First.mem_reads_orElse.mp mem with left | right
      · exact .left (inFirst.read left inKinds later)
      · exact .right (inSecond.read right inKinds later)
    · simp only [Form.firstWith, First.passable_orElse, Bool.or_eq_true] at passable
      exact passable.elim (fun left => .left (inFirst.pass left later))
        (fun right => .right (inSecond.pass right later))
  | choice index lookahead f ih =>
    have inside := ih located.choice
    exact ⟨fun mem inKinds later => .choice (inside.read mem inKinds later),
      fun passable later => .choice (inside.pass passable later)⟩
  | optional index lookahead f ih =>
    have inside := ih located.optional
    refine ⟨fun mem inKinds later => .present (inside.read ?_ inKinds later),
      fun _ later => .absent later⟩
    simpa using mem
  | star index back lookahead greedy f ih =>
    have inside := ih located.star.rounds
    refine ⟨fun mem inKinds later => .star (.round (inside.read ?_ inKinds later)),
      fun _ later => .star (.stop later)⟩
    simpa using mem
  | plus index back f ih =>
    have inside := ih located.plus
    exact ⟨fun mem inKinds later => .plus (inside.read mem inKinds later),
      fun passable later => .plus (inside.pass passable (.stop later))⟩
  | rounds back lookahead greedy f ih =>
    have inside := ih located.rounds
    refine ⟨fun mem inKinds later => .round (inside.read ?_ inKinds later),
      fun _ later => .stop later⟩
    simpa using mem

theorem Category.first_sound (cat : Category) :
    cat.first.SoundFor cat cat.form [] := by
  suffices rounds : ∀ (times : List Category) (table : Array First),
      (∀ callee, (lookUp table callee).SoundFor callee callee.form []) →
      ∀ callee, (lookUp (times.foldl (fun table _ => refineFirsts table) table) callee).SoundFor
        callee callee.form [] by
    refine rounds Category.all _ (fun callee => ?_) cat
    rw [lookUp_map]
    exact ⟨by simp, by simp⟩
  intro times
  induction times with
  | nil => exact fun _ sound => sound
  | cons _ times ih =>
    refine fun table sound => ih _ fun callee => ?_
    rw [lookUp_refineFirsts]
    exact firstWith_sound sound _ (located_form callee)

theorem Form.first_sound {form : Form} (located : Located cat (form :: rest)) :
    (form.first cat).SoundFor cat form rest :=
  firstWith_sound Category.first_sound form located

theorem firstOf_read {read : Read} {kind : Kind} (located : Located cat forms)
    (mem : read ∈ (firstOf cat forms).reads) (inKinds : kind ∈ read.kinds)
    (later : Accepts read.point.category read.point.following (read.calls ++ calls) word) :
    Accepts cat forms calls (kind :: word) := by
  induction forms with
  | nil => simp [firstOf] at mem
  | cons form rest ih =>
    rcases First.mem_reads_andThen.mp mem with early | ⟨passable, late⟩
    · exact (Form.first_sound located).read early inKinds later
    · exact (Form.first_sound located).pass passable (ih located.tail late)

theorem firstOf_pass (located : Located cat forms)
    (passable : (firstOf cat forms).passable = true) (later : Accepts cat [] calls word) :
    Accepts cat forms calls word := by
  induction forms with
  | nil => exact later
  | cons form rest ih =>
    simp only [firstOf, First.passable_andThen, Bool.and_eq_true] at passable
    exact (Form.first_sound located).pass passable.1 (ih located.tail passable.2)

end GrammarLint.Phrase
