import GrammarLint.Phrase.Prediction
import GrammarLint.Proofs.FirstSets

namespace GrammarLint.Phrase

open Lexical (Kind)

section Le

variable {cat : Category} {rest : List Form}

theorem firstOf_empty_le : (firstOf cat rest).Le (firstOf cat (.empty :: rest)) := .refl _

variable {f g : Form}

theorem firstOf_seq_le : (firstOf cat (f :: g :: rest)).Le (firstOf cat (.seq f g :: rest)) :=
  First.andThen_assoc_le _ _ _

theorem firstOf_left_le : (firstOf cat (f :: rest)).Le (firstOf cat (.alt f g :: rest)) :=
  (First.le_orElse_left _ _).andThen_left _

theorem firstOf_right_le : (firstOf cat (g :: rest)).Le (firstOf cat (.alt f g :: rest)) :=
  (First.le_orElse_right _ _).andThen_left _

theorem firstOf_alternative_le {alternatives : Form} (mem : f ∈ alternatives.alternatives) :
    (firstOf cat (f :: rest)).Le (firstOf cat (alternatives :: rest)) := by
  induction alternatives with
  | alt g h first second =>
    rcases List.mem_append.mp mem with left | right
    · exact (first left).trans firstOf_left_le
    · exact (second right).trans firstOf_right_le
  | _ =>
    cases List.mem_singleton.mp mem
    exact .refl _

/-- A form that may be left out, as optional forms and loops may. -/
theorem firstOf_absent_le {known : First} (first : f.first cat = known.orElse .passed) :
    (firstOf cat rest).Le (firstOf cat (f :: rest)) :=
  (first ▸ First.le_orElse_right known .passed).andThen_left (firstOf cat rest)

variable {index back : Nat} {lookahead : Lookahead}

theorem firstOf_present_le :
    (firstOf cat (f :: rest)).Le (firstOf cat (.optional index lookahead f :: rest)) :=
  (First.le_orElse_left _ _).andThen_left _

theorem firstOf_plus_le :
    (firstOf cat (f :: .rounds back .one true f :: rest)).Le
      (firstOf cat (.plus index back f :: rest)) :=
  First.andThen_again_le _ _

theorem firstOf_round_le {greedy : Bool} :
    (firstOf cat (f :: .rounds back lookahead greedy f :: rest)).Le
      (firstOf cat (.rounds back lookahead greedy f :: rest)) :=
  (First.andThen_again_le _ _).trans ((First.le_orElse_left _ _).andThen_left _)

end Le

/-- The line of prediction that reads a first token under some calls. -/
def Read.line (read : Read) (alternative : Nat) (outside : Bool) (calls : List Point) : Line :=
  ⟨.before read.point read.kinds, alternative, read.calls ++ calls, outside⟩

variable {alternative : Nat} {outside : Bool} {cat : Category} {calls : List Point} {scheme : Scheme}
  {word : List Kind} {line : Line}

theorem mem_linesFrom {first : First} :
    line ∈ linesFrom scheme alternative outside cat first calls ↔
      (∃ read ∈ first.reads, line = read.line alternative outside calls) ∨
        first.passable = true ∧
          line ∈ linesFrom.leave scheme alternative outside cat calls := by
  unfold linesFrom
  split
  · rename_i passable
    simp [passable, Read.line, eq_comm]
  · rename_i closed
    simp [closed, Read.line, eq_comm]

theorem First.Le.lines {a b : First} (le : a.Le b) :
    linesFrom scheme alternative outside cat a calls ⊆
      linesFrom scheme alternative outside cat b calls := by
  intro line mem
  rw [mem_linesFrom] at mem ⊢
  rcases mem with ⟨read, inReads, same⟩ | ⟨passable, left⟩
  · exact .inl ⟨read, le.reads inReads, same⟩
  · exact .inr ⟨le.passable passable, left⟩

/-- Behind the end of a phrase the caller goes on. -/
theorem leave_cons (scheme : Scheme) (alternative : Nat) (outside : Bool) (cat : Category)
    (point : Point) (calls : List Point) :
    linesFrom.leave scheme alternative outside cat (point :: calls) =
      linesFrom scheme alternative outside point.category
        (firstOf point.category point.following) calls := by
  rw [← point.after_eq]
  rfl

theorem linesFrom_nil (scheme : Scheme) (alternative : Nat) (outside : Bool) (cat : Category)
    (calls : List Point) :
    linesFrom scheme alternative outside cat (firstOf cat []) calls =
      linesFrom.leave scheme alternative outside cat calls := rfl

/-- The lines that begin with a call are those of the phrase that is called. -/
theorem linesFrom_call (scheme : Scheme) (alternative : Nat) (outside : Bool) {callee : Category}
    {index : Nat} {rest : List Form} (calls : List Point)
    (located : Located cat (.call index callee :: rest)) (line : Line) :
    line ∈ linesFrom scheme alternative outside cat
        (firstOf cat (.call index callee :: rest)) calls ↔
      line ∈ linesFrom scheme alternative outside callee (firstOf callee [callee.form])
        (⟨cat, index⟩ :: calls) := by
  rw [firstOf_form, mem_linesFrom, mem_linesFrom, leave_cons, located.following_call, mem_linesFrom]
  have same : (firstOf cat (.call index callee :: rest)) =
      (callee.first.through ⟨cat, index⟩).andThen (firstOf cat rest) := rfl
  simp only [same, First.mem_reads_andThen, First.mem_reads_through, First.passable_andThen,
    First.passable_through, Bool.and_eq_true]
  constructor
  · rintro (⟨read, ⟨inner, inCallee, rfl⟩ | ⟨passable, later⟩, rfl⟩ | ⟨passable, left⟩)
    · exact .inl ⟨inner, inCallee, by simp [Read.line]⟩
    · exact .inr ⟨passable, .inl ⟨read, later, rfl⟩⟩
    · exact .inr ⟨passable.1, .inr ⟨passable.2, left⟩⟩
  · rintro (⟨inner, inCallee, rfl⟩ | ⟨passable, ⟨read, later, rfl⟩ | ⟨through, left⟩⟩)
    · exact .inl ⟨_, .inl ⟨inner, inCallee, rfl⟩, by simp [Read.line]⟩
    · exact .inl ⟨read, .inr ⟨passable, later⟩, rfl⟩
    · exact .inr ⟨⟨passable, through⟩, left⟩

/-- The words that a line can go on with when phrases return to their actual callers. -/
def Line.Accepts (line : Line) (word : List Kind) : Prop :=
  match line.stand with
  | .before point kinds => ∃ kind later, word = kind :: later ∧ kind ∈ kinds ∧
      Phrase.Accepts point.category point.following line.calls later
  | .finished => word = []

theorem Read.line_accepts {read : Read} :
    (read.line alternative outside calls).Accepts word ↔
      ∃ kind later, word = kind :: later ∧ kind ∈ read.kinds ∧
        Phrase.Accepts read.point.category read.point.following (read.calls ++ calls) later :=
  .rfl

/-- No word is made up: what a line goes on with, the forms and calls it came from accept. -/
theorem accepts_of_mem_linesFrom {forms : List Form} (located : Located cat forms)
    (mem : line ∈ linesFrom .actualCallers alternative outside cat (firstOf cat forms) calls)
    (goesOn : line.Accepts word) : Accepts cat forms calls word := by
  induction calls generalizing cat forms with
  | nil =>
    rcases mem_linesFrom.mp mem with ⟨read, inReads, rfl⟩ | ⟨passable, left⟩
    · obtain ⟨kind, later, rfl, inKinds, accepts⟩ := Read.line_accepts.mp goesOn
      exact firstOf_read located inReads inKinds accepts
    · cases List.mem_singleton.mp left
      cases (show word = [] from goesOn)
      exact firstOf_pass located passable .finished
  | cons point calls ih =>
    rcases mem_linesFrom.mp mem with ⟨read, inReads, rfl⟩ | ⟨passable, left⟩
    · obtain ⟨kind, later, rfl, inKinds, accepts⟩ := Read.line_accepts.mp goesOn
      exact firstOf_read located inReads inKinds accepts
    · rw [leave_cons] at left
      exact firstOf_pass located passable (.back (ih point.following_located left))

end GrammarLint.Phrase
