import GrammarLint.Proofs.Decisions

open List

namespace GrammarLint.Phrase

open Lexical (Kind Token)

namespace Parsed

def behind (before : List Tree) (parsed : Parsed) : Parsed :=
  { parsed with parts := before ++ parsed.parts }

variable {parsed : Parsed}

theorem andThen_of_some {failure : Failure} (failed : parsed.failure = some failure)
    (next : Progress → Parsed) : parsed.andThen next = parsed := by
  simp [andThen, failed]

theorem andThen_of_none (unfailed : parsed.failure = none) (next : Progress → Parsed) :
    parsed.andThen next = (next parsed.progress).behind parsed.parts := by
  simp [andThen, unfailed, behind]

@[simp] theorem andThen_ok_nil (parsed : Parsed) : parsed.andThen (ok []) = parsed := by
  cases failed : parsed.failure with
  | some failure => exact andThen_of_some failed _
  | none =>
    rw [andThen_of_none failed]
    cases parsed
    simp_all [behind, ok]

@[simp] theorem ok_nil_andThen (p : Progress) (next : Progress → Parsed) :
    (ok [] p).andThen next = next p := rfl

@[simp] theorem behind_andThen (before : List Tree) (parsed : Parsed) (next : Progress → Parsed) :
    (parsed.behind before).andThen next = (parsed.andThen next).behind before := by
  cases failed : parsed.failure <;> simp [andThen, behind, failed]

end Parsed

/-- What the parser does with a form: it enters a phrase, or finds some parts itself and goes on with
forms that stand in place of it. -/
inductive Step where
  | enter (index : Nat) (callee : Category)
  | go (parsed : Parsed) (forms : List Form)

/-- Goes on as `next` says, unless there was a failure. -/
def Parsed.goThen (parsed : Parsed) (next : Progress → Parsed × List Form) : Step :=
  match parsed.failure with
  | some _ => .go parsed []
  | none => .go ((next parsed.progress).1.behind parsed.parts) (next parsed.progress).2

section Steps

variable (cat : Category) (rest : List Form) (calls : List Point)

/-- Goes on with the alternative that is decided for. -/
def goChosen (index : Nat) (lookahead : Lookahead) (alternatives : Form) (p : Progress) :
    Parsed × List Form :=
  match decideBetween lookahead ⟨cat, index⟩ calls
      (alternatives.alternatives.map fun f => firstOf cat (f :: rest)) p with
  | .unfit token => (.failed ⟨cat, index⟩ token [] p, [])
  | .take alternative => (.ok [] p, alternatives.alternatives[alternative - 1]?.toList)

/-- Goes on with some forms if it is decided to enter them. -/
def goEntered (index : Nat) (lookahead : Lookahead) (greedy : Bool) (forms : List Form)
    (p : Progress) : Parsed × List Form :=
  match decideEntry lookahead greedy ⟨cat, index⟩ calls (firstOf cat (forms ++ rest))
      (firstOf cat rest) p with
  | .error token => (.failed ⟨cat, index⟩ token [] p, [])
  | .ok enter => (.ok [] p, if enter then forms else [])

/-- One step of the parser at a form. -/
def step (p : Progress) : Form → Step
  | .empty => .go (.ok [] p) []
  | .token index kind =>
    .go (expectToken ⟨cat, index⟩ [kind] (fun p => [.error (missing kind p)]) rest calls p) []
  | .oneOf index kinds => .go (expectToken ⟨cat, index⟩ kinds (fun _ => []) rest calls p) []
  | .call index callee => .enter index callee
  | .seq f g => .go (.ok [] p) [f, g]
  | .alt f _ => .go (.ok [] p) [f]
  | .choice index lookahead f =>
    (sync ⟨cat, index⟩ (.choice index lookahead f :: rest) calls p).goThen
      (goChosen cat rest calls index lookahead f)
  | .optional index lookahead f =>
    (sync ⟨cat, index⟩ (.optional index lookahead f :: rest) calls p).goThen
      (goEntered cat rest calls index lookahead true [f])
  | .star index back lookahead greedy f =>
    (sync ⟨cat, index⟩ (.star index back lookahead greedy f :: rest) calls p).goThen
      (goEntered cat rest calls index lookahead greedy [f, .rounds back lookahead greedy f])
  | .rounds back lookahead greedy f =>
    (syncBack ⟨cat, back⟩ (.rounds back lookahead greedy f :: rest) calls p).goThen
      (goEntered cat rest calls back lookahead greedy [f, .rounds back lookahead greedy f])
  | .plus index back f =>
    (sync ⟨cat, index⟩ (.plus index back f :: rest) calls p).goThen
      fun p => (.ok [] p, [f, .rounds back .one true f])

/-- Parses forms that follow each other. -/
def parseAll (fuel : Nat) : List Form → Progress → Parsed
  | [], p => .ok [] p
  | form :: forms, p =>
    (parseForm cat (forms ++ rest) calls p fuel form).andThen (parseAll fuel forms)

/-- The phrase that a call gives: where parsing it failed, the parser recovers behind it. -/
def entered (index : Nat) (callee : Category) (p : Progress) (inner : Parsed) : Parsed :=
  let (skipped, after) := match inner.failure with
    | none => ([], inner.progress)
    | some failure => recover (⟨cat, index⟩ :: calls) failure inner.progress
  .ok [.phrase callee p.current after.last (inner.parts ++ skipped)] after

/-- What comes of a step. -/
def Step.run (p : Progress) (fuel : Nat) : Step → Parsed
  | .enter index callee => entered cat calls index callee p
      (parseForm callee [] (⟨cat, index⟩ :: calls) p fuel callee.form)
  | .go parsed forms => parsed.andThen (parseAll cat rest calls fuel forms)

variable {cat rest calls} (fuel : Nat) (p : Progress)

theorem entered_of_none {index : Nat} {callee : Category} {p : Progress} {inner : Parsed}
    (unfailed : inner.failure = none) :
    entered cat calls index callee p inner =
      .ok [.phrase callee p.current inner.progress.last inner.parts] inner.progress := by
  simp [entered, unfailed]

theorem entered_of_some {index : Nat} {callee : Category} {p : Progress} {inner : Parsed}
    {failure : Failure} (failed : inner.failure = some failure) :
    (entered cat calls index callee p inner).failure = none ∧
      (entered cat calls index callee p inner).progress =
        (recover (⟨cat, index⟩ :: calls) failure inner.progress).2 := by
  simp [entered, failed, Parsed.ok]

theorem parseAll_singleton (f : Form) :
    parseAll cat rest calls fuel [f] = fun p => parseForm cat rest calls p fuel f := by
  funext p
  exact Parsed.andThen_ok_nil _

theorem parseAll_pair (f g : Form) :
    parseAll cat rest calls fuel [f, g] = fun p =>
      (parseForm cat (g :: rest) calls p fuel f).andThen fun p =>
        parseForm cat rest calls p fuel g := by
  funext p
  rw [parseAll, parseAll_singleton]
  rfl

theorem run_goThen (fuel : Nat) (parsed : Parsed) (next : Progress → Parsed × List Form) :
    (parsed.goThen next).run cat rest calls p fuel = parsed.andThen fun q =>
      (next q).1.andThen (parseAll cat rest calls fuel (next q).2) := by
  cases failed : parsed.failure with
  | some failure => simp [Parsed.goThen, failed, Step.run, Parsed.andThen_of_some failed]
  | none => simp [Parsed.goThen, failed, Step.run, Parsed.andThen_of_none failed]

section Decisions

variable {index : Nat} {lookahead : Lookahead} {alternatives : Form} {greedy : Bool} {forms : List Form}
  (p : Progress)

/-- A choice fails where it is made, or is one for an alternative that may begin with the current token or
may be passed. -/
theorem goChosen_eq :
    (∃ token, goChosen cat rest calls index lookahead alternatives p =
      (.failed ⟨cat, index⟩ token [] p, [])) ∨
    ∃ f ∈ alternatives.alternatives,
      goChosen cat rest calls index lookahead alternatives p = (.ok [] p, [f]) ∧
      ((firstOf cat (f :: rest)).admits p.current.kind = true ∨
        (firstOf cat (f :: rest)).passable = true) := by
  unfold goChosen
  split
  · exact .inl ⟨_, rfl⟩
  · rename_i alternative decided
    obtain ⟨number, first, rfl, isFirst, opens⟩ := decideBetween_opens decided
    rw [getElem?_map, Option.map_eq_some_iff] at isFirst
    obtain ⟨f, isF, rfl⟩ := isFirst
    exact .inr ⟨f, mem_of_getElem? isF, by simp [isF], opens⟩

theorem goEntered_eq :
    (∃ token, goEntered cat rest calls index lookahead greedy forms p =
      (.failed ⟨cat, index⟩ token [] p, [])) ∨
    goEntered cat rest calls index lookahead greedy forms p = (.ok [] p, []) ∨
    goEntered cat rest calls index lookahead greedy forms p = (.ok [] p, forms) ∧
      decideEntry lookahead greedy ⟨cat, index⟩ calls (firstOf cat (forms ++ rest))
        (firstOf cat rest) p = .ok true := by
  unfold goEntered
  split
  · exact .inl ⟨_, rfl⟩
  · rename_i enter decided
    cases enter
    · exact .inr (.inl rfl)
    · exact .inr (.inr ⟨rfl, decided⟩)

theorem goChosen_still : (goChosen cat rest calls index lookahead alternatives p).1.progress = p ∧
    (goChosen cat rest calls index lookahead alternatives p).1.parts = [] := by
  unfold goChosen
  split <;> exact ⟨rfl, rfl⟩

theorem goEntered_still : (goEntered cat rest calls index lookahead greedy forms p).1.progress = p ∧
    (goEntered cat rest calls index lookahead greedy forms p).1.parts = [] := by
  unfold goEntered
  split <;> exact ⟨rfl, rfl⟩

theorem goEntered_forms (holds : List Form → Prop) (nil : holds []) (inside : holds forms) :
    holds (goEntered cat rest calls index lookahead greedy forms p).2 := by
  rcases goEntered_eq p with ⟨_, same⟩ | same | ⟨same, -⟩
  · exact same ▸ nil
  · exact same ▸ nil
  · exact same ▸ inside

end Decisions

theorem run_goEntered (index : Nat) (lookahead : Lookahead) (greedy : Bool)
    (forms : List Form) (p : Progress) :
    (goEntered cat rest calls index lookahead greedy forms p).1.andThen
        (parseAll cat rest calls fuel
          (goEntered cat rest calls index lookahead greedy forms p).2) =
      match decideEntry lookahead greedy ⟨cat, index⟩ calls (firstOf cat (forms ++ rest))
          (firstOf cat rest) p with
      | .error token => .failed ⟨cat, index⟩ token [] p
      | .ok false => .ok [] p
      | .ok true => parseAll cat rest calls fuel forms p := by
  unfold goEntered
  split
  · rename_i token decided
    rw [decided]
    rfl
  · rename_i enter decided
    rw [decided]
    cases enter <;> rfl

/-- Parsing a form is doing its step. -/
theorem parseForm_succ (fuel : Nat) (form : Form) :
    parseForm cat rest calls p (fuel + 1) form =
      (step cat rest calls p form).run cat rest calls p fuel := by
  cases form with
  | empty => rfl
  | token index kind => exact (Parsed.andThen_ok_nil _).symm
  | oneOf index kinds => exact (Parsed.andThen_ok_nil _).symm
  | call index callee => rfl
  | seq f g => simp [parseForm, step, Step.run, parseAll_pair, Parsed.ok_nil_andThen]
  | alt f g => simp [parseForm, step, Step.run, parseAll_singleton, Parsed.ok_nil_andThen]
  | choice index lookahead alternatives =>
    simp only [parseForm, step, run_goThen]
    congr 1
    funext q
    unfold goChosen
    generalize decideBetween lookahead ⟨cat, index⟩ calls
      (alternatives.alternatives.map fun f => firstOf cat (f :: rest)) q = verdict
    cases verdict with
    | unfit token => rfl
    | take alternative =>
      simp only
      split <;> rename_i found <;>
        simp [found, parseAll_singleton, parseAll]
  | optional index lookahead f =>
    simp only [step, run_goThen, run_goEntered, parseAll_singleton, singleton_append]
    rfl
  | star index back lookahead greedy f =>
    simp only [step, run_goThen, run_goEntered, parseAll_pair, cons_append, nil_append]
    rfl
  | plus index back f => simp [parseForm, step, run_goThen, parseAll_pair, Parsed.ok_nil_andThen]
  | rounds back lookahead greedy f =>
    simp only [step, run_goThen, run_goEntered, parseAll_pair, cons_append, nil_append]
    rfl

end Steps

/-- The forms follow each other in their place. -/
def InPlaceAll (cat : Category) (rest : List Form) : List Form → Prop
  | [] => True
  | form :: forms => InPlace cat (forms ++ rest) form ∧ InPlaceAll cat rest forms

variable {synced parsed : Parsed} {next : Progress → Parsed × List Form} {forms rest : List Form}
  {cat : Category} {calls : List Point} {p : Progress} {form : Form}

theorem goThen_eq (same : synced.goThen next = .go parsed forms) :
    (∃ failure, synced.failure = some failure) ∧ parsed = synced ∧ forms = [] ∨
      synced.failure = none ∧ parsed = (next synced.progress).1.behind synced.parts ∧
        forms = (next synced.progress).2 := by
  unfold Parsed.goThen at same
  split at same
  · rename_i failure failed
    cases same
    exact .inl ⟨⟨failure, failed⟩, rfl, rfl⟩
  · rename_i unfailed
    cases same
    exact .inr ⟨unfailed, rfl, rfl⟩

theorem step_enter {index : Nat} {callee : Category}
    (stepped : step cat rest calls p form = .enter index callee) : form = .call index callee := by
  have decided : ∀ {synced : Parsed} {next : Progress → Parsed × List Form},
      synced.goThen next ≠ .enter index callee := by
    intro synced next same
    unfold Parsed.goThen at same
    split at same <;> simp at same
  cases form with
  | call _ _ => cases stepped; rfl
  | empty | token _ _ | oneOf _ _ | seq _ _ | alt _ _ => simp [step] at stepped
  | choice _ _ _ | optional _ _ _ | star _ _ _ _ _ | plus _ _ _ | rounds _ _ _ _ =>
    unfold step at stepped
    exact absurd stepped decided

theorem goThen_forms (holds : List Form → Prop) (same : synced.goThen next = .go parsed forms)
    (nil : holds []) (later : ∀ q, holds (next q).2) : holds forms := by
  rcases goThen_eq same with ⟨-, -, rfl⟩ | ⟨-, -, rfl⟩
  · exact nil
  · exact later _

/-- The forms that a step goes on with stand in place of its form. -/
theorem step_inPlace (inPlace : InPlace cat rest form)
    (stepped : step cat rest calls p form = .go parsed forms) : InPlaceAll cat rest forms := by
  cases form with
  | empty | token _ _ | oneOf _ _ => cases stepped; trivial
  | call index callee => simp [step] at stepped
  | seq f g => cases stepped; exact ⟨inPlace.first, inPlace.second, trivial⟩
  | alt f g => exact absurd inPlace InPlace.not_alt
  | choice index lookahead alternatives =>
    refine goThen_forms _ stepped trivial fun q => ?_
    rcases goChosen_eq q with ⟨_, same⟩ | ⟨f, mem, same, -⟩
    · exact same ▸ trivial
    · exact same ▸ ⟨inPlace.alternative mem, trivial⟩
  | optional index lookahead f =>
    exact goThen_forms _ stepped trivial fun q =>
      goEntered_forms q _ trivial ⟨inPlace.optional, trivial⟩
  | star index back lookahead greedy f =>
    exact goThen_forms _ stepped trivial fun q =>
      goEntered_forms q _ trivial ⟨inPlace.star.round, inPlace.star, trivial⟩
  | rounds back lookahead greedy f =>
    exact goThen_forms _ stepped trivial fun q =>
      goEntered_forms q _ trivial ⟨inPlace.round, inPlace, trivial⟩
  | plus index back f =>
    unfold step at stepped
    exact goThen_forms _ stepped trivial fun _ => ⟨inPlace.plus.round, inPlace.plus, trivial⟩

end GrammarLint.Phrase
