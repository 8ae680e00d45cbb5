import GrammarLint.Proofs.Depth
import GrammarLint.Proofs.TokenTiling

open List

namespace GrammarLint.Phrase

open Lexical (Kind Token)

/-- Whether a form ends with the end of the file. -/
def Form.endsFile : Form → Bool
  | .token _ .endOfFile => true
  | .seq _ g => g.endsFile
  | _ => false

/-- The end of the file ends whole files only, and nothing stands behind it. -/
def Form.endsLast (rest : List Form) : Form → Bool
  | .token index kind => !(Form.token index kind).endsFile || rest.isEmpty
  | .oneOf _ kinds => !kinds.contains .endOfFile
  | .call _ callee => !callee.form.endsFile
  | .seq f g => !f.endsFile && (!g.endsFile || rest.isEmpty)
  | .choice _ _ f => f.alternatives.all (!·.endsFile)
  | .optional _ _ f | .star _ _ _ _ f | .plus _ _ f | .rounds _ _ _ f => !f.endsFile
  | .empty | .alt _ _ => true

variable {cat : Category} {rest forms : List Form} {form alternatives : Form} {p : Progress}
  {point : Point} {kinds : List Kind} {fill : Progress → List Tree} {calls : List Point}
  {index : Nat} {lookahead : Lookahead} {greedy : Bool} {parsed : Parsed} {trees : List Tree}
  {tokens : List Token} {finish : Token}

theorem InPlace.endsLast (inPlace : InPlace cat rest form) : form.endsLast rest = true := by
  refine inPlace.check (fun _ rest form => form.endsLast rest) ?_
  decide +kernel

theorem InPlace.rest_of_endsFile (inPlace : InPlace cat rest form)
    (ends : form.endsFile = true) : rest = [] := by
  have last := inPlace.endsLast
  cases form with
  | token index kind => simpa [Form.endsLast, ends] using last
  | seq f g =>
    simp only [Form.endsFile] at ends
    simp only [Form.endsLast, ends, Bool.and_eq_true] at last
    simpa using last.2
  | _ => simp [Form.endsFile] at ends

variable {q : Progress} {kind : Kind} {next : Progress → Parsed × List Form} {fuel : Nat} {f : Form}
  {ended : Bool} {fits : List Tree → Prop}

theorem Progress.After.proper (after : p.After q) (proper : p.Proper) : q.Proper :=
  ⟨after.finish ▸ proper.finish, fun token mem => proper.inner token (after.ahead.subset mem)⟩

/-- Whatever token is expected where the current one fits, it is taken. -/
theorem expectToken_fits (fits : p.current.kind ∈ kinds) :
    expectToken point kinds fill rest calls p = .ok [.leaf p.current] p.matched.take := by
  simp [expectToken, fits]

theorem Progress.kinds_take (more : p.ahead ≠ []) : p.kinds = p.current.kind :: p.matched.take.kinds := by
  obtain ⟨token, later, ahead⟩ := exists_cons_of_ne_nil more
  simp [Progress.kinds, Progress.current, Progress.take_ahead, Progress.matched, ahead]

theorem Accepts.current_of_token (proper : p.Proper)
    (accepts : Accepts cat (.token index kind :: rest) calls p.kinds) : p.current.kind = kind := by
  obtain ⟨later, same⟩ := proper.kinds_eq
  generalize p.kinds = word at accepts same
  cases accepts
  exact (cons.inj same).1.symm

theorem Progress.take_recovering (p : Progress) : p.take.recovering = p.recovering := by
  unfold Progress.take
  split <;> rfl

/-- The parser goes on without a new error, in front of what the forms accept. -/
structure Goes (cat : Category) (forms : List Form) (calls : List Point) (p : Progress)
    (parsed : Parsed) : Prop where
  unfailed : parsed.failure = none
  errors : parsed.progress.errors = p.errors
  recovering : parsed.progress.recovering = false
  accepts : Accepts cat forms calls parsed.progress.kinds

theorem Goes.ok (calm : p.recovering = false) (accepts : Accepts cat forms calls p.kinds) :
    Goes cat forms calls p (.ok [] p) := ⟨rfl, rfl, calm, accepts⟩

theorem expectToken_goes {word : List Kind} (proper : p.Proper) (same : p.kinds = kind :: word)
    (inKinds : kind ∈ kinds) (inner : kind ≠ .endOfFile) (later : Accepts cat rest calls word) :
    Goes cat rest calls p (expectToken ⟨cat, index⟩ kinds fill rest calls p) := by
  obtain ⟨_, isCurrent⟩ := proper.kinds_eq
  have current : p.current.kind = kind := by
    rw [same] at isCurrent
    exact (cons.inj isCurrent).1.symm
  have more := Progress.ahead_ne_nil proper.finish (current ▸ inner)
  rw [expectToken_fits (current ▸ inKinds)]
  refine ⟨rfl, Progress.take_errors _, Progress.take_recovering _, ?_⟩
  have taken := Progress.kinds_take more
  rw [same] at taken
  exact (cons.inj taken).2 ▸ later

/-- In front of a decision nothing happens while what is ahead can be accepted. -/
theorem sync_goes (accepts : Accepts cat forms calls p.kinds)
    (located : Located cat forms) (proper : p.Proper) (chain : Chain cat calls) :
    sync ⟨cat, index⟩ forms calls p = .ok [] p ∧
      syncBack ⟨cat, index⟩ forms calls p = .ok [] p := by
  have fits : (firstOf cat forms).admits p.current.kind = true ∨
      (firstOf cat forms).passable = true :=
    (accepts.predicted proper located chain).imp_right And.left
  constructor
  · unfold sync
    rcases fits with admits | passable <;> simp [*]
  · unfold syncBack
    rcases fits with admits | passable <;> simp [*]

theorem goEntered_goes
    (decisive : lookahead = .one →
      (firstOf cat (forms ++ rest)).apart cat (firstOf cat rest) = true)
    (entered : Located cat (forms ++ rest)) (proper : p.Proper) (chain : Chain cat calls)
    (accepts : Accepts cat (forms ++ rest) calls p.kinds ∨ Accepts cat rest calls p.kinds) :
    ∃ later, goEntered cat rest calls index lookahead greedy forms p = (.ok [] p, later) ∧
      Accepts cat (later ++ rest) calls p.kinds := by
  obtain ⟨enter, decided, goesOn⟩ := decideEntry_accepts cat (forms ++ rest) rest index
    lookahead calls p greedy decisive entered entered.of_append proper chain accepts
  refine ⟨if enter then forms else [], by simp [goEntered, decided], ?_⟩
  cases enter <;> simpa using goesOn

theorem goThen_ok (same : next p = (.ok [] p, forms)) :
    (Parsed.ok [] p).goThen next = .go (.ok [] p) forms := by
  simp [Parsed.goThen, Parsed.ok, Parsed.behind, same]

/-- A step in front of what is accepted goes on with forms that accept it. -/
theorem step_goes (inPlace : InPlace cat rest form) (proper : p.Proper) (calm : p.recovering = false)
    (chain : Chain cat calls) (inner : ∀ index, form ≠ .token index .endOfFile)
    (accepts : Accepts cat (form :: rest) calls p.kinds)
    (stepped : step cat rest calls p form = .go parsed forms) :
    Goes cat (forms ++ rest) calls p parsed := by
  have located := inPlace.located
  have synced : ∀ index, sync ⟨cat, index⟩ (form :: rest) calls p = .ok [] p ∧
      syncBack ⟨cat, index⟩ (form :: rest) calls p = .ok [] p :=
    fun _ => sync_goes accepts located proper chain
  -- Nothing happens in front of the decision, and it is made for forms that accept what is ahead.
  have decided : ∀ {next : Progress → Parsed × List Form},
      (Parsed.ok [] p).goThen next = .go parsed forms →
      (∃ later, next p = (.ok [] p, later) ∧ Accepts cat (later ++ rest) calls p.kinds) →
      Goes cat (forms ++ rest) calls p parsed := by
    rintro next same ⟨later, isNext, goesOn⟩
    rw [goThen_ok isNext] at same
    cases same
    exact .ok calm goesOn
  generalize same : p.kinds = word at accepts
  cases accepts with
  | empty later => cases stepped; exact .ok calm (same ▸ later)
  | @token _ _ _ word index kind later =>
    cases stepped
    refine expectToken_goes proper same (mem_singleton_self kind) ?_ later
    rintro rfl
    exact inner index rfl
  | @oneOf kinds kind _ _ _ word index inKinds later =>
    cases stepped
    refine expectToken_goes proper same inKinds ?_ later
    rintro rfl
    have := inPlace.endsLast
    simp [Form.endsLast, inKinds] at this
  | call _ => simp [step] at stepped
  | seq goesOn => cases stepped; exact .ok calm (same ▸ goesOn)
  | left _ | right _ => exact absurd inPlace InPlace.not_alt
  | @choice _ alternatives _ _ _ index lookahead goesOn =>
    simp only [step, (synced index).1] at stepped
    refine decided stepped ?_
    obtain ⟨number, f, chosen, isF, goesOn⟩ :=
      decideBetween_accepts inPlace proper chain (same ▸ .choice goesOn)
    exact ⟨[f], by simp [goChosen, chosen, isF], goesOn⟩
  | @absent _ _ _ _ index lookahead f goesOn | @present _ f _ _ _ index lookahead goesOn =>
    simp only [step, (synced index).1] at stepped
    refine decided stepped (goEntered_goes ?_ located.optional proper chain ?_)
    · rintro rfl
      exact inPlace.decisive
    · simp [same, goesOn]
  | @star _ back lookahead greedy f _ _ _ index goesOn =>
    simp only [step, (synced index).1] at stepped
    refine decided stepped (goEntered_goes ?_ located.star.rounds proper chain ?_)
    · rintro rfl
      exact inPlace.star.decisive
    · rw [same]
      cases goesOn with
      | stop goesOn => exact .inr goesOn
      | round goesOn => exact .inl goesOn
  | @plus _ f back _ _ _ index goesOn =>
    simp only [step, (synced index).1] at stepped
    exact decided stepped ⟨_, rfl, same ▸ goesOn⟩
  | @stop _ _ _ _ back lookahead greedy f goesOn | @round _ f back lookahead greedy _ _ _ goesOn =>
    simp only [step, (synced back).2] at stepped
    refine decided stepped (goEntered_goes ?_ located.rounds proper chain ?_)
    · rintro rfl
      exact inPlace.decisive
    · simp [same, goesOn]

/-- The end of the file is not among the forms that a step goes on with, unless it ended its form. -/
theorem step_endsFile (inPlace : InPlace cat rest form)
    (stepped : step cat rest calls p form = .go parsed forms) (inner : form.endsFile = false) :
    forms.any Form.endsFile = false := by
  have last := inPlace.endsLast
  have entered {index lookahead greedy inside} (closed : inside.any Form.endsFile = false) (q : Progress) :
      (goEntered cat rest calls index lookahead greedy inside q).2.any Form.endsFile = false :=
    goEntered_forms q (·.any Form.endsFile = false) rfl closed
  cases form with
  | empty | token _ _ | oneOf _ _ => cases stepped; rfl
  | call index callee => simp [step] at stepped
  | alt f g => exact absurd inPlace InPlace.not_alt
  | seq f g =>
    cases stepped
    simp_all [Form.endsLast, Form.endsFile]
  | choice index lookahead alternatives =>
    refine goThen_forms (·.any Form.endsFile = false) stepped rfl fun q => ?_
    rcases goChosen_eq q with ⟨_, same⟩ | ⟨f, mem, same, -⟩
    · rw [same]
      rfl
    · simp only [Form.endsLast, all_eq_true, Bool.not_eq_true'] at last
      rw [same]
      simp [last f mem]
  | optional index lookahead f =>
    exact goThen_forms (·.any Form.endsFile = false) stepped rfl (entered (by simpa [Form.endsLast] using last))
  | star index back lookahead greedy f =>
    exact goThen_forms (·.any Form.endsFile = false) stepped rfl
      (entered (by simpa [Form.endsLast, Form.endsFile] using last))
  | rounds back lookahead greedy f =>
    exact goThen_forms (·.any Form.endsFile = false) stepped rfl
      (entered (by simpa [Form.endsLast, Form.endsFile] using last))
  | plus index back f =>
    unfold step at stepped
    exact goThen_forms (·.any Form.endsFile = false) stepped rfl
      fun _ => by simpa [Form.endsLast, Form.endsFile] using last

/-- The parser has reported nothing and is in front of what the rest accepts, unless the file has
ended. -/
structure Passed (cat : Category) (rest : List Form) (calls : List Point) (p : Progress)
    (ended : Bool) (parsed : Parsed) : Prop where
  unfailed : parsed.failure = none
  errors : parsed.progress.errors = p.errors
  recovering : parsed.progress.recovering = false
  accepts : ended = false → Accepts cat rest calls parsed.progress.kinds

/-- In front of what is accepted the parser reports nothing and takes what the forms stand for. -/
theorem Settles.passed (settles : Settles fuel cat rest calls p forms)
    (allIn : InPlaceAll cat rest forms) (proper : p.Proper) (calm : p.recovering = false)
    (chain : Chain cat calls) (accepts : Accepts cat (forms ++ rest) calls p.kinds) :
    Passed cat rest calls p (forms.any Form.endsFile)
      (parseAll cat rest calls fuel forms p) := by
  induction settles with
  | nil => exact ⟨rfl, rfl, calm, fun _ => accepts⟩
  | @enter fuel cat rest calls p form index callee stepped _ ih =>
    cases step_enter stepped
    have inPlace : InPlace cat rest (.call index callee) := allIn.1
    have located := inPlace.located
    have closed : callee.form.endsFile = false := by
      simpa [Form.endsLast] using inPlace.endsLast
    cases accepts with
    | call inside =>
      have inner := ih ⟨.whole, trivial⟩ proper calm ⟨located.mem_callers, chain⟩ inside
      rw [parseAll_singleton] at inner ⊢
      simp only [parseForm_succ, stepped, Step.run, entered_of_none inner.unfailed]
      refine ⟨rfl, inner.errors, inner.recovering, fun _ => ?_⟩
      cases inner.accepts (by simp [closed]) with
      | back later => rwa [located.following_call] at later
  | @go fuel cat rest calls p form parsed forms stepped _ ih =>
    have inPlace : InPlace cat rest form := allIn.1
    rw [parseAll_singleton]
    simp only [parseForm_succ, stepped, Step.run]
    by_cases last : ∃ index, form = .token index .endOfFile
    · obtain ⟨index, rfl⟩ := last
      cases stepped
      have fits : p.current.kind ∈ [Kind.endOfFile] := by
        simpa using accepts.current_of_token proper
      rw [expectToken_fits fits]
      refine ⟨rfl, Progress.take_errors _, ?_, by simp [Form.endsFile]⟩
      exact Progress.take_recovering _
    · have goes := step_goes inPlace proper calm chain (fun index same => last ⟨index, same⟩) accepts
        stepped
      have later := ih goes.unfailed (step_inPlace inPlace stepped)
        ((step_follows inPlace stepped).after.proper proper) goes.recovering chain goes.accepts
      rw [Parsed.andThen_of_none goes.unfailed]
      refine ⟨later.unfailed, later.errors.trans goes.errors, later.recovering, fun inner => ?_⟩
      exact later.accepts (step_endsFile inPlace stepped (by simpa using inner))
  | @cons fuel cat rest calls p form forms _ _ first later =>
    have here := first ⟨allIn.1, trivial⟩ proper calm chain (by simpa using accepts)
    rw [parseAll_singleton] at here
    have after := (parseForm_follows calls p fuel allIn.1).after
    simp only [parseAll, Parsed.andThen_of_none here.unfailed]
    cases ends : form.endsFile with
    | true =>
      obtain ⟨rfl, -⟩ := append_eq_nil_iff.mp (allIn.1.rest_of_endsFile ends)
      exact ⟨rfl, here.errors, here.recovering, by simp [ends]⟩
    | false =>
      have there := later here.unfailed allIn.2 (after.proper proper) here.recovering chain
        (here.accepts (by simp [ends]))
      refine ⟨there.unfailed, there.errors.trans here.errors, there.recovering, fun inner => ?_⟩
      exact there.accepts (by simpa [ends] using inner)

/-- The trees are what forms that follow each other stand for. -/
inductive FitsAll : List Form → List Tree → Prop
  | nil : FitsAll [] []
  | cons {form : Form} {forms : List Form} {us vs : List Tree} : Fits form us → FitsAll forms vs →
      FitsAll (form :: forms) (us ++ vs)

theorem FitsAll.singleton (fits : FitsAll [form] trees) : Fits form trees := by
  obtain _ | ⟨first, none⟩ := fits
  cases none
  rwa [append_nil]

theorem FitsAll.pair {g : Form} (fits : FitsAll [f, g] trees) :
    ∃ us vs, trees = us ++ vs ∧ Fits f us ∧ Fits g vs := by
  obtain _ | ⟨first, later⟩ := fits
  exact ⟨_, _, rfl, first, later.singleton⟩

theorem Fits.of_alternative (mem : f ∈ alternatives.alternatives) (fits : Fits f trees) :
    Fits alternatives trees := by
  induction alternatives with
  | alt g h first second =>
    rcases mem_append.mp mem with left | right
    · exact .left (first left)
    · exact .right (second right)
  | _ =>
    cases mem_singleton.mp mem
    exact fits

/-- If nothing has been reported, the parser is not recovering, and if it did not fail, the parts fit
and their tokens are those that were taken. -/
def Faithful (p : Progress) (ended : Bool) (fits : List Tree → Prop) (parsed : Parsed) : Prop :=
  parsed.progress.errors = [] → parsed.progress.recovering = false ∧
    (parsed.failure = none → fits parsed.parts ∧ ∃ taken, p.ahead = taken ++ parsed.progress.ahead ∧
      Tree.tokensOf parsed.parts = taken ++ (if ended then [p.finish] else []) ∧
      (ended = true → parsed.progress.ahead = []))

theorem Progress.report_errors (calm : p.recovering = false) (token : Token) :
    (p.report token).errors ≠ [] := by
  simp [Progress.report, calm]

theorem Progress.After.errors_nil (after : p.After q) (none : q.errors = []) : p.errors = [] :=
  suffix_nil.mp (none ▸ after.errors)

/-- A failure is reported when the parser recovers from it. -/
theorem Faithful.recover_errors {ended : Bool} {fits : List Tree → Prop} {inner : Parsed} {failure : Failure}
    (faithful : Faithful p ended fits inner) (follows : inner.Follows p)
    (failed : inner.failure = some failure) : (recover calls failure inner.progress).2.errors ≠ [] := by
  intro none
  have known := follows.known failure failed
  have calm := (faithful ((recover_after known).1.errors_nil none)).1
  rw [recover_progress] at none
  have noted := (noted_after failure (inner.progress.report failure.token) known).1
  exact Progress.report_errors calm _ (noted.errors_nil ((skipUntil_after _ _).errors_nil none))

/-- Where nothing is reported, a token that is expected is taken as a leaf, or there is a failure. -/
theorem expectToken_unreported (calm : p.recovering = false)
    (none : (expectToken point kinds fill rest calls p).progress.errors = []) :
    p.current.kind ∈ kinds ∧
        expectToken point kinds fill rest calls p = .ok [.leaf p.current] p.matched.take ∨
      expectToken point kinds fill rest calls p = .failed point p.current [] p := by
  unfold expectToken at none ⊢
  split at none
  · rename_i here
    exact .inl ⟨by simpa using here, if_pos here⟩
  · rename_i elsewhere
    split at none
    · have after := (Progress.take_after (p.report p.current)).trans (Progress.matched_take_after _)
      exact absurd (after.errors_nil none) (Progress.report_errors calm _)
    · split at none
      · exact absurd none (Progress.report_errors calm _)
      · rename_i unfit unexpected
        exact .inr (by rw [if_neg elsewhere, if_neg unfit, if_neg unexpected])

theorem expectToken_faithful (proper : p.Proper) (calm : p.recovering = false)
    (fits : ∀ token : Token, token.kind ∈ kinds → Fits form [.leaf token])
    (ends : ∀ kind ∈ kinds, form.endsFile = (kind == .endOfFile)) :
    Faithful p form.endsFile (Fits form) (expectToken point kinds fill rest calls p) := by
  intro none
  rcases expectToken_unreported calm none with ⟨inKinds, same⟩ | same
  · rw [same]
    refine ⟨Progress.take_recovering _, fun _ => ⟨fits _ inKinds, ?_⟩⟩
    rw [ends _ inKinds]
    cases ahead : p.ahead with
    | nil =>
      refine ⟨[], ?_, ?_, fun _ => ?_⟩ <;>
        simp [Parsed.ok, Progress.take_ahead, Progress.matched, ahead, Progress.current,
          proper.finish, Tree.tokensOf, Tree.tokens]
    | cons token later =>
      have inner := proper.inner token (by simp [ahead])
      refine ⟨[token], ?_, ?_, ?_⟩ <;>
        simp [Parsed.ok, Progress.take_ahead, Progress.matched, ahead, Progress.current,
          Tree.tokensOf, Tree.tokens, inner]
  · rw [same]
    exact ⟨calm, fun unfailed => by simp [Parsed.failed] at unfailed⟩

/-- What is done in front of a decision is reported, or fails, or changes nothing. -/
def Quiet (p : Progress) (synced : Parsed) : Prop :=
  synced.progress.errors ≠ [] ∨ synced.parts = [] ∧ synced.progress = p

theorem sync_quiet (calm : p.recovering = false) : Quiet p (sync point forms calls p) := by
  unfold sync
  simp only
  split
  · exact .inr ⟨rfl, rfl⟩
  · split
    · refine .inl fun none => Progress.report_errors calm p.current ?_
      exact (Progress.take_matched_after _).errors_nil none
    · exact .inr ⟨rfl, rfl⟩

theorem syncBack_quiet (calm : p.recovering = false) : Quiet p (syncBack point forms calls p) := by
  unfold syncBack
  simp only
  split
  · exact .inr ⟨rfl, rfl⟩
  · exact .inl (Progress.report_errors calm p.current)

/-- A step either takes a token for its form or changes nothing, and then what fits the forms that it
goes on with fits its form. -/
def Stepped (p : Progress) (form : Form) (parsed : Parsed) (forms : List Form) : Prop :=
  forms = [] ∧ Faithful p form.endsFile (Fits form) parsed ∨ Quiet p parsed ∧
    (parsed.failure = none → parsed.progress = p → forms.any Form.endsFile = form.endsFile ∧
      ∀ trees, FitsAll forms trees → Fits form trees)

theorem goThen_stepped {synced : Parsed} (quiet : Quiet p synced)
    (same : synced.goThen next = .go parsed forms)
    (still : ∀ q, (next q).1.progress = q ∧ (next q).1.parts = [])
    (ends : forms.any Form.endsFile = form.endsFile)
    (fits : (next p).1.failure = none → ∀ trees, FitsAll (next p).2 trees → Fits form trees) :
    Stepped p form parsed forms := by
  refine .inr ?_
  rcases goThen_eq same with ⟨⟨failure, failed⟩, rfl, -⟩ | ⟨-, rfl, rfl⟩
  · exact ⟨quiet, fun unfailed => by simp [failed] at unfailed⟩
  · obtain ⟨progress, parts⟩ := still synced.progress
    refine ⟨?_, fun unfailed isP => ⟨ends, ?_⟩⟩
    · rcases quiet with reported | ⟨nothing, isP⟩
      · exact .inl (by simpa [Parsed.behind, progress] using reported)
      · exact .inr ⟨by simp [Parsed.behind, nothing, parts], progress.trans isP⟩
    · have isSynced : synced.progress = p := by simpa [Parsed.behind, progress] using isP
      rw [isSynced] at unfailed ⊢
      exact fits unfailed

theorem goChosen_fits
    (unfailed : (goChosen cat rest calls index lookahead alternatives p).1.failure = none)
    (fits : FitsAll (goChosen cat rest calls index lookahead alternatives p).2 trees) :
    Fits (.choice index lookahead alternatives) trees := by
  rcases goChosen_eq p with ⟨_, same⟩ | ⟨f, mem, same, -⟩
  · rw [same] at unfailed
    cases unfailed
  · rw [same] at fits
    exact .choice (.of_alternative mem fits.singleton)

theorem goEntered_fits {inside : List Form}
    (unfailed : (goEntered cat rest calls index lookahead greedy inside p).1.failure = none)
    (fits : FitsAll (goEntered cat rest calls index lookahead greedy inside p).2 trees) :
    FitsAll inside trees ∨ trees = [] := by
  rcases goEntered_eq p with ⟨_, same⟩ | same | ⟨same, -⟩
  · rw [same] at unfailed
    cases unfailed
  · rw [same] at fits
    cases fits
    exact .inr rfl
  · rw [same] at fits
    exact .inl fits

theorem step_stepped (inPlace : InPlace cat rest form) (proper : p.Proper)
    (calm : p.recovering = false) (stepped : step cat rest calls p form = .go parsed forms) :
    Stepped p form parsed forms := by
  have last := inPlace.endsLast
  cases form with
  | empty =>
    cases stepped
    exact .inr ⟨.inr ⟨rfl, rfl⟩, fun _ _ => ⟨rfl, fun trees fits => by cases fits; exact .empty⟩⟩
  | token index kind =>
    cases stepped
    refine .inl ⟨rfl, expectToken_faithful proper calm ?_ ?_⟩
    · intro token inKinds
      cases mem_singleton.mp inKinds
      exact .token
    · intro other inKinds
      cases mem_singleton.mp inKinds
      cases kind <;> rfl
  | oneOf index kinds =>
    cases stepped
    refine .inl ⟨rfl, expectToken_faithful proper calm (fun _ inKinds => .oneOf inKinds) ?_⟩
    intro kind inKinds
    have inner : kind ≠ .endOfFile := by
      rintro rfl
      simp [Form.endsLast, inKinds] at last
    simp [Form.endsFile, inner]
  | call index callee => simp [step] at stepped
  | alt f g => exact absurd inPlace InPlace.not_alt
  | seq f g =>
    cases stepped
    refine .inr ⟨.inr ⟨rfl, rfl⟩, fun _ _ => ⟨?_, fun trees fits => ?_⟩⟩
    · simp_all [Form.endsLast, Form.endsFile]
    · obtain ⟨us, vs, rfl, first, second⟩ := fits.pair
      exact .seq first second
  | choice index lookahead alternatives =>
    exact goThen_stepped (sync_quiet calm) stepped goChosen_still (step_endsFile inPlace stepped rfl)
      fun unfailed trees fits => goChosen_fits unfailed fits
  | optional index lookahead f =>
    refine goThen_stepped (sync_quiet calm) stepped goEntered_still (step_endsFile inPlace stepped rfl) ?_
    intro unfailed trees fits
    rcases goEntered_fits unfailed fits with present | rfl
    · exact .present present.singleton
    · exact .absent
  | star index back lookahead greedy f =>
    refine goThen_stepped (sync_quiet calm) stepped goEntered_still (step_endsFile inPlace stepped rfl) ?_
    intro unfailed trees fits
    rcases goEntered_fits unfailed fits with present | rfl
    · obtain ⟨us, vs, rfl, first, more⟩ := present.pair
      exact .star (.round first more)
    · exact .star .stop
  | rounds back lookahead greedy f =>
    refine goThen_stepped (syncBack_quiet calm) stepped goEntered_still (step_endsFile inPlace stepped rfl) ?_
    intro unfailed trees fits
    rcases goEntered_fits unfailed fits with present | rfl
    · obtain ⟨us, vs, rfl, first, more⟩ := present.pair
      exact .round first more
    · exact .stop
  | plus index back f =>
    have ends := step_endsFile inPlace stepped rfl
    unfold step at stepped
    refine goThen_stepped (sync_quiet calm) stepped (fun _ => ⟨rfl, rfl⟩) ends ?_
    intro _ trees fits
    obtain ⟨us, vs, rfl, first, more⟩ := fits.pair
    exact .plus first more

theorem entered_faithful {callee : Category} {inner : Parsed} (follows : inner.Follows p)
    (faithful : Faithful p false (Fits callee.form) inner) :
    Faithful p false (Fits (.call index callee)) (entered cat calls index callee p inner) := by
  intro none
  cases failed : inner.failure with
  | some failure =>
    rw [(entered_of_some failed).2] at none
    exact absurd none (faithful.recover_errors follows failed)
  | none =>
    rw [entered_of_none failed] at none ⊢
    obtain ⟨calm, found⟩ := faithful none
    obtain ⟨fits, taken, ahead, tokens, -⟩ := found failed
    refine ⟨calm, fun _ => ⟨.call fits, taken, ahead, ?_, by simp⟩⟩
    simpa [Parsed.ok, Tree.tokensOf, Tree.tokens] using tokens

theorem Faithful.imp {better : List Tree → Prop} (faithful : Faithful p ended fits parsed)
    (implies : ∀ trees, fits trees → better trees) : Faithful p ended better parsed := fun none =>
  (faithful none).imp_right fun found unfailed => (found unfailed).imp_left (implies _)

/-- One part behind another, where the file does not end with the first. -/
theorem Faithful.andThen {fitsLater : List Tree → Prop} {next : Progress → Parsed}
    (after : p.After parsed.progress) (kept : parsed.progress.After (next parsed.progress).progress)
    (here : Faithful p false fits parsed)
    (later : parsed.progress.recovering = false →
      Faithful parsed.progress ended fitsLater (next parsed.progress)) :
    Faithful p ended (fun trees => ∃ us vs, trees = us ++ vs ∧ fits us ∧ fitsLater vs)
      (parsed.andThen next) := by
  intro none
  cases failed : parsed.failure with
  | some failure =>
    rw [Parsed.andThen_of_some failed] at none ⊢
    exact ⟨(here none).1, fun unfailed => by simp [failed] at unfailed⟩
  | none =>
    rw [Parsed.andThen_of_none failed] at none ⊢
    obtain ⟨calm, found⟩ := here (kept.errors_nil none)
    obtain ⟨first, taken, ahead, tokens, -⟩ := found failed
    obtain ⟨endCalm, foundLater⟩ := later calm none
    refine ⟨endCalm, fun unfailed => ?_⟩
    obtain ⟨second, more, aheadLater, tokensLater, atEnd⟩ := foundLater unfailed
    refine ⟨⟨_, _, rfl, first, second⟩, taken ++ more, ?_, ?_, atEnd⟩
    · simp [ahead, aheadLater, Parsed.behind]
    · simp [Parsed.behind, Tree.tokensOf_append, tokens, tokensLater, after.finish]

theorem parseAll_faithful {cat : Category} {rest : List Form} (calls : List Point) {fuel : Nat}
    (each : ∀ {rest form} {p : Progress}, InPlace cat rest form → p.Proper →
      p.recovering = false →
      Faithful p form.endsFile (Fits form) (parseForm cat rest calls p fuel form))
    {forms : List Form} (allIn : InPlaceAll cat rest forms) {p : Progress} (proper : p.Proper)
    (calm : p.recovering = false) :
    Faithful p (forms.any Form.endsFile) (FitsAll forms)
      (parseAll cat rest calls fuel forms p) := by
  induction forms generalizing p with
  | nil => exact fun _ => ⟨calm, fun _ => ⟨.nil, [], rfl, rfl, by simp⟩⟩
  | cons form forms ih =>
    have here := each allIn.1 proper calm
    have after := (parseForm_follows calls p fuel allIn.1).after
    cases ends : form.endsFile with
    | true =>
      -- Nothing stands behind the end of the file.
      obtain ⟨rfl, -⟩ := append_eq_nil_iff.mp (allIn.1.rest_of_endsFile ends)
      rw [parseAll_singleton]
      simp only [any_cons, any_nil, Bool.or_false]
      exact here.imp fun trees fits => append_nil trees ▸ .cons fits .nil
    | false =>
      rw [ends] at here
      simp only [any_cons, ends, Bool.false_or, parseAll]
      refine (Faithful.andThen after (parseAll_after allIn.2 calls fuel _) here fun still =>
        ih allIn.2 (after.proper proper) still).imp ?_
      rintro _ ⟨us, vs, rfl, first, second⟩
      exact .cons first second

/-- What is found without an error is what the form stands for, with just the tokens that were
taken. -/
theorem parseForm_faithful (inPlace : InPlace cat rest form) (proper : p.Proper)
    (calm : p.recovering = false) :
    Faithful p form.endsFile (Fits form) (parseForm cat rest calls p fuel form) := by
  induction fuel generalizing cat rest calls form p with
  | zero => exact fun _ => ⟨calm, fun unfailed => by simp [parseForm, Parsed.failed] at unfailed⟩
  | succ fuel ih =>
    rw [parseForm_succ]
    cases stepped : step cat rest calls p form with
    | enter index callee =>
      cases step_enter stepped
      have closed : callee.form.endsFile = false := by simpa [Form.endsLast] using inPlace.endsLast
      exact entered_faithful (parseForm_follows _ p fuel .whole) (closed ▸ ih .whole proper calm)
    | go parsed forms =>
      have allIn := step_inPlace inPlace stepped
      simp only [Step.run]
      rcases step_stepped inPlace proper calm stepped with ⟨rfl, faithful⟩ | ⟨quiet, fits⟩
      · have same : parseAll cat rest calls fuel [] = Parsed.ok [] := rfl
        rwa [same, Parsed.andThen_ok_nil]
      · intro none
        have kept := parseAll_after allIn calls fuel parsed.progress
        cases failed : parsed.failure with
        | some failure =>
          rw [Parsed.andThen_of_some failed] at none ⊢
          rcases quiet with reported | ⟨-, same⟩
          · exact absurd none reported
          · exact ⟨same ▸ calm, fun unfailed => by simp [failed] at unfailed⟩
        | none =>
          rw [Parsed.andThen_of_none failed] at none ⊢
          rcases quiet with reported | ⟨nothing, same⟩
          · exact absurd (kept.errors_nil none) reported
          · obtain ⟨ends, fits⟩ := fits failed same
            have all := (parseAll_faithful calls ih allIn proper calm).imp fits
            rw [same] at none ⊢
            simpa only [Parsed.behind, nothing, nil_append, ends] using all none

theorem grammarSpec_endsFile : Category.grammarSpec.form.endsFile = true := by decide

/-- What is parsed of a whole file before it is made a phrase. -/
def parseWhole (tokens : List Token) (finish : Token) : Parsed :=
  parseForm .grammarSpec [] [] (.start tokens finish) ((tokens.length + 1) * depthPerToken)
    Category.grammarSpec.form

theorem parseWhole_faithful {tokens : List Token} {finish : Token}
    (proper : (Progress.start tokens finish).Proper) :
    Faithful (.start tokens finish) true (Fits Category.grammarSpec.form) (parseWhole tokens finish) :=
  grammarSpec_endsFile ▸ parseForm_faithful .whole proper rfl

section

variable (proper : (Progress.start tokens finish).Proper)

include proper

/-- A parse in which nothing is reported has not failed. -/
theorem parseTokens_whole
    (none : (parseTokens .grammarSpec tokens finish).errors = []) :
    (parseTokens .grammarSpec tokens finish).tree = .phrase .grammarSpec (Progress.start tokens finish).current
        (parseWhole tokens finish).progress.last (parseWhole tokens finish).parts ∧
      (parseWhole tokens finish).progress.errors = [] ∧ (parseWhole tokens finish).failure = .none := by
  have follows : (parseWhole tokens finish).Follows (.start tokens finish) := parseForm_follows _ _ _ .whole
  have faithful := parseWhole_faithful proper
  simp only [parseTokens, reverse_eq_nil_iff] at none ⊢
  rw [← parseWhole] at none ⊢
  generalize parseWhole tokens finish = inner at *
  cases failed : inner.failure with
  | some failure =>
    simp only [failed] at none
    exact absurd none (faithful.recover_errors follows failed)
  | none =>
    simp only [failed, append_nil] at none ⊢
    exact ⟨trivial, none, trivial⟩

theorem parseTokens_unfailed
    (none : (parseTokens .grammarSpec tokens finish).errors = []) :
    ∃ children stop, (parseTokens .grammarSpec tokens finish).tree =
        .phrase .grammarSpec (Progress.start tokens finish).current stop children ∧
      Fits Category.grammarSpec.form children ∧ Tree.tokensOf children = tokens ++ [finish] := by
  obtain ⟨tree, none, unfailed⟩ := parseTokens_whole proper none
  obtain ⟨fits, taken, ahead, leaves, atEnd⟩ := (parseWhole_faithful proper none).2 unfailed
  rw [atEnd rfl, append_nil] at ahead
  refine ⟨_, _, tree, fits, ?_⟩
  rw [leaves, ← ahead]
  rfl

/-- What the rules derive is parsed without an error. -/
theorem parseTokens_of_derives
    (derives : Derives Category.grammarSpec.form (tokens.map (·.kind) ++ [.endOfFile])) :
    (parseTokens .grammarSpec tokens finish).errors = [] := by
  have ending : finish.kind = .endOfFile := proper.finish
  have passed := (settles_start .grammarSpec tokens ending).passed ⟨.whole, trivial⟩ proper rfl rfl
    derives.accepts_form
  rw [parseAll_singleton] at passed
  obtain ⟨unfailed, errors, -⟩ := passed
  simp only [parseTokens, unfailed, errors]
  rfl

end

def mainTokens (text : List Char) : List Token :=
  (Lexical.scan text).tokens.filter (·.channel == .main)

theorem start_proper (text : List Char) :
    (Progress.start (mainTokens text) (.endOfFile (Lexical.scan text).finish)).Proper :=
  ⟨rfl, fun token mem => Lexical.scan_kind_ne text token (mem_filter.mp mem).1⟩

theorem parse_derivation {text : List Char} (faultless : (parse .grammarSpec text).errors = []) :
    (parse .grammarSpec text).tree.IsDerivation .grammarSpec ∧
      (parse .grammarSpec text).tree.tokens = mainTokens text ++ [.endOfFile (Lexical.scan text).finish] := by
  obtain ⟨children, stop, same, fits, leaves⟩ := parseTokens_unfailed (start_proper text) faultless
  exact ⟨⟨_, stop, children, same, fits⟩, (congrArg Tree.tokens same).trans leaves⟩

/-- The parser accepts exactly what the rules derive. What it accepts it returns as a derivation, whose
leaves are the tokens of the text and the end of the file. -/
theorem parse_accepts_exactly (text : List Char) :
    ((parse .grammarSpec text).errors = [] ↔
      Derives Category.grammarSpec.form ((mainTokens text).map (·.kind) ++ [.endOfFile])) ∧
    ((parse .grammarSpec text).errors = [] →
      (parse .grammarSpec text).tree.IsDerivation .grammarSpec ∧
      (parse .grammarSpec text).tree.tokens =
        mainTokens text ++ [.endOfFile (Lexical.scan text).finish]) := by
  have proper := start_proper text
  refine ⟨⟨fun none => ?_, fun derives => parseTokens_of_derives proper derives⟩, fun none => ?_⟩
  · obtain ⟨children, stop, -, fits, leaves⟩ := parseTokens_unfailed proper none
    simpa [leaves, Token.endOfFile] using fits.derives
  · obtain ⟨children, stop, tree, fits, leaves⟩ := parseTokens_unfailed proper none
    refine ⟨⟨_, stop, children, tree, fits⟩, ?_⟩
    rw [← leaves]
    exact congrArg Tree.tokens tree

end GrammarLint.Phrase
