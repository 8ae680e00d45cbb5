import GrammarLint.Proofs.ParserSteps

open List

namespace GrammarLint.Phrase

open Lexical (Kind Token)

def failurePoints : List Point :=
  Category.all.flatMap fun cat => (range 19).map fun index => ⟨cat, index⟩

theorem mem_failurePoints {point : Point} (bound : point.index < 19) : point ∈ failurePoints :=
  mem_flatMap.mpr ⟨point.category, mem_all _, mem_map.mpr
    ⟨point.index, mem_range.mpr bound, rfl⟩⟩

theorem failurePoints_length : failurePoints.length = 1273 := by
  simp [failurePoints, Category.all]

/-- The numbers of a form are small. -/
def Form.numbered : Form → Bool
  | .token index _ | .oneOf index _ | .call index _ | .choice index _ _ | .optional index _ _ =>
    index < 19
  | .star index back _ _ _ | .plus index back _ => index < 19 && back < 19
  | .rounds back _ _ _ => back < 19
  | .empty | .seq _ _ | .alt _ _ => true

variable {cat : Category} {rest forms : List Form} {point : Point} {p : Progress} {calls : List Point}
  (fits : Kind → Bool) {form : Form}

theorem InPlace.numbered (inPlace : InPlace cat rest form) : form.numbered = true := by
  refine inPlace.check (fun _ _ form => form.numbered) ?_
  decide +kernel

namespace Progress

/-- How often the parser can still recover before it has to take a token. -/
def retries (p : Progress) : Nat :=
  match p.ahead, p.recovered with
  | [], _ => 0
  | _ :: _, none => failurePoints.length + 1
  | _ :: _, some (taken, points) =>
    if taken = p.taken then (failurePoints.filter fun point => !points.contains point).length
    else failurePoints.length + 1

/-- How much the parser can still do: every token counts for more than all recoveries in front of
it. -/
def budget (p : Progress) : Nat := depthPerToken * p.ahead.length + p.retries

/-- What every token taken leaves room for. -/
def room : Nat := depthPerToken - (failurePoints.length + 1)

theorem room_pos : 0 < room := by
  simp [room, depthPerToken, failurePoints_length]

theorem retries_le (p : Progress) : p.retries ≤ failurePoints.length + 1 := by
  unfold retries
  split
  · exact Nat.zero_le _
  · exact Nat.le_refl _
  · split
    · exact Nat.le_trans (length_filter_le _ _) (Nat.le_add_right _ _)
    · exact Nat.le_refl _

variable {p q : Progress}

theorem budget_of_nil (ended : p.ahead = []) : p.budget = 0 := by
  simp [budget, retries, ended]

/-- The parser has come from one progress to the other. -/
structure After (p q : Progress) : Prop where
  finish : q.finish = p.finish
  errors : p.errors <:+ q.errors
  ahead : q.ahead <:+ p.ahead
  budget : q.budget ≤ p.budget

theorem After.refl (p : Progress) : p.After p :=
  ⟨rfl, suffix_refl _, suffix_refl _, Nat.le_refl _⟩

theorem After.trans {r : Progress} (first : p.After q) (second : q.After r) : p.After r :=
  ⟨second.finish.trans first.finish, first.errors.trans second.errors,
    second.ahead.trans first.ahead, Nat.le_trans second.budget first.budget⟩

/-- Where tokens were taken, there is room for all that may be done in front of the next. -/
theorem budget_of_shorter (ahead : q.ahead <:+ p.ahead) (differ : q.ahead ≠ p.ahead) :
    q.budget + room ≤ p.budget := by
  have shorter : q.ahead.length < p.ahead.length :=
    Nat.lt_of_le_of_ne ahead.length_le fun same => differ (ahead.eq_of_length same)
  have few := q.retries_le
  simp only [budget, room, depthPerToken, failurePoints_length] at few ⊢
  omega

theorem After.of_shorter (finish : q.finish = p.finish) (errors : p.errors <:+ q.errors)
    (ahead : q.ahead <:+ p.ahead) (differ : q.ahead ≠ p.ahead) : p.After q :=
  ⟨finish, errors, ahead, Nat.le_trans (Nat.le_add_right _ _) (budget_of_shorter ahead differ)⟩

theorem After.room (after : p.After q) : q.ahead = p.ahead ∨ q.budget + room ≤ p.budget :=
  Classical.or_iff_not_imp_left.mpr fun differ => budget_of_shorter after.ahead differ

theorem After.of_nil (finish : q.finish = p.finish) (errors : p.errors <:+ q.errors)
    (ended : p.ahead = []) (same : q.ahead = []) : p.After q :=
  ⟨finish, errors, by simp [ended, same], by simp [budget_of_nil same]⟩

/-- Only what the budget depends on has to stay the same. -/
theorem After.of_same (finish : q.finish = p.finish) (errors : p.errors <:+ q.errors)
    (ahead : q.ahead = p.ahead) (taken : q.taken = p.taken) (recovered : q.recovered = p.recovered) :
    p.After q :=
  ⟨finish, errors, ahead ▸ suffix_refl _, by
    simp [Progress.budget, retries, ahead, taken, recovered]⟩

theorem take_ahead (p : Progress) : p.take.ahead = p.ahead.tail := by
  unfold take
  split <;> rename_i same <;> simp [same]

theorem take_finish (p : Progress) : p.take.finish = p.finish := by
  unfold take
  split <;> rfl

theorem take_errors (p : Progress) : p.take.errors = p.errors := by
  unfold take
  split <;> rfl

theorem report_after (token : Token) (p : Progress) : p.After (p.report token) := by
  unfold report
  split
  · exact .refl p
  · exact .of_same rfl (suffix_cons _ _) rfl rfl rfl

/-- Whatever else changes, a token is taken, or the file is at its end. -/
theorem After.of_tail (finish : q.finish = p.finish) (errors : q.errors = p.errors)
    (ahead : q.ahead = p.ahead.tail) : p.After q := by
  have kept : p.errors <:+ q.errors := errors ▸ suffix_refl _
  cases tokens : p.ahead with
  | nil => exact .of_nil finish kept tokens (by rw [ahead, tokens]; rfl)
  | cons token later =>
    rw [tokens] at ahead
    refine .of_shorter finish kept (by rw [tokens, ahead]; exact suffix_cons _ _) ?_
    rw [tokens, ahead]
    exact fun same => absurd (congrArg length same) (by simp)

theorem take_after (p : Progress) : p.After p.take :=
  .of_tail p.take_finish p.take_errors p.take_ahead

theorem matched_take_after (p : Progress) : p.After p.matched.take :=
  .of_tail p.matched.take_finish p.matched.take_errors p.matched.take_ahead

theorem take_matched_after (p : Progress) : p.After p.take.matched :=
  .of_tail p.take_finish p.take_errors p.take_ahead

end Progress

theorem skipUntil_ahead (p : Progress) : (skipUntil fits p).2.ahead <:+ p.ahead :=
  drop_suffix _ _

theorem skipUntil_after (p : Progress) : p.After (skipUntil fits p).2 := by
  by_cases same : (skipUntil fits p).2.ahead = p.ahead
  · have none : (p.ahead.takeWhile fun token => !fits token.kind).length = 0 := by
      have length := congrArg length same
      have bound := (takeWhile_sublist (l := p.ahead) fun token => !fits token.kind).length_le
      simp only [skipUntil, length_drop] at length
      omega
    exact .of_same rfl (suffix_refl _) same (by simp [skipUntil, none]) rfl
  · exact .of_shorter rfl (suffix_refl _) (skipUntil_ahead fits p) same

/-- The same place and token as at an earlier recovery. -/
def repeated (failure : Failure) (p : Progress) : Bool :=
  match p.recovered with
  | some (taken, points) => taken == p.taken && points.contains failure.point
  | none => false

/-- The progress with a recovery noted, where a repeated one takes a token first. -/
def noted (failure : Failure) (p : Progress) : Progress :=
  let p := if repeated failure p then p.take else p
  { p with recovered := some (p.taken, failure.point :: match p.recovered with
    | some (_, points) => points
    | none => []) }

/-- Recovering drops a token where it is repeated, and then all tokens up to one that may follow. -/
theorem recover_eq (calls : List Point) (failure : Failure) (p : Progress) :
    recover calls failure p =
      ((if repeated failure (p.report failure.token) then
          [Tree.error (p.report failure.token).current] else []) ++
        (skipUntil (resumes calls) (noted failure (p.report failure.token))).1,
      (skipUntil (resumes calls) (noted failure (p.report failure.token))).2) := by
  have dropped : ∀ (again : Bool) (q : Progress), (if again = true then [Tree.error q.current] else []) =
      (if again = true then ([Tree.error q.current], q.take) else ([], q)).1 := by
    intro again q
    cases again <;> rfl
  have left : ∀ (again : Bool) (q : Progress), (if again = true then q.take else q) =
      (if again = true then ([Tree.error q.current], q.take) else ([], q)).2 := by
    intro again q
    cases again <;> rfl
  unfold noted
  rw [dropped, left]
  rfl

theorem recover_progress (calls : List Point) (failure : Failure) (p : Progress) :
    (recover calls failure p).2 =
      (skipUntil (resumes calls) (noted failure (p.report failure.token))).2 := by
  rw [recover_eq]

theorem fewer_points {points : List Point} (known : point ∈ failurePoints) (fresh : point ∉ points) :
    (failurePoints.filter fun other => !(point :: points).contains other).length <
      (failurePoints.filter fun other => !points.contains other).length := by
  have split : (failurePoints.filter fun other => !(point :: points).contains other) =
      (failurePoints.filter fun other => !points.contains other).filter fun other =>
        !decide (other = point) := by
    rw [filter_filter]
    simp
  rw [split, length_filter_lt_length_iff_exists]
  exact ⟨point, mem_filter.mpr ⟨known, by simpa using fresh⟩, by simp⟩

theorem noted_retries {failure : Failure} (known : failure.point ∈ failurePoints)
    (fresh : repeated failure p = false) (more : p.ahead ≠ []) :
    (noted failure p).retries < p.retries := by
  obtain ⟨token, later, ahead⟩ := exists_cons_of_ne_nil more
  have few : ∀ points : List Point,
      (failurePoints.filter fun other => !points.contains other).length < failurePoints.length + 1 :=
    fun points => Nat.lt_add_one_of_le (length_filter_le _ _)
  cases recovered : p.recovered with
  | none => simpa [Progress.retries, noted, fresh, ahead, recovered] using few [failure.point]
  | some noted' =>
    obtain ⟨taken, points⟩ := noted'
    by_cases same : taken = p.taken
    · simp only [repeated, recovered, same, BEq.rfl, Bool.true_and, contains_eq_mem,
        decide_eq_false_iff_not] at fresh
      have fewer := fewer_points known fresh
      simp [Progress.retries, noted, repeated, recovered, ahead, same, fresh] at fewer ⊢
      exact fewer
    · simpa [Progress.retries, noted, fresh, ahead, recovered, same] using few (failure.point :: points)

/-- A recovery takes tokens or is noted, so it cannot go on for ever. -/
theorem noted_after (failure : Failure) (p : Progress) (known : failure.point ∈ failurePoints) :
    p.After (noted failure p) ∧ (p.ahead ≠ [] → (noted failure p).budget < p.budget) := by
  cases again : repeated failure p with
  | true =>
    have ahead : (noted failure p).ahead = p.ahead.tail := by simp [noted, again, p.take_ahead]
    have finish : (noted failure p).finish = p.finish := by simp [noted, again, p.take_finish]
    have errors : (noted failure p).errors = p.errors := by simp [noted, again, p.take_errors]
    have after := Progress.After.of_tail finish errors ahead
    refine ⟨after, fun more => ?_⟩
    rcases after.room with same | room
    · exact absurd (ahead.symm.trans same) (by cases tokens : p.ahead <;> simp_all)
    · have positive := Progress.room_pos
      omega
  | false =>
    have ahead : (noted failure p).ahead = p.ahead := by simp [noted, again]
    have finish : (noted failure p).finish = p.finish := by simp [noted, again]
    have errors : p.errors <:+ (noted failure p).errors := by simp [noted, again]
    have strict : p.ahead ≠ [] → (noted failure p).budget < p.budget := by
      intro more
      have fewer := noted_retries known again more
      simp only [Progress.budget, ahead]
      omega
    refine ⟨?_, strict⟩
    by_cases ended : p.ahead = []
    · exact .of_nil finish errors ended (ahead.trans ended)
    · exact ⟨finish, errors, ahead ▸ suffix_refl _, Nat.le_of_lt (strict ended)⟩

theorem recover_after {calls : List Point} {failure : Failure} {p : Progress}
    (known : failure.point ∈ failurePoints) :
    p.After (recover calls failure p).2 ∧
      (p.ahead ≠ [] → (recover calls failure p).2.budget < p.budget) := by
  rw [recover_progress]
  have reported := p.report_after failure.token
  obtain ⟨after, strict⟩ := noted_after failure (p.report failure.token) known
  have skipped := skipUntil_after (resumes calls) (noted failure (p.report failure.token))
  refine ⟨(reported.trans after).trans skipped, fun more => ?_⟩
  have same : (p.report failure.token).ahead = p.ahead := by
    unfold Progress.report
    split <;> rfl
  exact Nat.lt_of_le_of_lt skipped.budget (Nat.lt_of_lt_of_le (strict (same ▸ more)) reported.budget)

/-- What holds of all that the parser can do from a progress on: of each single thing it does, and of what
it does behind that. -/
structure Steady (holds : Progress → Parsed → Prop) : Prop where
  stay (p : Progress) : holds p (.ok [] p)
  fail {point : Point} (known : point ∈ failurePoints) (token : Token) (p : Progress) :
    holds p (.failed point token [] p)
  take (p : Progress) : holds p (.ok [.leaf p.current] p.matched.take)
  drop (token : Token) (p : Progress) : holds p (.ok [.error p.current] (p.report token).take)
  resync (token : Token) (p : Progress) : holds p (.ok [.error p.current] (p.report token).take.matched)
  fill {parts : List Tree} (errors : ∀ tree ∈ parts, ∃ token, tree = .error token) (token : Token)
    (p : Progress) : holds p (.ok parts (p.report token))
  skip (fits : Kind → Bool) (token : Token) (p : Progress) :
    holds p (.ok (skipUntil fits (p.report token)).1 (skipUntil fits (p.report token)).2)
  behind {p : Progress} {parsed later : Parsed} (unfailed : parsed.failure = none) (here : holds p parsed)
    (there : holds parsed.progress later) : holds p (later.behind parsed.parts)
  enter {cat callee : Category} {calls : List Point} {index : Nat} {p : Progress} {inner : Parsed}
    (inside : holds p inner) : holds p (entered cat calls index callee p inner)

namespace Steady

variable {holds : Progress → Parsed → Prop} {parsed : Parsed} (steady : Steady holds) {form : Form}

include steady

theorem andThen {next : Progress → Parsed} (here : holds p parsed) (later : ∀ q, holds q (next q)) :
    holds p (parsed.andThen next) := by
  cases failed : parsed.failure with
  | some failure => rwa [Parsed.andThen_of_some failed]
  | none =>
    rw [Parsed.andThen_of_none failed]
    exact steady.behind failed here (later parsed.progress)

theorem goThen {synced : Parsed} {next : Progress → Parsed × List Form} (here : holds p synced)
    (later : ∀ q, holds q (next q).1) (same : synced.goThen next = .go parsed forms) : holds p parsed := by
  rcases goThen_eq same with ⟨-, rfl, -⟩ | ⟨unfailed, rfl, -⟩
  · exact here
  · exact steady.behind unfailed here (later synced.progress)

theorem expectToken {kinds : List Kind} {fill : Progress → List Tree} (known : point ∈ failurePoints)
    (errors : ∀ tree ∈ fill p, ∃ token, tree = .error token) :
    holds p (expectToken point kinds fill rest calls p) := by
  unfold Phrase.expectToken
  split
  · exact steady.take p
  · split
    · exact steady.behind rfl (steady.drop _ p) (steady.take _)
    · split
      · exact steady.fill errors _ p
      · exact steady.fail known _ p

theorem sync (known : point ∈ failurePoints) : holds p (sync point forms calls p) := by
  unfold Phrase.sync
  simp only
  split
  · exact steady.stay p
  · split
    · exact steady.resync _ p
    · exact steady.fail known _ p

theorem syncBack : holds p (syncBack point forms calls p) := by
  unfold Phrase.syncBack
  simp only
  split
  · exact steady.stay p
  · exact steady.skip _ _ p

theorem goEntered {index : Nat} {lookahead : Lookahead} {greedy : Bool} (bound : index < 19) (q : Progress) :
    holds q (goEntered cat rest calls index lookahead greedy forms q).1 := by
  rcases goEntered_eq q with ⟨token, same⟩ | same | ⟨same, -⟩
  · exact same ▸ steady.fail (mem_failurePoints bound) token q
  · exact same ▸ steady.stay q
  · exact same ▸ steady.stay q

theorem step (inPlace : InPlace cat rest form)
    (stepped : step cat rest calls p form = .go parsed forms) : holds p parsed := by
  have numbered := inPlace.numbered
  cases form with
  | empty | seq _ _ | alt _ _ => cases stepped; exact steady.stay p
  | token index _ | oneOf index _ =>
    cases stepped
    exact steady.expectToken (mem_failurePoints (of_decide_eq_true numbered)) (by simp)
  | call index callee => simp [Phrase.step] at stepped
  | choice index lookahead alternatives =>
    have known := @mem_failurePoints ⟨cat, index⟩ (of_decide_eq_true numbered)
    refine steady.goThen (steady.sync known) (fun q => ?_) stepped
    rcases goChosen_eq q with ⟨token, same⟩ | ⟨_, -, same, -⟩
    · exact same ▸ steady.fail known token q
    · exact same ▸ steady.stay q
  | optional index lookahead f =>
    have bound := of_decide_eq_true numbered
    exact steady.goThen (steady.sync (mem_failurePoints bound)) (steady.goEntered bound) stepped
  | star index back lookahead greedy f =>
    have bound := of_decide_eq_true (Bool.and_eq_true_iff.mp numbered).1
    exact steady.goThen (steady.sync (mem_failurePoints bound)) (steady.goEntered bound) stepped
  | plus index back f =>
    have bound := of_decide_eq_true (Bool.and_eq_true_iff.mp numbered).1
    unfold Phrase.step at stepped
    exact steady.goThen (steady.sync (mem_failurePoints bound)) steady.stay stepped
  | rounds back lookahead greedy f =>
    exact steady.goThen steady.syncBack (steady.goEntered (of_decide_eq_true numbered)) stepped

theorem parseAll {fuel : Nat} (each : ∀ {rest form} (p : Progress), InPlace cat rest form →
      holds p (parseForm cat rest calls p fuel form))
    (allIn : InPlaceAll cat rest forms) (p : Progress) :
    holds p (parseAll cat rest calls fuel forms p) := by
  induction forms generalizing p with
  | nil => exact steady.stay p
  | cons form forms ih => exact steady.andThen (each p allIn.1) (ih allIn.2)

theorem parseForm (p : Progress) (fuel : Nat) (inPlace : InPlace cat rest form) :
    holds p (parseForm cat rest calls p fuel form) := by
  induction fuel generalizing cat rest calls form p with
  | zero => exact steady.fail (mem_failurePoints (Nat.zero_lt_succ 18)) _ p
  | succ fuel ih =>
    rw [parseForm_succ]
    cases stepped : Phrase.step cat rest calls p form with
    | enter index callee => exact steady.enter (ih p .whole)
    | go parsed forms =>
      exact steady.andThen (steady.step inPlace stepped) (steady.parseAll ih (step_inPlace inPlace stepped))

end Steady

/-- The parser has come on from a progress, and if it failed, where it may fail. -/
structure Parsed.Follows (p : Progress) (parsed : Parsed) : Prop where
  after : p.After parsed.progress
  known : ∀ failure, parsed.failure = some failure → failure.point ∈ failurePoints

namespace Parsed.Follows

variable {p : Progress} {parsed : Parsed} {parts : List Tree}

theorem ok {q : Progress} (after : p.After q) : (ok parts q).Follows p :=
  ⟨after, fun _ same => by simp [Parsed.ok] at same⟩

theorem failed {token : Token} (known : point ∈ failurePoints) :
    (failed point token parts p).Follows p :=
  ⟨.refl p, fun _ same => by cases same; exact known⟩

end Parsed.Follows

theorem entered_follows {callee : Category} {index : Nat} {inner : Parsed} (follows : inner.Follows p) :
    (entered cat calls index callee p inner).Follows p := by
  cases failed : inner.failure with
  | none =>
    rw [entered_of_none failed]
    exact .ok follows.after
  | some failure =>
    obtain ⟨unfailed, same⟩ := entered_of_some failed
    refine ⟨?_, fun other => by rw [unfailed]; simp⟩
    rw [same]
    exact follows.after.trans (recover_after (follows.known failure failed)).1

theorem follows_steady : Steady fun p parsed => parsed.Follows p where
  stay p := .ok (.refl p)
  fail known _ _ := .failed known
  take p := .ok p.matched_take_after
  drop token p := .ok ((p.report_after token).trans (Progress.take_after _))
  resync token p := .ok ((p.report_after token).trans (Progress.take_matched_after _))
  fill _ token p := .ok (p.report_after token)
  skip fits token p := .ok ((p.report_after token).trans (skipUntil_after fits _))
  behind _ here there := ⟨here.after.trans there.after, there.known⟩
  enter inside := entered_follows inside

theorem sync_follows (point : Point) (forms : List Form) (calls : List Point) (p : Progress)
    (known : point ∈ failurePoints) : (sync point forms calls p).Follows p := follows_steady.sync known

theorem step_follows {parsed : Parsed} (inPlace : InPlace cat rest form)
    (stepped : step cat rest calls p form = .go parsed forms) : parsed.Follows p :=
  follows_steady.step inPlace stepped

theorem parseForm_follows {cat : Category} {rest : List Form} {form : Form} (calls : List Point)
    (p : Progress) (fuel : Nat) (inPlace : InPlace cat rest form) :
    (parseForm cat rest calls p fuel form).Follows p := follows_steady.parseForm p fuel inPlace

theorem parseAll_after (allIn : InPlaceAll cat rest forms) (calls : List Point) (fuel : Nat)
    (p : Progress) : p.After (parseAll cat rest calls fuel forms p).progress :=
  (follows_steady.parseAll (fun q inPlace => parseForm_follows calls q fuel inPlace) allIn p).after

end GrammarLint.Phrase
