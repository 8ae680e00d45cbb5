import GrammarLint.Proofs.Acceptance

open List

namespace GrammarLint.Phrase

open Lexical (Kind Token)

/-- Every phrase in a tree begins at its first token and ends at its last one, if it has any. -/
inductive Tree.Bounded : Tree → Prop
  | leaf {token : Token} : Bounded (.leaf token)
  | error {token : Token} : Bounded (.error token)
  | phrase {cat : Category} {start : Token} {stop : Option Token} {children : List Tree} :
      (∀ token ∈ (tokensOf children).head?, token = start) →
      (∀ token ∈ (tokensOf children).getLast?, stop = some token) →
      (∀ child ∈ children, Bounded child) → Bounded (.phrase cat start stop children)

namespace Progress

/-- Tokens have been taken from one progress to the other, and the last of them is known. -/
def Reaches (p q : Progress) : Prop :=
  ∃ taken, p.ahead = taken ++ q.ahead ∧ q.last = taken.getLast?.or p.last

theorem Reaches.refl (p : Progress) : p.Reaches p := ⟨[], rfl, rfl⟩

variable {p q : Progress}

theorem Reaches.trans {r : Progress} (first : p.Reaches q) (second : q.Reaches r) : p.Reaches r := by
  obtain ⟨us, ahead, last⟩ := first
  obtain ⟨vs, ahead', last'⟩ := second
  refine ⟨us ++ vs, by rw [ahead, ahead', append_assoc], ?_⟩
  rw [last', last, getLast?_append, Option.or_assoc]

theorem reaches_take (p : Progress) : p.Reaches p.matched.take := by
  cases ahead : p.ahead with
  | nil => exact ⟨[], by simp [take, matched, ahead], by simp [take, matched, ahead]⟩
  | cons token later => exact ⟨[token], by simp [take, matched, ahead], by simp [take, matched, ahead]⟩

/-- The last token taken. -/
theorem Reaches.last (reaches : p.Reaches q) {taken : List Token}
    (ahead : p.ahead = taken ++ q.ahead) : ∀ token ∈ taken.getLast?, q.last = some token := by
  obtain ⟨others, same, last⟩ := reaches
  obtain rfl := append_cancel_right (ahead.symm.trans same)
  intro token isLast
  rw [last, Option.mem_def.mp isLast, Option.some_or]

end Progress

/-- Where nothing is reported and all is parsed, the phrases found have their bounds, and the last token
taken is known. -/
def Parsed.Bounded (p : Progress) (parsed : Parsed) : Prop :=
  parsed.progress.errors = [] → parsed.failure = none →
    (∀ tree ∈ parsed.parts, tree.Bounded) ∧ p.Reaches parsed.progress

variable {p : Progress} {parsed : Parsed}

theorem Parsed.Bounded.of_still (nothing : parsed.parts = []) (same : parsed.progress = p) :
    parsed.Bounded p :=
  fun _ _ => ⟨by simp [nothing], same ▸ .refl _⟩

theorem Parsed.Bounded.andThen {next : Progress → Parsed}
    (after : parsed.progress.After (next parsed.progress).progress) (here : parsed.Bounded p)
    (later : parsed.progress.errors = [] → parsed.failure = none →
      (next parsed.progress).Bounded parsed.progress) :
    (parsed.andThen next).Bounded p := by
  intro none unfailed
  cases failed : parsed.failure with
  | some failure =>
    rw [Parsed.andThen_of_some failed] at unfailed
    simp [failed] at unfailed
  | none =>
    rw [Parsed.andThen_of_none failed] at none unfailed ⊢
    have early := after.errors_nil none
    obtain ⟨parts, reached⟩ := here early failed
    obtain ⟨parts', reached'⟩ := later early failed none unfailed
    exact ⟨forall_mem_append.mpr ⟨parts, parts'⟩, reached.trans reached'⟩

section Steps

variable {cat : Category} {rest : List Form} {calls : List Point} {p : Progress}

/-- A token that is expected is taken as a leaf. -/
theorem expectToken_bounded {point : Point} {kinds : List Kind} {fill : Progress → List Tree}
    (calm : p.recovering = false) : (expectToken point kinds fill rest calls p).Bounded p := by
  intro none unfailed
  rcases expectToken_unreported calm none with ⟨-, same⟩ | same
  · rw [same]
    exact ⟨by simp [Parsed.ok, Tree.Bounded.leaf], p.reaches_take⟩
  · rw [same] at unfailed
    simp [Parsed.failed] at unfailed

variable {parsed : Parsed} {forms : List Form}

theorem goThen_bounded {synced : Parsed} {next : Progress → Parsed × List Form}
    (quiet : Quiet p synced) (still : ∀ q, (next q).1.progress = q ∧ (next q).1.parts = [])
    (same : synced.goThen next = .go parsed forms) : parsed.Bounded p := by
  intro none unfailed
  rcases goThen_eq same with ⟨⟨failure, failed⟩, rfl, -⟩ | ⟨-, rfl, -⟩
  · simp [failed] at unfailed
  · obtain ⟨progress, parts⟩ := still synced.progress
    rcases quiet with reported | ⟨nothing, isP⟩
    · exact absurd (by simpa [Parsed.behind, progress] using none) reported
    · exact Parsed.Bounded.of_still (by simp [Parsed.behind, nothing, parts]) (progress.trans isP) none unfailed

/-- A step takes no phrase, and at most one token. -/
theorem step_bounded {form : Form} (calm : p.recovering = false)
    (stepped : step cat rest calls p form = .go parsed forms) : parsed.Bounded p := by
  cases form with
  | empty | seq _ _ | alt _ _ => cases stepped; exact .of_still rfl rfl
  | token index kind | oneOf index kinds => cases stepped; exact expectToken_bounded calm
  | call index callee => simp [step] at stepped
  | choice index lookahead alternatives => exact goThen_bounded (sync_quiet calm) goChosen_still stepped
  | optional index lookahead f => exact goThen_bounded (sync_quiet calm) goEntered_still stepped
  | star index back lookahead greedy f => exact goThen_bounded (sync_quiet calm) goEntered_still stepped
  | rounds back lookahead greedy f => exact goThen_bounded (syncBack_quiet calm) goEntered_still stepped
  | plus index back f =>
    unfold step at stepped
    exact goThen_bounded (sync_quiet calm) (fun _ => ⟨rfl, rfl⟩) stepped

/-- A phrase begins where it is entered and ends where it is left. -/
theorem entered_bounded {index : Nat} {callee : Category} {inner : Parsed} (follows : inner.Follows p)
    (faithful : Faithful p false (Fits callee.form) inner) (within : inner.Bounded p) :
    (entered cat calls index callee p inner).Bounded p := by
  intro none unfailed
  cases failed : inner.failure with
  | some failure =>
    rw [(entered_of_some failed).2] at none
    exact absurd none (faithful.recover_errors follows failed)
  | none =>
    rw [entered_of_none failed] at none ⊢
    obtain ⟨-, taken, ahead, tokens, -⟩ := (faithful none).2 failed
    obtain ⟨parts, reached⟩ := within none failed
    rw [if_neg Bool.false_ne_true, append_nil] at tokens
    simp only [Parsed.ok, mem_singleton, forall_eq]
    refine ⟨.phrase (fun token first => ?_) (tokens ▸ reached.last ahead) parts, reached⟩
    obtain ⟨more, same⟩ := head?_eq_some_iff.mp (tokens ▸ first)
    simp [Progress.current, ahead, same]

theorem parseAll_bounded {fuel : Nat}
    (each : ∀ {rest form} {p : Progress}, InPlace cat rest form → p.Proper → p.recovering = false →
      (parseForm cat rest calls p fuel form).Bounded p)
    (allIn : InPlaceAll cat rest forms) (proper : p.Proper) (calm : p.recovering = false) :
    (parseAll cat rest calls fuel forms p).Bounded p := by
  induction forms generalizing p with
  | nil => exact .of_still rfl rfl
  | cons form forms ih =>
    have after := (parseForm_follows calls p fuel allIn.1).after
    refine (each allIn.1 proper calm).andThen (parseAll_after allIn.2 calls fuel _) fun none _ => ?_
    exact ih allIn.2 (after.proper proper) (parseForm_faithful allIn.1 proper calm none).1

end Steps

theorem parseForm_bounded {cat : Category} {rest : List Form} {calls : List Point}
    {form : Form} {fuel : Nat} (inPlace : InPlace cat rest form) (proper : p.Proper)
    (calm : p.recovering = false) : (parseForm cat rest calls p fuel form).Bounded p := by
  induction fuel generalizing cat rest calls form p with
  | zero => exact .of_still rfl rfl
  | succ fuel ih =>
    rw [parseForm_succ]
    cases stepped : step cat rest calls p form with
    | enter index callee =>
      cases step_enter stepped
      have closed : callee.form.endsFile = false := by simpa [Form.endsLast] using inPlace.endsLast
      exact entered_bounded (parseForm_follows _ p fuel .whole)
        (closed ▸ parseForm_faithful .whole proper calm) (ih .whole proper calm)
    | go parsed forms =>
      have allIn := step_inPlace inPlace stepped
      have here := step_bounded calm stepped
      refine here.andThen (parseAll_after allIn calls fuel parsed.progress) fun none _ => ?_
      rcases step_stepped inPlace proper calm stepped with ⟨rfl, -⟩ | ⟨reported | ⟨-, same⟩, -⟩
      · exact .of_still rfl rfl
      · exact absurd none reported
      · rw [same]
        exact parseAll_bounded ih allIn proper calm

/-- In a file without syntax errors the phrases have their bounds, but for that of the whole file, which
does not end with the end of the file. -/
theorem parseTokens_bounded {tokens : List Token} {finish : Token}
    (proper : (Progress.start tokens finish).Proper)
    (none : (parseTokens .grammarSpec tokens finish).errors = []) :
    ∀ child ∈ (parseTokens .grammarSpec tokens finish).tree.children, child.Bounded := by
  obtain ⟨tree, none, unfailed⟩ := parseTokens_whole proper none
  rw [tree]
  exact (parseForm_bounded .whole proper rfl none unfailed).1

end GrammarLint.Phrase
