import GrammarLint.Proofs.PhraseEnds

open List

namespace GrammarLint

open Lexical (Kind Token Position)

/-- Other places and other texts for the tokens of a file; what is put in for a missing token has its text
still. A parser that comes to the changed tokens may have taken some tokens and reported some errors more. -/
structure Phrase.Change where
  place : Position → Position
  text : Kind → String → String
  taken : Nat
  errors : List Position
  text_missing : ∀ kind : Kind, text kind ("<missing " ++ kind.spelling ++ ">") =
    "<missing " ++ kind.spelling ++ ">"

def Lexical.Token.change (c : Phrase.Change) (token : Token) : Token :=
  { token with text := c.text token.kind token.text, position := c.place token.position }

@[simp] theorem Lexical.Token.change_kind (c : Phrase.Change) (token : Token) :
    (token.change c).kind = token.kind := rfl

namespace Phrase

variable (c : Change)

mutual
/-- The tree of the changed tokens. -/
def Tree.change : Tree → Tree
  | .phrase cat start stop children =>
    .phrase cat (start.change c) (stop.map (Token.change c)) (changeAll children)
  | .leaf token => .leaf (token.change c)
  | .error token => .error (token.change c)

def Tree.changeAll : List Tree → List Tree
  | [] => []
  | tree :: rest => tree.change :: changeAll rest
end

@[simp] theorem Tree.changeAll_eq_map (trees : List Tree) :
    Tree.changeAll c trees = trees.map (Tree.change c) := by
  induction trees with
  | nil => rfl
  | cons tree rest ih => rw [Tree.changeAll, ih, map_cons]

def Verdict.change : Verdict → Verdict
  | .take alternative => .take alternative
  | .unfit token => .unfit (token.change c)

/-- The parser with other tokens, and with tokens and errors before them. -/
def Progress.change (p : Progress) : Progress :=
  { p with
    ahead := p.ahead.map (Token.change c)
    finish := p.finish.change c
    last := p.last.map (Token.change c)
    taken := p.taken + c.taken
    errors := p.errors.map c.place ++ c.errors
    recovered := p.recovered.map fun entry => (entry.1 + c.taken, entry.2) }

def Failure.change (failure : Failure) : Failure :=
  { failure with token := failure.token.change c }

def Parsed.change (parsed : Parsed) : Parsed where
  parts := parsed.parts.map (Tree.change c)
  progress := parsed.progress.change c
  failure := parsed.failure.map (Failure.change c)

def Step.change : Step → Step
  | .enter index callee => .enter index callee
  | .go parsed forms => .go (parsed.change c) forms

namespace Progress

variable (p : Progress)

theorem change_current : (p.change c).current = p.current.change c := by
  cases tokens : p.ahead <;> simp [current, change, tokens]

@[simp] theorem change_current_kind : (p.change c).current.kind = p.current.kind := by
  rw [change_current]
  rfl

@[simp] theorem change_second_kind : (p.change c).second.kind = p.second.kind := by
  rcases tokens : p.ahead with _ | ⟨token, _ | ⟨next, rest⟩⟩ <;> simp [second, change, tokens]

theorem change_take : (p.change c).take = p.take.change c := by
  cases tokens : p.ahead <;> simp [take, change, tokens, Nat.add_right_comm]

theorem change_matched : (p.change c).matched = p.matched.change c := rfl

theorem change_report (token : Token) :
    (p.change c).report (token.change c) = (p.report token).change c := by
  cases recovering : p.recovering <;> simp [report, change, recovering, Token.change]

end Progress

section Prediction

theorem ofFailure_change (bundles : List Bundle) (token : Token) :
    Verdict.ofFailure bundles (token.change c) = (Verdict.ofFailure bundles token).change c := by
  unfold Verdict.ofFailure
  split <;> rfl

variable (finish : Token)

theorem predictInContext_change (bundles : List Bundle) (ahead : List Token) :
    predictInContext (finish.change c) bundles (ahead.map (Token.change c)) =
      (predictInContext finish bundles ahead).change c := by
  induction ahead generalizing bundles with
  | nil =>
    simp only [map_nil, predictInContext, Token.change_kind]
    split
    · exact ofFailure_change c bundles finish
    · cases resolved (advance .actualCallers finish.kind bundles) <;> rfl
  | cons token ahead ih =>
    simp only [map_cons, predictInContext, Token.change_kind]
    split
    · exact ofFailure_change c bundles token
    · split
      · rfl
      · exact ih _

theorem predictAnywhere_change (bundles : List Bundle) (ahead : List Token) :
    predictAnywhere (finish.change c) bundles (ahead.map (Token.change c)) =
      (predictAnywhere finish bundles ahead).map (Verdict.change c) := by
  induction ahead generalizing bundles with
  | nil =>
    simp only [map_nil, predictAnywhere, Token.change_kind]
    split
    · rw [ofFailure_change, Option.map_some]
    · cases onlyAlternative (advance .anyCaller finish.kind bundles) <;> rfl
  | cons token ahead ih =>
    simp only [map_cons, predictAnywhere, Token.change_kind]
    split
    · rfl
    · split
      · rw [ofFailure_change, Option.map_some]
      · split
        · rfl
        · exact ih _

theorem predict_change (cat : Category) (calls : List Point) (alternatives : List First)
    (finish : Token) (ahead : List Token) :
    predict cat calls alternatives (finish.change c) (ahead.map (Token.change c)) =
      (predict cat calls alternatives finish ahead).change c := by
  unfold predict
  rw [predictAnywhere_change, predictInContext_change]
  cases predictAnywhere finish (openings .anyCaller cat [] alternatives) ahead <;> rfl

end Prediction

section Decisions

variable (point : Point) (calls : List Point) (p : Progress) (lookahead : Lookahead) (forms : List Form)
  (failure : Failure)

theorem decideBetween_change (alternatives : List First) :
    decideBetween lookahead point calls alternatives (p.change c) =
      (decideBetween lookahead point calls alternatives p).change c := by
  cases lookahead with
  | one =>
    simp only [decideBetween, Progress.change_current_kind]
    split
    · rfl
    · rw [Progress.change_current]
      rfl
  | full => exact predict_change ..

theorem decideEntry_change (greedy : Bool) (inside outside : First) :
    decideEntry lookahead greedy point calls inside outside (p.change c) =
      (decideEntry lookahead greedy point calls inside outside p).mapError (Token.change c) := by
  cases lookahead with
  | one =>
    simp only [decideEntry, Progress.change_current_kind]
    rfl
  | full =>
    have same := predict_change c point.category calls
      (if greedy then [inside, outside] else [outside, inside]) p.finish p.ahead
    simp only [decideEntry, Progress.change, same]
    cases predict point.category calls (if greedy then [inside, outside] else [outside, inside])
      p.finish p.ahead <;> rfl

theorem skipUntil_change (fits : Kind → Bool) :
    skipUntil fits (p.change c) =
      ((skipUntil fits p).1.map (Tree.change c), (skipUntil fits p).2.change c) := by
  have dropped : (p.change c).ahead.takeWhile (fun token => !fits token.kind) =
      (p.ahead.takeWhile fun token => !fits token.kind).map (Token.change c) :=
    takeWhile_map ..
  unfold skipUntil
  rw [dropped]
  simp [Progress.change, Tree.change, Option.map_or, Nat.add_right_comm]

theorem missing_change (kind : Kind) : missing kind (p.change c) = (missing kind p).change c := by
  rcases tokens : p.ahead with _ | ⟨first, rest⟩ <;> cases last : p.last <;>
    simp [missing, Progress.change, Progress.current, Token.change, tokens, last, c.text_missing]

theorem expectToken_change (kinds : List Kind) {fill : Progress → List Tree} (rest : List Form)
    (filled : fill (p.change c) = (fill p).map (Tree.change c)) :
    expectToken point kinds fill rest calls (p.change c) =
      (expectToken point kinds fill rest calls p).change c := by
  simp only [expectToken, Progress.change_current_kind, Progress.change_second_kind]
  split
  · rw [p.change_current, p.change_matched, Progress.change_take]
    rfl
  · split
    · simp only [Progress.change_current, Progress.change_report, Progress.change_take,
        Progress.change_matched]
      rfl
    · split
      · rw [filled, p.change_current, p.change_report]
        rfl
      · rw [p.change_current]
        rfl

theorem sync_change :
    sync point forms calls (p.change c) = (sync point forms calls p).change c := by
  have recovering : (p.change c).recovering = p.recovering := rfl
  simp only [sync, recovering, Progress.change_current_kind, Progress.change_second_kind]
  split
  · rfl
  · split
    · rw [p.change_current, p.change_report, Progress.change_take]
      rfl
    · rw [p.change_current]
      rfl

theorem syncBack_change :
    syncBack point forms calls (p.change c) = (syncBack point forms calls p).change c := by
  have recovering : (p.change c).recovering = p.recovering := rfl
  simp only [syncBack, recovering, Progress.change_current_kind]
  split
  · rfl
  · rw [p.change_current, p.change_report, skipUntil_change]
    rfl

theorem repeated_change :
    repeated (failure.change c) (p.change c) = repeated failure p := by
  rcases before : p.recovered with _ | ⟨taken, points⟩
  · simp [repeated, Progress.change, before]
  · have same : (taken + c.taken == p.taken + c.taken) = (taken == p.taken) := by
      simp
    simp [repeated, Failure.change, Progress.change, before, same]

theorem noted_change :
    noted (failure.change c) (p.change c) = (noted failure p).change c := by
  unfold noted
  rw [repeated_change]
  cases repeated failure p with
  | true =>
    simp only [if_true, p.change_take]
    cases before : p.take.recovered <;> simp [Progress.change, Failure.change, before]
  | false => cases before : p.recovered <;> simp [Progress.change, Failure.change, before]

theorem recover_change :
    recover calls (failure.change c) (p.change c) =
      ((recover calls failure p).1.map (Tree.change c), (recover calls failure p).2.change c) := by
  have token : (failure.change c).token = failure.token.change c := rfl
  simp only [recover_eq, token, p.change_report, noted_change, skipUntil_change, repeated_change,
    Progress.change_current]
  cases repeated failure (p.report failure.token) <;> simp [Tree.change]

end Decisions

section Steps

variable (cat : Category) (rest : List Form) (calls : List Point) (parsed : Parsed) (index : Nat)

theorem Parsed.behind_change (before : List Tree) (parsed : Parsed) :
    (parsed.change c).behind (before.map (Tree.change c)) = (parsed.behind before).change c := by
  simp [behind, change]

theorem Parsed.andThen_change {next other : Progress → Parsed}
    (later : ∀ p, other (p.change c) = (next p).change c) :
    (parsed.change c).andThen other = (parsed.andThen next).change c := by
  cases failed : parsed.failure with
  | some failure =>
    have moved : (parsed.change c).failure = some (failure.change c) := by simp [change, failed]
    rw [andThen_of_some failed, andThen_of_some moved]
  | none =>
    have moved : (parsed.change c).failure = none := by simp [change, failed]
    rw [andThen_of_none failed, andThen_of_none moved, ← behind_change, ← later]
    rfl

theorem Parsed.goThen_change {next : Progress → Parsed × List Form}
    (later : ∀ p, next (p.change c) = ((next p).1.change c, (next p).2)) :
    (parsed.change c).goThen next = (parsed.goThen next).change c := by
  cases failed : parsed.failure with
  | some failure =>
    have moved : (parsed.change c).failure = some (failure.change c) := by simp [change, failed]
    simp [goThen, failed, moved, Step.change]
  | none =>
    have moved : (parsed.change c).failure = none := by simp [change, failed]
    have progress : (parsed.change c).progress = parsed.progress.change c := rfl
    simp only [goThen, failed, moved, progress, later, Step.change, ← behind_change]
    rfl

theorem goChosen_change (lookahead : Lookahead) (alternatives : Form) (p : Progress) :
    goChosen cat rest calls index lookahead alternatives (p.change c) =
      ((goChosen cat rest calls index lookahead alternatives p).1.change c,
        (goChosen cat rest calls index lookahead alternatives p).2) := by
  unfold goChosen
  rw [decideBetween_change]
  cases decideBetween lookahead ⟨cat, index⟩ calls
    (alternatives.alternatives.map fun f => firstOf cat (f :: rest)) p <;> rfl

theorem goEntered_change (lookahead : Lookahead) (greedy : Bool) (forms : List Form)
    (p : Progress) :
    goEntered cat rest calls index lookahead greedy forms (p.change c) =
      ((goEntered cat rest calls index lookahead greedy forms p).1.change c,
        (goEntered cat rest calls index lookahead greedy forms p).2) := by
  unfold goEntered
  rw [decideEntry_change]
  cases decideEntry lookahead greedy ⟨cat, index⟩ calls (firstOf cat (forms ++ rest))
    (firstOf cat rest) p <;> rfl

/-- A step goes by the kinds of tokens only. -/
theorem step_change (p : Progress) (form : Form) :
    step cat rest calls (p.change c) form = (step cat rest calls p form).change c := by
  cases form with
  | empty | call _ _ | seq _ _ | alt _ _ => rfl
  | token index kind =>
    have filled : [Tree.error (missing kind (p.change c))] =
        [Tree.error (missing kind p)].map (Tree.change c) := by
      rw [missing_change]
      rfl
    exact congrArg (Step.go · []) (expectToken_change c ⟨cat, index⟩ calls p [kind] rest filled)
  | oneOf index kinds =>
    exact congrArg (Step.go · []) (expectToken_change c ⟨cat, index⟩ calls p kinds rest rfl)
  | choice index lookahead alternatives =>
    simp only [step, sync_change]
    exact Parsed.goThen_change c _ fun _ => goChosen_change ..
  | optional index lookahead inner =>
    simp only [step, sync_change]
    exact Parsed.goThen_change c _ fun _ => goEntered_change ..
  | star index back lookahead greedy inner =>
    simp only [step, sync_change]
    exact Parsed.goThen_change c _ fun _ => goEntered_change ..
  | rounds back lookahead greedy inner =>
    simp only [step, syncBack_change]
    exact Parsed.goThen_change c _ fun _ => goEntered_change ..
  | plus index back inner =>
    simp only [step, sync_change]
    exact Parsed.goThen_change c _ fun _ => rfl

variable {cat rest calls}

theorem parseAll_change {fuel : Nat}
    (each : ∀ {rest form} (p : Progress), parseForm cat rest calls (p.change c) fuel form =
      (parseForm cat rest calls p fuel form).change c) (forms : List Form) (p : Progress) :
    parseAll cat rest calls fuel forms (p.change c) =
      (parseAll cat rest calls fuel forms p).change c := by
  induction forms generalizing p with
  | nil => rfl
  | cons form forms ih =>
    rw [parseAll, each]
    exact Parsed.andThen_change c _ ih

/-- What is dropped behind a phrase that failed, and how far the parser comes with it. -/
def closing (calls : List Point) (inner : Parsed) : List Tree × Progress :=
  match inner.failure with
  | none => ([], inner.progress)
  | some failure => recover calls failure inner.progress

theorem closing_change (inner : Parsed) :
    closing calls (inner.change c) =
      ((closing calls inner).1.map (Tree.change c), (closing calls inner).2.change c) := by
  cases failed : inner.failure with
  | none => simp [closing, Parsed.change, failed]
  | some failure => simp [closing, Parsed.change, failed, recover_change]

def phraseOf (cat : Category) (p : Progress) (calls : List Point) (inner : Parsed) : Tree :=
  .phrase cat p.current (closing calls inner).2.last (inner.parts ++ (closing calls inner).1)

theorem phraseOf_change (callee : Category) (p : Progress) (calls : List Point) (inner : Parsed) :
    phraseOf callee (p.change c) calls (inner.change c) = (phraseOf callee p calls inner).change c := by
  unfold phraseOf
  rw [closing_change, p.change_current]
  simp [Tree.change, Parsed.change, Progress.change]

theorem entered_change (callee : Category) (p : Progress) (inner : Parsed) :
    entered cat calls index callee (p.change c) (inner.change c) =
      (entered cat calls index callee p inner).change c := by
  have eq : ∀ (p : Progress) (inner : Parsed), entered cat calls index callee p inner =
      .ok [phraseOf callee p (⟨cat, index⟩ :: calls) inner]
        (closing (⟨cat, index⟩ :: calls) inner).2 := fun _ _ => rfl
  rw [eq, phraseOf_change, closing_change]
  rfl

end Steps

/-- So does all of the parsing. -/
theorem parseForm_change {cat : Category} {rest : List Form} {calls : List Point} {fuel : Nat}
    {form : Form} (p : Progress) :
    parseForm cat rest calls (p.change c) fuel form =
      (parseForm cat rest calls p fuel form).change c := by
  induction fuel generalizing cat rest calls form p with
  | zero =>
    rw [parseForm, p.change_current]
    rfl
  | succ fuel ih =>
    rw [parseForm_succ, parseForm_succ, step_change]
    cases step cat rest calls p form with
    | enter index callee =>
      simp only [Step.change, Step.run, ih]
      exact entered_change ..
    | go parsed forms =>
      exact Parsed.andThen_change c parsed (parseAll_change c ih forms)

/-- Changed tokens give the same tree with its tokens changed. -/
theorem parseTokens_change (taken : c.taken = 0) (errors : c.errors = []) (cat : Category)
    (tokens : List Token) (finish : Token) :
    (parseTokens cat (tokens.map (Token.change c)) (finish.change c)).tree =
      (parseTokens cat tokens finish).tree.change c := by
  have eq : ∀ (tokens : List Token) (finish : Token), (parseTokens cat tokens finish).tree =
      phraseOf cat (.start tokens finish) [] (parseForm cat [] [] (.start tokens finish)
        ((tokens.length + 1) * depthPerToken) cat.form) := fun _ _ => rfl
  have start : Progress.start (tokens.map (Token.change c)) (finish.change c) =
      (Progress.start tokens finish).change c := by
    simp [Progress.start, Progress.change, taken, errors]
  rw [eq, eq, start, parseForm_change, phraseOf_change, length_map]

mutual
theorem Tree.change_tokens : ∀ tree : Tree,
    (tree.change c).tokens = tree.tokens.map (Token.change c)
  | .phrase _ _ _ children => by
    rw [Tree.change, Tree.tokens, Tree.tokens]
    exact Tree.changeAll_tokens children
  | .leaf _ => rfl
  | .error _ => rfl

theorem Tree.changeAll_tokens : ∀ trees : List Tree,
    Tree.tokensOf (Tree.changeAll c trees) = (Tree.tokensOf trees).map (Token.change c)
  | [] => rfl
  | tree :: rest => by
    rw [Tree.changeAll, Tree.tokensOf, Tree.tokensOf, map_append, tree.change_tokens,
      Tree.changeAll_tokens rest]
end

namespace Tree

variable (tree : Tree) (cat : Category)

@[simp] theorem change_category? : (tree.change c).category? = tree.category? := by
  cases tree <;> rfl

theorem change_token? : (tree.change c).token? = tree.token?.map (Token.change c) := by
  cases tree <;> rfl

theorem change_children : (tree.change c).children = tree.children.map (change c) := by
  cases tree <;> simp [change, children]

theorem change_phrases :
    (tree.change c).phrases cat = (tree.phrases cat).map (change c) := by
  simp [phrases, change_children, filter_map, Function.comp_def]

theorem change_phrase? :
    (tree.change c).phrase? cat = (tree.phrase? cat).map (change c) := by
  simp [phrase?, change_phrases]

theorem change_tokensOfKind (kind : Kind) :
    (tree.change c).tokensOfKind kind = (tree.tokensOfKind kind).map (Token.change c) := by
  simp only [tokensOfKind, change_children, filterMap_map, map_filterMap]
  congr 1
  funext child
  simp only [Function.comp_apply, change_token?]
  cases child.token? with
  | none => rfl
  | some token => by_cases fits : token.kind = kind <;> simp [Option.filter, fits]

end Tree

end Phrase

end GrammarLint
