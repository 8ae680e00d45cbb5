import GrammarLint.Proofs.Budget

open List

namespace GrammarLint.Phrase

open Lexical (Kind Token)

def First.opens (kind : Kind) (first : First) : Bool := first.admits kind || first.passable

variable {kind : Kind} {cat : Category} {rest forms : List Form} {f form : Form}
  {parsed : Parsed} {p q : Progress} {calls : List Point} {index fuel more : Nat}

theorem First.Le.opens {a b : First} (le : a.Le b) (opens : a.opens kind = true) :
    b.opens kind = true := by
  simp only [First.opens, Bool.or_eq_true, First.admits, any_eq_true] at opens ⊢
  rcases opens with ⟨read, inReads, inKinds⟩ | passable
  · exact .inl ⟨read, le.reads inReads, inKinds⟩
  · exact .inr (le.passable passable)

/-- Whether a form cannot be parsed in front of a token of the kind without some advance. -/
def Form.moves (cat : Category) (kind : Kind) (rest : List Form) : Form → Bool
  | .token _ expected => expected == kind
  | .oneOf _ kinds => kinds.contains kind
  | .call _ callee => !callee.first.passable && callee.first.admits kind
  | .seq f g => f.moves cat kind (g :: rest) || g.moves cat kind rest
  | .alt f g =>
    (!(firstOf cat (f :: rest)).opens kind || f.moves cat kind rest) &&
      (!(firstOf cat (g :: rest)).opens kind || g.moves cat kind rest)
  | .choice _ _ f => f.moves cat kind rest
  | .optional _ .one f => (f.first cat).admits kind && f.moves cat kind rest
  | .plus _ back f => f.moves cat kind (.rounds back .one true f :: rest)
  | .optional _ .full _ | .star .. | .rounds .. | .empty => false

theorem Form.moves_alternative {alternatives : Form}
    (moves : alternatives.moves cat kind rest = true) (mem : f ∈ alternatives.alternatives)
    (opens : (firstOf cat (f :: rest)).opens kind = true) : f.moves cat kind rest = true := by
  induction alternatives with
  | alt g h first second =>
    simp only [Form.moves, Bool.and_eq_true, Bool.or_eq_true, Bool.not_eq_true'] at moves
    rcases mem_append.mp mem with left | right
    · have opensLeft := (firstOf_alternative_le left).opens opens
      exact first (moves.1.resolve_left (by simp [opensLeft])) left
    · have opensRight := (firstOf_alternative_le right).opens opens
      exact second (moves.2.resolve_left (by simp [opensRight])) right
  | _ =>
    cases mem_singleton.mp mem
    exact moves

/-- A phrase that begins with a token, and must, moves in front of it. -/
theorem Category.moves (closed : cat.first.passable = false)
    (admits : cat.first.admits kind = true) : cat.form.moves cat kind [] = true := by
  have checked : ∀ c ∈ Category.all, c.first.passable = true ∨
      ∀ read ∈ c.first.reads, ∀ kind ∈ read.kinds, c.form.moves c kind [] = true := by
    decide +kernel
  obtain ⟨read, inReads, inKinds⟩ := any_eq_true.mp admits
  exact ((checked cat (mem_all cat)).resolve_left (by simp [closed])) read inReads kind
    (by simpa using inKinds)

/-- A round of a loop moves, and does not begin with the end of the file. -/
def Form.movingRound (cat : Category) (rest : List Form) : Form → Bool
  | .rounds back lookahead greedy f =>
    !(f.first cat).passable && (f.first cat).reads.all fun read =>
      read.kinds.all fun kind => kind != .endOfFile &&
        f.moves cat kind (.rounds back lookahead greedy f :: rest)
  | _ => true

theorem InPlace.movingRound (inPlace : InPlace cat rest form) :
    form.movingRound cat rest = true := by
  refine inPlace.check (fun cat rest form => form.movingRound cat rest) ?_
  decide +kernel

theorem Parsed.andThen_unfailed {next : Progress → Parsed}
    (unfailed : (parsed.andThen next).failure = none) : parsed.failure = none ∧
      (next parsed.progress).failure = none ∧
      (parsed.andThen next).progress = (next parsed.progress).progress := by
  cases failed : parsed.failure with
  | some failure => simp [Parsed.andThen_of_some failed, failed] at unfailed
  | none =>
    rw [Parsed.andThen_of_none failed] at unfailed ⊢
    exact ⟨rfl, unfailed, rfl⟩

theorem Progress.current_of_ahead (after : p.After q) (same : q.ahead = p.ahead) :
    q.current = p.current := by
  simp [Progress.current, same, after.finish]

/-- What takes a token takes some of the budget. -/
theorem Progress.After.lt_of_tail (after : p.After q) (more : p.ahead ≠ [])
    (ahead : q.ahead = p.ahead.tail) : q.budget < p.budget := by
  rcases after.room with same | room
  · exact absurd (ahead.symm.trans same) (by cases tokens : p.ahead <;> simp_all)
  · have := Progress.room_pos
    omega

theorem expectToken_moves {point : Point} {kinds : List Kind} {fill : Progress → List Tree}
    (fits : kinds.contains p.current.kind = true) (more : p.ahead ≠ []) :
    (expectToken point kinds fill rest calls p).progress.budget < p.budget := by
  simp only [expectToken, fits, if_true, Parsed.ok]
  exact p.matched_take_after.lt_of_tail more (Progress.take_ahead _)

/-- A call takes some of the budget if its phrase does, and also if that fails. -/
theorem entered_moves {callee : Category} {inner : Parsed} (follows : inner.Follows p)
    (more : p.ahead ≠ []) (moves : inner.failure = none → inner.progress.budget < p.budget) :
    (entered cat calls index callee p inner).progress.budget < p.budget := by
  cases failed : inner.failure with
  | none =>
    rw [entered_of_none failed]
    exact moves failed
  | some failure =>
    rw [(entered_of_some failed).2]
    obtain ⟨after, strict⟩ := recover_after
      (follows.known failure failed)
    rcases follows.after.room with same | room
    · exact Nat.lt_of_lt_of_le (strict (same ▸ more)) follows.after.budget
    · have := after.budget
      have := Progress.room_pos
      omega

/-- Whether one of the forms moves. -/
def movesAll (cat : Category) (kind : Kind) (rest : List Form) : List Form → Bool
  | [] => false
  | form :: forms => form.moves cat kind (forms ++ rest) || movesAll cat kind rest forms

/-- A form that moves does so by itself, or leaves it to the forms that stand in place of it. -/
theorem step_moves (inPlace : InPlace cat rest form)
    (moves : form.moves cat p.current.kind rest = true) (more : p.ahead ≠ [])
    (stepped : step cat rest calls p form = .go parsed forms) (unfailed : parsed.failure = none) :
    parsed.progress.budget < p.budget ∨ movesAll cat p.current.kind rest forms = true := by
  -- In front of a decision something is taken, or the decision is made at the same token.
  have synced : ∀ {point forms' next}, (sync point forms' calls p).goThen next = .go parsed forms →
      point ∈ failurePoints → (∀ q, (next q).1.progress = q) → (∀ q,
        q.current = p.current → (next q).1.failure = none →
        movesAll cat p.current.kind rest (next q).2 = true) →
      parsed.progress.budget < p.budget ∨ movesAll cat p.current.kind rest forms = true := by
    intro point forms' next same known still decided
    rcases goThen_eq same with ⟨⟨failure, failed⟩, rfl, -⟩ | ⟨-, rfl, rfl⟩
    · simp [failed] at unfailed
    · have before := (sync_follows point forms' calls p known).after
      rcases before.room with ahead | room
      · exact .inr (decided _ (Progress.current_of_ahead before ahead) unfailed)
      · have := Progress.room_pos
        simp only [Parsed.behind, still]
        omega
  cases form with
  | empty | star _ _ _ _ _ | rounds _ _ _ _ => simp [Form.moves] at moves
  | token index kind =>
    cases stepped
    refine .inl (expectToken_moves ?_ more)
    have same : kind = p.current.kind := by simpa [Form.moves] using moves
    simp [same]
  | oneOf index kinds => cases stepped; exact .inl (expectToken_moves moves more)
  | call index callee => simp [step] at stepped
  | seq f g =>
    cases stepped
    right
    simpa [movesAll, Form.moves] using moves
  | alt f g => exact absurd inPlace InPlace.not_alt
  | choice index lookahead alternatives =>
    refine synced stepped (mem_failurePoints (of_decide_eq_true inPlace.numbered))
      (fun q => (goChosen_still q).1) fun q same chosen => ?_
    rcases goChosen_eq q with ⟨_, isNext⟩ | ⟨f, mem, isNext, opens⟩
    · rw [isNext] at chosen
      cases chosen
    · rw [same] at opens
      have each : alternatives.moves cat p.current.kind rest = true := moves
      have fMoves := Form.moves_alternative each mem (by simpa [First.opens] using opens)
      rw [isNext]
      simp [movesAll, fMoves]
  | optional index lookahead f =>
    refine synced stepped (mem_failurePoints (of_decide_eq_true inPlace.numbered))
      (fun q => (goEntered_still q).1) fun q same chosen => ?_
    cases lookahead with
    | full => simp [Form.moves] at moves
    | one =>
      simp only [Form.moves, Bool.and_eq_true] at moves
      have inside : (firstOf cat (f :: rest)).admits q.current.kind = true := by
        obtain ⟨read, inReads, inKinds⟩ := any_eq_true.mp moves.1
        rw [same]
        exact any_eq_true.mpr ⟨read, by simp [firstOf, inReads], inKinds⟩
      simp [goEntered, decideEntry, chooseByToken, inside, movesAll, moves.2]
  | plus index back f =>
    unfold step at stepped
    refine synced stepped
      (mem_failurePoints (of_decide_eq_true (Bool.and_eq_true_iff.mp inPlace.numbered).1))
      (fun _ => rfl) fun q _ _ => ?_
    have fMoves : f.moves cat p.current.kind (.rounds back .one true f :: rest) = true := moves
    simp [movesAll, fMoves]

theorem parseAll_moves
    (each : ∀ {rest form} {p : Progress}, InPlace cat rest form →
      form.moves cat p.current.kind rest = true → p.ahead ≠ [] →
      (parseForm cat rest calls p fuel form).failure = none →
      (parseForm cat rest calls p fuel form).progress.budget < p.budget)
    (allIn : InPlaceAll cat rest forms)
    (moves : movesAll cat p.current.kind rest forms = true) (more : p.ahead ≠ [])
    (unfailed : (parseAll cat rest calls fuel forms p).failure = none) :
    (parseAll cat rest calls fuel forms p).progress.budget < p.budget := by
  induction forms generalizing p with
  | nil => simp [movesAll] at moves
  | cons form forms ih =>
    simp only [parseAll] at unfailed ⊢
    obtain ⟨here, later, same⟩ := Parsed.andThen_unfailed unfailed
    have first := (parseForm_follows calls p fuel allIn.1).after
    have second := parseAll_after allIn.2 calls fuel
      (parseForm cat (forms ++ rest) calls p fuel form).progress
    rw [same]
    rcases Bool.or_eq_true_iff.mp moves with atOnce | atLast
    · exact Nat.lt_of_le_of_lt second.budget (each allIn.1 atOnce more here)
    · rcases first.room with still | room
      · refine Nat.lt_of_lt_of_le (ih allIn.2 ?_ (still ▸ more) later) first.budget
        rwa [Progress.current_of_ahead first still]
      · have := second.budget
        have := Progress.room_pos
        omega

/-- Parsing a form in front of a token at which it moves fails or takes some of the budget. -/
theorem parseForm_moves (inPlace : InPlace cat rest form)
    (moves : form.moves cat p.current.kind rest = true) (more : p.ahead ≠ [])
    (unfailed : (parseForm cat rest calls p fuel form).failure = none) :
    (parseForm cat rest calls p fuel form).progress.budget < p.budget := by
  induction fuel generalizing cat rest calls form p with
  | zero => simp [parseForm, Parsed.failed] at unfailed
  | succ fuel ih =>
    rw [parseForm_succ] at unfailed ⊢
    cases stepped : step cat rest calls p form with
    | enter index callee =>
      cases step_enter stepped
      simp only [Form.moves, Bool.and_eq_true, Bool.not_eq_true'] at moves
      exact entered_moves (parseForm_follows _ p fuel .whole) more
        (ih .whole (Category.moves moves.1 moves.2) more)
    | go parsed forms =>
      rw [stepped] at unfailed
      have allIn := step_inPlace inPlace stepped
      obtain ⟨here, later, same⟩ := Parsed.andThen_unfailed unfailed
      have first := (step_follows inPlace stepped).after
      have second := parseAll_after allIn calls fuel parsed.progress
      simp only [Step.run, same]
      rcases step_moves inPlace moves more stepped here with atOnce | byForms
      · exact Nat.lt_of_le_of_lt second.budget atOnce
      · rcases first.room with still | room
        · refine Nat.lt_of_lt_of_le (parseAll_moves ih allIn ?_ (still ▸ more) later) first.budget
          rwa [Progress.current_of_ahead first still]
        · have := second.budget
          have := Progress.room_pos
          omega

/-- The parser comes to an end with some forms before the fuel does. -/
inductive Settles : Nat → Category → List Form → List Point → Progress → List Form → Prop
  | nil {fuel : Nat} {cat : Category} {rest : List Form} {calls : List Point} {p : Progress} :
      Settles fuel cat rest calls p []
  | enter {fuel : Nat} {cat : Category} {rest : List Form} {calls : List Point} {p : Progress}
      {form : Form} {index : Nat} {callee : Category} :
      step cat rest calls p form = .enter index callee →
      Settles fuel callee [] (⟨cat, index⟩ :: calls) p [callee.form] →
      Settles (fuel + 1) cat rest calls p [form]
  | go {fuel : Nat} {cat : Category} {rest : List Form} {calls : List Point} {p : Progress}
      {form : Form} {parsed : Parsed} {forms : List Form} :
      step cat rest calls p form = .go parsed forms →
      (parsed.failure = none → Settles fuel cat rest calls parsed.progress forms) →
      Settles (fuel + 1) cat rest calls p [form]
  | cons {fuel : Nat} {cat : Category} {rest : List Form} {calls : List Point} {p : Progress}
      {form : Form} {forms : List Form} : Settles fuel cat (forms ++ rest) calls p [form] →
      ((parseForm cat (forms ++ rest) calls p fuel form).failure = none →
        Settles fuel cat rest calls
          (parseForm cat (forms ++ rest) calls p fuel form).progress forms) →
      Settles fuel cat rest calls p (form :: forms)

/-- Where the parser comes to an end, more fuel changes nothing. -/
theorem Settles.parseAll_eq (settles : Settles fuel cat rest calls p forms) (bound : fuel ≤ more) :
    parseAll cat rest calls more forms p = parseAll cat rest calls fuel forms p := by
  induction settles generalizing more with
  | nil => rfl
  | enter stepped _ ih =>
    obtain ⟨more, rfl⟩ := Nat.exists_eq_add_of_le' (Nat.le_of_add_left_le bound)
    simp only [parseAll_singleton, parseForm_succ, stepped, Step.run] at ih ⊢
    rw [ih (Nat.le_of_add_le_add_right bound)]
  | go stepped _ ih =>
    obtain ⟨more, rfl⟩ := Nat.exists_eq_add_of_le' (Nat.le_of_add_left_le bound)
    simp only [parseAll_singleton, parseForm_succ, stepped, Step.run]
    rename_i parsed forms _
    cases failed : parsed.failure with
    | some failure => simp [Parsed.andThen_of_some failed]
    | none =>
      simp [Parsed.andThen_of_none failed, ih failed (Nat.le_of_add_le_add_right bound)]
  | @cons fuel cat rest calls p form forms _ _ first later =>
    have same := first bound
    simp only [parseAll_singleton] at same
    simp only [parseAll, same]
    cases failed : (parseForm cat (forms ++ rest) calls p fuel form).failure with
    | some failure => simp [Parsed.andThen_of_some failed]
    | none => simp [Parsed.andThen_of_none failed, later failed bound]

theorem Settles.parseForm_eq (settles : Settles fuel cat rest calls p [form]) (bound : fuel ≤ more) :
    parseForm cat rest calls p more form = parseForm cat rest calls p fuel form := by
  simpa only [parseAll_singleton] using settles.parseAll_eq bound

section Height

/-- Whether a form may begin with an opening parenthesis, or with anything else. -/
def First.mayOpen (paren : Bool) (first : First) : Bool :=
  first.passable || first.reads.any fun read => read.kinds.any fun kind => (kind == .leftParen) == paren

theorem First.mayOpen_of_opens {first : First} {kind : Kind} (opens : first.opens kind = true) :
    first.mayOpen (kind == .leftParen) = true := by
  simp only [First.opens, First.admits, Bool.or_eq_true, any_eq_true] at opens
  simp only [First.mayOpen, Bool.or_eq_true, any_eq_true]
  rcases opens with ⟨read, inReads, inKinds⟩ | passable
  · exact .inr ⟨read, inReads, kind, by simpa using inKinds, by simp⟩
  · exact .inl passable

/-- A bound for how deep forms and phrases may lie in each other in a phrase of a category before a
token is taken. Only blocks can lie in blocks, and only behind an opening parenthesis. -/
def Category.rank (paren : Bool) : Category → Nat
  | .identifier | .actionBlock | .argActionBlock => 16
  | .qualifiedIdentifier => 32
  | .ruleAction => 64
  | .optionValue => 80
  | .option => 96
  | .optionsSpec => 112
  | .block | .lexerBlock => if paren then 128 else 1200
  | .ebnf => if paren then 288 else 1400
  | cat => 16 * (68 - cat.code)

def Form.takesParen : Form → Bool
  | .token _ .leftParen => true
  | _ => false

/-- The same for a form. What stands behind an opening parenthesis does not count where the
parenthesis is there to be taken. -/
def Form.height (paren : Bool) (cat : Category) (rest : List Form) : Form → Nat
  | .empty | .token .. | .oneOf .. => 1
  | .call _ callee => 1 + callee.rank paren
  | .seq f g => 1 + max (f.height paren cat (g :: rest))
      (if paren && f.takesParen then 0 else g.height paren cat rest)
  | .alt f g => max
      (if (firstOf cat (f :: rest)).mayOpen paren then f.height paren cat rest else 0)
      (if (firstOf cat (g :: rest)).mayOpen paren then g.height paren cat rest else 0)
  | .choice _ _ f | .optional _ _ f => 1 + f.height paren cat rest
  | .star _ back lookahead greedy f | .rounds back lookahead greedy f =>
    1 + f.height paren cat (.rounds back lookahead greedy f :: rest)
  | .plus _ back f => 2 + f.height paren cat (.rounds back .one true f :: rest)

theorem Category.height_le (cat : Category) (paren : Bool) :
    cat.form.height paren cat [] ≤ cat.rank paren := by
  have checked : ∀ c ∈ Category.all, ∀ paren,
      c.form.height paren c [] ≤ c.rank paren := by
    decide +kernel
  exact checked cat (mem_all cat) paren

variable {cat : Category} {rest : List Form} {form : Form} {paren : Bool}

theorem InPlace.height_le (inPlace : InPlace cat rest form) (paren : Bool) :
    form.height paren cat rest ≤ Progress.room := by
  have bounds := inPlace.check (fun cat rest form =>
    decide (form.height true cat rest ≤ Progress.room) &&
      decide (form.height false cat rest ≤ Progress.room)) (by decide +kernel)
  cases paren <;> simp_all

theorem InPlace.height_pos (inPlace : InPlace cat rest form) (paren : Bool) :
    0 < form.height paren cat rest := by
  cases form with
  | alt f g => exact absurd inPlace InPlace.not_alt
  | _ => simp only [Form.height]; omega

theorem First.Le.mayOpen {a b : First} (le : a.Le b) (opens : a.mayOpen paren = true) :
    b.mayOpen paren = true := by
  simp only [First.mayOpen, Bool.or_eq_true, any_eq_true] at opens ⊢
  rcases opens with passable | ⟨read, inReads, found⟩
  · exact .inl (le.passable passable)
  · exact .inr ⟨read, le.reads inReads, found⟩

theorem Form.height_alternative {f alternatives : Form} (mem : f ∈ alternatives.alternatives)
    (opens : (firstOf cat (f :: rest)).mayOpen paren = true) :
    f.height paren cat rest ≤ alternatives.height paren cat rest := by
  induction alternatives with
  | alt g h first second =>
    simp only [Form.height]
    rcases mem_append.mp mem with left | right
    · rw [if_pos ((firstOf_alternative_le left).mayOpen opens)]
      exact Nat.le_trans (first left) (Nat.le_max_left _ _)
    · rw [if_pos ((firstOf_alternative_le right).mayOpen opens)]
      exact Nat.le_trans (second right) (Nat.le_max_right _ _)
  | _ =>
    cases mem_singleton.mp mem
    exact Nat.le_refl _

end Height

def Progress.atParen (p : Progress) : Bool := p.current.kind == .leftParen

/-- What is enough in front of the next token is enough behind it. -/
theorem height_of_after (after : p.After q) (inPlace : InPlace cat rest form)
    (enough : p.budget ≤ fuel)
    (still : q.ahead = p.ahead → form.height p.atParen cat rest + q.budget ≤ fuel) :
    form.height q.atParen cat rest + q.budget ≤ fuel := by
  rcases after.room with same | room
  · have current := Progress.current_of_ahead after same
    simpa only [Progress.atParen, current] using still same
  · have := inPlace.height_le q.atParen
    omega

theorem Progress.ahead_ne_nil (ending : p.finish.kind = .endOfFile)
    (inner : p.current.kind ≠ .endOfFile) : p.ahead ≠ [] := by
  intro ended
  simp [Progress.current, ended, ending] at inner

variable {back : Nat} {lookahead : Lookahead} {greedy : Bool} {finish : Token}

/-- A loop is entered only where its round moves. -/
theorem round_moves (inPlace : InPlace cat rest (.rounds back lookahead greedy f))
    (ending : q.finish.kind = .endOfFile)
    (decided : decideEntry lookahead greedy ⟨cat, index⟩ calls
      (firstOf cat (f :: .rounds back lookahead greedy f :: rest)) (firstOf cat rest) q = .ok true) :
    q.ahead ≠ [] ∧
      f.moves cat q.current.kind (.rounds back lookahead greedy f :: rest) = true := by
  have moving := inPlace.movingRound
  simp only [Form.movingRound, Bool.and_eq_true, Bool.not_eq_true', all_eq_true, bne_iff_ne,
    ne_eq] at moving
  obtain ⟨closed, each⟩ := moving
  have same : firstOf cat (f :: .rounds back lookahead greedy f :: rest) = f.first cat := by
    simp [firstOf, First.andThen, closed]
  rw [same] at decided
  rcases decideEntry_opens decided with admits | passable
  · obtain ⟨read, inReads, inKinds⟩ := any_eq_true.mp admits
    have both := each read inReads q.current.kind (by simpa using inKinds)
    exact ⟨Progress.ahead_ne_nil ending both.1, both.2⟩
  · simp [closed] at passable

/-- The forms that a step goes on with lie lower than its form, at the token in front of it. Where
the second does not, the first moves, or takes the parenthesis it waits for. -/
inductive Lowers (cat : Category) (rest : List Form) (p q : Progress) (height : Nat) :
    List Form → Prop
  | nil : Lowers cat rest p q height []
  | one {f : Form} : f.height p.atParen cat rest < height → Lowers cat rest p q height [f]
  | two {f g : Form} : f.height p.atParen cat (g :: rest) < height →
      g.height p.atParen cat rest < height → Lowers cat rest p q height [f, g]
  | loop {f g : Form} : f.height p.atParen cat (g :: rest) < height →
      g.height p.atParen cat rest ≤ height → q.ahead ≠ [] →
      f.moves cat q.current.kind (g :: rest) = true → Lowers cat rest p q height [f, g]
  | paren {index : Nat} {g : Form} : 1 < height → q = p → p.current.kind = .leftParen →
      Lowers cat rest p q height [.token index .leftParen, g]

theorem goEntered_lowers {synced : Parsed}
    (same : synced.goThen (goEntered cat rest calls index lookahead greedy
      [f, .rounds back lookahead greedy f]) = .go parsed forms)
    (inPlace : InPlace cat rest (.rounds back lookahead greedy f))
    (ending : parsed.progress.finish.kind = .endOfFile) :
    Lowers cat rest p parsed.progress
      ((Form.rounds back lookahead greedy f).height p.atParen cat rest) forms := by
  rcases goThen_eq same with ⟨-, -, rfl⟩ | ⟨-, isParsed, isForms⟩
  · exact .nil
  · have still : parsed.progress = synced.progress := by
      rw [isParsed]
      exact (goEntered_still _).1
    rcases goEntered_eq synced.progress with
      ⟨_, isNext⟩ | isNext | ⟨isNext, decided⟩
    · rw [isForms, isNext]
      exact .nil
    · rw [isForms, isNext]
      exact .nil
    · rw [isForms, isNext]
      obtain ⟨more, moves⟩ := round_moves inPlace (still ▸ ending) decided
      refine .loop ?_ (Nat.le_refl _) (still ▸ more) (still ▸ moves)
      simp only [Form.height]
      omega

theorem step_lowers (inPlace : InPlace cat rest form) (ending : p.finish.kind = .endOfFile)
    (stepped : step cat rest calls p form = .go parsed forms)
    (still : parsed.progress.ahead = p.ahead) :
    Lowers cat rest p parsed.progress (form.height p.atParen cat rest) forms := by
  have after := (step_follows inPlace stepped).after
  have current := Progress.current_of_ahead after still
  have finish : parsed.progress.finish.kind = .endOfFile := after.finish ▸ ending
  cases form with
  | empty | token _ _ | oneOf _ _ => cases stepped; exact .nil
  | call index callee => simp [step] at stepped
  | alt f g => exact absurd inPlace InPlace.not_alt
  | seq f g =>
    cases stepped
    have first : f.height p.atParen cat (g :: rest) <
        (Form.seq f g).height p.atParen cat rest := by
      simp only [Form.height]
      omega
    cases paren : p.atParen && f.takesParen with
    | false =>
      refine .two first ?_
      simp only [Form.height, paren, Bool.false_eq_true, if_false]
      omega
    | true =>
      simp only [Bool.and_eq_true, Progress.atParen, beq_iff_eq] at paren
      obtain ⟨atParen, takes⟩ := paren
      unfold Form.takesParen at takes
      split at takes
      · exact .paren first rfl atParen
      · contradiction
  | choice index lookahead alternatives =>
    rcases goThen_eq stepped with ⟨-, -, rfl⟩ | ⟨-, isParsed, isForms⟩
    · exact .nil
    · have same : parsed.progress =
          (sync ⟨cat, index⟩ (.choice index lookahead alternatives :: rest) calls p).progress := by
        rw [isParsed]
        exact (goChosen_still _).1
      rw [← same] at isForms
      rcases goChosen_eq parsed.progress with
        ⟨_, isNext⟩ | ⟨f, mem, isNext, opens⟩
      · rw [isForms, isNext]
        exact .nil
      · rw [current] at opens
        have mayOpen := First.mayOpen_of_opens (by simpa [First.opens] using opens)
        have lower : f.height p.atParen cat rest ≤ alternatives.height p.atParen cat rest :=
          Form.height_alternative mem mayOpen
        rw [isForms, isNext]
        refine .one ?_
        simp only [Form.height]
        omega
  | optional index lookahead f =>
    refine goThen_forms _ stepped .nil fun q => goEntered_forms q _ .nil (.one ?_)
    simp only [Form.height]
    omega
  | star index back lookahead greedy f => exact goEntered_lowers stepped inPlace.star finish
  | rounds back lookahead greedy f => exact goEntered_lowers stepped inPlace finish
  | plus index back f =>
    unfold step at stepped
    rcases goThen_eq stepped with ⟨-, -, rfl⟩ | ⟨-, -, rfl⟩
    · exact .nil
    · refine .two ?_ ?_ <;> simp only [Form.height] <;> omega

/-- Behind a token that was taken there is fuel for all forms in their place. -/
theorem settles_of_room
    (each : ∀ {rest form} {p : Progress}, InPlace cat rest form →
      p.finish.kind = .endOfFile → form.height p.atParen cat rest + p.budget ≤ fuel →
      Settles fuel cat rest calls p [form])
    (allIn : InPlaceAll cat rest forms) (ending : q.finish.kind = .endOfFile)
    (room : q.budget + Progress.room ≤ fuel) :
    Settles fuel cat rest calls q forms := by
  induction forms generalizing q with
  | nil => exact .nil
  | cons form forms ih =>
    have lower := allIn.1.height_le q.atParen
    have after := (parseForm_follows calls q fuel allIn.1).after
    refine .cons (each allIn.1 ending (by omega)) fun _ => ih allIn.2 (after.finish ▸ ending) ?_
    have := after.budget
    omega

theorem parseForm_paren (atParen : p.current.kind = .leftParen)
    (unfailed : (parseForm cat rest calls p fuel (.token index .leftParen)).failure = none) :
    (parseForm cat rest calls p fuel (.token index .leftParen)).progress.ahead = p.ahead.tail := by
  cases fuel with
  | zero => simp [parseForm, Parsed.failed] at unfailed
  | succ fuel => simp [parseForm, expectToken, atParen, Parsed.ok, Progress.take_ahead, Progress.matched]

/-- Two forms that follow each other, where the second is reached with the first still in front of the
same token. -/
theorem settles_pair
    (each : ∀ {rest form} {p : Progress}, InPlace cat rest form →
      p.finish.kind = .endOfFile → form.height p.atParen cat rest + p.budget ≤ fuel →
      Settles fuel cat rest calls p [form])
    (after : p.After q) (ending : p.finish.kind = .endOfFile) (budget : p.budget ≤ fuel) {g : Form}
    (inF : InPlace cat (g :: rest) f) (inG : InPlace cat rest g)
    (first : f.height p.atParen cat (g :: rest) + q.budget ≤ fuel)
    (second : ∀ r : Progress, (parseForm cat (g :: rest) calls q fuel f).failure = none →
      (parseForm cat (g :: rest) calls q fuel f).progress = r → p.After r →
      r.ahead = p.ahead → g.height p.atParen cat rest + r.budget ≤ fuel) :
    Settles fuel cat rest calls q [f, g] := by
  have between := after.trans (parseForm_follows calls q fuel inF).after
  refine .cons (each inF (after.finish ▸ ending) (height_of_after after inF budget fun _ => first)) ?_
  intro unfailed
  exact each inG (between.finish ▸ ending)
    (height_of_after between inG budget (second _ unfailed rfl between))

/-- With fuel for what may lie in front of the next token, and for all that is ahead, the parser
comes to an end. -/
theorem settles_of_height (inPlace : InPlace cat rest form) (ending : p.finish.kind = .endOfFile)
    (enough : form.height p.atParen cat rest + p.budget ≤ fuel) :
    Settles fuel cat rest calls p [form] := by
  induction fuel generalizing cat rest calls form p with
  | zero =>
    have := inPlace.height_pos p.atParen
    omega
  | succ fuel ih =>
    cases stepped : step cat rest calls p form with
    | enter index callee =>
      cases step_enter stepped
      refine .enter stepped (ih .whole ending ?_)
      have := callee.height_le p.atParen
      simp only [Form.height] at enough
      omega
    | go parsed forms =>
      refine .go stepped fun _ => ?_
      have allIn := step_inPlace inPlace stepped
      have after := (step_follows inPlace stepped).after
      have positive := inPlace.height_pos p.atParen
      have budget : p.budget ≤ fuel := by omega
      rcases after.room with still | room
      · have less := after.budget
        cases step_lowers inPlace ending stepped still with
        | nil => exact .nil
        | @one f lower =>
          have inF : InPlace cat rest f := allIn.1
          exact ih inF (after.finish ▸ ending) (height_of_after after inF budget fun _ => by omega)
        | two lower lowerToo =>
          refine settles_pair ih after ending budget allIn.1 allIn.2.1 (by omega) ?_
          intro r _ _ between _
          have := between.budget
          omega
        | @loop f g lower least more moves =>
          have inF : InPlace cat (g :: rest) f := allIn.1
          refine settles_pair ih after ending budget inF allIn.2.1 (by omega) ?_
          rintro r unfailed rfl _ _
          have := parseForm_moves inF moves more unfailed
          omega
        | paren high same atParen =>
          refine settles_pair ih after ending budget allIn.1 allIn.2.1
            (by simp only [Form.height]; omega) ?_
          rintro r unfailed rfl _ ahead
          rw [same] at unfailed ahead
          rw [parseForm_paren atParen unfailed] at ahead
          have more := Progress.ahead_ne_nil ending (by simp [atParen])
          exact absurd ahead (by cases tokens : p.ahead <;> simp_all)
      · exact settles_of_room ih allIn (after.finish ▸ ending) (by omega)

theorem settles_start (cat : Category) (tokens : List Token) (ending : finish.kind = .endOfFile) :
    Settles ((tokens.length + 1) * depthPerToken) cat [] [] (.start tokens finish)
      [cat.form] := by
  refine settles_of_height .whole ending ?_
  have lower := InPlace.height_le (@InPlace.whole cat) (Progress.start tokens finish).atParen
  have few := (Progress.start tokens finish).retries_le
  have ahead : (Progress.start tokens finish).ahead = tokens := rfl
  simp only [Progress.room, Progress.budget, ahead, depthPerToken, failurePoints_length]
    at lower few ⊢
  omega

/-- No parse is cut short for want of fuel: any larger bound on how deep forms and phrases may lie in
each other gives the same. -/
theorem parseForm_start_fuel (cat : Category) (tokens : List Token)
    (ending : finish.kind = .endOfFile) (bound : (tokens.length + 1) * depthPerToken ≤ more) :
    parseForm cat [] [] (.start tokens finish) more cat.form =
      parseForm cat [] [] (.start tokens finish) ((tokens.length + 1) * depthPerToken)
        cat.form :=
  (settles_start cat tokens ending).parseForm_eq bound

end GrammarLint.Phrase
