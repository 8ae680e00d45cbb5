import GrammarLint.Proofs.Lines
import Mathlib.Data.List.Perm.Subperm
import Mathlib.Logic.Function.Iterate

open List

namespace GrammarLint.Phrase

open Lexical (Kind)

variable {cat outer : Category} {point : Point} {known : List Category} {alternative : Nat}
  {kind : Kind}

theorem Category.mem_callers :
    point ∈ cat.callers ↔
      ∃ place ∈ point.category.form.places [], place.1 = point.index ∧ place.2.1 = some cat := by
  unfold Category.callers calls
  simp only [mem_filterMap, mem_flatMap, Option.ite_none_right_eq_some,
    Option.some.injEq, Option.map_eq_some_iff]
  constructor
  · rintro ⟨call, ⟨caller, _, place, member, callee, isCall, rfl⟩, rfl, rfl⟩
    exact ⟨place, member, rfl, isCall⟩
  · rintro ⟨place, member, same, isCall⟩
    refine ⟨(point, cat), ⟨point.category, mem_all _, place, member, cat, isCall, ?_⟩,
      rfl, rfl⟩
    rw [same]

theorem Located.mem_callers {callee : Category} {index : Nat} {rest : List Form}
    (located : Located cat (.call index callee :: rest)) :
    (⟨cat, index⟩ : Point) ∈ callee.callers :=
  Category.mem_callers.mpr
    ⟨(index, some callee, rest), located (by simp), rfl, rfl⟩

/-- The calls lead from a phrase of the category out to a whole grammar file. -/
def Chain : Category → List Point → Prop
  | cat, [] => cat = .grammarSpec
  | cat, point :: calls => point ∈ cat.callers ∧ Chain point.category calls

/-- The phrases of the second category may end with one of the first, its last part. -/
def EndsIn (cat outer : Category) : Prop :=
  ∃ point ∈ cat.callers, point.after.passable = true ∧ point.category = outer

variable {points : List Point} {read : Read} {outside : Bool} {word : List Kind} {line : Line}

theorem mem_addEnds :
    outer ∈ points.foldl (fun known point =>
        if point.after.passable && !known.contains point.category then known ++ [point.category]
        else known) known ↔
      outer ∈ known ∨ ∃ point ∈ points, point.after.passable = true ∧ point.category = outer := by
  induction points generalizing known with
  | nil => simp
  | cons point points ih =>
    rw [foldl_cons, ih]
    split
    · rename_i added
      simp only [Bool.and_eq_true] at added
      simp only [mem_append, mem_singleton, exists_mem_cons_iff, added.1, true_and,
        or_assoc, eq_comm]
    · rename_i kept
      simp only [exists_mem_cons_iff]
      constructor
      · tauto
      · rintro (inKnown | ⟨passable, rfl⟩ | later)
        · exact .inl inKnown
        · refine .inl ?_
          simpa [passable] using kept
        · exact .inr later

theorem mem_endTogether :
    outer ∈ endTogether known ↔ outer ∈ known ∨ ∃ cat ∈ known, EndsIn cat outer := by
  suffices general : ∀ (todo base : List Category), outer ∈ todo.foldl (fun known cat =>
      cat.callers.foldl (fun known point =>
        if point.after.passable && !known.contains point.category then known ++ [point.category]
        else known) known) base ↔ outer ∈ base ∨ ∃ cat ∈ todo, EndsIn cat outer by
    exact general known known
  intro todo
  induction todo with
  | nil => simp
  | cons cat todo ih =>
    intro base
    rw [foldl_cons, ih, mem_addEnds, exists_mem_cons_iff, or_assoc]
    rfl

theorem addEnds_nodup (nodup : known.Nodup) :
    (points.foldl (fun known point =>
        if point.after.passable && !known.contains point.category then known ++ [point.category]
        else known) known).Nodup := by
  induction points generalizing known with
  | nil => exact nodup
  | cons point points ih =>
    rw [foldl_cons]
    apply ih
    split
    · rename_i added
      simp only [Bool.and_eq_true, Bool.not_eq_true', contains_eq_mem, decide_eq_false_iff_not]
        at added
      refine nodup_append.mpr ⟨nodup, pairwise_singleton _ _, ?_⟩
      rintro other mem last inLast rfl
      exact added.2 (mem_singleton.mp inLast ▸ mem)
    · exact nodup

theorem endTogether_nodup (nodup : known.Nodup) : (endTogether known).Nodup := by
  suffices general : ∀ (todo base : List Category), base.Nodup →
      (todo.foldl (fun known cat => cat.callers.foldl (fun known point =>
        if point.after.passable && !known.contains point.category then known ++ [point.category]
        else known) known) base).Nodup by
    exact general known known nodup
  intro todo
  induction todo with
  | nil => exact fun _ nodup => nodup
  | cons cat todo ih => exact fun base nodup => ih _ (addEnds_nodup nodup)

theorem nodup_length_le (nodup : known.Nodup) : known.length ≤ Category.all.length :=
  (subperm_of_subset nodup fun cat _ => mem_all cat).length_le

/-- The categories whose end may be reached together with the end of the given one. -/
def Category.ends (cat : Category) : List Category :=
  Category.all.foldl (fun known _ => endTogether known) [cat]

theorem Category.ends_eq (cat : Category) :
    cat.ends = endTogether^[Category.all.length] [cat] :=
  foldl_const ..

theorem iterate_endTogether_nodup (cat : Category) (n : Nat) :
    (endTogether^[n] [cat]).Nodup := by
  induction n with
  | zero => exact pairwise_singleton _ _
  | succ n ih =>
    rw [Function.iterate_succ_apply']
    exact endTogether_nodup ih

/-- A round that adds nothing is the last; until then every round makes the list longer. -/
theorem iterate_endTogether_closed (cat : Category) (n : Nat) :
    endTogether (endTogether^[n] [cat]) ⊆ endTogether^[n] [cat] ∨
      n < (endTogether^[n] [cat]).length := by
  induction n with
  | zero => exact .inr Nat.zero_lt_one
  | succ n ih =>
    rw [Function.iterate_succ_apply']
    generalize known_eq : endTogether^[n] [cat] = known at ih
    by_cases closed : endTogether known ⊆ known
    · left
      intro outer mem
      rcases mem_endTogether.mp mem with early | ⟨inner, early, ends⟩
      · exact early
      · exact mem_endTogether.mpr (.inr ⟨inner, closed early, ends⟩)
    · have longer := ih.resolve_left closed
      obtain ⟨outer, added, fresh⟩ : ∃ outer ∈ endTogether known, outer ∉ known := by
        simpa [subset_def] using closed
      have nodup := known_eq ▸ iterate_endTogether_nodup cat n
      have subset : outer :: known ⊆ endTogether known := by
        intro other mem
        rcases mem_cons.mp mem with rfl | early
        · exact added
        · exact mem_endTogether.mpr (.inl early)
      have length := (subperm_of_subset (nodup_cons.mpr ⟨fresh, nodup⟩) subset).length_le
      rw [length_cons] at length
      omega

theorem Category.mem_ends_self (cat : Category) : cat ∈ cat.ends := by
  rw [ends_eq]
  generalize Category.all.length = n
  induction n with
  | zero => exact mem_singleton_self _
  | succ n ih =>
    rw [Function.iterate_succ_apply']
    exact mem_endTogether.mpr (.inl ih)

theorem Category.mem_ends_of_endsIn {inner : Category} (mem : inner ∈ cat.ends)
    (ends : EndsIn inner outer) : outer ∈ cat.ends := by
  rw [ends_eq] at mem ⊢
  have closed := (iterate_endTogether_closed cat Category.all.length).resolve_right
    (Nat.not_lt.mpr (nodup_length_le (iterate_endTogether_nodup cat _)))
  exact closed (mem_endTogether.mpr (.inr ⟨inner, mem, ends⟩))

theorem Category.beyond_eq (cat : Category) :
    cat.beyond = ⟨cat.ends.flatMap fun c => c.callers.flatMap fun point => point.after.reads,
      cat.ends.any (·.callers.isEmpty)⟩ :=
  lookUp_map _ cat

theorem Category.mem_beyond_reads :
    read ∈ cat.beyond.reads ↔
      ∃ inner ∈ cat.ends, ∃ point ∈ inner.callers, read ∈ point.after.reads := by
  rw [beyond_eq]
  simp

theorem Category.beyond_passable :
    cat.beyond.passable = true ↔ ∃ inner ∈ cat.ends, inner.callers.isEmpty = true := by
  simp [beyond_eq]

/-- What ends together with a phrase may itself end together with others. -/
theorem Category.ends_subset (mem : outer ∈ cat.ends) : outer.ends ⊆ cat.ends := by
  rw [ends_eq outer]
  generalize Category.all.length = n
  induction n with
  | zero => exact fun _ same => mem_singleton.mp same ▸ mem
  | succ n ih =>
    rw [Function.iterate_succ_apply']
    intro other added
    rcases mem_endTogether.mp added with early | ⟨inner, early, ends⟩
    · exact ih early
    · exact mem_ends_of_endsIn (ih early) ends

def Line.under (line : Line) (outer : List Point) : Line := { line with calls := line.calls ++ outer }

/-- The calls of the line lead out to a whole file. -/
def Line.Chained (line : Line) : Prop :=
  match line.stand with
  | .before point _ => Chain point.category line.calls
  | .finished => True

/-- The words that a line can go on with. Without context its calls are known only so far, so it is
enough that some calls behind them lead out to a whole file. -/
def Line.Covers (scheme : Scheme) (line : Line) (word : List Kind) : Prop :=
  ∃ outer, (scheme = .actualCallers → outer = []) ∧ (line.under outer).Accepts word ∧
    (line.under outer).Chained

theorem Read.line_covers {scheme : Scheme} {known outer : List Point}
    (context : scheme = .actualCallers → outer = []) (inKinds : kind ∈ read.kinds)
    (chain : Chain read.point.category (read.calls ++ known ++ outer))
    (later : Accepts read.point.category read.point.following (read.calls ++ known ++ outer) word) :
    (read.line alternative outside known).Covers scheme (kind :: word) :=
  ⟨outer, context, ⟨kind, word, rfl, inKinds, later⟩, chain⟩

theorem mem_leave_anyCaller :
    line ∈ linesFrom.leave .anyCaller alternative outside cat [] ↔
      (∃ read ∈ cat.beyond.reads, line = read.line alternative true []) ∨
        cat.beyond.passable = true ∧ line = ⟨.finished, alternative, [], outside⟩ := by
  unfold linesFrom.leave
  generalize cat.beyond = beyond
  cases passable : beyond.passable <;> simp [passable, Read.line, eq_comm]

theorem Category.beyond_le (mem : outer ∈ cat.ends) : outer.beyond.Le cat.beyond := by
  have within := Category.ends_subset mem
  constructor
  · intro read inBeyond
    obtain ⟨inner, inEnds, later⟩ := mem_beyond_reads.mp inBeyond
    exact mem_beyond_reads.mpr ⟨inner, within inEnds, later⟩
  · intro passable
    obtain ⟨inner, inEnds, root⟩ := beyond_passable.mp passable
    exact beyond_passable.mpr ⟨inner, within inEnds, root⟩

/-- Behind the end of a phrase whose calls are not known come the lines that come behind any of the
places where its category is called. -/
theorem leave_of_caller (caller : point ∈ cat.callers) (outside : Bool)
    (mem : line ∈ linesFrom .anyCaller alternative true point.category
      (firstOf point.category point.following) []) :
    line ∈ linesFrom.leave .anyCaller alternative outside cat [] ∨
      line.stand = .finished ∧
        { line with outside := outside } ∈
          linesFrom.leave .anyCaller alternative outside cat [] := by
  rw [← point.after_eq] at mem
  simp only [mem_leave_anyCaller]
  rcases mem_linesFrom.mp mem with ⟨read, inReads, rfl⟩ | ⟨passable, left⟩
  · exact .inl (.inl ⟨read, Category.mem_beyond_reads.mpr
      ⟨cat, cat.mem_ends_self, point, caller, inReads⟩, rfl⟩)
  · have within : point.category.beyond.Le cat.beyond := Category.beyond_le
      (Category.mem_ends_of_endsIn cat.mem_ends_self ⟨point, caller, passable, rfl⟩)
    rcases mem_leave_anyCaller.mp left with ⟨read, inBeyond, rfl⟩ | ⟨root, rfl⟩
    · exact .inl (.inl ⟨read, within.reads inBeyond, rfl⟩)
    · exact .inr ⟨rfl, .inr ⟨within.passable root, rfl⟩⟩

theorem grammarSpec_beyond_passable : Category.grammarSpec.beyond.passable = true := by
  refine Category.beyond_passable.mpr ⟨_, Category.mem_ends_self _, ?_⟩
  decide

/-- No word is missed: what forms and calls accept, one of their lines goes on with, also when only
the first of the calls are known. -/
theorem Accepts.exists_line {scheme : Scheme} {cat : Category} {forms : List Form}
    {calls known outer : List Point} {word : List Kind} (accepts : Accepts cat forms calls word)
    (located : Located cat forms) (chain : Chain cat calls) (split : calls = known ++ outer)
    (context : scheme = .actualCallers → outer = []) (alternative : Nat) (outside : Bool) :
    ∃ line ∈ linesFrom scheme alternative outside cat (firstOf cat forms) known,
      line.Covers scheme word := by
  induction accepts generalizing known outer outside with
  | @finished cat =>
    obtain ⟨rfl, rfl⟩ := append_eq_nil_iff.mp split.symm
    refine ⟨⟨.finished, alternative, [], outside⟩, ?_, [], fun _ => rfl, rfl, trivial⟩
    have root : cat = .grammarSpec := chain
    rw [linesFrom_nil, root]
    cases scheme with
    | actualCallers => exact mem_singleton_self _
    | anyCaller => exact mem_leave_anyCaller.mpr (.inr ⟨grammarSpec_beyond_passable, rfl⟩)
  | @back calls word cat point _ ih =>
    rw [linesFrom_nil]
    cases known with
    | cons other known =>
      obtain ⟨rfl, rfl⟩ := cons.inj split
      rw [leave_cons]
      exact ih point.following_located chain.2 rfl context outside
    | nil =>
      cases scheme with
      | actualCallers => simp [context rfl] at split
      | anyCaller =>
        obtain ⟨line, mem, covers⟩ :=
          ih point.following_located chain.2 (nil_append calls).symm (by simp) true
        rcases leave_of_caller chain.1 outside mem with found | ⟨finished, found⟩
        · exact ⟨line, found, covers⟩
        · refine ⟨_, found, ?_⟩
          simpa [Line.Covers, Line.Accepts, Line.Chained, Line.under] using covers
  | empty _ ih =>
    obtain ⟨line, mem, covers⟩ := ih located.tail chain split context outside
    exact ⟨line, firstOf_empty_le.lines mem, covers⟩
  | @token cat rest calls word index kind later _ =>
    subst split
    refine ⟨Read.line ⟨⟨cat, index⟩, [kind], []⟩ alternative outside known,
      mem_linesFrom.mpr (.inl ⟨_, by simp [firstOf, Form.first], rfl⟩),
      Read.line_covers context (mem_singleton_self kind) chain ?_⟩
    simpa only [located.following_token, nil_append] using later
  | @oneOf kinds kind cat rest calls word index inKinds later _ =>
    subst split
    refine ⟨Read.line ⟨⟨cat, index⟩, kinds, []⟩ alternative outside known,
      mem_linesFrom.mpr (.inl ⟨_, by simp [firstOf, Form.first], rfl⟩),
      Read.line_covers context inKinds chain ?_⟩
    simpa only [located.following_oneOf, nil_append] using later
  | @call cat index calls word rest callee _ ih =>
    subst split
    obtain ⟨line, mem, covers⟩ := ih (located_form callee) ⟨located.mem_callers, chain⟩
      (cons_append ..).symm context outside
    exact ⟨line, (linesFrom_call _ _ _ known located line).mpr mem, covers⟩
  | seq _ ih =>
    obtain ⟨line, mem, covers⟩ := ih located.seq chain split context outside
    exact ⟨line, firstOf_seq_le.lines mem, covers⟩
  | left _ ih =>
    obtain ⟨line, mem, covers⟩ := ih located.left chain split context outside
    exact ⟨line, firstOf_left_le.lines mem, covers⟩
  | right _ ih =>
    obtain ⟨line, mem, covers⟩ := ih located.right chain split context outside
    exact ⟨line, firstOf_right_le.lines mem, covers⟩
  | choice _ ih => exact ih located.choice chain split context outside
  | absent _ ih =>
    obtain ⟨line, mem, covers⟩ := ih located.tail chain split context outside
    exact ⟨line, (firstOf_absent_le rfl).lines mem, covers⟩
  | present _ ih =>
    obtain ⟨line, mem, covers⟩ := ih located.optional chain split context outside
    exact ⟨line, firstOf_present_le.lines mem, covers⟩
  | star _ ih => exact ih located.star chain split context outside
  | plus _ ih =>
    obtain ⟨line, mem, covers⟩ := ih located.plus chain split context outside
    exact ⟨line, firstOf_plus_le.lines mem, covers⟩
  | stop _ ih =>
    obtain ⟨line, mem, covers⟩ := ih located.tail chain split context outside
    exact ⟨line, (firstOf_absent_le rfl).lines mem, covers⟩
  | round _ ih =>
    obtain ⟨line, mem, covers⟩ := ih located.rounds chain split context outside
    exact ⟨line, firstOf_round_le.lines mem, covers⟩

/-- The first token of what is accepted may come first, or may follow the phrase. -/
theorem Accepts.first_admits {forms : List Form} {calls : List Point}
    (accepts : Accepts cat forms calls (kind :: word)) (located : Located cat forms)
    (chain : Chain cat calls) :
    (firstOf cat forms).admits kind = true ∨
      (firstOf cat forms).passable = true ∧ cat.beyond.admits kind = true := by
  obtain ⟨line, mem, outer, -, goesOn, -⟩ := @Accepts.exists_line .anyCaller _ _ _ [] calls _
    accepts located chain rfl (by simp) 0 false
  have admits : ∀ {first : First} {read : Read}, read ∈ first.reads →
      line.stand = .before read.point read.kinds → first.admits kind = true := by
    intro first read inReads stand
    simp only [Line.Accepts, Line.under, stand] at goesOn
    obtain ⟨_, _, same, inKinds, -⟩ := goesOn
    cases same
    exact any_eq_true.mpr ⟨read, inReads, by simpa using inKinds⟩
  rcases mem_linesFrom.mp mem with ⟨read, inReads, rfl⟩ | ⟨passable, left⟩
  · exact .inl (admits inReads rfl)
  · refine .inr ⟨passable, ?_⟩
    rcases mem_leave_anyCaller.mp left with ⟨read, inBeyond, rfl⟩ | ⟨-, rfl⟩
    · exact admits inBeyond rfl
    · simp [Line.Accepts, Line.under] at goesOn

section Follow

private def fileEnd : List Kind := [.endOfFile, .modeKeyword]

private def ruleStart : List Kind :=
  [.ruleRef, .tokenRef, .fragmentKeyword, .protectedKeyword, .publicKeyword, .privateKeyword]

private def preludeStart : List Kind :=
  [.optionsOpen, .tokensOpen, .channelsOpen, .importKeyword, .atSign]

private def rulePreludeStart : List Kind := [.optionsOpen, .colon, .atSign]

private def suffixStart : List Kind := [.question, .star, .plus]

private def elementEnd : List Kind :=
  [.action, .ruleRef, .stringLiteral, .tokenRef, .leftParen, .dot, .tilde, .semicolon, .rightParen,
    .bar, .pound]

private def lexerElementEnd : List Kind :=
  [.action, .lexerCharSet, .stringLiteral, .tokenRef, .leftParen, .dot, .tilde, .semicolon,
    .rightParen, .bar, .arrow]

/-- The tokens that may follow a phrase of a category. -/
def Category.follow : Category → List Kind
  | .grammarSpec => []
  | .grammarDecl | .prequelConstruct | .delegateGrammars | .tokensSpec | .channelsSpec | .action =>
    fileEnd ++ ruleStart ++ preludeStart
  | .grammarType => [.ruleRef, .tokenRef]
  | .optionsSpec => fileEnd ++ ruleStart ++ preludeStart ++ [.colon]
  | .option | .optionValue | .ruleBlock | .ruleAltList | .lexerRuleBlock => [.semicolon]
  | .delegateGrammar => [.comma, .semicolon]
  | .idList => [.rightBrace]
  | .actionScopeName => [.doubleColon]
  | .actionBlock =>
    fileEnd ++ ruleStart ++ preludeStart ++ elementEnd ++ lexerElementEnd ++
      [.catchKeyword, .finallyKeyword, .colon, .comma, .less, .greater, .question]
  | .argActionBlock =>
    elementEnd ++ suffixStart ++ rulePreludeStart ++
      [.returnsKeyword, .localsKeyword, .throwsKeyword, .less]
  | .modeSpec | .rules => fileEnd
  | .ruleSpec | .parserRuleSpec | .exceptionGroup | .finallyClause | .lexerRuleSpec =>
    fileEnd ++ ruleStart
  | .exceptionHandler => fileEnd ++ ruleStart ++ [.catchKeyword, .finallyKeyword]
  | .rulePrequel | .localsSpec | .ruleAction => rulePreludeStart
  | .ruleReturns => rulePreludeStart ++ [.localsKeyword, .throwsKeyword]
  | .throwsSpec => rulePreludeStart ++ [.localsKeyword]
  | .ruleModifiers => [.ruleRef]
  | .ruleModifier => ruleStart
  | .labeledAlt => [.semicolon, .bar]
  | .lexerAltList => [.semicolon, .rightParen]
  | .lexerAlt | .lexerCommands => [.semicolon, .rightParen, .bar]
  | .lexerElements => [.semicolon, .rightParen, .bar, .arrow]
  | .lexerElement => lexerElementEnd
  | .lexerBlock | .lexerAtom => lexerElementEnd ++ suffixStart
  | .lexerCommand => [.comma, .semicolon, .rightParen, .bar]
  | .lexerCommandName => [.comma, .semicolon, .leftParen, .rightParen, .bar]
  | .lexerCommandExpr | .altList => [.rightParen]
  | .alternative => [.semicolon, .rightParen, .bar, .pound]
  | .element | .predicateOptions | .ebnf | .blockSuffix => elementEnd
  | .predicateOption | .elementOption => [.comma, .greater]
  | .labeledElement | .atom | .block | .ruleRef => elementEnd ++ suffixStart
  | .ebnfSuffix => elementEnd ++ lexerElementEnd
  | .wildcard | .notSet | .blockSet | .setElement | .characterRange | .terminalDef
  | .elementOptions => elementEnd ++ lexerElementEnd ++ suffixStart
  | .identifier =>
    rulePreludeStart ++ [.action, .assign, .localsKeyword, .doubleColon, .comma, .semicolon,
      .leftParen, .rightParen, .rightBrace, .greater, .plusAssign, .bar, .dot]
  | .qualifiedIdentifier => rulePreludeStart ++ [.localsKeyword, .comma, .greater]

end Follow

/-- What may come behind a call follows what is called, and so does what follows the phrase of the
call where nothing need come behind it. -/
theorem follow_of_caller (caller : point ∈ cat.callers) :
    (∀ read ∈ point.after.reads, ∀ kind ∈ read.kinds, kind ∈ cat.follow) ∧
      (point.after.passable = true → point.category.follow ⊆ cat.follow) := by
  have checked : ∀ c ∈ Category.all, ∀ place ∈ c.form.places [], ∀ callee ∈ place.2.1,
      ((firstOf c place.2.2).reads.all fun read => read.kinds.all callee.follow.contains) = true ∧
        ((firstOf c place.2.2).passable = true →
          c.follow.all callee.follow.contains = true) := by
    decide +kernel
  obtain ⟨place, member, same, isCall⟩ := Category.mem_callers.mp caller
  obtain ⟨owner, number⟩ := point
  cases same
  have := checked owner (mem_all owner) _ member cat isCall
  rw [Point.after_eq, Point.following_eq member]
  simpa [subset_def] using this

theorem Category.follow_of_mem_ends (mem : outer ∈ cat.ends) :
    outer.follow ⊆ cat.follow := by
  rw [ends_eq] at mem
  generalize Category.all.length = n at mem
  induction n generalizing outer with
  | zero => exact mem_singleton.mp mem ▸ List.Subset.refl _
  | succ n ih =>
    rw [Function.iterate_succ_apply'] at mem
    rcases mem_endTogether.mp mem with early | ⟨inner, early, point, caller, passable, rfl⟩
    · exact ih early
    · exact List.Subset.trans ((follow_of_caller caller).2 passable) (ih early)

theorem Category.mem_follow (admits : cat.beyond.admits kind = true) : kind ∈ cat.follow := by
  obtain ⟨read, inBeyond, inKinds⟩ := any_eq_true.mp admits
  obtain ⟨inner, inEnds, point, caller, inReads⟩ := mem_beyond_reads.mp inBeyond
  exact follow_of_mem_ends inEnds
    ((follow_of_caller caller).1 read inReads kind (by simpa using inKinds))

end GrammarLint.Phrase
