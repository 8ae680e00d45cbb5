import GrammarLint.Proofs.FollowSets

open List

namespace GrammarLint.Phrase

open Lexical (Kind Token)

variable {scheme : Scheme} {line : Line} {word past : List Kind} {calls : List Point} {kind : Kind}
  {bundles : List Bundle} {bundle : Bundle} {alternative : Nat} {lines : List Line} {outside : Bool}
  {cat : Category} {finish : Token} {ahead : List Token} {means : Nat → List Kind → Prop}

theorem Line.Covers.congr {other : Line} (covers : line.Covers scheme word)
    (stand : other.stand = line.stand) (calls : other.calls = line.calls) : other.Covers scheme word := by
  simpa only [Line.Covers, Line.Accepts, Line.Chained, Line.under, stand, calls] using covers

variable {more : List Point} {first : First} {b c : Bundle} {firsts : List First}

/-- Without context, a line whose calls are known less far covers at least as much. -/
theorem Line.Covers.shorten (covers : line.Covers scheme word) (split : line.calls = calls ++ more)
    (context : scheme = .actualCallers → more = []) :
    ({ line with calls := calls } : Line).Covers scheme word := by
  obtain ⟨outer, whole, accepts, chained⟩ := covers
  refine ⟨more ++ outer, fun inContext => by simp [context inContext, whole inContext], ?_⟩
  simp only [Line.Accepts, Line.Chained, Line.under, split, append_assoc] at accepts chained ⊢
  exact ⟨accepts, chained⟩

theorem Line.Covers.before (covers : line.Covers scheme (kind :: word)) : ∃ point kinds outer,
      line.stand = .before point kinds ∧ kind ∈ kinds ∧
      (scheme = .actualCallers → outer = []) ∧ Chain point.category (line.calls ++ outer) ∧
      Phrase.Accepts point.category point.following (line.calls ++ outer) word := by
  obtain ⟨outer, context, accepts, chained⟩ := covers
  obtain ⟨stand, alternative, calls, outside⟩ := line
  cases stand with
  | finished => simp [Line.Accepts, Line.under] at accepts
  | before point kinds =>
    obtain ⟨_, _, same, inKinds, later⟩ := accepts
    cases same
    exact ⟨point, kinds, outer, rfl, inKinds, context, chained, later⟩

theorem Line.Covers.finished {scheme : Scheme} {line : Line} (covers : line.Covers scheme []) :
    line.stand = .finished := by
  obtain ⟨outer, -, accepts, -⟩ := covers
  obtain ⟨stand, alternative, calls, outside⟩ := line
  cases stand with
  | finished => rfl
  | before point kinds =>
    obtain ⟨_, _, same, -⟩ := accepts
    cases same

/-- Some bundle of the alternative has a line that covers the word. -/
def Covered (scheme : Scheme) (bundles : List Bundle) (alternative : Nat) (word : List Kind) : Prop :=
  ∃ bundle ∈ bundles, bundle.alternative = alternative ∧ ∃ line ∈ bundle.lines, line.Covers scheme word

namespace Bundle

/-- The bundle with a line put in. -/
def join (scheme : Scheme) (line : Line) (bundle : Bundle) : Bundle :=
  { bundle with histories := addHistory scheme line.calls bundle.histories,
                outside := bundle.outside || line.outside }

theorem add_cons (scheme : Scheme) (line : Line) (bundle : Bundle) (rest : List Bundle) :
    add scheme line (bundle :: rest) =
      if bundle.stand = line.stand ∧ bundle.alternative = line.alternative then
        bundle.join scheme line :: rest
      else bundle :: add scheme line rest := rfl

variable {bundle : Bundle} {line : Line} {bundles : List Bundle}

theorem mem_lines :
    line ∈ bundle.lines ↔ line.stand = bundle.stand ∧ line.alternative = bundle.alternative ∧
      line.calls ∈ bundle.histories ∧ line.outside = bundle.outside := by
  obtain ⟨stand, alternative, calls, outside⟩ := line
  simp only [lines, mem_map, Line.mk.injEq]
  constructor
  · rintro ⟨history, mem, rfl, rfl, rfl, rfl⟩
    exact ⟨rfl, rfl, mem, rfl⟩
  · rintro ⟨rfl, rfl, mem, rfl⟩
    exact ⟨calls, mem, rfl, rfl, rfl, rfl⟩

variable {scheme : Scheme} {calls : List Point}

/-- The calls that are added, and those that were there, are still there, perhaps cut short. -/
theorem exists_mem_addHistory {added : List Point} {histories : List (List Point)}
    (mem : calls ∈ histories ∨ calls = added) :
    ∃ known ∈ addHistory scheme added histories, ∃ more, calls = known ++ more ∧
      (scheme = .actualCallers → more = []) := by
  cases scheme with
  | actualCallers =>
    refine ⟨calls, ?_, [], (append_nil _).symm, fun _ => rfl⟩
    simp only [addHistory]
    split
    · rename_i there
      rcases mem with early | rfl
      · exact early
      · simpa using there
    · simpa using mem
  | anyCaller =>
    simp only [addHistory, reduceCtorEq, false_implies, and_true]
    split
    · rename_i there
      rcases mem with early | rfl
      · exact ⟨calls, early, [], (append_nil _).symm⟩
      · obtain ⟨known, inHistories, before⟩ := any_eq_true.mp there
        obtain ⟨more, split⟩ := isPrefixOf_iff_prefix.mp before
        exact ⟨known, inHistories, more, split.symm⟩
    · by_cases before : added <+: calls
      · obtain ⟨more, split⟩ := before
        exact ⟨added, by simp, more, split.symm⟩
      · rcases mem with early | rfl
        · refine ⟨calls, ?_, [], (append_nil _).symm⟩
          simp only [mem_append, mem_filter, Bool.not_eq_true']
          exact .inl ⟨early, by simpa [← isPrefixOf_iff_prefix] using before⟩
        · exact absurd (prefix_refl _) before

theorem addHistory_subset {added : List Point} {histories : List (List Point)}
    (mem : calls ∈ addHistory scheme added histories) : calls ∈ histories ∨ calls = added := by
  cases scheme with
  | actualCallers =>
    simp only [addHistory] at mem
    split at mem
    · exact .inl mem
    · simpa using mem
  | anyCaller =>
    simp only [addHistory] at mem
    split at mem
    · exact .inl mem
    · simp only [mem_append, mem_filter, mem_singleton] at mem
      exact mem.imp_left And.left

/-- With a line added there are the bundles from before, but for one for its place and alternative: it is
new, or one from before that has taken in the line. -/
theorem mem_add (mem : bundle ∈ add scheme line bundles) :
    bundle ∈ bundles ∨ (bundle.stand = line.stand ∧ bundle.alternative = line.alternative) ∧
      (bundle.histories = [line.calls] ∧ bundle.outside = line.outside ∨
        ∃ early ∈ bundles, early.stand = bundle.stand ∧ early.alternative = bundle.alternative ∧
          bundle.histories = addHistory scheme line.calls early.histories ∧
          bundle.outside = (early.outside || line.outside)) := by
  induction bundles with
  | nil =>
    cases mem_singleton.mp mem
    exact .inr ⟨⟨rfl, rfl⟩, .inl ⟨rfl, rfl⟩⟩
  | cons other rest ih =>
    rw [add_cons] at mem
    split at mem
    · rename_i same
      rcases mem_cons.mp mem with rfl | later
      · exact .inr ⟨same, .inr ⟨other, mem_cons_self, rfl, rfl, rfl, rfl⟩⟩
      · exact .inl (mem_cons_of_mem _ later)
    · rcases mem_cons.mp mem with rfl | later
      · exact .inl mem_cons_self
      · rcases ih later with early | ⟨same, new | ⟨early, inRest, taken⟩⟩
        · exact .inl (mem_cons_of_mem _ early)
        · exact .inr ⟨same, .inl new⟩
        · exact .inr ⟨same, .inr ⟨early, mem_cons_of_mem _ inRest, taken⟩⟩

/-- The lines that stand in bundles with a line added are that line and those from before; only
whether they are outside may change. -/
theorem history_add (mem : bundle ∈ add scheme line bundles) (history : calls ∈ bundle.histories) :
    (bundle.stand = line.stand ∧ bundle.alternative = line.alternative ∧ calls = line.calls) ∨
      ∃ early ∈ bundles, early.stand = bundle.stand ∧ early.alternative = bundle.alternative ∧
        calls ∈ early.histories := by
  rcases mem_add mem with before | ⟨⟨stand, same⟩, ⟨new, -⟩ | ⟨early, inBundles, at', of', taken, -⟩⟩
  · exact .inr ⟨bundle, before, rfl, rfl, history⟩
  · exact .inl ⟨stand, same, mem_singleton.mp (new ▸ history)⟩
  · rcases addHistory_subset (taken ▸ history) with old | rfl
    · exact .inr ⟨early, inBundles, at', of', old⟩
    · exact .inl ⟨stand, same, rfl⟩

end Bundle

/-- A history in a bundle covers a word, whatever the bundle says about being outside. -/
theorem covered_of_history (mem : bundle ∈ bundles) (stand : bundle.stand = line.stand)
    (same : bundle.alternative = alternative) {known : List Point} (history : known ∈ bundle.histories)
    (split : line.calls = known ++ more) (context : scheme = .actualCallers → more = [])
    (covers : line.Covers scheme word) : Covered scheme bundles alternative word := by
  refine ⟨bundle, mem, same, ⟨bundle.stand, bundle.alternative, known, bundle.outside⟩,
    Bundle.mem_lines.mpr ⟨rfl, rfl, history, rfl⟩, ?_⟩
  exact (covers.shorten split context).congr stand rfl

theorem Covered.of_mem {more : List Bundle} (subset : bundles ⊆ more)
    (covered : Covered scheme bundles alternative word) : Covered scheme more alternative word := by
  obtain ⟨bundle, mem, later⟩ := covered
  exact ⟨bundle, subset mem, later⟩

theorem Covered.add
    (covered : Covered scheme bundles alternative word ∨
      line.alternative = alternative ∧ line.Covers scheme word) :
    Covered scheme (Bundle.add scheme line bundles) alternative word := by
  induction bundles with
  | nil =>
    rcases covered with ⟨_, mem, _⟩ | ⟨rfl, covers⟩
    · simp at mem
    · exact covered_of_history (mem_singleton_self _) rfl rfl (mem_singleton_self _)
        (append_nil _).symm (fun _ => rfl) covers
  | cons bundle rest ih =>
    rw [Bundle.add_cons]
    split
    · rename_i same
      have joined : ∀ {other : Line}, other.stand = bundle.stand →
          other.calls ∈ bundle.histories ∨ other.calls = line.calls → other.Covers scheme word →
          Covered scheme (bundle.join scheme line :: rest) bundle.alternative word := by
        intro other stand history covers
        obtain ⟨known, inNew, more, split, context⟩ := Bundle.exists_mem_addHistory history
        have mem : bundle.join scheme line ∈ bundle.join scheme line :: rest := mem_cons_self
        exact covered_of_history mem stand.symm rfl inNew split context covers
      rcases covered with ⟨early, mem, rfl, other, inLines, covers⟩ | ⟨rfl, covers⟩
      · rcases mem_cons.mp mem with rfl | later
        · obtain ⟨stand, -, history, -⟩ := Bundle.mem_lines.mp inLines
          exact joined stand (.inl history) covers
        · exact ⟨early, mem_cons_of_mem _ later, rfl, other, inLines, covers⟩
      · exact same.2 ▸ joined same.1.symm (.inr rfl) covers
    · rcases covered with ⟨early, mem, rfl, inLines⟩ | covers
      · rcases mem_cons.mp mem with rfl | later
        · exact ⟨early, mem_cons_self, rfl, inLines⟩
        · exact (ih (.inl ⟨early, later, rfl, inLines⟩)).of_mem (subset_cons_self _ _)
      · exact (ih (.inr covers)).of_mem (subset_cons_self _ _)

theorem Covered.foldl_add
    (covered : Covered scheme bundles alternative word ∨
      ∃ line ∈ lines, line.alternative = alternative ∧ line.Covers scheme word) :
    Covered scheme (lines.foldl (fun bundles line => Bundle.add scheme line bundles) bundles)
      alternative word := by
  induction lines generalizing bundles with
  | nil => simpa using covered
  | cons line lines ih =>
    rcases covered with early | ⟨other, mem, found⟩
    · exact ih (.inl (.add (.inl early)))
    · rcases mem_cons.mp mem with rfl | later
      · exact ih (.inl (.add (.inr found)))
      · exact ih (.inr ⟨other, later, found⟩)

theorem covered_collect (mem : line ∈ lines) (covers : line.Covers scheme word) :
    Covered scheme (Bundle.collect scheme lines) line.alternative word :=
  .foldl_add (.inr ⟨line, mem, rfl, covers⟩)

theorem leave_ends (mem : line ∈ linesFrom.leave scheme alternative outside cat calls) :
    line.alternative = alternative ∧ (line.stand = .finished → line.calls = []) := by
  induction calls generalizing cat with
  | nil =>
    cases scheme with
    | actualCallers => cases mem_singleton.mp mem; exact ⟨rfl, fun _ => rfl⟩
    | anyCaller =>
      rcases mem_leave_anyCaller.mp mem with ⟨read, -, rfl⟩ | ⟨-, rfl⟩
      · exact ⟨rfl, nofun⟩
      · exact ⟨rfl, fun _ => rfl⟩
  | cons point calls ih =>
    rcases mem_linesFrom.mp mem with ⟨read, -, rfl⟩ | ⟨-, left⟩
    · exact ⟨rfl, nofun⟩
    · exact ih left

/-- A line that is finished has no calls to return to. -/
theorem linesFrom_ends (mem : line ∈ linesFrom scheme alternative outside cat first calls) :
    line.alternative = alternative ∧ (line.stand = .finished → line.calls = []) := by
  rcases mem_linesFrom.mp mem with ⟨read, -, rfl⟩ | ⟨-, left⟩
  · exact ⟨rfl, nofun⟩
  · exact leave_ends left

theorem linesFrom_alternative (mem : line ∈ linesFrom scheme alternative outside cat first calls) :
    line.alternative = alternative := (linesFrom_ends mem).1

theorem mem_read :
    line ∈ bundle.read scheme kind ↔ ∃ point kinds, bundle.stand = .before point kinds ∧
      kind ∈ kinds ∧ ∃ calls ∈ bundle.histories,
        line ∈ linesFrom scheme bundle.alternative bundle.outside point.category
          (firstOf point.category point.following) calls := by
  unfold Bundle.read
  cases stand : bundle.stand with
  | finished => simp
  | before point kinds =>
    simp only [Stand.before.injEq, Point.after_eq]
    split
    · rename_i inKinds
      constructor
      · intro mem
        exact ⟨point, kinds, ⟨rfl, rfl⟩, by simpa using inKinds, by simpa using mem⟩
      · rintro ⟨_, _, ⟨rfl, rfl⟩, -, mem⟩
        simpa using mem
    · rename_i notIn
      constructor
      · simp
      · rintro ⟨_, _, ⟨rfl, rfl⟩, inKinds, -⟩
        exact absurd inKinds (by simpa using notIn)

/-- When the first token is read, the lines that cover the word go on with the rest. -/
theorem Covered.read (covered : Covered scheme bundles alternative (kind :: word)) :
    ∃ line ∈ bundles.flatMap (Bundle.read scheme kind), line.alternative = alternative ∧
      line.Covers scheme word := by
  obtain ⟨bundle, member, rfl, line, inLines, covers⟩ := covered
  obtain ⟨stand, -, history, -⟩ := Bundle.mem_lines.mp inLines
  obtain ⟨point, kinds, outer, place, inKinds, context, chain, accepts⟩ := covers.before
  obtain ⟨next, reached, covers⟩ := accepts.exists_line point.following_located chain rfl context
    bundle.alternative bundle.outside
  refine ⟨next, mem_flatMap.mpr ⟨bundle, member, mem_read.mpr ?_⟩,
    linesFrom_alternative reached, covers⟩
  exact ⟨point, kinds, stand ▸ place, inKinds, line.calls, history, reached⟩

/-- The bundles that are reached by reading a token. -/
def reached (scheme : Scheme) (kind : Kind) (bundles : List Bundle) : List Bundle :=
  if kind = .endOfFile then
    (Bundle.collect scheme (bundles.flatMap (Bundle.read scheme kind))).filter Bundle.isFinished
  else Bundle.collect scheme (bundles.flatMap (Bundle.read scheme kind))

theorem advance_eq (scheme : Scheme) (kind : Kind) (bundles : List Bundle) :
    advance scheme kind bundles =
      if scheme = .anyCaller || !(reached scheme kind bundles).any Bundle.isFinished then
        ((if scheme = .actualCallers ∨ kind = .endOfFile then bundles.filter Bundle.isFinished
          else []).flatMap Bundle.lines).foldl (fun all line => Bundle.add scheme line all)
          (reached scheme kind bundles)
      else reached scheme kind bundles := rfl

theorem Covered.reached (covered : Covered scheme bundles alternative (kind :: word))
    (last : kind = .endOfFile → word = []) :
    Covered scheme (reached scheme kind bundles) alternative word := by
  obtain ⟨line, mem, rfl, covers⟩ := covered.read
  have collected := covered_collect mem covers
  unfold reached
  split
  · rename_i ended
    cases last ended
    obtain ⟨bundle, inReached, same, other, inLines, covers⟩ := collected
    refine ⟨bundle, mem_filter.mpr ⟨inReached, ?_⟩, same, other, inLines, covers⟩
    simp [Bundle.isFinished, ← (Bundle.mem_lines.mp inLines).1, covers.finished]
  · exact collected

theorem Covered.advance (covered : Covered scheme bundles alternative (kind :: word))
    (last : kind = .endOfFile → word = []) :
    Covered scheme (advance scheme kind bundles) alternative word := by
  rw [advance_eq]
  split
  · exact .foldl_add (.inl (covered.reached last))
  · exact covered.reached last

theorem onlyAlternative_eq (only : onlyAlternative bundles = some alternative)
    (mem : bundle ∈ bundles) : bundle.alternative = alternative := by
  cases bundles with
  | nil => simp at mem
  | cons first rest =>
    simp only [onlyAlternative, Option.ite_none_right_eq_some, Option.some.injEq, all_eq_true,
      beq_iff_eq] at only
    rcases mem_cons.mp mem with rfl | later
    · exact only.2
    · exact (only.1 _ later).trans only.2

theorem Covered.ne_nil : ¬Covered scheme [] alternative word := by
  rintro ⟨_, mem, _⟩
  simp at mem

/-- Where prediction without context comes to a verdict, it is the alternative that goes on. -/
theorem predictAnywhere_covered {verdict : Verdict} (ending : finish.kind = .endOfFile)
    (inner : ∀ token ∈ ahead, token.kind ≠ .endOfFile)
    (covered : Covered .anyCaller bundles alternative (ahead.map (·.kind) ++ [.endOfFile]))
    (predicted : predictAnywhere finish bundles ahead = some verdict) : verdict = .take alternative := by
  induction ahead generalizing bundles with
  | nil =>
    have next := covered.advance (fun _ => rfl)
    simp only [predictAnywhere, ending] at predicted
    split at predicted
    · rename_i none
      exact absurd (none ▸ next) Covered.ne_nil
    · obtain ⟨other, only, rfl⟩ := Option.map_eq_some_iff.mp predicted
      obtain ⟨bundle, mem, same, -⟩ := next
      rw [← onlyAlternative_eq only mem, same]
  | cons token ahead ih =>
    have next := covered.advance fun ended => absurd ended (inner token mem_cons_self)
    simp only [predictAnywhere] at predicted
    split at predicted
    · rename_i other only
      obtain ⟨bundle, mem, same, line, inLines, covers⟩ := covered
      obtain ⟨point, kinds, -, stand, inKinds, -⟩ := covers.before
      have admits : bundle.admits token.kind = true := by
        simpa [Bundle.admits, ← (Bundle.mem_lines.mp inLines).1, stand] using inKinds
      rw [← Option.some.inj predicted,
        ← onlyAlternative_eq only (mem_filter.mpr ⟨mem, admits⟩), same]
    · split at predicted
      · rename_i none
        exact absurd (none ▸ next) Covered.ne_nil
      · split at predicted
        · simp at predicted
        · exact ih (fun other later => inner other (mem_cons_of_mem _ later)) next predicted

/-- Every bundle comes from one of the lines that were added or from a bundle before. -/
theorem Bundle.origin_foldl_add
    (mem : bundle ∈ lines.foldl (fun bundles line => add scheme line bundles) bundles)
    (history : calls ∈ bundle.histories) :
    (∃ line ∈ lines, line.stand = bundle.stand ∧ line.alternative = bundle.alternative ∧
        line.calls = calls) ∨
      ∃ early ∈ bundles, early.stand = bundle.stand ∧ early.alternative = bundle.alternative ∧
        calls ∈ early.histories := by
  induction lines generalizing bundles with
  | nil => exact .inr ⟨bundle, mem, rfl, rfl, history⟩
  | cons line lines ih =>
    rcases ih mem with ⟨other, later, same⟩ | ⟨early, inAdded, stand, alternative, inEarly⟩
    · exact .inl ⟨other, mem_cons_of_mem _ later, same⟩
    · rcases history_add inAdded inEarly with ⟨atLine, ofLine, same⟩ | ⟨older, inBundles, at', of', old⟩
      · exact .inl ⟨line, mem_cons_self, atLine.symm.trans stand,
          ofLine.symm.trans alternative, same.symm⟩
      · exact .inr ⟨older, inBundles, at'.trans stand, of'.trans alternative, old⟩

theorem Bundle.add_histories (nonempty : ∀ bundle ∈ bundles, bundle.histories ≠ []) :
    ∀ bundle ∈ add scheme line bundles, bundle.histories ≠ [] := by
  intro bundle mem
  rcases mem_add mem with before | ⟨-, ⟨new, -⟩ | ⟨early, -, -, -, taken, -⟩⟩
  · exact nonempty bundle before
  · simp [new]
  · obtain ⟨known, inNew, -⟩ := exists_mem_addHistory (.inr rfl)
    exact taken ▸ ne_nil_of_mem inNew

theorem Bundle.foldl_add_histories (nonempty : ∀ bundle ∈ bundles, bundle.histories ≠ []) :
    ∀ bundle ∈ lines.foldl (fun bundles line => add scheme line bundles) bundles,
      bundle.histories ≠ [] := by
  induction lines generalizing bundles with
  | nil => exact nonempty
  | cons line lines ih => exact ih (add_histories nonempty)

theorem Bundle.origin_collect (mem : bundle ∈ collect scheme lines)
    (history : calls ∈ bundle.histories) :
    ∃ line ∈ lines, line.stand = bundle.stand ∧ line.alternative = bundle.alternative ∧
      line.calls = calls := by
  rcases origin_foldl_add mem history with found | ⟨_, inNone, -⟩
  · exact found
  · simp at inNone

theorem Bundle.collect_histories (mem : bundle ∈ collect scheme lines) :
    ∃ calls, calls ∈ bundle.histories :=
  exists_mem_of_ne_nil _ (foldl_add_histories (by simp) bundle mem)

theorem mem_reached (mem : bundle ∈ reached scheme kind bundles) :
    bundle ∈ Bundle.collect scheme (bundles.flatMap (Bundle.read scheme kind)) ∧
      (kind = .endOfFile → bundle.stand = .finished) := by
  unfold reached at mem
  split at mem
  · obtain ⟨inCollected, finished⟩ := mem_filter.mp mem
    exact ⟨inCollected, fun _ => by simpa [Bundle.isFinished] using finished⟩
  · exact ⟨mem, fun ended => absurd ended ‹_›⟩

/-- A bundle behind a token was reached by reading it, or has been finished before. -/
theorem origin_advance (mem : bundle ∈ advance scheme kind bundles)
    (history : calls ∈ bundle.histories) :
    (∃ line ∈ bundles.flatMap (Bundle.read scheme kind), line.stand = bundle.stand ∧
        line.alternative = bundle.alternative ∧ line.calls = calls) ∨
      bundle.stand = .finished ∧ ∃ early ∈ bundles, early.stand = .finished ∧
        early.alternative = bundle.alternative := by
  have collected : ∀ {early : Bundle}, early ∈ reached scheme kind bundles →
      early.stand = bundle.stand → early.alternative = bundle.alternative →
      calls ∈ early.histories → ∃ line ∈ bundles.flatMap (Bundle.read scheme kind),
        line.stand = bundle.stand ∧ line.alternative = bundle.alternative ∧ line.calls = calls := by
    intro early inReached stand alternative inEarly
    have := Bundle.origin_collect (mem_reached inReached).1 inEarly
    simpa only [stand, alternative] using this
  rw [advance_eq] at mem
  split at mem
  · rcases Bundle.origin_foldl_add mem history with ⟨line, waiting, stand, of', -⟩ |
      ⟨early, inReached, stand, of', inEarly⟩
    · right
      obtain ⟨early, inWaiting, inLines⟩ := mem_flatMap.mp waiting
      obtain ⟨atEarly, ofEarly, -⟩ := Bundle.mem_lines.mp inLines
      split at inWaiting
      · obtain ⟨inBundles, finished⟩ := mem_filter.mp inWaiting
        have finished : early.stand = .finished := by simpa [Bundle.isFinished] using finished
        exact ⟨stand.symm.trans (atEarly.trans finished), early, inBundles, finished,
          ofEarly.symm.trans of'⟩
      · simp at inWaiting
    · exact .inl (collected inReached stand of' inEarly)
  · exact .inl (collected mem rfl rfl history)

/-- What the lines of the bundles go on with is, behind what was read, a word of their
alternatives. -/
def Sound (means : Nat → List Kind → Prop) (bundles : List Bundle) (past : List Kind) : Prop :=
  ∀ bundle ∈ bundles, ∀ calls ∈ bundle.histories, ∀ point kinds, bundle.stand = .before point kinds →
    ∀ kind ∈ kinds, ∀ word, Accepts point.category point.following calls word →
      means bundle.alternative (past ++ kind :: word)

/-- A line that is reached by reading a token keeps to the words of its alternative. -/
theorem Sound.read (sound : Sound means bundles past)
    (mem : line ∈ bundles.flatMap (Bundle.read .actualCallers kind)) (goesOn : line.Accepts word) :
    means line.alternative (past ++ kind :: word) := by
  obtain ⟨bundle, inBundles, inRead⟩ := mem_flatMap.mp mem
  obtain ⟨point, kinds, stand, inKinds, calls, history, inLines⟩ := mem_read.mp inRead
  rw [linesFrom_alternative inLines]
  exact sound bundle inBundles calls history point kinds stand kind inKinds word
    (accepts_of_mem_linesFrom point.following_located inLines goesOn)

theorem Sound.advance (sound : Sound means bundles past) (kind : Kind) :
    Sound means (advance .actualCallers kind bundles) (past ++ [kind]) := by
  intro bundle mem calls history point kinds stand next inKinds word accepts
  rcases origin_advance mem history with ⟨line, inRead, at', of', same⟩ | ⟨finished, -⟩
  · rw [append_assoc, ← of']
    refine sound.read inRead ?_
    simp only [Line.Accepts, at', stand]
    exact ⟨next, word, rfl, inKinds, same ▸ accepts⟩
  · simp [finished] at stand

theorem Bundle.agree_iff :
    b.agree c = true ↔ b.stand = c.stand ∧ b.histories ⊆ c.histories ∧ c.histories ⊆ b.histories := by
  simp [agree, sameHistories, subset_def]

/-- The least alternative that agrees with a bundle is that of a bundle that agrees with it, and
there is no lesser one. -/
theorem leastAgreeing_spec (mem : bundle ∈ bundles) :
    (∃ other ∈ bundles, bundle.agree other = true ∧
        other.alternative = leastAgreeing bundles bundle) ∧
      ∀ other ∈ bundles, bundle.agree other = true →
        leastAgreeing bundles bundle ≤ other.alternative := by
  suffices general : ∀ (todo : List Bundle) (least : Nat), todo ⊆ bundles →
      (∃ other ∈ bundles, bundle.agree other = true ∧ other.alternative = least) →
      let result := todo.foldl (fun least other =>
        if bundle.agree other then min least other.alternative else least) least
      (∃ other ∈ bundles, bundle.agree other = true ∧ other.alternative = result) ∧
        result ≤ least ∧ ∀ other ∈ todo, bundle.agree other = true → result ≤ other.alternative by
    have itself : bundle.agree bundle = true := by simp [Bundle.agree_iff]
    obtain ⟨found, -, least⟩ := general bundles bundle.alternative (List.Subset.refl _)
      ⟨bundle, mem, itself, rfl⟩
    exact ⟨found, least⟩
  intro todo
  induction todo with
  | nil => exact fun least _ found => ⟨found, Nat.le_refl _, by simp⟩
  | cons next todo ih =>
    intro least subset found
    obtain ⟨inBundles, later⟩ := cons_subset.mp subset
    simp only [foldl_cons]
    split
    · rename_i agrees
      have smaller : ∃ other ∈ bundles, bundle.agree other = true ∧
          other.alternative = min least next.alternative := by
        rcases Nat.le_total least next.alternative with below | above
        · rwa [Nat.min_eq_left below]
        · exact ⟨next, inBundles, agrees, (Nat.min_eq_right above).symm⟩
      obtain ⟨result, below, least⟩ := ih _ later smaller
      refine ⟨result, Nat.le_trans below (Nat.min_le_left _ _),
        forall_mem_cons.mpr ⟨fun _ => ?_, least⟩⟩
      exact Nat.le_trans below (Nat.min_le_right _ _)
    · rename_i differs
      obtain ⟨result, below, least⟩ := ih _ later found
      exact ⟨result, below, forall_mem_cons.mpr ⟨fun agrees => absurd agrees differs, least⟩⟩

theorem leastAgreeing_of_resolved (found : resolved bundles = some alternative)
    (mem : bundle ∈ bundles) : leastAgreeing bundles bundle = alternative := by
  cases bundles with
  | nil => simp at mem
  | cons first rest =>
    simp only [resolved, Option.ite_none_right_eq_some, Option.some.injEq, all_eq_true,
      beq_iff_eq] at found
    rcases mem_cons.mp mem with rfl | later
    · exact found.2
    · exact (found.1 _ later).trans found.2

/-- Bundles that all agree are resolved by their least alternative. -/
theorem resolved_of_agree (nonempty : bundles ≠ [])
    (agrees : ∀ b ∈ bundles, ∀ c ∈ bundles, b.agree c = true) :
    ∃ bundle ∈ bundles, resolved bundles = some bundle.alternative := by
  have same : ∀ b ∈ bundles, ∀ c ∈ bundles, leastAgreeing bundles b ≤ leastAgreeing bundles c := by
    intro b inB c inC
    obtain ⟨⟨other, mem, -, least⟩, -⟩ := leastAgreeing_spec inC
    rw [← least]
    exact (leastAgreeing_spec inB).2 other mem (agrees b inB other mem)
  cases bundles with
  | nil => exact absurd rfl nonempty
  | cons first rest =>
    have atFirst : first ∈ first :: rest := mem_cons_self
    obtain ⟨⟨other, mem, -, least⟩, -⟩ := leastAgreeing_spec atFirst
    refine ⟨other, mem, ?_⟩
    simp only [resolved, Option.ite_none_right_eq_some, Option.some.injEq, all_eq_true,
      beq_iff_eq]
    refine ⟨fun c inRest => Nat.le_antisymm ?_ ?_, least.symm⟩
    · exact same c (mem_cons_of_mem _ inRest) first atFirst
    · exact same first atFirst c (mem_cons_of_mem _ inRest)

/-- Behind the end of the file all lines are finished, so they agree. -/
theorem reached_agree (inB : b ∈ reached scheme .endOfFile bundles)
    (inC : c ∈ reached scheme .endOfFile bundles) : b.agree c = true := by
  have ended : ∀ bundle ∈ reached scheme .endOfFile bundles, bundle.stand = .finished ∧
      ∀ calls, calls ∈ bundle.histories ↔ calls = [] := by
    intro bundle mem
    obtain ⟨collected, finished⟩ := mem_reached mem
    have allEmpty : ∀ calls ∈ bundle.histories, calls = [] := by
      intro calls history
      obtain ⟨line, inRead, stand, -, rfl⟩ := Bundle.origin_collect collected history
      obtain ⟨early, -, inRead⟩ := mem_flatMap.mp inRead
      obtain ⟨_, _, _, _, _, _, inLines⟩ := mem_read.mp inRead
      exact (linesFrom_ends inLines).2 (stand.trans (finished rfl))
    obtain ⟨calls, history⟩ := Bundle.collect_histories collected
    exact ⟨finished rfl, fun other => ⟨allEmpty other, fun empty => by
      rwa [empty, ← allEmpty calls history]⟩⟩
  obtain ⟨atB, ofB⟩ := ended b inB
  obtain ⟨atC, ofC⟩ := ended c inC
  refine Bundle.agree_iff.mpr ⟨atB.trans atC.symm, ?_, ?_⟩
  · exact fun calls mem => (ofC calls).mpr ((ofB calls).mp mem)
  · exact fun calls mem => (ofB calls).mpr ((ofC calls).mp mem)

/-- Prediction with context takes an alternative that goes on with all that is ahead. -/
theorem predictInContext_sound (ending : finish.kind = .endOfFile)
    (inner : ∀ token ∈ ahead, token.kind ≠ .endOfFile)
    (covered : Covered .actualCallers bundles alternative (ahead.map (·.kind) ++ [.endOfFile]))
    (sound : Sound means bundles past) :
    ∃ taken, predictInContext finish bundles ahead = .take taken ∧
      means taken (past ++ (ahead.map (·.kind) ++ [.endOfFile])) := by
  induction ahead generalizing bundles past with
  | nil =>
    obtain ⟨last, inReached, -, line, inLines, covers⟩ := covered.reached (fun _ => rfl)
    have finished : (reached .actualCallers .endOfFile bundles).any Bundle.isFinished = true :=
      any_eq_true.mpr ⟨last, inReached, by
        simp [Bundle.isFinished, (mem_reached inReached).2 rfl]⟩
    have all : advance .actualCallers .endOfFile bundles = reached .actualCallers .endOfFile bundles := by
      simp [advance_eq, finished]
    obtain ⟨chosen, mem, resolves⟩ := resolved_of_agree (ne_nil_of_mem inReached)
      fun b inB c inC => reached_agree inB inC
    refine ⟨chosen.alternative, ?_, ?_⟩
    · simp only [predictInContext, ending, all]
      split
      · rename_i none
        simp [none] at mem
      · simp [resolves]
    · obtain ⟨collected, ended⟩ := mem_reached mem
      obtain ⟨calls, history⟩ := Bundle.collect_histories collected
      obtain ⟨line, inRead, stand, of', -⟩ := Bundle.origin_collect collected history
      rw [← of']
      exact sound.read inRead (by simp [Line.Accepts, stand, ended rfl])
  | cons token ahead ih =>
    simp only [map_cons, cons_append] at covered ⊢
    have next := covered.advance fun ended => absurd ended (inner token mem_cons_self)
    have later := sound.advance token.kind
    simp only [predictInContext]
    split
    · rename_i none
      exact absurd (none ▸ next) Covered.ne_nil
    · split
      · rename_i taken resolves
        refine ⟨taken, rfl, ?_⟩
        obtain ⟨bundle, mem, -, line, inLines, covers⟩ := next
        obtain ⟨other, inReached, agrees, least⟩ := (leastAgreeing_spec mem).1
        rw [← leastAgreeing_of_resolved resolves mem, ← least]
        obtain ⟨sameStand, subset, -⟩ := Bundle.agree_iff.mp agrees
        obtain ⟨stand, -, history, -⟩ := Bundle.mem_lines.mp inLines
        obtain ⟨kind, word, split⟩ : ∃ kind word, ahead.map (·.kind) ++ [.endOfFile] = kind :: word :=
          exists_cons_of_ne_nil (by simp)
        rw [split] at covers ⊢
        obtain ⟨point, kinds, outer, place, inKinds, context, -, accepts⟩ := covers.before
        rw [context rfl, append_nil] at accepts
        have := later other inReached line.calls (subset history) point kinds
          (sameStand.symm.trans (stand.symm.trans place)) kind inKinds word accepts
        simpa using this
      · obtain ⟨taken, same, means⟩ :=
          ih (fun other later => inner other (mem_cons_of_mem _ later)) next later
        exact ⟨taken, same, by simpa using means⟩

theorem mem_openings {history : List Point} (mem : bundle ∈ openings scheme cat calls firsts)
    (inBundle : history ∈ bundle.histories) :
    ∃ index first line, firsts[index]? = some first ∧
      line ∈ linesFrom scheme (index + 1) false cat first calls ∧ line.stand = bundle.stand ∧
      line.alternative = bundle.alternative ∧ line.calls = history := by
  obtain ⟨line, inLines, same⟩ := Bundle.origin_collect mem inBundle
  obtain ⟨⟨first, index⟩, inFirsts, inLines⟩ := mem_flatMap.mp inLines
  exact ⟨index, first, line, mem_zipIdx_iff_getElem?.mp inFirsts, inLines, same⟩

theorem covered_openings (scheme : Scheme) (cat : Category) (known outer : List Point)
    (options : List (List Form)) (index : Nat) (option : List Form) {word : List Kind}
    (chosen : options[index]? = some option) (located : Located cat option)
    (accepts : Accepts cat option (known ++ outer) word) (chain : Chain cat (known ++ outer))
    (context : scheme = .actualCallers → outer = []) :
    Covered scheme (openings scheme cat known (options.map (firstOf cat))) (index + 1)
      word := by
  obtain ⟨line, inLines, covers⟩ :=
    accepts.exists_line located chain rfl context (index + 1) false
  rw [← linesFrom_alternative inLines]
  refine covered_collect (mem_flatMap.mpr ⟨(firstOf cat option, index), ?_, inLines⟩) covers
  exact mem_zipIdx_iff_getElem?.mpr (by simp [chosen])

/-- Prediction takes an alternative that accepts all that is ahead, if there is one. -/
theorem predict_sound {cat : Category} {calls : List Point} {options : List (List Form)}
    {finish : Token} {ahead : List Token} {option : List Form}
    (ending : finish.kind = .endOfFile) (inner : ∀ token ∈ ahead, token.kind ≠ .endOfFile)
    (located : ∀ option ∈ options, Located cat option) (chain : Chain cat calls)
    (mem : option ∈ options)
    (accepts : Accepts cat option calls (ahead.map (·.kind) ++ [.endOfFile])) :
    ∃ index taken, predict cat calls (options.map (firstOf cat)) finish ahead =
        .take (index + 1) ∧ options[index]? = some taken ∧
      Accepts cat taken calls (ahead.map (·.kind) ++ [.endOfFile]) := by
  obtain ⟨index, chosen⟩ := mem_iff_getElem?.mp mem
  unfold predict
  split
  · rename_i verdict predicted
    have covered := covered_openings .anyCaller cat [] calls options index option chosen
      (located option mem) accepts chain (by simp)
    exact ⟨index, option, predictAnywhere_covered ending inner covered predicted, chosen, accepts⟩
  · have covered := covered_openings .actualCallers cat calls [] options index option chosen
      (located option mem) (by simpa using accepts) (by simpa using chain) (fun _ => rfl)
    have sound : Sound (fun alternative word => ∃ index taken, alternative = index + 1 ∧
        options[index]? = some taken ∧ Accepts cat taken calls word)
        (openings .actualCallers cat calls (options.map (firstOf cat))) [] := by
      intro bundle inOpenings history inBundle point kinds stand kind inKinds word accepts
      obtain ⟨index, first, line, isFirst, inLines, atLine, ofLine, same⟩ :=
        mem_openings inOpenings inBundle
      rw [getElem?_map, Option.map_eq_some_iff] at isFirst
      obtain ⟨taken, isOption, rfl⟩ := isFirst
      refine ⟨index, taken, ofLine.symm.trans (linesFrom_alternative inLines), isOption, ?_⟩
      refine accepts_of_mem_linesFrom (located taken (mem_of_getElem? isOption)) inLines ?_
      simp only [Line.Accepts, atLine, stand]
      exact ⟨kind, word, rfl, inKinds, same ▸ accepts⟩
    obtain ⟨_, same, index, taken, rfl, found⟩ :=
      predictInContext_sound ending inner covered sound
    exact ⟨index, taken, same, found⟩

section Openings

variable {fits : Nat → Prop}

/-- The verdict is no alternative but one that fits. -/
def Verdict.Fits (fits : Nat → Prop) : Verdict → Prop
  | .take alternative => fits alternative
  | .unfit _ => True

variable {bundles : List Bundle} {scheme : Scheme} {kind : Kind}

theorem Verdict.ofFailure_fits {token : Token}
    (outside : ∀ bundle ∈ bundles, bundle.outside = true ∨ bundle.stand = .finished →
      fits bundle.alternative) :
    (Verdict.ofFailure bundles token).Fits fits := by
  unfold Verdict.ofFailure
  split
  · rename_i alternative found
    obtain ⟨bundle, mem, rfl⟩ := mem_map.mp (min?_mem found)
    obtain ⟨inBundles, left⟩ := mem_filter.mp mem
    refine outside bundle inBundles ?_
    simp only [Bundle.isFinished, Bool.or_eq_true, Bool.and_eq_true, beq_iff_eq] at left
    exact left.imp_right And.left
  · trivial

variable {alternative : Nat} {bundle : Bundle}

theorem onlyAlternative_mem (only : onlyAlternative bundles = some alternative) :
    ∃ bundle ∈ bundles, bundle.alternative = alternative := by
  cases bundles with
  | nil => simp [onlyAlternative] at only
  | cons first rest =>
    exact ⟨first, mem_cons_self, onlyAlternative_eq only mem_cons_self⟩

theorem resolved_mem (found : resolved bundles = some alternative) :
    ∃ bundle ∈ bundles, bundle.alternative = alternative := by
  cases bundles with
  | nil => simp [resolved] at found
  | cons first rest =>
    have atFirst : first ∈ first :: rest := mem_cons_self
    obtain ⟨other, mem, -, least⟩ := (leastAgreeing_spec atFirst).1
    exact ⟨other, mem, least.trans (leastAgreeing_of_resolved found atFirst)⟩

theorem advance_histories (mem : bundle ∈ advance scheme kind bundles) :
    ∃ calls, calls ∈ bundle.histories := by
  have collected : ∀ other ∈ reached scheme kind bundles, other.histories ≠ [] := fun other inReached =>
    Bundle.foldl_add_histories (by simp) other (mem_reached inReached).1
  rw [advance_eq] at mem
  refine exists_mem_of_ne_nil _ ?_
  split at mem
  · exact Bundle.foldl_add_histories collected bundle mem
  · exact collected bundle mem

/-- The alternatives behind a token are some of those in front of it. -/
theorem advance_alternative (mem : bundle ∈ advance scheme kind bundles) :
    ∃ early ∈ bundles, early.alternative = bundle.alternative ∧
      (early.admits kind = true ∨ early.stand = .finished) := by
  obtain ⟨calls, history⟩ := advance_histories mem
  rcases origin_advance mem history with ⟨line, inRead, -, of', -⟩ | ⟨-, early, inBundles, done, of'⟩
  · obtain ⟨early, inBundles, inRead⟩ := mem_flatMap.mp inRead
    obtain ⟨point, kinds, stand, inKinds, _, _, inLines⟩ := mem_read.mp inRead
    refine ⟨early, inBundles, (linesFrom_alternative inLines).symm.trans of', .inl ?_⟩
    simpa [Bundle.admits, stand] using inKinds
  · exact ⟨early, inBundles, of', .inr done⟩

/-- The bundles that may read the next token, or have left the phrase of the decision, are of
alternatives that fit. -/
structure Opens (fits : Nat → Prop) (kind : Kind) (bundles : List Bundle) : Prop where
  reading : ∀ bundle ∈ bundles, bundle.admits kind = true → fits bundle.alternative
  outside : ∀ bundle ∈ bundles, bundle.outside = true ∨ bundle.stand = .finished →
    fits bundle.alternative

theorem Opens.of_all (all : ∀ bundle ∈ bundles, fits bundle.alternative) : Opens fits kind bundles :=
  ⟨fun bundle mem _ => all bundle mem, fun bundle mem _ => all bundle mem⟩

theorem Opens.advance (opens : Opens fits kind bundles) :
    ∀ bundle ∈ advance scheme kind bundles, fits bundle.alternative := by
  intro bundle mem
  obtain ⟨early, inBundles, same, admits | finished⟩ := advance_alternative mem
  · exact same ▸ opens.reading early inBundles admits
  · exact same ▸ opens.outside early inBundles (.inr finished)

theorem predictInContext_fits (finish : Token) {bundles : List Bundle} (ahead : List Token)
    (opens : Opens fits (ahead.head?.getD finish).kind bundles) :
    (predictInContext finish bundles ahead).Fits fits := by
  induction ahead generalizing bundles with
  | nil =>
    simp only [predictInContext]
    split
    · exact Verdict.ofFailure_fits opens.outside
    · cases found : resolved (advance .actualCallers finish.kind bundles) with
      | none => trivial
      | some alternative =>
        obtain ⟨bundle, mem, same⟩ := resolved_mem found
        exact same ▸ opens.advance bundle mem
  | cons token ahead ih =>
    simp only [predictInContext]
    split
    · exact Verdict.ofFailure_fits opens.outside
    · split
      · rename_i alternative found
        obtain ⟨bundle, mem, same⟩ := resolved_mem found
        exact same ▸ opens.advance bundle mem
      · exact ih (.of_all opens.advance)

theorem predictAnywhere_fits {finish : Token} {ahead : List Token}
    (opens : Opens fits (ahead.head?.getD finish).kind bundles) {verdict : Verdict}
    (predicted : predictAnywhere finish bundles ahead = some verdict) : verdict.Fits fits := by
  induction ahead generalizing bundles with
  | nil =>
    simp only [predictAnywhere] at predicted
    split at predicted
    · exact Option.some.inj predicted ▸ Verdict.ofFailure_fits opens.outside
    · obtain ⟨alternative, only, rfl⟩ := Option.map_eq_some_iff.mp predicted
      obtain ⟨bundle, mem, same⟩ := onlyAlternative_mem only
      exact same ▸ opens.advance bundle mem
  | cons token ahead ih =>
    simp only [predictAnywhere] at predicted
    split at predicted
    · rename_i alternative only
      obtain ⟨bundle, mem, same⟩ := onlyAlternative_mem only
      obtain ⟨inBundles, admits⟩ := mem_filter.mp mem
      rw [← Option.some.inj predicted]
      exact same ▸ opens.reading bundle inBundles admits
    · split at predicted
      · exact Option.some.inj predicted ▸ Verdict.ofFailure_fits opens.outside
      · split at predicted
        · simp at predicted
        · exact ih (.of_all opens.advance) predicted

end Openings

theorem Bundle.outside_add (mem : bundle ∈ add scheme line bundles) (outside : bundle.outside = true) :
    line.alternative = bundle.alternative ∧ line.outside = true ∨
      ∃ early ∈ bundles, early.alternative = bundle.alternative ∧ early.outside = true := by
  rcases mem_add mem with before | ⟨⟨-, same⟩, ⟨-, new⟩ | ⟨early, inBundles, -, of', -, taken⟩⟩
  · exact .inr ⟨bundle, before, rfl, outside⟩
  · exact .inl ⟨same.symm, new ▸ outside⟩
  · rcases Bool.or_eq_true_iff.mp (taken ▸ outside) with old | added
    · exact .inr ⟨early, inBundles, of', old⟩
    · exact .inl ⟨same.symm, added⟩

theorem Bundle.outside_collect (mem : bundle ∈ collect scheme lines) (outside : bundle.outside = true) :
    ∃ line ∈ lines, line.alternative = bundle.alternative ∧ line.outside = true := by
  suffices general : ∀ bundles,
      bundle ∈ lines.foldl (fun bundles line => add scheme line bundles) bundles →
      (∃ line ∈ lines, line.alternative = bundle.alternative ∧ line.outside = true) ∨
        ∃ early ∈ bundles, early.alternative = bundle.alternative ∧ early.outside = true by
    simpa using general [] mem
  clear mem
  induction lines with
  | nil => exact fun bundles mem => .inr ⟨bundle, mem, rfl, outside⟩
  | cons line lines ih =>
    intro bundles mem
    rcases ih _ mem with ⟨other, later, same⟩ | ⟨early, inAdded, same, before⟩
    · exact .inl ⟨other, mem_cons_of_mem _ later, same⟩
    · rw [← same]
      rcases outside_add inAdded before with added | found
      · exact .inl ⟨line, mem_cons_self, added⟩
      · exact .inr found

theorem opens_openings {scheme : Scheme} {cat : Category} {calls : List Point}
    {firsts : List First} {kind : Kind} :
    Opens (fun alternative => ∃ index first, alternative = index + 1 ∧ firsts[index]? = some first ∧
      (first.admits kind = true ∨ first.passable = true)) kind
      (openings scheme cat calls firsts) := by
  constructor
  · intro bundle mem admits
    obtain ⟨history, inBundle⟩ := Bundle.collect_histories mem
    obtain ⟨index, first, line, isFirst, inLines, stand, same, -⟩ := mem_openings mem inBundle
    refine ⟨index, first, same.symm.trans (linesFrom_alternative inLines), isFirst, ?_⟩
    rcases mem_linesFrom.mp inLines with ⟨read, inReads, rfl⟩ | ⟨passable, -⟩
    · simp only [Bundle.admits, ← stand, Read.line] at admits
      exact .inl (any_eq_true.mpr ⟨read, inReads, admits⟩)
    · exact .inr passable
  · rintro bundle mem (outside | finished)
    · obtain ⟨line, inAll, same, left⟩ := Bundle.outside_collect mem outside
      obtain ⟨⟨first, index⟩, inFirsts, inLines⟩ := mem_flatMap.mp inAll
      refine ⟨index, first, same.symm.trans (linesFrom_alternative inLines),
        mem_zipIdx_iff_getElem?.mp inFirsts, ?_⟩
      rcases mem_linesFrom.mp inLines with ⟨read, -, rfl⟩ | ⟨passable, -⟩
      · simp [Read.line] at left
      · exact .inr passable
    · obtain ⟨history, inBundle⟩ := Bundle.collect_histories mem
      obtain ⟨index, first, line, isFirst, inLines, stand, same, -⟩ := mem_openings mem inBundle
      refine ⟨index, first, same.symm.trans (linesFrom_alternative inLines), isFirst, ?_⟩
      rcases mem_linesFrom.mp inLines with ⟨read, -, rfl⟩ | ⟨passable, -⟩
      · simp [Read.line, finished] at stand
      · exact .inr passable

/-- Whatever is ahead, prediction takes no alternative but one that may begin with the next token,
or may be passed. -/
theorem predict_opens (predicted : predict cat calls firsts finish ahead = .take alternative) :
    ∃ index first, alternative = index + 1 ∧ firsts[index]? = some first ∧
      (first.admits (ahead.head?.getD finish).kind = true ∨ first.passable = true) := by
  unfold predict at predicted
  split at predicted
  · rename_i verdict anywhere
    have fits := predictAnywhere_fits opens_openings anywhere
    rwa [predicted] at fits
  · have fits := predictInContext_fits finish ahead
      (@opens_openings .actualCallers cat calls firsts _)
    rwa [predicted] at fits

end GrammarLint.Phrase
