import GrammarLint.Proofs.PieceEnds

open List

namespace GrammarLint.Lexical

open Vocabulary

def crlf (text : List Char) : List Char :=
  text.flatMap fun c => if c = '\n' then ['\r', '\n'] else [c]

section Texts

variable {text u v w x y : List Char} {c : Char}

@[simp] theorem crlf_nil : crlf [] = [] := rfl

theorem crlf_append (u v : List Char) : crlf (u ++ v) = crlf u ++ crlf v := flatMap_append

theorem crlf_feed (text : List Char) : crlf ('\n' :: text) = '\r' :: '\n' :: crlf text := rfl

theorem crlf_cons (other : c ≠ '\n') (text : List Char) : crlf (c :: text) = c :: crlf text := by
  rw [crlf, flatMap_cons, if_neg other]
  rfl

theorem crlf_eq_self (none : '\n' ∉ text) : crlf text = text := by
  induction text with
  | nil => rfl
  | cons c text ih =>
    rw [mem_cons, not_or] at none
    rw [crlf_cons (Ne.symm none.1), ih none.2]

theorem crlf_ne_nil (some_ : text ≠ []) : crlf text ≠ [] := by
  obtain ⟨c, later, rfl⟩ := exists_cons_of_ne_nil some_
  by_cases feed : c = '\n'
  · subst feed
    simp [crlf_feed]
  · simp [crlf_cons feed]

theorem length_le_crlf (text : List Char) : text.length ≤ (crlf text).length := by
  induction text with
  | nil => exact le_refl _
  | cons c text ih =>
    by_cases feed : c = '\n'
    · subst feed
      simp only [crlf_feed, length_cons]
      omega
    · simp only [crlf_cons feed, length_cons]
      omega

/-- A beginning of the longer text comes from one of the shorter text, or ends between a carriage
return and its line feed. -/
theorem crlf_split (split : x ++ y = crlf v) :
    (∃ before after, before ++ after = v ∧ x = crlf before) ∨
      ∃ before after, before ++ '\n' :: after = v ∧ x = crlf before ++ ['\r'] := by
  induction v generalizing x with
  | nil => exact .inl ⟨[], [], rfl, (append_eq_nil_iff.mp split).1⟩
  | cons c v ih =>
    have further : ∀ {head x}, crlf [c] = head → x ++ y = crlf v →
        (∃ before after, before ++ after = c :: v ∧ head ++ x = crlf before) ∨
          ∃ before after, before ++ '\n' :: after = c :: v ∧ head ++ x = crlf before ++ ['\r'] := by
      rintro _ x rfl later
      rcases ih later with ⟨before, after, rfl, rfl⟩ | ⟨before, after, rfl, rfl⟩
      · exact .inl ⟨c :: before, after, rfl, (crlf_append [c] before).symm⟩
      · refine .inr ⟨c :: before, after, rfl, ?_⟩
        rw [← append_assoc, ← crlf_append]
        rfl
    cases x with
    | nil => exact .inl ⟨[], c :: v, rfl, rfl⟩
    | cons d x =>
      by_cases feed : c = '\n'
      · subst feed
        rw [crlf_feed, cons_append, cons.injEq] at split
        obtain ⟨rfl, later⟩ := split
        cases x with
        | nil => exact .inr ⟨[], v, rfl, rfl⟩
        | cons e x =>
          rw [cons_append, cons.injEq] at later
          obtain ⟨rfl, later⟩ := later
          exact further rfl later
      · rw [crlf_cons feed, cons_append, cons.injEq] at split
        obtain ⟨rfl, later⟩ := split
        exact further (crlf_eq_self (by simpa using Ne.symm feed)) later

/-- Carriage returns in front of line feeds move nothing. -/
theorem Position.advanceAll_crlf (position : Position) (text : List Char) :
    position.advanceAll (crlf text) = position.advanceAll text := by
  induction text generalizing position with
  | nil => rfl
  | cons c text ih =>
    by_cases feed : c = '\n'
    · subst feed
      exact ih _
    · rw [crlf_cons feed]
      exact ih _

end Texts

/-- The wait does not tell a carriage return from a line feed, and behind a line feed that it takes the
shape takes further ones without getting anywhere. -/
def Shape.isSteady (shape : Shape) : Wait → Bool
  | .char s todo => s.contains '\r' == s.contains '\n' && (!s.contains '\n' ||
    [0, 1].all fun depth => (shape.resume ⟨depth, false, todo⟩).all fun b =>
      (b.read '\n').all fun later => later.depth == depth && later.todo == todo)
  | .done | .atEnd _ => true

theorem waits_steady (mode : Mode) :
    ∀ r ∈ rules mode, ∀ w ∈ r.shape.waits, r.shape.isSteady w = true := by
  cases mode <;> decide +kernel

/-- Within more blocks the branches are the same, but deeper. -/
theorem Shape.resume_deeper {shape : Shape} {depth : Nat} {lazy : Bool} {todo : List Pattern}
    {b : Branch} (mem : b ∈ shape.resume ⟨depth + 1, lazy, todo⟩) :
    ∃ o ∈ shape.resume ⟨1, false, todo⟩, b.depth = o.depth + depth ∧ o.thread.wait = b.thread.wait := by
  obtain ⟨thread, inThreads, made⟩ := mem_flatMap.mp mem
  by_cases done : thread.isDone = true
  · rw [if_pos ⟨done, by simp⟩] at made
    suffices deeper : ∃ o ∈ shape.inside 1, b.depth = o.depth + depth ∧ o.thread.wait = b.thread.wait by
      obtain ⟨o, inside, same⟩ := deeper
      exact ⟨o, mem_flatMap.mpr ⟨thread, inThreads, by rwa [if_pos ⟨done, by simp⟩]⟩, same⟩
    cases shape with
    | plain p =>
      cases mem_singleton.mp made
      exact ⟨_, .head _, Nat.add_comm .., rfl⟩
    | block first body last =>
      simp only [inside, mem_cons, mem_map] at made ⊢
      rcases made with rfl | rfl | ⟨thread, inBody, rfl⟩
      · exact ⟨_, .inl rfl, by simp, rfl⟩
      · exact ⟨_, .inr (.inl rfl), by simp; omega, rfl⟩
      · exact ⟨_, .inr (.inr ⟨thread, inBody, rfl⟩), Nat.add_comm .., rfl⟩
  · rw [if_neg (by simp [done])] at made
    cases mem_singleton.mp made
    refine ⟨⟨1, { thread with lazy := false || thread.lazy }⟩,
      mem_flatMap.mpr ⟨thread, inThreads, ?_⟩, Nat.add_comm .., rfl⟩
    rw [if_neg (by simp [done])]
    exact mem_singleton_self _

section Steady

variable {mode : Mode} {r : LexicalRule} {bs : List Branch}

section

variable (mem : r ∈ rules mode)

include mem

/-- A second line feed leads to where the first has led. -/
theorem read_feed_again {origin later : Branch} {p q : Pending}
    (known : origin.thread.wait ∈ r.shape.waits) (first : origin.read '\n' = some p)
    (resumed : later ∈ r.shape.resume p) (second : later.read '\n' = some q) :
    q.depth = p.depth ∧ q.todo = p.todo := by
  obtain ⟨s, todo, waits, takes, rfl⟩ := read_eq_some.mp first
  obtain ⟨s', todo', waits', takes', rfl⟩ := read_eq_some.mp second
  have steady := waits_steady mode r mem _ known
  rw [waits, Shape.isSteady, takes] at steady
  simp only [Bool.not_true, Bool.false_or, Bool.and_eq_true, all_cons, all_nil,
    all_eq_true, Bool.and_true] at steady
  obtain ⟨-, shallow, deep⟩ := steady
  cases depth : origin.depth with
  | zero =>
    rw [depth] at resumed
    obtain ⟨o, inside, same, wait⟩ :=
      Shape.resume_among (p := ⟨0, origin.thread.lazy, todo⟩) (q := ⟨0, false, todo⟩) rfl rfl later resumed
    have read := read_eq_some.mpr ⟨s', todo', wait.trans waits', takes', rfl⟩
    have found := shallow o inside
    simp only [read, Option.all_some, Bool.and_eq_true, beq_iff_eq] at found
    exact ⟨same ▸ found.1, found.2⟩
  | succ n =>
    rw [depth] at resumed
    obtain ⟨o, inside, same, wait⟩ := Shape.resume_deeper resumed
    have read := read_eq_some.mpr ⟨s', todo', wait.trans waits', takes', rfl⟩
    have found := deep o inside
    simp only [read, Option.all_some, Bool.and_eq_true, beq_iff_eq] at found
    refine ⟨?_, found.2⟩
    show later.depth = n + 1
    omega

theorem reached_feed_again (known : ∀ b ∈ bs, b.thread.wait ∈ r.shape.waits) :
    Branch.Among (r.shape.reached '\n' (r.shape.reached '\n' bs)) (r.shape.reached '\n' bs) := by
  intro b inside
  obtain ⟨later, reached, q, second, resumed'⟩ := Shape.mem_reached.mp inside
  obtain ⟨origin, inBranches, p, first, resumed⟩ := Shape.mem_reached.mp reached
  obtain ⟨depth, todo⟩ := read_feed_again mem (known origin inBranches) first resumed second
  obtain ⟨o, among, same⟩ := Shape.resume_among depth todo b resumed'
  exact ⟨o, Shape.mem_reached.mpr ⟨origin, inBranches, p, first, among⟩, same⟩

/-- A carriage return is read as a line feed is. -/
theorem step_return (known : ∀ b ∈ bs, b.thread.wait ∈ r.shape.waits) :
    r.shape.step '\r' bs = r.shape.step '\n' bs := by
  have same : bs.filterMap (Branch.read '\r') = bs.filterMap (Branch.read '\n') := by
    refine filterMap_congr fun b inside => Branch.read_congr fun s awaits => ?_
    have steady := waits_steady mode r mem _ (known b inside)
    unfold Branch.awaits at awaits
    cases waits : b.thread.wait with
    | done | atEnd _ => simp [waits] at awaits
    | char k todo =>
      simp only [waits, Option.some.injEq] at awaits
      rw [waits, Shape.isSteady, Bool.and_eq_true, beq_iff_eq, awaits] at steady
      exact steady.1
  rw [Shape.step, Shape.step, same]

theorem after_return (text : List Char) :
    (Racer.after r (text ++ ['\r'])).branches = (Racer.after r (text ++ ['\n'])).branches := by
  rw [Racer.branches_concat, Racer.branches_concat, step_return mem (Racer.after_waits mem text)]

end

/-- Looking ahead over line ends finds no more where they are longer, up to where a rule is complete. -/
theorem after_crlf_among (mem : r ∈ rules mode) {u v : List Char}
    (unfinished : ∀ x y, x ≠ [] → x ++ y = v → (Racer.after r (u ++ x)).isDone = false) :
    Branch.Among (Racer.after r (u ++ crlf v)).branches (Racer.after r (u ++ v)).branches := by
  induction v using reverseRecOn with
  | nil => exact .refl _
  | append_singleton v c ih =>
    have before := ih fun x y some_ split =>
      unfinished x (y ++ [c]) some_ (by rw [← append_assoc, split])
    have open_ := unfinished (v ++ [c]) [] (by simp) (append_nil _)
    rw [← append_assoc, Racer.isDone, Racer.branches_concat] at open_
    obtain ⟨kept, fewer⟩ := Shape.step_among before open_
    rw [crlf_append, ← append_assoc, ← append_assoc]
    by_cases feed : c = '\n'
    · subst feed
      show Branch.Among (Racer.after r (u ++ crlf v ++ (['\r'] ++ ['\n']))).branches _
      rw [← append_assoc, Racer.branches_concat, after_return mem, Racer.branches_concat,
        Racer.branches_concat, kept]
      have again := reached_feed_again mem (Racer.after_waits mem (u ++ crlf v))
      have none := again.unfinished (kept ▸ fewer.unfinished open_)
      rw [Shape.step_eq, Branch.prune_of_unfinished none]
      exact again.trans (kept ▸ fewer)
    · have same : crlf [c] = [c] := crlf_eq_self (by simpa using Ne.symm feed)
      rw [same, Racer.branches_concat, Racer.branches_concat]
      exact fewer

/-- The same within the line end that comes next. -/
theorem after_crlf_return (mem : r ∈ rules mode) {u v : List Char}
    (unfinished : ∀ x y, x ≠ [] → x ++ y = v ++ ['\n'] → (Racer.after r (u ++ x)).isDone = false) :
    (Racer.after r (u ++ (crlf v ++ ['\r']))).isDone = false := by
  have before := after_crlf_among mem fun x y some_ split =>
    unfinished x (y ++ ['\n']) some_ (by rw [← append_assoc, split])
  have open_ := unfinished (v ++ ['\n']) [] (by simp) (append_nil _)
  rw [← append_assoc, Racer.isDone, Racer.branches_concat] at open_
  rw [← append_assoc, Racer.isDone, after_return mem, Racer.branches_concat]
  exact (Shape.step_among before open_).2.unfinished open_

end Steady

section Pieces

variable {mode : Mode} {text piece rest : List Char} {effect : Effect} {skipped u v : List Char}

/-- A piece without line feeds is the same whatever the line ends behind it look like. -/
theorem nextPiece_crlf (found : nextPiece mode text = .found effect piece rest)
    (plain : '\n' ∉ piece) : nextPiece mode (crlf text) = .found effect piece (crlf rest) := by
  obtain ⟨split, nonempty⟩ := Scanner.found_split found
  by_cases used : rest = []
  · subst used
    rw [append_nil] at split
    subst split
    rwa [crlf_eq_self plain]
  · have some_ : piece ≠ [] := nonempty (by rw [← split]; simp [used])
    rcases nextPiece_found_cases found with ⟨-, -, -, -, ended⟩ | ⟨⟨rule, first, rfl⟩, longest, ends⟩
    · exact absurd ended used
    · have unfinished : ∀ {before after}, before ++ after = rest → ∀ r ∈ rules mode,
          ∀ x y, x ≠ [] → x ++ y = before → (Racer.after r (piece ++ x)).isDone = false := by
        intro before after whole r mem x y something inside
        exact longest x (y ++ after) something (by rw [← append_assoc, inside, whole]) r mem
      rw [← split, crlf_append, crlf_eq_self plain]
      refine nextPiece_longest some_ first (fun v w some_ cut r mem => ?_) fun r mem => ?_
      · rcases crlf_split cut with ⟨before, after, whole, rfl⟩ | ⟨before, after, whole, rfl⟩
        · have something : before ≠ [] := by
            rintro rfl
            exact some_ rfl
          exact (after_crlf_among mem (unfinished whole r mem)).unfinished
            (longest before after something whole r mem)
        · refine after_crlf_return mem (@unfinished _ after ?_ r mem)
          rw [append_assoc]
          exact whole
      · refine (after_crlf_among mem (unfinished (append_nil rest) r mem)).endsHere ?_
        rw [split]
        exact ends r mem

/-- What is skipped without a line feed in it is skipped whatever the line ends behind it look like.
That all which was followed is skipped carries the induction. -/
theorem race_crlf_skipped {racers : List Racer} {taken : List Char}
    (lost : race none taken racers text = .skipped skipped rest) :
    (∀ c ∈ taken, c ∈ skipped) ∧
      ('\n' ∉ skipped → race none taken racers (crlf text) = .skipped skipped (crlf rest)) := by
  induction text generalizing racers taken with
  | nil =>
    rw [race] at lost
    split at lost
    · cases lost
    · rename_i unasked
      cases lost
      refine ⟨fun c mem => mem_reverse.mpr mem, fun _ => ?_⟩
      rw [crlf_nil, race, unasked]
      rfl
  | cons c text ih =>
    have same : c ∈ skipped → '\n' ∉ skipped → crlf (c :: text) = c :: crlf text := by
      intro mem plain
      refine crlf_cons (fun feed => ?_) text
      exact plain (feed ▸ mem)
    rw [race] at lost
    split at lost
    · rename_i gone
      cases lost
      refine ⟨fun d mem => by simp [mem], fun plain => ?_⟩
      rw [same (by simp) plain, race, gone]
      rfl
    · split at lost
      · obtain ⟨effect, piece, left, found, -⟩ := race_found _ _ _ _
        rw [found] at lost
        cases lost
      · rename_i alive _ unfinished
        obtain ⟨all, later⟩ := ih lost
        refine ⟨fun d mem => all d (mem_cons_of_mem _ mem), fun plain => ?_⟩
        rw [same (all c mem_cons_self) plain, race]
        split
        · contradiction
        · rw [unfinished]
          exact later plain

theorem nextPiece_crlf_skipped (lost : nextPiece mode text = .skipped skipped rest)
    (plain : '\n' ∉ skipped) : nextPiece mode (crlf text) = .skipped skipped (crlf rest) :=
  (race_crlf_skipped lost).2 plain

theorem Alike.append (alike : Alike mode u v) (c : Char) :
    Alike mode (u ++ [c]) (v ++ [c]) := by
  intro r mem
  rw [Racer.branches_concat, Racer.branches_concat, alike r mem]

theorem Alike.symm (alike : Alike mode u v) : Alike mode v u :=
  fun r mem => (alike r mem).symm

def commentStops : List Char := ['/', '*', '\r', '\n']

def commentGroups : List (Bool × List Char) :=
  [(false, ['/']), (false, ['*']), (true, []), (true, ['\r', '\n'])]

/-- One text for each way in which the rules can stand behind a text that starts with a slash. -/
def slashTexts : List (List Char) :=
  ["/", "//", "/a", "/*", "/*a", "/*a*", "/*a*/", "/**", "/**a", "/***", "/***/", "/**/", "/**/a",
    "/**/*", "/**/*/"].map String.toList

/-- No further character leads out of these texts, and behind each of them a longer line end is like a
short one. -/
theorem slashTexts_closed : ∀ u ∈ slashTexts,
    awaitsOnly .default u (commentGroups.map fun group => .ofChars group.1 group.2) = true ∧
    (∀ c ∈ 'a' :: commentStops, ∃ v ∈ slashTexts, Alike .default (u ++ [c]) v) ∧
    Alike .default (u ++ ['\n'] ++ ['\n']) (u ++ ['\n']) := by
  unfold Alike
  decide +kernel

theorem exists_slashText (text : List Char) : ∃ u ∈ slashTexts, Alike .default ('/' :: text) u := by
  induction text using reverseRecOn with
  | nil => exact ⟨['/'], .head _, fun _ _ => rfl⟩
  | append_singleton text c ih =>
    obtain ⟨u, mem, alike⟩ := ih
    obtain ⟨awaits, closed, -⟩ := slashTexts_closed u mem
    obtain ⟨d, stop, same⟩ : ∃ d ∈ 'a' :: commentStops,
        Alike .default ('/' :: text ++ [c]) (u ++ [d]) := by
      by_cases stop : c ∈ commentStops
      · exact ⟨c, mem_cons_of_mem _ stop, alike.append c⟩
      · refine ⟨'a', mem_cons_self, alike.concat awaits ?_⟩
        exact contains_outside commentStops (by decide) stop (by decide)
    obtain ⟨v, inside, next⟩ := closed d stop
    exact ⟨v, inside, same.trans next⟩

/-- No rule can tell the line ends in a text that starts with a slash. -/
theorem slash_crlf (text : List Char) : Alike .default ('/' :: crlf text) ('/' :: text) := by
  induction text using reverseRecOn with
  | nil => exact fun _ _ => rfl
  | append_singleton text c ih =>
    rw [crlf_append]
    by_cases feed : c = '\n'
    · subst feed
      obtain ⟨u, mem, alike⟩ := exists_slashText text
      have short : Alike .default ('/' :: crlf text ++ ['\r']) ('/' :: text ++ ['\n']) := by
        intro r inRules
        rw [after_return inRules]
        exact ih.append '\n' r inRules
      have twice := (alike.append '\n').append '\n' |>.trans (slashTexts_closed u mem).2.2
      have long := (short.append '\n').trans (twice.trans (alike.append '\n').symm)
      rwa [append_assoc] at long
    · have same : crlf [c] = [c] := crlf_eq_self (by simpa using Ne.symm feed)
      rw [same]
      exact ih.append c

theorem nextPiece_slash (found : nextPiece .default ('/' :: text) = .found effect piece rest) :
    nextPiece .default (crlf ('/' :: text)) = .found effect (crlf piece) (crlf rest) := by
  have slash : crlf ('/' :: text) = '/' :: crlf text := crlf_cons (by decide) text
  rcases nextPiece_found_cases found with ⟨rule, first, rfl, rfl, rfl⟩ | ⟨⟨rule, first, rfl⟩, longest, ends⟩
  · refine nextPiece_ending (Eq.trans (find?_congr fun r mem => ?_) first)
    simp [slash, Racer.endsHere, slash_crlf text r mem]
  · obtain ⟨split, nonempty⟩ := Scanner.found_split found
    obtain ⟨c, later, rfl⟩ := exists_cons_of_ne_nil (nonempty (by simp))
    rw [cons_append] at split
    obtain ⟨rfl, rfl⟩ := split
    have whole : ∀ v, crlf ('/' :: later) ++ crlf v = '/' :: crlf (later ++ v) := by
      intro v
      rw [crlf_append]
      rfl
    rw [← cons_append, crlf_append]
    refine nextPiece_longest (crlf_ne_nil (by simp)) (Eq.trans (find?_congr fun r mem => ?_) first)
      (fun v w some_ cut r mem => ?_) fun r mem => ?_
    · rw [crlf_cons (by decide)]
      simp [Racer.isDone, slash_crlf later r mem]
    · rcases crlf_split cut with ⟨before, after, split, rfl⟩ | ⟨before, after, split, rfl⟩
      · have something : before ≠ [] := by
          rintro rfl
          exact some_ rfl
        rw [whole, Racer.isDone, slash_crlf (later ++ before) r mem]
        exact longest before after something split r mem
      · have done := longest (before ++ ['\n']) after (by simp) (by simpa using split) r mem
        have alike := (slash_crlf (later ++ before)).append '\n' r mem
        rw [← append_assoc, whole, Racer.isDone, after_return mem, alike]
        rwa [← append_assoc] at done
    · rw [whole, Racer.endsHere, slash_crlf (later ++ rest) r mem]
      exact ends r mem

/-- The effect makes a token beside the main channel. -/
def Effect.isAside : Effect → Bool
  | .aside _ _ => true
  | _ => false

theorem Effect.exists_of_isAside (aside : effect.isAside = true) :
    ∃ kind channel, effect = .aside kind channel := by
  cases effect with
  | aside kind channel => exact ⟨kind, channel, rfl⟩
  | token _ | name | openBracket | openNested | closeBracket | more | close _ => cases aside

def blankRule : LexicalRule := ⟨.plain blanks, .aside .whitespace .blank⟩

/-- Beside the main channel are blanks and what starts with a slash. -/
theorem asides_start (mode : Mode) : ∀ r ∈ rules mode, r.effect.isAside = true → mode = .default ∧
    (r = blankRule ∨ ∀ b ∈ (Racer.after r []).branches, ∀ s ∈ b.awaits, s = .ofChars false ['/']) := by
  cases mode <;> decide +kernel

theorem nextPiece_crlf_blanks (found : nextPiece .default text = .found blankRule.effect piece rest)
    (some_ : piece ≠ []) (blank : ∀ c ∈ piece, c ∈ blankChars) :
    nextPiece .default (crlf text) = .found blankRule.effect (crlf piece) (crlf rest) := by
  have stops : ∀ c, rest.head? = some c → c ∉ blankChars := by
    intro c head inside
    obtain ⟨later, rfl⟩ := head?_eq_some_iff.mp head
    rcases nextPiece_found_cases found with ⟨-, -, -, -, used⟩ | ⟨-, longest, -⟩
    · cases used
    · have matched : blanks.Takes false (piece ++ [c]) := by
        refine takes_blanks.mpr ⟨by simp, fun d mem => ?_⟩
        rcases mem_append.mp mem with before | last
        · exact blank d before
        · exact mem_singleton.mp last ▸ inside
      have unfinished := longest [c] later (by simp) rfl blankRule (by decide)
      rw [Racer.isDone_of_takes rfl rfl matched] at unfinished
      exact Bool.false_ne_true unfinished.symm
  rw [← (Scanner.found_split found).1, crlf_append]
  refine nextPiece_blanks (crlf_ne_nil some_) (fun c mem => ?_) fun c head => ?_
  · obtain ⟨d, inside, made⟩ := mem_flatMap.mp mem
    split at made
    · have ends : ∀ c ∈ ['\r', '\n'], c ∈ blankChars := by decide
      exact ends c made
    · exact mem_singleton.mp made ▸ blank d inside
  · cases rest with
    | nil => cases head
    | cons d later =>
      have other : d ≠ '\n' := by
        rintro rfl
        exact stops '\n' rfl (by decide)
      rw [crlf_cons other] at head
      exact stops c head

/-- A piece beside the main channel stays one piece. -/
theorem nextPiece_crlf_aside (aside : effect.isAside = true)
    (found : nextPiece mode text = .found effect piece rest) :
    nextPiece mode (crlf text) = .found effect (crlf piece) (crlf rest) := by
  obtain ⟨rule, wins, rfl⟩ := nextPiece_wins found
  obtain ⟨rfl, start⟩ := asides_start mode rule wins.mem aside
  have something : text ≠ [] := by
    rintro rfl
    cases found
  obtain ⟨c, later, rfl⟩ := exists_cons_of_ne_nil ((Scanner.found_split found).2 something)
  rcases start with rfl | slash
  · obtain ⟨some_, blank⟩ := takes_blanks.mp (wins.takes rfl rfl)
    exact nextPiece_crlf_blanks found some_ blank
  · have first : c = '/' := by
      by_contra other
      have dead : (Racer.after rule (c :: later)).branches = [] := by
        refine Racer.after_dead (u := [c]) (Racer.stops (u := []) fun b mem s awaits => ?_) later
        rw [slash b mem s awaits, CharClass.ofChars, CharClass.contains_chars]
        simpa using other
      cases wins with
      | complete first =>
        have done := find?_some first
        exact Bool.false_ne_true ((Racer.isDone_of_dead dead).symm.trans done)
      | ending _ _ ends => exact Bool.false_ne_true ((Racer.endsHere_of_dead dead).symm.trans ends)
    subst first
    obtain ⟨split, -⟩ := Scanner.found_split found
    rw [← split] at found ⊢
    exact nextPiece_slash found

end Pieces

end GrammarLint.Lexical
