import GrammarLint.Proofs.Lexemes
import GrammarLint.Proofs.TokenTiling

open List

namespace GrammarLint.Lexical

open Vocabulary

/-- How a rule gets a piece of text: it is the first that is complete behind it, or the text ends
there and the rule asks for the end. -/
inductive Wins (rules : List LexicalRule) (rule : LexicalRule) (piece rest : List Char) : Prop
  | complete : rules.find? (fun r => (Racer.after r piece).isDone) = some rule →
      Wins rules rule piece rest
  | ending : rest = [] → rule ∈ rules → (Racer.after rule piece).endsHere = true →
      Wins rules rule piece rest

section Race

variable {rules : List LexicalRule} {best : Option Best} {s t : List Char}

theorem race_wins {effect : Effect} {piece rest : List Char}
    (known : ∀ b, best = some b → ∃ rule, Wins rules rule b.taken.reverse b.rest ∧ rule.effect = b.effect)
    (found : race best s.reverse (Racer.allAfter rules s) t = .found effect piece rest) :
    ∃ rule, Wins rules rule piece rest ∧ rule.effect = effect := by
  have settled : ∀ {taken : List Char} {left : List Char},
      race.settle best taken left = .found effect piece rest →
      ∃ rule, Wins rules rule piece rest ∧ rule.effect = effect := by
    intro taken left same
    cases best with
    | none => simp [race.settle] at same
    | some b =>
      cases same
      exact known b rfl
  induction t generalizing best s with
  | nil =>
    unfold race at found
    split at found
    · rename_i racer first
      cases found
      obtain ⟨rule, inRules, rfl⟩ :=
        mem_map.mp (mem_filter.mp (mem_of_find?_eq_some first)).1
      rw [reverse_reverse]
      refine ⟨rule, .ending rfl inRules (find?_some first), ?_⟩
      rw [Racer.effect, Racer.after_rule]
    · exact settled found
  | cons c t ih =>
    have behind : c :: s.reverse = (s ++ [c]).reverse := by simp
    rw [race, Racer.step_allAfter, behind] at found
    split at found
    · exact settled found
    · split at found
      · rename_i racer first
        rw [Racer.find?_isDone, Option.map_eq_some_iff] at first
        obtain ⟨rule, won, rfl⟩ := first
        have better : ∃ winner, Wins rules winner (s ++ [c]).reverse.reverse t ∧
            winner.effect = (Racer.after rule (s ++ [c])).effect := by
          rw [reverse_reverse, Racer.effect, Racer.after_rule]
          exact ⟨rule, .complete won, rfl⟩
        refine ih ?_ found fun same => ?_
        · rintro _ ⟨⟩
          exact better
        · cases same
          exact better
      · exact ih known found settled

/-- With a best text so far the race ends with a text that is found, and no shorter one. -/
theorem race_found (b : Best) (taken : List Char) (racers : List Racer) (text : List Char) :
    ∃ effect piece rest, race (some b) taken racers text = .found effect piece rest ∧
      (b.taken.length ≤ taken.length → b.taken.length ≤ piece.length) := by
  rcases race_outcome (some b) taken text (fun racer => mem_map_of_mem) with
    ⟨_, same, won⟩ | ⟨more, rest, -, -, ⟨rule, -, won⟩ | ⟨none, -⟩⟩
  · cases same
    exact ⟨_, _, _, won, by simp⟩
  · exact ⟨_, _, _, won, fun within => by rw [length_append, length_reverse]; omega⟩
  · cases none

variable (best s) in
/-- Behind a text that is longer than what was found, if anything was, no rule is complete. -/
theorem race_unfinished {v : List Char} (w : List Char) (some_ : v ≠ []) (split : v ++ w = t)
    (longer : ∀ effect piece rest, race best s.reverse (Racer.allAfter rules s) t =
      .found effect piece rest →
      piece.length < (s ++ v).length) :
    ∀ r ∈ rules, (Racer.after r (s ++ v)).isDone = false := by
  induction t generalizing best s v with
  | nil => exact absurd (append_eq_nil_iff.mp split).1 some_
  | cons c t ih =>
    obtain ⟨v, rfl⟩ : ∃ later, v = c :: later := by
      cases v with
      | nil => exact absurd rfl some_
      | cons d v =>
        cases split
        exact ⟨v, rfl⟩
    have behind : c :: s.reverse = (s ++ [c]).reverse := by simp
    have apart : s ++ c :: v = (s ++ [c]) ++ v := by simp
    rw [apart] at longer ⊢
    intro r mem
    rw [race, Racer.step_allAfter, behind] at longer
    split at longer
    · rename_i gone
      by_contra done
      rw [Bool.not_eq_false] at done
      exact ne_nil_of_mem (mem_filter.mpr
        ⟨mem_map.mpr ⟨r, mem, rfl⟩, Racer.isAlive_of_later done⟩) gone
    · split at longer
      · cases v with
        | nil =>
          obtain ⟨effect, piece, left, found, reached⟩ := race_found _ _ _ _
          have shorter := longer effect piece left found
          have least := reached (le_refl _)
          rw [append_nil] at shorter
          rw [length_reverse] at least
          omega
        | cons d v => exact ih _ _ (by simp) (cons.inj split).2 longer r mem
      · rename_i unfinished
        cases v with
        | nil =>
          rw [Racer.find?_isDone, Option.map_eq_none_iff, find?_eq_none] at unfinished
          simpa using unfinished r mem
        | cons d v => exact ih _ _ (by simp) (cons.inj split).2 longer r mem

end Race

section Modes

variable {mode : Mode} {text piece rest : List Char} {effect : Effect}

theorem nextPiece_eq (mode : Mode) (text : List Char) :
    nextPiece mode text = race none [].reverse (Racer.allAfter (rules mode) []) text := by
  rw [nextPiece, racers_eq, ← race_alive]
  rfl

theorem nextPiece_wins (found : nextPiece mode text = .found effect piece rest) :
    ∃ rule, Wins (rules mode) rule piece rest ∧ rule.effect = effect :=
  race_wins (by simp) (nextPiece_eq mode text ▸ found)

variable {skipped v w : List Char} {rule : LexicalRule} {p : Pattern}

theorem nextPiece_skipped (lost : nextPiece mode text = .skipped skipped rest) (some_ : v ≠ [])
    (split : v ++ w = text) : ∀ r ∈ rules mode, (Racer.after r v).isDone = false := by
  rw [nextPiece_eq] at lost
  refine race_unfinished none [] w some_ split fun effect piece rest found => ?_
  rw [lost] at found
  cases found

/-- Behind a text that is longer than the piece no rule is complete. -/
theorem nextPiece_unfinished (found : nextPiece mode text = .found effect piece rest)
    (some_ : v ≠ []) (split : v ++ w = text) (longer : piece.length < v.length) :
    ∀ r ∈ rules mode, (Racer.after r v).isDone = false := by
  rw [nextPiece_eq] at found
  refine race_unfinished none [] w some_ split fun _ _ _ same => ?_
  rw [found] at same
  cases same
  exact longer

theorem Wins.mem (wins : Wins (rules mode) rule piece rest) : rule ∈ rules mode := by
  cases wins with
  | complete first => exact mem_of_find?_eq_some first
  | ending _ mem _ => exact mem

/-- A rule without lazy loops that does not ask for the end gets pieces that it matches. -/
theorem Wins.takes (wins : Wins (rules mode) rule piece rest) (shape : rule.shape = .plain p)
    (greedy : p.isGreedy false = true) : p.Takes false piece := by
  cases wins with
  | complete first =>
    have done := find?_some first
    exact (Racer.after_isDone shape greedy).mp done
  | ending _ _ ends => simp [Racer.after_endsHere shape greedy piece] at ends

/-- An effect that only one rule has, whose pattern is a character, comes with that character. -/
theorem nextPiece_single {c : Char} (found : nextPiece mode text = .found effect piece rest)
    (only : ∀ rule ∈ rules mode, rule.effect = effect → rule.shape = .plain (.one c)) : piece = [c] := by
  obtain ⟨rule, wins, same⟩ := nextPiece_wins found
  exact Pattern.takes_one.mp (wins.takes (only rule wins.mem same) rfl)

theorem openBracket_piece (found : nextPiece .default text = .found .openBracket piece rest) :
    piece = ['['] :=
  nextPiece_single found (by decide)

theorem openNested_piece (found : nextPiece .argument text = .found .openNested piece rest) :
    piece = ['['] :=
  nextPiece_single found (by decide)

theorem closeBracket_piece (found : nextPiece .argument text = .found .closeBracket piece rest) :
    piece = [']'] :=
  nextPiece_single found (by decide)

/-- Of the brackets in an argument block only those inside longer pieces are plain content. -/
theorem content_piece (found : nextPiece .argument text = .found (.token .argumentContent) piece rest) :
    piece ≠ ['['] ∧ piece ≠ [']'] := by
  have brackets : ∀ c ∈ ['[', ']'],
      (∀ r ∈ rules .argument, (Racer.after r [c]).endsHere = false) ∧
      ((rules .argument).find? fun r => (Racer.after r [c]).isDone).all fun r =>
        decide (r.effect ≠ .token .argumentContent) := by
    decide +kernel
  obtain ⟨rule, wins, same⟩ := nextPiece_wins found
  have apart : ∀ c ∈ ['[', ']'], piece ≠ [c] := by
    rintro c mem rfl
    obtain ⟨endless, first⟩ := brackets c mem
    cases wins with
    | complete found => simp [found, same] at first
    | ending _ inRules ends => simp [endless rule inRules] at ends
  exact ⟨apart '[' (by simp), apart ']' (by simp)⟩

theorem Racer.isDone_of_takes (shape : rule.shape = .plain p) (greedy : p.isGreedy false = true)
    (matched : p.Takes false text) : (Racer.after rule text).isDone = true :=
  (Racer.after_isDone shape greedy).mpr matched

/-- Every character in an argument block belongs to some piece. -/
theorem argument_not_skipped (something : text ≠ [])
    (lost : nextPiece .argument text = .skipped skipped rest) : False := by
  obtain ⟨c, later, rfl⟩ := exists_cons_of_ne_nil something
  have taken : (Racer.after ⟨.plain .any, .token .argumentContent⟩ [c]).isDone = true :=
    Racer.isDone_of_takes rfl rfl (.char (by simp [CharClass.contains]))
  have unfinished := nextPiece_skipped lost (v := [c]) (by simp) rfl
    ⟨.plain .any, .token .argumentContent⟩ (by decide)
  simp [taken] at unfinished

/-- What asks for the end of the text is found there only. -/
theorem close_atEnd {kind : Kind} (found : nextPiece mode text = .found (.close kind) piece rest)
    (only : ∀ rule ∈ rules mode, rule.effect = .close kind → rule.shape = .plain .atEnd) : text = [] := by
  obtain ⟨rule, wins, same⟩ := nextPiece_wins found
  have shape := only rule wins.mem same
  have unread : ∀ c, (Racer.after rule [c]).branches = [] := by
    intro c
    refine Racer.stops (u := []) fun b mem s waits => ?_
    simp only [Racer.after, foldl_nil, Racer.start, shape] at mem
    cases mem_singleton.mp mem
    cases waits
  have nothing : piece = [] := by
    cases piece with
    | nil => rfl
    | cons c later =>
      have dead : (Racer.after rule (c :: later)).branches = [] := Racer.after_dead (unread c) later
      cases wins with
      | complete first =>
        have done := find?_some first
        simp [Racer.isDone_of_dead dead] at done
      | ending _ _ ends =>
        simp [Racer.endsHere_of_dead dead] at ends
  by_contra something
  exact (Scanner.found_split found).2 something nothing

/-- The inside of a character set: characters other than its stops, and escaped ones. -/
def setBody : Pattern := .plus (.alt (.noneOf setStops) (.seq (.one '\\') .any))

/-- Behind two characters of a character set some rule has been complete. -/
theorem charSet_complete (c d : Char) :
    ∃ v w, v ≠ [] ∧ v ++ w = [c, d] ∧ ∃ r ∈ rules .charSet, (Racer.after r v).isDone = true := by
  have body : ∀ v, setBody.Takes false v → (Racer.after ⟨.plain setBody, .more⟩ v).isDone = true :=
    fun v => Racer.isDone_of_takes rfl rfl
  by_cases stop : c ∈ setStops
  · simp only [setStops, mem_cons, not_mem_nil, or_false] at stop
    rcases stop with rfl | rfl
    · exact ⟨[']'], [d], by simp, rfl, ⟨.plain (.one ']'), .close .lexerCharSet⟩, by decide,
        Racer.isDone_of_takes rfl rfl (Pattern.takes_one.mpr rfl)⟩
    · have escaped : setBody.Takes false (['\\'] ++ [d] ++ []) :=
        .seq (.right (.seq (Pattern.takes_one.mpr rfl) (.char (by simp [CharClass.contains])))) .stop
      exact ⟨_, [], by simp, rfl, _, by decide, body _ escaped⟩
  · have inside : setBody.Takes false ([c] ++ []) := by
      refine .seq (.left (.char ?_)) .stop
      rw [CharClass.contains_chars]
      simpa using stop
    exact ⟨_, [d], by simp, rfl, _, by decide, body _ inside⟩

/-- Inside a character set only a backslash at the end of the text is skipped. -/
theorem charSet_skipped (lost : nextPiece .charSet text = .skipped skipped rest) : rest = [] := by
  obtain ⟨split, nonempty⟩ := Scanner.skipped_split lost
  by_contra more
  have something : text ≠ [] := by rw [← split]; simp [more]
  obtain ⟨c, taken, rfl⟩ := exists_cons_of_ne_nil (nonempty something)
  obtain ⟨d, later, next⟩ : ∃ d later, taken ++ rest = d :: later :=
    exists_cons_of_ne_nil (by simp [more])
  obtain ⟨v, w, some_, two, r, mem, done⟩ := charSet_complete c d
  have begins : v ++ (w ++ later) = text := by
    rw [← split, cons_append, next, ← append_assoc, two]
    rfl
  simp [nextPiece_skipped lost some_ begins r mem] at done

end Modes

end GrammarLint.Lexical
