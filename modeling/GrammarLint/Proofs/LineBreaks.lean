import Mathlib
import GrammarLint.Console.Print

open List

namespace GrammarLint.Console

open Text (CodePoint isSpace stripRight)

def Narrow (cs : List CodePoint) : Prop := ∀ c ∈ cs, pointCells c = 1

def Solid (cs : List CodePoint) : Prop := ∀ c ∈ cs, isSpace c = false

def Spaces (cs : List CodePoint) : Prop := ∀ c ∈ cs, isSpace c = true

def StartsSolid (cs : List CodePoint) : Prop := ∃ c rest, cs = c :: rest ∧ isSpace c = false

def EndsSolid (cs : List CodePoint) : Prop := ∃ front c, cs = front ++ [c] ∧ isSpace c = false

def shown (width : Nat) (piece : List CodePoint) : List CodePoint :=
  truncate width .fold (trimEnd width piece)

section Cells

variable {cs ds : List CodePoint} {width : Nat}

theorem Narrow.append_iff : Narrow (cs ++ ds) ↔ Narrow cs ∧ Narrow ds := forall_mem_append

theorem Narrow.sublist (narrow : Narrow cs) (sub : List.Sublist ds cs) : Narrow ds :=
  fun c mem => narrow c (sub.subset mem)

theorem cells_narrow (narrow : Narrow cs) : cells cs = cs.length := by
  have ones : cs.map pointCells = replicate cs.length 1 :=
    eq_replicate_iff.mpr ⟨length_map _, forall_mem_map.mpr narrow⟩
  rw [cells, ones, ← sum_eq_foldl]
  simp

theorem stripRight_sublist (cs : List CodePoint) : List.Sublist (stripRight cs) cs := by
  rw [stripRight, ← reverse_sublist, reverse_reverse]
  exact dropWhile_sublist _

theorem fillCells_narrow (narrow : Narrow cs) (enough : width ≤ cs.length) :
    fillCells width cs = cs.take width := by
  induction cs generalizing width with
  | nil =>
    obtain rfl : width = 0 := by simpa using enough
    rfl
  | cons c cs ih =>
    obtain ⟨one, others⟩ := forall_mem_cons.mp narrow
    rw [fillCells, one]
    cases width with
    | zero => simp
    | succ width =>
      rw [if_pos (by omega), Nat.add_sub_cancel, ih others (by simpa using enough), take_succ_cons]

/-- A piece is shown from its first character on, as far as the width goes. -/
theorem shown_eq_take (narrow : Narrow cs) (width : Nat) :
    ∃ n, shown width cs = cs.take n ∧ min cs.length width ≤ n := by
  let kept := cs.length - min (cs.reverse.takeWhile isSpace).length (cs.length - width)
  have trimmed : trimEnd width cs = cs.take kept := rfl
  have long : min cs.length width ≤ kept := by omega
  have narrowKept : Narrow (cs.take kept) := narrow.sublist (take_sublist ..)
  rw [shown, trimmed, truncate, cells_narrow narrowKept, length_take]
  split
  · exact ⟨kept, rfl, long⟩
  · refine ⟨width, ?_, by omega⟩
    rw [fillCells_narrow narrowKept (by rw [length_take]; omega), take_take,
      min_eq_left (by omega)]

theorem shown_of_le (narrow : Narrow cs) (short : cs.length ≤ width) : shown width cs = cs := by
  obtain ⟨n, same, enough⟩ := shown_eq_take narrow width
  rw [same, take_of_length_le (by omega)]

end Cells

section Words

variable {cs run blanks rest : List CodePoint}

theorem Solid.takeWhile_append (solid : Solid run)
    (next : rest = [] ∨ ∃ c more, rest = c :: more ∧ isSpace c = true) :
    (run ++ rest).takeWhile (!isSpace ·) = run ∧ (run ++ rest).dropWhile (!isSpace ·) = rest := by
  have each : ∀ c ∈ run, (!isSpace c) = true := fun c mem => by simp [solid c mem]
  rw [takeWhile_append_of_pos each, dropWhile_append_of_pos each]
  rcases next with rfl | ⟨c, more, rfl, space⟩
  · simp
  · simp [space]

theorem Spaces.takeWhile_append (spaces : Spaces blanks) (next : rest = [] ∨ StartsSolid rest) :
    (blanks ++ rest).takeWhile isSpace = blanks ∧ (blanks ++ rest).dropWhile isSpace = rest := by
  rw [takeWhile_append_of_pos spaces, dropWhile_append_of_pos spaces]
  rcases next with rfl | ⟨c, more, rfl, solid⟩
  · simp
  · simp [solid]

theorem wordsFrom_nil (fuel : Nat) : wordsFrom fuel [] = [] := by cases fuel <;> rfl

/-- The first word of a text that begins with one, the white space behind it and the rest. -/
structure Opens (cs run blanks rest : List CodePoint) : Prop where
  split : cs = run ++ (blanks ++ rest)
  solid : Solid run
  nonempty : run ≠ []
  spaces : Spaces blanks
  next : rest = [] ∨ StartsSolid rest
  apart : blanks = [] → rest = []

theorem head_dropWhile {p : CodePoint → Bool} {c : CodePoint} (same : cs.dropWhile p = c :: rest) :
    p c = false := by
  have head := head_dropWhile_not p (by rw [same]; exact cons_ne_nil c rest)
  simpa only [same, head_cons] using head

theorem exists_opens (starts : StartsSolid cs) : ∃ run blanks rest, Opens cs run blanks rest := by
  obtain ⟨c, later, rfl, solid⟩ := starts
  let after := (c :: later).dropWhile (!isSpace ·)
  have afterEmpty : after.takeWhile isSpace = [] → after = [] := by
    cases same : after with
    | nil => simp
    | cons d more => simpa using head_dropWhile same
  refine ⟨(c :: later).takeWhile (!isSpace ·), after.takeWhile isSpace, after.dropWhile isSpace,
    ⟨?_, fun d mem => ?_, by simp [solid], fun _ => mem_takeWhile_imp, ?_, fun empty => ?_⟩⟩
  · rw [takeWhile_append_dropWhile, takeWhile_append_dropWhile]
  · simpa using mem_takeWhile_imp mem
  · cases same : after.dropWhile isSpace with
    | nil => exact .inl rfl
    | cons d more => exact .inr ⟨d, more, rfl, head_dropWhile same⟩
  · rw [afterEmpty empty, dropWhile_nil]

namespace Opens

theorem starts (opens : Opens cs run blanks rest) : StartsSolid cs := by
  obtain ⟨c, more, rfl⟩ := exists_cons_of_ne_nil opens.nonempty
  exact ⟨c, _, opens.split, opens.solid c mem_cons_self⟩

/-- White space stands behind the run, or nothing. -/
theorem behind (opens : Opens cs run blanks rest) :
    blanks ++ rest = [] ∨ ∃ c more, blanks ++ rest = c :: more ∧ isSpace c = true := by
  match blanks, opens.spaces, opens.apart with
  | [], _, apart => exact .inl (apart rfl)
  | c :: more, spaces, _ => exact .inr ⟨c, _, rfl, spaces c mem_cons_self⟩

variable (opens : Opens cs run blanks rest)

include opens

theorem first : cs.takeWhile (!isSpace ·) = run := by
  rw [opens.split]
  exact (opens.solid.takeWhile_append opens.behind).1

theorem nextWord_eq : nextWord cs = (run ++ blanks, rest) := by
  obtain ⟨c, later, begins, solid⟩ := opens.starts
  have none : cs.takeWhile isSpace = [] ∧ cs.dropWhile isSpace = cs := by simp [begins, solid]
  obtain ⟨word, after⟩ := opens.solid.takeWhile_append opens.behind
  rw [← opens.split] at word after
  obtain ⟨space, later⟩ := opens.spaces.takeWhile_append opens.next
  simp [nextWord, none.1, none.2, word, after, space, later]

theorem wordsFrom_eq (fuel : Nat) :
    wordsFrom (fuel + 1) cs = (run ++ blanks) :: wordsFrom fuel rest := by
  obtain ⟨c, later, begins, solid⟩ := opens.starts
  have notAll : cs.all isSpace = false := by simp [begins, solid]
  rw [wordsFrom, notAll, opens.nextWord_eq]
  rfl

theorem stripRight_eq : stripRight (run ++ blanks) = run := by
  have spaces : ∀ c ∈ blanks.reverse, isSpace c = true := fun c mem =>
    opens.spaces c (mem_reverse.mp mem)
  have last : run.reverse.dropWhile isSpace = run.reverse := by
    cases backwards : run.reverse with
    | nil => rfl
    | cons c more =>
      have solid := opens.solid c (mem_reverse.mp (by rw [backwards]; exact mem_cons_self))
      simp [solid]
  rw [stripRight, reverse_append, dropWhile_append_of_pos spaces, last, reverse_reverse]

theorem length_eq : cs.length = (run ++ blanks).length + rest.length ∧ 0 < run.length := by
  rw [opens.split, ← append_assoc, length_append]
  exact ⟨rfl, length_pos_iff.mpr opens.nonempty⟩

theorem narrow (narrow : Narrow cs) : Narrow (run ++ blanks) ∧ Narrow rest := by
  rwa [opens.split, ← append_assoc, Narrow.append_iff] at narrow

/-- The white space behind a word needs no room. -/
theorem cells_eq (narrow : Narrow cs) : cells (stripRight (run ++ blanks)) = run.length := by
  rw [opens.stripRight_eq, cells_narrow (Narrow.append_iff.mp (opens.narrow narrow).1).1]

/-- A text that ends in a word has no white space behind its only word. -/
theorem blanks_eq_nil (ends : EndsSolid cs) (last : rest = []) :
    blanks = [] := by
  obtain ⟨front, c, whole, solid⟩ := ends
  by_contra some
  have mem : c ∈ blanks := by
    have same := congrArg getLast? (opens.split.symm.trans whole)
    rw [last, append_nil, getLast?_append_of_ne_nil _ some,
      getLast?_append_of_ne_nil _ (by simp)] at same
    exact mem_of_getLast? same
  simp [opens.spaces c mem] at solid

theorem rest_ends (ends : EndsSolid cs) (more : rest ≠ []) :
    EndsSolid rest := by
  obtain ⟨front, c, whole, solid⟩ := ends
  obtain ⟨begun, d, same⟩ : ∃ begun d, rest = begun ++ [d] :=
    ⟨_, _, (dropLast_append_getLast more).symm⟩
  have last := congrArg getLast? (opens.split.symm.trans whole)
  rw [same, ← append_assoc, ← append_assoc, getLast?_concat, getLast?_concat,
    Option.some.injEq] at last
  exact ⟨begun, d, same, last ▸ solid⟩

end Opens

end Words

section Breaks

variable {cs : List CodePoint} {width : Nat}

variable (cs width) in
theorem chop_narrow (positive : 0 < width) (narrow : Narrow cs) (piece : List CodePoint)
    (fits : piece.length ≤ width) : chop width piece piece.length cs =
      if piece.length + cs.length ≤ width then [piece.reverse ++ cs]
      else (piece.reverse ++ cs.take (width - piece.length)) ::
        chop width [] 0 (cs.drop (width - piece.length)) := by
  induction cs generalizing piece with
  | nil => simp [chop, fits]
  | cons c cs ih =>
    obtain ⟨one, others⟩ := forall_mem_cons.mp narrow
    rw [chop, one]
    by_cases full : piece.length = width
    · rw [if_pos (by omega), if_neg (by simp; omega), full, Nat.sub_self, take_zero, drop_zero,
        append_nil, chop, one, if_neg (by omega)]
    · have next := @ih others (c :: piece) (by rw [length_cons]; omega)
      obtain ⟨room, left⟩ : ∃ n, width - piece.length = n + 1 := ⟨width - piece.length - 1, by omega⟩
      have less : width - (piece.length + 1) = room := by omega
      rw [length_cons] at next
      rw [if_neg (by omega), next, less, left]
      simp [Nat.add_assoc, Nat.add_comm 1]

/-- A word is cut when it fills the width. -/
theorem chop_long (positive : 0 < width) (narrow : Narrow cs) (long : width < cs.length) :
    chop width [] 0 cs = cs.take width :: chop width [] 0 (cs.drop width) := by
  have cut := chop_narrow cs width positive narrow [] (Nat.zero_le _)
  rw [if_neg (by omega)] at cut
  exact cut

theorem chop_short (positive : 0 < width) (narrow : Narrow cs) (short : cs.length ≤ width) :
    chop width [] 0 cs = [cs] := by
  have cut := chop_narrow cs width positive narrow [] (Nat.zero_le _)
  rw [length_nil, if_pos (by omega)] at cut
  exact cut

theorem exists_chop (positive : 0 < width) (narrow : Narrow cs) (some : cs ≠ []) :
    ∃ piece pieces, chop width [] 0 cs = piece :: pieces ∧ 0 < piece.length := by
  have length := length_pos_iff.mpr some
  by_cases long : width < cs.length
  · exact ⟨_, _, chop_long positive narrow long, by rw [length_take]; omega⟩
  · exact ⟨_, _, chop_short positive narrow (by omega), length⟩

variable {start place used : Nat} {word : List CodePoint} {ws : List (List CodePoint)}

theorem le_of_mem_beginnings {pieces : List (List CodePoint)}
    (mem : place ∈ beginnings start pieces) : start ≤ place := by
  induction pieces generalizing start with
  | nil => cases mem
  | cons piece pieces ih =>
    rcases mem_cons.mp mem with rfl | later
    · exact le_rfl
    · exact (Nat.le_add_right ..).trans (ih later)

/-- A break is one that the first word makes, which is never at the start of the line, or comes later. -/
theorem mem_breaks_cons (mem : place ∈ breaks width .fold start used (word :: ws)) :
    start ≤ place ∧ 0 < place ∨ ∃ used, place ∈ breaks width .fold (start + word.length) used ws := by
  rw [breaks] at mem
  split at mem
  · exact .inr ⟨_, mem⟩
  · split at mem
    · rcases mem_append.mp mem with cut | later
      · obtain ⟨inside, positive⟩ := mem_filter.mp cut
        exact .inl ⟨le_of_mem_beginnings inside, by simpa using positive⟩
      · exact .inr ⟨_, later⟩
    · split at mem
      · rename_i begun
        simp only [Bool.and_eq_true, decide_eq_true_eq] at begun
        rcases mem_cons.mp mem with rfl | later
        · exact .inl ⟨le_rfl, begun.2⟩
        · exact .inr ⟨_, later⟩
      · exact .inr ⟨_, mem⟩

theorem bounds_of_mem_breaks (mem : place ∈ breaks width .fold start used ws) :
    start ≤ place ∧ 0 < place := by
  induction ws generalizing start used with
  | nil => cases mem
  | cons word ws ih =>
    rcases mem_breaks_cons mem with own | ⟨used, later⟩
    · exact own
    · obtain ⟨least, positive⟩ := ih later
      exact ⟨by omega, positive⟩

/-- Behind other words on its line, a word that does not fit begins a new line. All further breaks
come later. -/
theorem breaks_word (ws : List (List CodePoint))
    (positive : 0 < width) (narrow : Narrow word) (some : word ≠ []) (begun : 0 < start) (filled : 0 < used)
    (unfit : width < used + cells (stripRight word)) :
    ∃ places, breaks width .fold start used (word :: ws) = start :: places ∧
      ∀ place ∈ places, start < place := by
  have length := length_pos_iff.mpr some
  have later {used place : Nat} (mem : place ∈ breaks width .fold (start + word.length) used ws) :
      start < place := by
    have least := (bounds_of_mem_breaks mem).1
    omega
  rw [breaks]
  dsimp only
  rw [if_neg (by omega)]
  split
  · obtain ⟨piece, pieces, cut, nonempty⟩ := exists_chop positive narrow some
    rw [cut, beginnings, filter_cons_of_pos (by simpa using begun)]
    refine ⟨_, rfl, fun place mem => ?_⟩
    rcases mem_append.mp mem with inside | behind
    · have least := le_of_mem_beginnings (mem_of_mem_filter inside)
      omega
    · exact later behind
  · rw [if_pos (by simp [filled, begun])]
    exact ⟨_, rfl, fun place mem => later mem⟩

theorem breaks_fits (narrow : Narrow word) (fits : used + cells (stripRight word) ≤ width) :
    breaks width .fold start used (word :: ws) =
      breaks width .fold (start + word.length) (used + word.length) ws := by
  rw [breaks]
  rw [if_pos fits, cells_narrow narrow]

theorem breaks_unfit (narrow : Narrow word) (begun : 0 < start) (filled : 0 < used)
    (unfit : width < used + cells (stripRight word)) (single : cells (stripRight word) ≤ width) :
    breaks width .fold start used (word :: ws) =
      start :: breaks width .fold (start + word.length) word.length ws := by
  rw [breaks]
  rw [if_neg (by omega), if_neg (by omega), if_pos (by simp [filled, begun]), cells_narrow narrow]

/-- A word that is longer than a line is broken when it fills one. -/
theorem breaks_chopped (used : Nat) (ws : List (List CodePoint))
    (positive : 0 < width) (narrow : Narrow word) (begun : 0 < start)
    (wide : width < cells (stripRight word)) (long : width < word.length) :
    ∃ places, breaks width .fold start used (word :: ws) = start :: (start + width) :: places ∧
      ∀ place ∈ places, start + width < place := by
  obtain ⟨piece, pieces, cut, some⟩ := exists_chop positive
    (narrow.sublist (drop_sublist ..)) (by simp; omega)
  rw [breaks]
  dsimp only
  rw [if_neg (by omega), if_pos wide, chop_long positive narrow long, cut, beginnings, beginnings,
    length_take, min_eq_left long.le, filter_cons_of_pos (by simpa using begun),
    filter_cons_of_pos (by simp; omega)]
  refine ⟨_, rfl, fun place mem => ?_⟩
  rcases mem_append.mp mem with inner | behind
  · have least := le_of_mem_beginnings (mem_of_mem_filter inner)
    omega
  · have least := (bounds_of_mem_breaks behind).1
    omega

theorem space_last {run blanks before : List CodePoint} (spaces : Spaces blanks) (some : blanks ≠ [])
    (space : ∀ c ∈ before.getLast?, isSpace c = true) :
    ∀ c ∈ (run ++ (blanks ++ before)).getLast?, isSpace c = true := by
  intro c final
  rw [getLast?_append_of_ne_nil _ (by simp [some])] at final
  by_cases empty : before = []
  · rw [empty, append_nil] at final
    exact spaces c (mem_of_getLast? final)
  · rw [getLast?_append_of_ne_nil _ empty] at final
    exact space c final

/-- Behind other words, the words of a text are broken if they do not all fit, and first in front of one
of them. -/
theorem breaks_words (positive : 0 < width) {fuel : Nat} (enough : cs.length ≤ fuel)
    (narrow : Narrow cs) (starts : StartsSolid cs) (ends : EndsSolid cs) (begun : 0 < start)
    (filled : 0 < used) :
    used + cs.length ≤ width ∧ breaks width .fold start used (wordsFrom fuel cs) = [] ∨
    width < used + cs.length ∧ ∃ before after places, cs = before ++ after ∧ after ≠ [] ∧
      (∀ c ∈ before.getLast?, isSpace c = true) ∧
      breaks width .fold start used (wordsFrom fuel cs) = (start + before.length) :: places ∧
      ∀ place ∈ places, start + before.length < place := by
  induction fuel generalizing cs start used with
  | zero =>
    obtain ⟨c, rest, rfl, -⟩ := starts
    simp at enough
  | succ fuel ih =>
    obtain ⟨run, blanks, rest, opens⟩ := exists_opens starts
    obtain ⟨narrowWord, narrowRest⟩ := opens.narrow narrow
    have size := opens.cells_eq narrow
    obtain ⟨length, nonempty⟩ := opens.length_eq
    rw [length_append] at length
    rw [opens.wordsFrom_eq]
    -- Blanks behind a word need no room: a word fits without them, but they count for the next one.
    by_cases fits : used + run.length ≤ width
    · rw [breaks_fits narrowWord (size ▸ fits)]
      by_cases last : rest = []
      · have none := opens.blanks_eq_nil ends last
        subst last none
        exact .inl ⟨by simpa [length] using fits, by rw [wordsFrom_nil]; rfl⟩
      · have restStarts := opens.next.resolve_left last
        have further := @ih rest (start + (run ++ blanks).length) (used + (run ++ blanks).length) (by omega)
          narrowRest restStarts (opens.rest_ends ends last) (by omega) (by omega)
        rw [length_append] at further ⊢
        rcases further with ⟨fit, none⟩ | ⟨unfit, before, after, places, same, behind, space, broken, others⟩
        · exact .inl ⟨by omega, none⟩
        · refine .inr ⟨by omega, run ++ (blanks ++ before), after, places, by rw [opens.split, same]; simp,
            behind, ?_, ?_, ?_⟩
          · exact space_last opens.spaces (fun none => last (opens.apart none)) space
          · rw [broken]
            simp [Nat.add_assoc]
          · intro place mem
            have least := others place mem
            simp only [length_append]
            omega
    · have wordSome : run ++ blanks ≠ [] := by simp [opens.nonempty]
      obtain ⟨places, broken, others⟩ := breaks_word (wordsFrom fuel rest)
        positive narrowWord wordSome begun filled (by omega)
      exact .inr ⟨by omega, [], cs, places, rfl, by rw [opens.split]; simp [opens.nonempty], by simp,
        broken, others⟩

end Breaks

def lineBreaks (width : Nat) (line : List CodePoint) : List Nat := breaks width .fold 0 0 (words line)

theorem nextWord_split (cs : List CodePoint) : (nextWord cs).1 ++ (nextWord cs).2 = cs := by
  simp [nextWord]

variable {width : Nat}

theorem breaks_of_le {cs : List CodePoint} {fuel start used : Nat} (narrow : Narrow cs)
    (fits : used + cs.length ≤ width) : breaks width .fold start used (wordsFrom fuel cs) = [] := by
  induction fuel generalizing cs start used with
  | zero => rfl
  | succ fuel ih =>
    rw [wordsFrom]
    split
    · rfl
    · have split := nextWord_split cs
      have length := congrArg length split
      rw [← split] at narrow
      obtain ⟨narrowWord, narrowRest⟩ := Narrow.append_iff.mp narrow
      have stripped := (stripRight_sublist (nextWord cs).1).length_le
      rw [length_append] at length
      rw [breaks_fits narrowWord (by rw [cells_narrow (narrowWord.sublist (stripRight_sublist _))]; omega)]
      exact ih narrowRest (by omega)

theorem lineBreaks_of_le {line : List CodePoint} (narrow : Narrow line) (fits : line.length ≤ width) :
    lineBreaks width line = [] :=
  breaks_of_le narrow (by omega)

/-- A line whose lead is one word, with a text behind it that begins and ends in words and may be
followed by a mark. -/
structure Keyed (lead text close : List CodePoint) : Prop where
  narrow : Narrow (lead ++ (text ++ close))
  lead : ∃ blanks key, lead = blanks ++ (key ++ [.char ' ']) ∧ Spaces blanks ∧ Solid key ∧ key ≠ []
  starts : StartsSolid text
  ends : EndsSolid text
  solid : Solid close
  single : close.length ≤ 1

namespace Keyed

variable {lead text close : List CodePoint} {width : Nat} (keyed : Keyed lead text close)

include keyed

theorem lead_pos : 0 < lead.length := by
  obtain ⟨blanks, key, rfl, -⟩ := keyed.lead
  simp only [length_append, length_singleton]
  omega

theorem part_starts : StartsSolid (text ++ close) := by
  obtain ⟨c, rest, rfl, solid⟩ := keyed.starts
  exact ⟨c, _, rfl, solid⟩

theorem part_ends : EndsSolid (text ++ close) := by
  by_cases empty : close = []
  · rw [empty, append_nil]
    exact keyed.ends
  · have last := keyed.solid _ (getLast_mem empty)
    refine ⟨text ++ close.dropLast, close.getLast empty, ?_, last⟩
    rw [append_assoc, dropLast_append_getLast]

theorem nextWord_eq :
    nextWord (lead ++ (text ++ close)) = (lead, text ++ close) := by
  obtain ⟨blanks, key, rfl, spaces, solid, some⟩ := keyed.lead
  have keyStarts : StartsSolid (key ++ ([.char ' '] ++ (text ++ close))) := by
    obtain ⟨c, more, rfl⟩ := exists_cons_of_ne_nil some
    exact ⟨c, _, rfl, solid c mem_cons_self⟩
  obtain ⟨front, behind⟩ := spaces.takeWhile_append (.inr keyStarts)
  obtain ⟨word, after⟩ := @Solid.takeWhile_append key ([.char ' '] ++ (text ++ close)) solid
    (.inr ⟨.char ' ', text ++ close, rfl, rfl⟩)
  obtain ⟨space, part⟩ := @Spaces.takeWhile_append [.char ' '] (text ++ close)
    (forall_mem_cons.mpr ⟨rfl, by simp⟩) (.inr keyed.part_starts)
  simp only [append_assoc]
  simp only [nextWord, front, behind, word, after, space, part]
  simp

/-- The lead is a word that fits. -/
theorem lineBreaks_eq (short : lead.length ≤ width) :
    ∃ fuel, (text ++ close).length ≤ fuel ∧ lineBreaks width (lead ++ (text ++ close)) =
      breaks width .fold lead.length lead.length (wordsFrom fuel (text ++ close)) := by
  have positive := keyed.lead_pos
  have narrow := (Narrow.append_iff.mp keyed.narrow).1
  obtain ⟨fuel, size⟩ : ∃ n, (lead ++ (text ++ close)).length = n + 1 :=
    ⟨(lead ++ (text ++ close)).length - 1, by rw [length_append]; omega⟩
  have notAll : (lead ++ (text ++ close)).all isSpace = false := by
    obtain ⟨c, rest, begins, solid⟩ := keyed.part_starts
    simp [begins, solid]
  have stripped : cells (stripRight lead) ≤ lead.length := by
    rw [cells_narrow (narrow.sublist (stripRight_sublist _))]
    exact (stripRight_sublist _).length_le
  refine ⟨fuel, by rw [length_append] at size; omega, ?_⟩
  rw [lineBreaks, words, size, wordsFrom, notAll, keyed.nextWord_eq]
  simp only [Bool.false_eq_true, if_false]
  rw [breaks_fits narrow (by omega), Nat.zero_add]

/-- A break behind white space lies within the text. -/
theorem inside_text (front after : List CodePoint)
    (split : text ++ close = front ++ after) (behind : after ≠ [])
    (space : ∀ c ∈ front.getLast?, isSpace c = true) : front.length < text.length := by
  have afterLength := length_pos_iff.mpr behind
  have lengths := congrArg length split
  have single := keyed.single
  simp only [length_append] at lengths
  by_contra beyond
  have same : front = text := by
    have cut := congrArg (take text.length) split
    have equal : front.length = text.length := by omega
    rw [take_left, ← equal, take_left] at cut
    exact cut.symm
  obtain ⟨begun, c, whole, solid⟩ := keyed.ends
  have last := space c (by rw [same, whole, getLast?_concat]; rfl)
  simp [last] at solid

def firstCells (text close : List CodePoint) : Nat := ((text ++ close).takeWhile (!isSpace ·)).length

/-- The text with its mark stands on a line of its own. -/
theorem lineBreaks_of_moved (short : lead.length ≤ width)
    (unfit : width < lead.length + firstCells text close) (fits : (text ++ close).length ≤ width) :
    lineBreaks width (lead ++ (text ++ close)) = [lead.length] := by
  have positive := keyed.lead_pos
  have narrow := (Narrow.append_iff.mp keyed.narrow).2
  obtain ⟨fuel, enough, same⟩ := keyed.lineBreaks_eq short
  obtain ⟨run, blanks, rest, opens⟩ := exists_opens keyed.part_starts
  rw [firstCells, opens.first] at unfit
  obtain ⟨narrowWord, narrowRest⟩ := opens.narrow narrow
  have size := opens.cells_eq narrow
  obtain ⟨length, nonempty⟩ := opens.length_eq
  have wordLength : (run ++ blanks).length = run.length + blanks.length := length_append ..
  obtain _ | fuel := fuel
  · omega
  rw [same, opens.wordsFrom_eq, breaks_unfit narrowWord positive positive (by omega) (by omega),
    breaks_of_le narrowRest (by omega)]

/-- A text that fills a line stands there alone, and its mark below. -/
theorem lineBreaks_of_full (short : lead.length ≤ width)
    (long : width < (text ++ close).length) (fits : text.length ≤ width) (solid : Solid text) :
    lineBreaks width (lead ++ (text ++ close)) = [lead.length, lead.length + text.length] := by
  have positive := keyed.lead_pos
  have single := keyed.single
  have narrow := (Narrow.append_iff.mp keyed.narrow).2
  have whole : Opens (text ++ close) (text ++ close) [] [] := by
    refine ⟨by simp, forall_mem_append.mpr ⟨solid, keyed.solid⟩, ?_, by simp [Spaces], .inl rfl,
      fun _ => rfl⟩
    rintro empty
    simp [empty] at long
  obtain ⟨fuel, enough, same⟩ := keyed.lineBreaks_eq short
  obtain _ | fuel := fuel
  · omega
  have size := whole.cells_eq narrow
  rw [append_nil] at size
  rw [length_append] at long
  have full : text.length = width := by omega
  have pieces : chop width [] 0 (text ++ close) = [text, close] := by
    rw [chop_long (by omega) narrow (by rw [length_append]; omega), ← full, take_left,
      drop_left, chop_short (by omega) (Narrow.append_iff.mp narrow).2 (by omega)]
  rw [same, whole.wordsFrom_eq, wordsFrom_nil, append_nil, breaks]
  rw [size, length_append, if_neg (by omega), if_pos (by omega), pieces]
  simp [beginnings, breaks]
  omega

variable (width) in
/-- If the words behind the first one do not fit, there is a break in front of one of them. -/
theorem breaks_inside {run blanks rest : List CodePoint}
    (opens : Opens (text ++ close) run blanks rest) (fuel used : Nat) (enough : rest.length ≤ fuel)
    (positive : 0 < width) (filled : 0 < used) (beyond : width < used + rest.length) (some : rest ≠ []) :
    ∃ place places, breaks width .fold (lead.length + (run ++ blanks).length) used (wordsFrom fuel rest) =
      place :: places ∧ lead.length < place ∧ place < lead.length + text.length ∧
      ∀ later ∈ places, place < later := by
  have narrow := (opens.narrow (Narrow.append_iff.mp keyed.narrow).2).2
  have nonempty := opens.length_eq.2
  have wordLength : (run ++ blanks).length = run.length + blanks.length := length_append ..
  have begun : 0 < lead.length + (run ++ blanks).length := by omega
  rcases breaks_words positive enough narrow (opens.next.resolve_left some)
    (opens.rest_ends keyed.part_ends some) begun filled
    with ⟨fits, -⟩ | ⟨-, before, after, places, split, behind, space, broken, others⟩
  · omega
  · have inside := inside_text keyed (run ++ (blanks ++ before)) after
      (by rw [opens.split, split]; simp) behind
      (space_last opens.spaces (fun none => some (opens.apart none)) space)
    simp only [length_append] at inside
    exact ⟨_, places, broken, by omega, by omega, others⟩

/-- A line that is neither short enough nor can move its text as a whole is broken within the text. -/
theorem lineBreaks_of_broken (short : lead.length < width)
    (long : width < lead.length + (text ++ close).length)
    (stuck : width < lead.length + firstCells text close →
      width < (text ++ close).length ∧ (text.length ≤ width → ¬Solid text)) :
    ∃ place places, (lineBreaks width (lead ++ (text ++ close)) = place :: places ∨
        lineBreaks width (lead ++ (text ++ close)) = lead.length :: place :: places) ∧
      lead.length < place ∧ place < lead.length + text.length ∧ ∀ later ∈ places, place < later := by
  have positive := keyed.lead_pos
  have single := keyed.single
  have narrow := (Narrow.append_iff.mp keyed.narrow).2
  obtain ⟨fuel, enough, same⟩ := keyed.lineBreaks_eq short.le
  obtain ⟨run, blanks, rest, opens⟩ := exists_opens keyed.part_starts
  rw [firstCells, opens.first] at stuck
  obtain ⟨length, nonempty⟩ := opens.length_eq
  have partLength : (text ++ close).length = text.length + close.length := length_append ..
  have wordLength : (run ++ blanks).length = run.length + blanks.length := length_append ..
  have onlyWord : rest = [] → (text ++ close).length = run.length := fun last => by
    simp [length, last, opens.blanks_eq_nil keyed.part_ends last]
  have narrowWord := (opens.narrow narrow).1
  have size := opens.cells_eq narrow
  obtain _ | fuel := fuel
  · omega
  rw [opens.wordsFrom_eq] at same
  by_cases fits : lead.length + run.length ≤ width
  · rw [breaks_fits narrowWord (by omega)] at same
    obtain ⟨place, places, broken, inside⟩ := breaks_inside width keyed opens fuel
      (lead.length + (run ++ blanks).length) (by omega) (by omega) (by omega) (by omega)
      (fun last => by have := onlyWord last; omega)
    exact ⟨place, places, .inl (same.trans broken), inside⟩
  · obtain ⟨beyond, unsolid⟩ := stuck (by omega)
    by_cases wide : width < run.length
    · have inside : width < text.length := by
        by_contra fits
        refine unsolid (by omega) fun c mem => ?_
        have all : text ++ close = run := by
          rw [opens.split, append_right_eq_self, append_eq_nil_iff]
          exact ⟨length_eq_zero_iff.mp (by omega), length_eq_zero_iff.mp (by omega)⟩
        exact opens.solid c (all ▸ mem_append_left close mem)
      have room : 0 < width := by omega
      obtain ⟨places, broken, later⟩ := breaks_chopped lead.length (wordsFrom fuel rest)
        room narrowWord positive (by omega) (by omega)
      exact ⟨_, places, .inr (same.trans broken), by omega, by omega, later⟩
    · rw [breaks_unfit narrowWord positive positive (by omega) (by omega)] at same
      obtain ⟨place, places, broken, inside⟩ := breaks_inside width keyed opens fuel
        (run ++ blanks).length (by omega) (by omega) (by omega) (by omega)
        (fun last => by have := onlyWord last; omega)
      exact ⟨place, places, .inr (by rw [same, broken]), inside⟩

end Keyed

def printLine (width : Nat) (line : List CodePoint) : List CodePoint :=
  (cutAt 0 line (lineBreaks width line)).flatMap fun piece => shown width piece ++ [.char '\n']

/-- A front of a piece that goes beyond its lead is shown with the lead and a front of the rest. -/
theorem shown_front (lead text : List CodePoint) (width n : Nat) (narrow : Narrow (lead ++ text))
    (short : lead.length < width) (positive : 0 < n) (inside : n < text.length) :
    ∃ m, 0 < m ∧ m < text.length ∧ shown width (lead ++ text.take n) = lead ++ text.take m := by
  have narrowFront : Narrow (lead ++ text.take n) :=
    narrow.sublist ((take_sublist n text).append_left lead)
  obtain ⟨most, same, enough⟩ := shown_eq_take narrowFront width
  rw [length_append, length_take] at enough
  obtain ⟨m, rfl⟩ : ∃ m, most = lead.length + m := ⟨most - lead.length, by omega⟩
  refine ⟨min m n, by omega, by omega, ?_⟩
  rw [same, take_length_add_append, take_take]

theorem exists_shown {c : CodePoint} (narrow : pointCells c ≤ width) (positive : 0 < width)
    (cs : List CodePoint) : ∃ ds, shown width (c :: cs) = c :: ds := by
  have kept : ∃ ds, trimEnd width (c :: cs) = c :: ds := by
    obtain ⟨n, length⟩ : ∃ n, (c :: cs).length - min ((c :: cs).reverse.takeWhile isSpace).length
        ((c :: cs).length - width) = n + 1 := by
      refine ⟨_, (Nat.sub_add_cancel ?_).symm⟩
      rw [length_cons]
      omega
    exact ⟨cs.take n, by rw [trimEnd, length, take_succ_cons]⟩
  obtain ⟨ds, trimmed⟩ := kept
  rw [shown, trimmed, truncate]
  split
  · exact ⟨ds, rfl⟩
  · exact ⟨fillCells (width - pointCells c) ds, by simp [fillCells, narrow]⟩

/-- What is printed of a text, broken at later places, begins with its first character. -/
theorem exists_printed {c : CodePoint} {width start : Nat} {places : List Nat}
    (narrow : pointCells c ≤ width) (positive : 0 < width) (later : ∀ place ∈ places, start < place)
    (cs : List CodePoint) :
    ∃ ds, ((cutAt start (c :: cs) places).flatMap fun piece => shown width piece ++ [.char '\n']) =
      c :: ds := by
  match places with
  | [] =>
    obtain ⟨ds, same⟩ := exists_shown narrow positive cs
    exact ⟨_, by rw [cutAt, flatMap_cons, same, cons_append, cons_append]⟩
  | place :: places =>
    have less := later place mem_cons_self
    obtain ⟨n, left⟩ : ∃ n, place - start = n + 1 := ⟨place - start - 1, by omega⟩
    obtain ⟨ds, same⟩ := exists_shown narrow positive (cs.take n)
    exact ⟨_, by rw [cutAt, left, take_succ_cons, flatMap_cons, same, cons_append,
      cons_append]⟩

section Printing

variable {lead text close : List CodePoint} {width : Nat}

theorem printLine_of_le {line : List CodePoint} (narrow : Narrow line) (fits : line.length ≤ width) :
    printLine width line = line ++ [.char '\n'] := by
  simp [printLine, lineBreaks_of_le narrow fits, cutAt, shown_of_le narrow fits]

namespace Keyed

variable (keyed : Keyed lead text close)

include keyed

theorem printLine_of_moved (short : lead.length ≤ width)
    (unfit : width < lead.length + firstCells text close) (fits : (text ++ close).length ≤ width) :
    printLine width (lead ++ (text ++ close)) =
      lead ++ .char '\n' :: (text ++ (close ++ [.char '\n'])) := by
  obtain ⟨narrowLead, narrowPart⟩ := Narrow.append_iff.mp keyed.narrow
  simp [printLine, keyed.lineBreaks_of_moved short unfit fits, cutAt, shown_of_le narrowLead short,
    shown_of_le narrowPart fits]

theorem printLine_of_full (short : lead.length ≤ width)
    (long : width < (text ++ close).length) (fits : text.length ≤ width) (solid : Solid text) :
    printLine width (lead ++ (text ++ close)) =
      lead ++ .char '\n' :: (text ++ .char '\n' :: (close ++ [.char '\n'])) := by
  have closeFits : close.length ≤ width := keyed.single.trans (keyed.lead_pos.trans_le short)
  obtain ⟨narrowLead, narrowPart⟩ := Narrow.append_iff.mp keyed.narrow
  obtain ⟨narrowText, narrowClose⟩ := Narrow.append_iff.mp narrowPart
  simp [printLine, keyed.lineBreaks_of_full short long fits solid, cutAt, shown_of_le narrowLead short,
    shown_of_le narrowText fits, shown_of_le narrowClose closeFits]

/-- The first pieces of a line that is broken within its text. -/
theorem printLine_of_broken (short : lead.length < width)
    (long : width < lead.length + (text ++ close).length)
    (stuck : width < lead.length + firstCells text close →
      width < (text ++ close).length ∧ (text.length ≤ width → ¬Solid text)) :
    ∃ gap n c behind, (gap = [] ∨ gap = [.char '\n']) ∧ 0 < n ∧ n < text.length ∧ c ∈ text ∧
      printLine width (lead ++ (text ++ close)) =
        lead ++ (gap ++ (text.take n ++ .char '\n' :: c :: behind)) := by
  obtain ⟨narrowLead, narrowPart⟩ := Narrow.append_iff.mp keyed.narrow
  obtain ⟨narrowText, -⟩ := Narrow.append_iff.mp narrowPart
  obtain ⟨place, places, broken, after, before, later⟩ := keyed.lineBreaks_of_broken short long stuck
  obtain ⟨n, rfl⟩ := Nat.exists_eq_add_of_le after.le
  have inside : n < text.length := by omega
  have front : (text ++ close).take n = text.take n := take_append_of_le_length inside.le
  have behind : (text ++ close).drop n = text[n] :: (text.drop (n + 1) ++ close) := by
    rw [drop_append_of_le_length inside.le, drop_eq_getElem_cons inside, cons_append]
  have narrowBehind : pointCells text[n] ≤ width := by
    rw [narrowText _ (getElem_mem inside)]
    omega
  obtain ⟨more, printed⟩ := exists_printed narrowBehind (Nat.zero_lt_of_lt short) later
    (text.drop (n + 1) ++ close)
  rcases broken with once | twice
  · obtain ⟨m, some, less, begun⟩ := shown_front lead text width n
      (Narrow.append_iff.mpr ⟨narrowLead, narrowText⟩) short (by omega) inside
    refine ⟨[], m, text[n], more, .inl rfl, some, less, getElem_mem inside, ?_⟩
    rw [printLine, once, cutAt, Nat.sub_zero, take_length_add_append, drop_length_add_append,
      front, behind, flatMap_cons, printed, begun]
    simp
  · obtain ⟨m, some, less, begun⟩ := shown_front [] text width n narrowText (Nat.zero_lt_of_lt short)
      (by omega) inside
    refine ⟨[.char '\n'], m, text[n], more, .inr rfl, some, less, getElem_mem inside, ?_⟩
    rw [nil_append] at begun
    rw [printLine, twice, cutAt, Nat.sub_zero, take_left, drop_left, cutAt,
      Nat.add_sub_cancel_left, front, behind, flatMap_cons, flatMap_cons, printed, begun,
      shown_of_le narrowLead short.le]
    simp

end Keyed

/-- What is printed begins with the first character of a text, if that is no white space. -/
theorem exists_wrap {c : CodePoint} (narrow : pointCells c ≤ width) (positive : 0 < width)
    (solid : isSpace c = false) (cs : List CodePoint) :
    ∃ ds, ((wrap width .fold (c :: cs)).flatMap fun line => line ++ [.char '\n']) = c :: ds := by
  have noBreak : c ≠ .char '\n' := by
    rintro rfl
    cases solid
  have noTab : c ≠ .char '\t' := by
    rintro rfl
    cases solid
  obtain ⟨line, lines, split⟩ := Text.splitAt_cons_of_ne noBreak cs
  obtain ⟨tail, expanded⟩ : ∃ tail, (if (c :: line).contains (.char '\t') then expandTabs 0 (c :: line)
      else c :: line) = c :: tail := by
    split
    · rw [expandTabs]
      · exact ⟨_, rfl⟩
      · exact noTab
    · exact ⟨line, rfl⟩
  obtain ⟨ds, printed⟩ := exists_printed narrow
    positive (fun place mem => (bounds_of_mem_breaks mem).2) tail
  have first : ((cutAt 0 (c :: tail) (breaks width .fold 0 0 (words (c :: tail)))).map fun piece =>
      truncate width .fold (trimEnd width piece)).flatMap (fun line => line ++ [.char '\n']) = c :: ds := by
    rw [flatMap_map]
    exact printed
  exact ⟨_, by rw [wrap, split, flatMap_cons, expanded, flatMap_append, first, cons_append]⟩

/-- Without tabs, the lines of a text are printed one by one. -/
theorem wrap_printed {text : List CodePoint} {lines : List (List CodePoint)}
    (split : Text.splitAt (.char '\n') text = lines) (noTab : ∀ line ∈ lines, .char '\t' ∉ line) :
    ((wrap width .fold text).flatMap fun line => line ++ [.char '\n']) =
      lines.flatMap (printLine width) := by
  rw [wrap, split, flatMap_assoc]
  refine flatMap_congr fun line mem => ?_
  have untabbed : line.contains (.char '\t') = false := by simpa using noTab line mem
  simp only [untabbed, Bool.false_eq_true, if_false, flatMap_map]
  rfl

end Printing

end GrammarLint.Console
