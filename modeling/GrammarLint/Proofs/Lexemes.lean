import Mathlib.Data.List.Basic
import Mathlib.Data.List.Find
import GrammarLint.Proofs.Matching

open List

namespace GrammarLint.Lexical

open Vocabulary

theorem racers_eq (mode : Mode) : racers mode = (rules mode).map Racer.start := by
  cases mode <;> rfl

/-- The next piece is what the first of the rules takes that take the longest text. -/
theorem nextPiece_longest {mode : Mode} {u rest : List Char} {rule : LexicalRule} (some_ : u ≠ [])
    (first : (rules mode).find? (fun r => (Racer.after r u).isDone) = some rule)
    (longest : ∀ v w, v ≠ [] → v ++ w = rest → ∀ r ∈ rules mode, (Racer.after r (u ++ v)).isDone = false)
    (ends : ∀ r ∈ rules mode, (Racer.after r (u ++ rest)).endsHere = false) :
    nextPiece mode (u ++ rest) = .found rule.effect u rest := by
  rw [nextPiece, racers_eq]
  exact race_longest some_ first longest ends

variable {racer : Racer} {w body : List Char} {d : Char} {classes : List CharClass}

theorem Racer.isDone_of_dead (dead : racer.branches = []) : racer.isDone = false := by
  simp [Racer.isDone, dead]

theorem Racer.endsHere_of_dead (dead : racer.branches = []) : racer.endsHere = false := by
  simp [Racer.endsHere, dead]

variable {mode : Mode} {u rest text v : List Char} {rule r : LexicalRule} {c : Char}

/-- Where every rule gives up at the next character, the text before it is the longest. -/
theorem nextPiece_stops (some_ : u ≠ [])
    (first : (rules mode).find? (fun r => (Racer.after r u).isDone) = some rule)
    (ends : ∀ r ∈ rules mode, (Racer.after r u).endsHere = false)
    (stops : ∀ c, rest.head? = some c → ∀ r ∈ rules mode, (Racer.after r (u ++ [c])).branches = []) :
    nextPiece mode (u ++ rest) = .found rule.effect u rest := by
  cases rest with
  | nil =>
    refine nextPiece_longest some_ first (fun v w some_ split => ?_) (by simpa using ends)
    exact absurd (append_eq_nil_iff.mp split).1 some_
  | cons c rest =>
    have dead : ∀ v, ∀ r ∈ rules mode, (Racer.after r (u ++ c :: v)).branches = [] := by
      intro v r mem
      have gone := Racer.after_dead (stops c rfl r mem) v
      rwa [append_assoc] at gone
    refine nextPiece_longest some_ first (fun v w some_ split r mem => ?_) fun r mem =>
      Racer.endsHere_of_dead (dead rest r mem)
    cases v with
    | nil => exact absurd rfl some_
    | cons d v =>
      cases split
      exact Racer.isDone_of_dead (dead v r mem)

/-- The class of characters that a branch waits for. -/
def Branch.awaits (b : Branch) : Option CharClass :=
  match b.thread.wait with
  | .char s _ => some s
  | .done | .atEnd _ => none

/-- A rule gives up at a character that it does not wait for. -/
theorem Racer.stops (unread : ∀ b ∈ (Racer.after rule u).branches, ∀ s ∈ b.awaits, s.contains c = false) :
    (Racer.after rule (u ++ [c])).branches = [] := by
  have nothing : (Racer.after rule u).branches.filterMap (Branch.read c) = [] := by
    rw [filterMap_eq_nil_iff]
    intro b mem
    have unread := unread b mem
    unfold Branch.awaits at unread
    unfold Branch.read
    cases waits : b.thread.wait with
    | done | atEnd _ => rfl
    | char s todo => simp [unread s (by simp [waits])]
  rw [Racer.after_concat, Racer.step, Shape.step, nothing]
  rfl

theorem CharClass.contains_chars {negated : Bool} {cs : List Char} {d : Char} :
    (CharClass.mk negated (cs.map fun c => (c, c))).contains d = (cs.contains d != negated) := by
  have order : ∀ c, (c ≤ d ∧ d ≤ c) ↔ d = c := by
    intro c
    constructor
    · rintro ⟨low, high⟩
      exact Char.le_antisymm high low
    · rintro rfl
      exact ⟨Char.le_refl d, Char.le_refl d⟩
  have any : (cs.map fun c => (c, c)).any (fun range => decide (range.1 ≤ d) && decide (d ≤ range.2)) =
      cs.contains d := by
    rw [Bool.eq_iff_iff]
    simp [order]
  rw [CharClass.contains, any]

namespace Pattern

variable {text : List Char} {s : CharClass} {p : Pattern} {final : Bool}

theorem takes_char : (char s).Takes final text ↔ ∃ c, text = [c] ∧ s.contains c = true := by
  constructor
  · rintro ⟨inside⟩
    exact ⟨_, rfl, inside⟩
  · rintro ⟨c, rfl, inside⟩
    exact .char inside

theorem takes_one {c : Char} : (one c).Takes final text ↔ text = [c] := by
  have single : ∀ d, (CharClass.mk false [(c, c)]).contains d = true ↔ d = c := by
    intro d
    rw [← map_singleton (f := fun c : Char => (c, c)), CharClass.contains_chars]
    simp
  simp [one, takes_char, single, exists_eq_right]

theorem takes_literal {word : String} : (literal word).Takes final text ↔ text = word.toList := by
  unfold literal
  generalize word.toList = cs
  induction cs generalizing text with
  | nil =>
    constructor
    · rintro ⟨⟩
      rfl
    · rintro rfl
      exact .empty
  | cons c cs ih =>
    cases cs with
    | nil => exact takes_one
    | cons d cs =>
      simp only [map_cons, sequence, takes_seq, takes_one] at ih ⊢
      constructor
      · rintro ⟨_, v, rfl, rfl, later⟩
        rw [ih.mp later]
        rfl
      · rintro rfl
        exact ⟨[c], d :: cs, rfl, rfl, ih.mpr rfl⟩

/-- What holds of all characters in the rounds of a loop holds of all in the loop. -/
theorem Takes.many_forall {greedy : Bool} {holds : Char → Prop} (many : Takes final (.many greedy p) text)
    (each : ∀ final u, p.Takes final u → ∀ c ∈ u, holds c) : ∀ c ∈ text, holds c := by
  generalize loop : Pattern.many greedy p = q at many
  induction many with
  | char _ | atEnd | empty | seq _ _ | left _ | right _ => cases loop
  | stop => simp
  | @round _ _ _ u v first _ _ ih =>
    cases loop
    exact forall_mem_append.mpr ⟨each _ u first, ih rfl⟩

theorem takes_star_char : (star (.char s)).Takes final text ↔ ∀ c ∈ text, s.contains c = true := by
  constructor
  · intro many
    refine many.many_forall fun _ u one c mem => ?_
    obtain ⟨d, rfl, inside⟩ := takes_char.mp one
    cases mem_singleton.mp mem
    exact inside
  · intro all
    induction text with
    | nil => exact .stop
    | cons c text ih =>
      exact .round (.char (all c mem_cons_self))
        (ih fun d mem => all d (mem_cons_of_mem _ mem))

end Pattern

/-- What all characters of a list share is checked on the list, not on all characters there are. -/
instance decidableForallMem {l : List Char} {p : Char → Prop} [DecidablePred p] :
    Decidable (∀ c ∈ l, p c) :=
  decidableBAll p l

def blankChars : List Char := [' ', '\t', '\r', '\n', '\x0c']

def suffixChars : List Char := ['?', '*', '+']

def letters : List Char :=
  (range 26).flatMap fun i => [Char.ofNat (65 + i), Char.ofNat (97 + i)]

def nameChars : List Char := letters ++ ['0', '1', '2', '3', '4', '5', '6', '7', '8', '9', '_']

def IsWord (text : List Char) : Prop :=
  ∃ c rest, text = c :: rest ∧ c ∈ letters ∧ ∀ d ∈ rest, d ∈ nameChars

/-- What may stand directly behind a word or a mark: nothing, a suffix, or blanks. A brace behind the
blanks could open a block. -/
def Apart (rest : List Char) : Prop :=
  rest = [] ∨ ∃ c later, rest = c :: later ∧
    (c ∈ suffixChars ∨ c ∈ blankChars ∧ (later.dropWhile (blankChars.contains ·)).head? ≠ some '\x7b')

def nameRule : LexicalRule :=
  ⟨.plain (.seq (.oneOf nameStartRanges) (.star (.oneOf nameRanges))), .name⟩

def nameStart : CharClass := ⟨false, nameStartRanges⟩

def nameClass : CharClass := ⟨false, nameRanges⟩

def isNameText : List Char → Bool
  | [] => false
  | c :: rest => nameStart.contains c && rest.all nameClass.contains

def keywords : List (String × Kind) := [
  ("import", .importKeyword), ("fragment", .fragmentKeyword), ("lexer", .lexerKeyword),
  ("parser", .parserKeyword), ("grammar", .grammarKeyword), ("protected", .protectedKeyword),
  ("public", .publicKeyword), ("private", .privateKeyword), ("returns", .returnsKeyword),
  ("locals", .localsKeyword), ("throws", .throwsKeyword), ("catch", .catchKeyword),
  ("finally", .finallyKeyword), ("mode", .modeKeyword)]

def blockWords : List (String × Kind) :=
  [("options", .optionsOpen), ("tokens", .tokensOpen), ("channels", .channelsOpen)]

def blockRule (entry : String × Kind) : LexicalRule := ⟨.plain (blockOpener entry.1), .token entry.2⟩

def wordRules : List LexicalRule :=
  blockWords.map blockRule ++ keywords.map (fun entry => word entry.1 entry.2) ++ [nameRule]

def wordRule (text : List Char) : LexicalRule :=
  ((keywords.find? (·.1.toList == text)).map fun entry => word entry.1 entry.2).getD nameRule

def wordKind (text : List Char) : Kind :=
  ((keywords.find? (·.1.toList == text)).map (·.2)).getD (Scanner.nameKind text)

theorem wordKind_of_free (free : ∀ entry ∈ keywords, text ≠ entry.1.toList) :
    wordKind text = Scanner.nameKind text := by
  rw [wordKind, find?_eq_none.mpr fun entry mem same => free entry mem (beq_iff_eq.mp same).symm]
  rfl

theorem apply_word (text : List Char) (s : Scanner) :
    s.apply (wordRule text).effect text = (some (wordKind text, .main), s) := by
  cases found : keywords.find? (·.1.toList == text) <;> simp [wordRule, wordKind, found, nameRule, word, Scanner.apply]

def opensBlock (rest : List Char) : Bool := (rest.dropWhile (blankChars.contains ·)).head? == some '\x7b'

/-- No range of one class meets one of the other. -/
def CharClass.isApart (s t : CharClass) : Bool := !s.negated && !t.negated &&
  s.ranges.all fun a => t.ranges.all fun b => !(decide (b.1 ≤ a.2) && decide (a.1 ≤ b.2))

theorem CharClass.isApart_iff {s t : CharClass} (apart : s.isApart t = true) (inside : t.contains c = true) :
    s.contains c = false := by
  simp only [isApart, Bool.and_eq_true, Bool.not_eq_true', all_eq_true, Bool.and_eq_false_iff,
    decide_eq_false_iff_not] at apart
  obtain ⟨⟨plain, plain'⟩, apart⟩ := apart
  simp only [contains, plain, plain', Bool.bne_false, any_eq_true, any_eq_false, Bool.and_eq_true,
    decide_eq_true_eq] at inside ⊢
  obtain ⟨b, inOthers, low, high⟩ := inside
  rintro a inRanges ⟨above, below⟩
  rcases apart a inRanges b inOthers with before | behind
  · exact before (Char.le_trans low below)
  · exact behind (Char.le_trans above high)

/-- Outside of these rules no rule waits for what begins a name. -/
theorem names_unread : ∀ r ∈ defaultRules, r ∉ wordRules → ∀ b ∈ (Racer.after r []).branches,
    ∀ s ∈ b.awaits, s.isApart nameStart = true := by
  decide +kernel

theorem name_dead (named : isNameText text = true) (mem : r ∈ defaultRules) (other : r ∉ wordRules)
    (rest : List Char) : (Racer.after r (text ++ rest)).branches = [] := by
  obtain _ | ⟨c, later⟩ := text
  · cases named
  · have first := Racer.stops fun b inBranches s waits =>
      CharClass.isApart_iff (names_unread r mem other b inBranches s waits) (Bool.and_eq_true_iff.mp named).1
    exact Racer.after_dead first (later ++ rest)

theorem takes_blanks : blanks.Takes final text ↔ text ≠ [] ∧ ∀ c ∈ text, c ∈ blankChars := by
  have blank : ∀ c, (CharClass.mk false [(' ', ' '), ('\t', '\t'), ('\r', '\r'), ('\n', '\n'),
      ('\x0c', '\x0c')]).contains c = true ↔ c ∈ blankChars := by
    intro c
    have chars := @CharClass.contains_chars false blankChars c
    rw [Bool.bne_false] at chars
    rw [← contains_iff_mem, ← chars]
    rfl
  simp only [blanks, Pattern.plus, Pattern.oneOf, Pattern.takes_seq, Pattern.takes_char,
    Pattern.takes_star_char, blank]
  constructor
  · rintro ⟨_, v, rfl, ⟨c, rfl, first⟩, later⟩
    simpa using ⟨first, later⟩
  · rintro ⟨some_, all⟩
    cases text with
    | nil => exact absurd rfl some_
    | cons c text =>
      exact ⟨[c], text, rfl, ⟨c, rfl, all c mem_cons_self⟩,
        fun d mem => all d (mem_cons_of_mem _ mem)⟩

theorem takes_blockOpener {w : String} : (blockOpener w).Takes final text ↔
    ∃ gap, text = w.toList ++ (gap ++ ['\x7b']) ∧ ∀ c ∈ gap, c ∈ blankChars := by
  simp only [blockOpener, Pattern.sequence, Pattern.takes_seq, Pattern.takes_literal, Pattern.takes_one]
  constructor
  · rintro ⟨_, _, rfl, rfl, gap, _, rfl, loop, rfl⟩
    exact ⟨gap, rfl, loop.many_forall fun _ u one => (takes_blanks.mp one).2⟩
  · rintro ⟨gap, rfl, blank⟩
    refine ⟨_, _, rfl, rfl, gap, _, rfl, ?_, rfl⟩
    by_cases empty : gap = []
    · subst empty
      exact .stop
    · exact append_nil gap ▸ .round (takes_blanks.mpr ⟨empty, blank⟩) .stop

theorem takes_name : (Pattern.seq (.oneOf nameStartRanges) (.star (.oneOf nameRanges))).Takes final text ↔
    isNameText text = true := by
  simp only [Pattern.oneOf, Pattern.takes_seq, Pattern.takes_char, Pattern.takes_star_char]
  constructor
  · rintro ⟨_, v, rfl, ⟨c, rfl, first⟩, later⟩
    exact Bool.and_eq_true_iff.mpr ⟨first, all_eq_true.mpr later⟩
  · intro named
    obtain _ | ⟨c, rest⟩ := text
    · cases named
    · obtain ⟨first, later⟩ := Bool.and_eq_true_iff.mp named
      exact ⟨[c], rest, rfl, ⟨c, rfl, first⟩, all_eq_true.mp later⟩

theorem nameText_all (named : isNameText text = true) : ∀ c ∈ text, nameClass.contains c = true := by
  obtain _ | ⟨c, rest⟩ := text
  · simp
  · obtain ⟨first, later⟩ := Bool.and_eq_true_iff.mp named
    refine forall_mem_cons.mpr ⟨?_, all_eq_true.mp later⟩
    simp only [nameStart, CharClass.contains, Bool.bne_false] at first
    simp [nameClass, nameRanges, CharClass.contains, any_append, first]

/-- Words are names, and what stands apart from a word is no part of a name. -/
theorem name_classes : (∀ c ∈ letters, nameStart.contains c = true) ∧
    (∀ c ∈ nameChars, nameClass.contains c = true) ∧
    ∀ c ∈ '\x7b' :: (suffixChars ++ blankChars), nameClass.contains c = false := by
  decide +kernel

/-- The shape is a pattern that reads on as far as it can. -/
def Shape.isGreedy (ends : Bool) : Shape → Bool
  | .plain p => p.isGreedy ends
  | .block _ _ _ => false

theorem Shape.exists_greedy {ends : Bool} {shape : Shape} (greedy : shape.isGreedy ends = true) :
    ∃ p, shape = .plain p ∧ p.isGreedy ends = true := by
  cases shape with
  | plain p => exact ⟨p, rfl, greedy⟩
  | block _ _ _ => cases greedy

theorem wordRules_greedy (mem : r ∈ wordRules) : ∃ p, r.shape = .plain p ∧ p.isGreedy false = true := by
  have greedy : ∀ r ∈ wordRules, r.shape.isGreedy false = true := by decide +kernel
  exact Shape.exists_greedy (greedy r mem)

/-- What the rules for words take: names, and words that open a block, up to the brace. -/
theorem word_done (mem : r ∈ wordRules) (done : (Racer.after r text).isDone = true) : isNameText text = true ∨
    ∃ entry ∈ blockWords, r = blockRule entry ∧
      ∃ gap, text = entry.1.toList ++ (gap ++ ['\x7b']) ∧ ∀ c ∈ gap, c ∈ blankChars := by
  have named : ∀ entry ∈ keywords, isNameText entry.1.toList = true := by decide +kernel
  obtain ⟨p, shape, greedy⟩ := wordRules_greedy mem
  rw [Racer.after_isDone shape greedy] at done
  simp only [wordRules, mem_append, mem_map, mem_singleton] at mem
  rcases mem with (⟨entry, isOpener, rfl⟩ | ⟨entry, isKeyword, rfl⟩) | rfl <;> cases shape
  · exact .inr ⟨entry, isOpener, rfl, takes_blockOpener.mp done⟩
  · exact .inl (Pattern.takes_literal.mp done ▸ named entry isKeyword)
  · exact .inl (takes_name.mp done)

theorem brace_notMem (named : isNameText text = true) : '\x7b' ∉ text := fun mem => by
  simpa [name_classes.2.2 '\x7b' mem_cons_self] using nameText_all named _ mem

theorem find?_word (named : isNameText text = true) :
    defaultRules.find? (fun r => (Racer.after r text).isDone) = some (wordRule text) := by
  have only : defaultRules.filter (· ∈ wordRules) = wordRules := by decide +kernel
  have literals : ∀ entry ∈ keywords, (Pattern.literal entry.1).isGreedy false = true := by decide +kernel
  have blocks : ∀ entry ∈ blockWords, (blockOpener entry.1).isGreedy false = true := by decide +kernel
  have others : defaultRules.find? (fun r => (Racer.after r text).isDone) =
      wordRules.find? fun r => (Racer.after r text).isDone := by
    conv_rhs => rw [← only]
    rw [find?_filter]
    refine find?_congr fun r mem => ?_
    by_cases inWords : r ∈ wordRules
    · simp [inWords]
    · have dead := name_dead named mem inWords []
      rw [append_nil] at dead
      simp [inWords, Racer.isDone_of_dead dead]
  have blocks : (blockWords.map blockRule).find? (fun r => (Racer.after r text).isDone) = none := by
    refine find?_eq_none.mpr fun r mem done => ?_
    obtain ⟨entry, isOpener, rfl⟩ := mem_map.mp mem
    obtain ⟨gap, rfl, -⟩ := takes_blockOpener.mp ((Racer.after_isDone rfl (blocks entry isOpener)).mp done)
    exact brace_notMem named (by simp)
  have words : (keywords.map fun entry => word entry.1 entry.2).find? (fun r => (Racer.after r text).isDone) =
      (keywords.find? (·.1.toList == text)).map fun entry => word entry.1 entry.2 := by
    rw [find?_map]
    refine congrArg _ (find?_congr fun entry mem => ?_)
    rw [Function.comp_apply, Bool.eq_iff_iff, Racer.after_isDone rfl (literals entry mem), Pattern.takes_literal,
      beq_iff_eq, eq_comm]
  have last : (Racer.after nameRule text).isDone = true := 
    (@Racer.after_isDone false nameRule _ rfl rfl _).mpr (takes_name.mpr named)
  rw [others, wordRules, find?_append, find?_append, blocks, words, find?_singleton, last]
  cases found : keywords.find? (·.1.toList == text) <;> simp [wordRule, found]

theorem takeWhile_append_stop {α : Type} {p : α → Bool} {u v : List α} (all : ∀ d ∈ u, p d = true)
    (stop : ∀ c ∈ v.head?, p c = false) : (u ++ v).takeWhile p = u := by
  rw [takeWhile_append_of_pos all]
  cases v with
  | nil => simp
  | cons c v => rw [takeWhile_cons_of_neg (by simpa using stop), append_nil]

theorem opensBlock_iff : opensBlock rest = true ↔
    ∃ gap later, rest = gap ++ '\x7b' :: later ∧ ∀ c ∈ gap, c ∈ blankChars := by
  rw [opensBlock, beq_iff_eq]
  constructor
  · intro brace
    obtain ⟨later, behind⟩ := head?_eq_some_iff.mp brace
    refine ⟨rest.takeWhile (blankChars.contains ·), later, ?_, fun c mem => ?_⟩
    · rw [← behind, takeWhile_append_dropWhile]
    · simpa using all_eq_true.mp all_takeWhile c mem
  · rintro ⟨gap, later, rfl, blank⟩
    rw [dropWhile_append_of_pos fun c mem => contains_iff_mem.mpr (blank c mem)]
    rfl

theorem gap_stops {gap later : List Char} (blank : ∀ c ∈ gap, c ∈ blankChars) :
    ∀ c ∈ (gap ++ '\x7b' :: later).head?, nameClass.contains c = false := by
  intro c isHead
  refine name_classes.2.2 c ?_
  obtain _ | ⟨d, gap⟩ := gap
  · cases isHead
    exact mem_cons_self
  · cases isHead
    simp [blank c mem_cons_self]

/-- A name in front of blanks and a brace ends where they begin. -/
theorem opener_eq {entry : String × Kind} {gap : List Char} (isOpener : entry ∈ blockWords)
    (blank : ∀ c ∈ gap, c ∈ blankChars) (named : isNameText text = true)
    (stop : ∀ c ∈ rest.head?, nameClass.contains c = false)
    (same : text ++ rest = entry.1.toList ++ (gap ++ '\x7b' :: w)) :
    text = entry.1.toList ∧ rest = gap ++ '\x7b' :: w := by
  have opener : ∀ entry ∈ blockWords, isNameText entry.1.toList = true := by decide +kernel
  have words := congrArg (takeWhile nameClass.contains) same
  rw [takeWhile_append_stop (nameText_all named) stop,
    takeWhile_append_stop (nameText_all (opener entry isOpener)) (gap_stops blank)] at words
  exact ⟨words, append_cancel_left (words ▸ same)⟩

variable (rest text rule) in
/-- Where a name is in front only the rules for words compete. -/
theorem nextPiece_words (more : List Char) (named : isNameText text = true)
    (first : defaultRules.find? (fun r => (Racer.after r (text ++ more)).isDone) = some rule)
    (longest : ∀ v w, v ≠ [] → v ++ w = rest → ∀ r ∈ wordRules, ¬(Racer.after r (text ++ more ++ v)).isDone = true) :
    nextPiece .default (text ++ more ++ rest) = .found rule.effect (text ++ more) rest := by
  have nonempty : text ≠ [] := by
    rintro rfl
    cases named
  refine nextPiece_longest (by simp [nonempty]) first (fun v w some_ split r mem => ?_) fun r mem => ?_
  · by_cases inWords : r ∈ wordRules
    · exact Bool.eq_false_iff.mpr (longest v w some_ split r inWords)
    · rw [append_assoc]
      exact Racer.isDone_of_dead (name_dead named mem inWords _)
  · by_cases inWords : r ∈ wordRules
    · obtain ⟨p, shape, greedy⟩ := wordRules_greedy inWords
      exact Racer.after_endsHere shape greedy _
    · rw [append_assoc]
      exact Racer.endsHere_of_dead (name_dead named mem inWords _)

/-- A name is read as a whole, if it does not open a block. -/
theorem nextPiece_name (named : isNameText text = true) (stop : ∀ c ∈ rest.head?, nameClass.contains c = false)
    (closed : text ∈ blockWords.map (·.1.toList) → opensBlock rest = false) :
    nextPiece .default (text ++ rest) = .found (wordRule text).effect text rest := by
  have read := nextPiece_words rest text (wordRule text) [] named
  simp only [append_nil] at read
  refine read (find?_word named) fun v w some_ split r mem done => ?_
  have stop' : ∀ c ∈ v.head?, nameClass.contains c = false := by
    obtain ⟨c, v, rfl⟩ := exists_cons_of_ne_nil some_
    simpa [← split] using stop
  rcases word_done mem done with longer | ⟨entry, isOpener, -, gap, same, blank⟩
  · obtain ⟨c, v, rfl⟩ := exists_cons_of_ne_nil some_
    simp [nameText_all longer c (by simp)] at stop'
  · obtain ⟨rfl, rfl⟩ := opener_eq isOpener blank named stop' same
    have opens := closed (mem_map_of_mem isOpener)
    rw [← split] at opens
    simp [opensBlock_iff.mpr ⟨gap, w, rfl, blank⟩] at opens

theorem Apart.separates (apart : Apart rest) (next : rest.head? = some c) :
    c ∈ suffixChars ++ blankChars := by
  rcases apart with rfl | ⟨_, _, rfl, suffix | ⟨blank, -⟩⟩
  · simp at next
  · cases next
    exact mem_append_left _ suffix
  · cases next
    exact mem_append_right _ blank

theorem Apart.closed (apart : Apart rest) : opensBlock rest = false := by
  have solid : ∀ c ∈ suffixChars, c ≠ '\x7b' ∧ c ∉ blankChars := by decide
  rcases apart with rfl | ⟨c, _, rfl, suffix | ⟨blank, noBrace⟩⟩
  · rfl
  · simp [opensBlock, solid c suffix]
  · simpa [opensBlock, blank] using noBrace

/-- A word that stands apart is read as a whole. -/
theorem nextPiece_word (isWord : IsWord text) (apart : Apart rest) :
    nextPiece .default (text ++ rest) = .found (wordRule text).effect text rest := by
  obtain ⟨c, later, rfl, letter, others⟩ := isWord
  refine nextPiece_name (Bool.and_eq_true_iff.mpr ⟨name_classes.1 c letter, all_eq_true.mpr fun d mem => ?_⟩)
    (fun d next => ?_) fun _ => apart.closed
  · exact name_classes.2.1 d (others d mem)
  · exact name_classes.2.2 d (mem_cons_of_mem _ (apart.separates next))

theorem Branch.read_congr {b : Branch}
    (agree : ∀ s, b.awaits = some s → s.contains c = s.contains d) : b.read c = b.read d := by
  unfold Branch.read
  unfold Branch.awaits at agree
  cases waits : b.thread.wait with
  | done | atEnd _ => rfl
  | char s todo => simp [agree s (by simp [waits])]

/-- No rule can tell the two texts apart by what it has still to read. -/
def Alike (mode : Mode) (u v : List Char) : Prop :=
  ∀ r ∈ rules mode, (Racer.after r u).branches = (Racer.after r v).branches

theorem Alike.trans (first : Alike mode u v) (second : Alike mode v w) : Alike mode u w :=
  fun r mem => (first r mem).trans (second r mem)

/-- Behind the text the rules wait for characters of these classes only. -/
def awaitsOnly (mode : Mode) (text : List Char) (classes : List CharClass) : Bool :=
  (rules mode).all fun r => (Racer.after r text).branches.all fun b =>
    b.awaits.all (classes.contains ·)

theorem Alike.concat (alike : Alike mode u v) (awaits : awaitsOnly mode v classes = true)
    (agree : ∀ s ∈ classes, s.contains c = s.contains d) : Alike mode (u ++ [c]) (v ++ [d]) := by
  intro r mem
  have same : (Racer.after r u).branches.filterMap (Branch.read c) =
      (Racer.after r v).branches.filterMap (Branch.read d) := by
    rw [alike r mem]
    refine filterMap_congr fun b inBranches => Branch.read_congr fun s waits => ?_
    have known := all_eq_true.mp (all_eq_true.mp awaits r mem) b inBranches
    rw [waits] at known
    exact agree s (contains_iff_mem.mp known)
  rw [Racer.after_concat, Racer.after_concat, Racer.step, Racer.step, Shape.step, Shape.step, same,
    Racer.after_rule, Racer.after_rule]

/-- A character that changes nothing, and all that no rule can tell from it, change nothing. -/
theorem Alike.loop {mode : Mode} {u v text : List Char} {classes : List CharClass} {d : Char}
    (alike : Alike mode u v) (stable : Alike mode (v ++ [d]) v)
    (awaits : awaitsOnly mode v classes = true)
    (agree : ∀ c ∈ text, ∀ s ∈ classes, s.contains c = s.contains d) : Alike mode (u ++ text) v := by
  induction text using reverseRecOn with
  | nil => rwa [append_nil]
  | append_singleton text c ih =>
    have before := ih fun c mem => agree c (mem_append_left _ mem)
    intro r mem
    rw [← append_assoc, before.concat awaits (agree c (by simp)) r mem]
    exact stable r mem

theorem Alike.awaitsOnly (alike : Alike mode u v) (awaits : awaitsOnly mode v classes = true) :
    awaitsOnly mode u classes = true := by
  refine all_eq_true.mpr fun r mem => ?_
  rw [alike r mem]
  exact all_eq_true.mp awaits r mem

/-- What no rule can tell from another text is taken as that is, up to what it cannot go on with. -/
theorem nextPiece_alike (some_ : u ≠ []) (alike : Alike mode u v)
    (first : (rules mode).find? (fun r => (Racer.after r v).isDone) = some rule)
    (ends : ∀ r ∈ rules mode, (Racer.after r v).endsHere = false) (awaits : awaitsOnly mode v classes = true)
    (stops : ∀ c, rest.head? = some c → ∀ k ∈ classes, k.contains c = false) :
    nextPiece mode (u ++ rest) = .found rule.effect u rest := by
  refine nextPiece_stops some_ ?_ (fun r inRules => ?_) fun c head r inRules => ?_
  · rw [← first]
    refine find?_congr fun r inRules => ?_
    simp [Racer.isDone, alike r inRules]
  · rw [← ends r inRules]
    simp [Racer.endsHere, alike r inRules]
  · refine Racer.stops fun b inBranches k waits => ?_
    have known := all_eq_true.mp (all_eq_true.mp (alike.awaitsOnly awaits) r inRules) b inBranches
    rw [waits] at known
    exact stops c head k (contains_iff_mem.mp known)

def CharClass.ofChars (negated : Bool) (cs : List Char) : CharClass := ⟨negated, cs.map fun c => (c, c)⟩

/-- Characters outside of all groups are told apart by none of the classes made of them. -/
theorem contains_outside {groups : List (Bool × List Char)} (stops : List Char)
    (among : ∀ group ∈ groups, group.2 ⊆ stops) {c d : Char} (outside : c ∉ stops) (same : d ∉ stops) :
    ∀ s ∈ groups.map fun group => CharClass.ofChars group.1 group.2, s.contains c = s.contains d := by
  intro s known
  obtain ⟨group, mem, rfl⟩ := mem_map.mp known
  have first : c ∉ group.2 := fun inside => outside (among group mem inside)
  have second : d ∉ group.2 := fun inside => same (among group mem inside)
  simp [CharClass.ofChars, CharClass.contains_chars, first, second]

def marks : List (String × Kind) := [
  (":", .colon), (";", .semicolon), ("|", .bar), ("#", .pound), ("?", .question), ("*", .star),
  ("+", .plus)]

def literalStops : List Char := ['\'', '\r', '\n', '\\']

def setStops : List Char := [']', '\\']

/-- A text with the rule that takes it and the classes of characters that it could go on with. -/
structure Sample where
  mode : Mode
  text : List Char
  rule : LexicalRule
  classes : List CharClass

def samples : List Sample :=
  marks.map (fun entry => ⟨.default, entry.1.toList, word entry.1 entry.2,
    [.ofChars false [':'], .ofChars false ['=']]⟩) ++ [
  ⟨.default, [' '], ⟨.plain blanks, .aside .whitespace .blank⟩, [.ofChars false blankChars]⟩,
  ⟨.default, ['\'', '\''], ⟨.plain closedLiteral, .token .stringLiteral⟩, []⟩,
  ⟨.default, ['['], ⟨.plain (.one '['), .openBracket⟩, []⟩,
  ⟨.charSet, ['a'], ⟨.plain (.plus (.alt (.noneOf [']', '\\']) (.seq (.one '\\') .any))), .more⟩,
    [.ofChars true setStops, .ofChars false ['\\']]⟩,
  ⟨.charSet, [']'], ⟨.plain (.one ']'), .close .lexerCharSet⟩, []⟩]

theorem samples_hold : ∀ s ∈ samples,
    (rules s.mode).find? (fun r => (Racer.after r s.text).isDone) = some s.rule ∧
    (∀ r ∈ rules s.mode, (Racer.after r s.text).endsHere = false) ∧
    awaitsOnly s.mode s.text s.classes = true := by
  decide +kernel

theorem nextPiece_sample {s : Sample} (mem : s ∈ samples) (some_ : u ≠ [])
    (alike : Alike s.mode u s.text)
    (stops : ∀ c, rest.head? = some c → ∀ k ∈ s.classes, k.contains c = false) :
    nextPiece s.mode (u ++ rest) = .found s.rule.effect u rest := by
  obtain ⟨first, ends, awaits⟩ := samples_hold s mem
  exact nextPiece_alike some_ alike first ends awaits stops

/-- Two texts that no rule can tell apart, with the groups of characters that matter behind them,
each for the class of its characters or of all others. -/
structure Twins where
  mode : Mode
  text : List Char
  same : List Char
  groups : List (Bool × List Char)

def twins : List Twins :=
  blankChars.map (fun c => ⟨.default, [c], [' '], [(false, blankChars)]⟩) ++ [
  ⟨.default, [' ', ' '], [' '], [(false, blankChars)]⟩,
  ⟨.default, ['\'', 'a'], ['\''], [(true, literalStops), (false, ['\\']), (false, ['\''])]⟩,
  ⟨.charSet, [], [], [(true, setStops), (false, ['\\']), (false, [']'])]⟩,
  ⟨.charSet, ['a', 'a'], ['a'], [(true, setStops), (false, ['\\'])]⟩]

theorem twins_alike : ∀ t ∈ twins, Alike t.mode t.text t.same ∧
    awaitsOnly t.mode t.same (t.groups.map fun group => .ofChars group.1 group.2) = true := by
  unfold Alike
  decide +kernel

theorem nextPiece_mark {entry : String × Kind} (mem : entry ∈ marks) (apart : Apart rest) :
    nextPiece .default (entry.1.toList ++ rest) = .found (.token entry.2) entry.1.toList rest := by
  have some_ : ∀ entry ∈ marks, entry.1.toList ≠ [] := by decide
  have unread : ∀ c ∈ suffixChars ++ blankChars, ∀ k ∈ [CharClass.ofChars false [':'],
      .ofChars false ['=']], k.contains c = false := by
    decide
  exact nextPiece_sample (mem_append_left _ (mem_map_of_mem mem)) (some_ entry mem)
    (fun _ _ => rfl) fun c head => unread c (apart.separates head)

/-- Blanks are read up to what is none. -/
theorem nextPiece_blanks {gap : List Char} (some_ : gap ≠ []) (blank : ∀ c ∈ gap, c ∈ blankChars)
    (next : ∀ c, rest.head? = some c → c ∉ blankChars) :
    nextPiece .default (gap ++ rest) = .found (.aside .whitespace .blank) gap rest := by
  obtain ⟨first, later, rfl⟩ := exists_cons_of_ne_nil some_
  obtain ⟨start, -⟩ := twins_alike ⟨.default, [first], [' '], [(false, blankChars)]⟩
    (mem_append_left _ (mem_map.mpr ⟨first, blank first mem_cons_self, rfl⟩))
  obtain ⟨stable, awaits⟩ := twins_alike ⟨.default, [' ', ' '], [' '], [(false, blankChars)]⟩
    (by simp [twins])
  have alike : Alike .default (first :: later) [' '] := by
    refine start.loop stable awaits fun c mem k class_ => ?_
    have blank := blank c (mem_cons_of_mem _ mem)
    simp only [map_cons, map_nil, mem_singleton] at class_
    rw [class_, CharClass.ofChars, CharClass.contains_chars, contains_iff_mem.mpr blank]
    rfl
  refine nextPiece_sample (s := ⟨.default, [' '], ⟨.plain blanks, .aside .whitespace .blank⟩,
    [.ofChars false blankChars]⟩) (by simp [samples]) some_ alike fun c head k class_ => ?_
  rw [mem_singleton.mp class_, CharClass.ofChars, CharClass.contains_chars]
  simpa using next c head

/-- A literal ends at the next quote, whatever follows it. -/
theorem nextPiece_literal (plain : ∀ c ∈ body, c ∉ literalStops) (rest : List Char) :
    nextPiece .default ('\'' :: body ++ ['\''] ++ rest) =
      .found (.token .stringLiteral) ('\'' :: body ++ ['\'']) rest := by
  obtain ⟨stable, awaits⟩ := twins_alike ⟨.default, ['\'', 'a'], ['\''],
    [(true, literalStops), (false, ['\\']), (false, ['\''])]⟩ (by simp [twins])
  have inside : Alike .default ('\'' :: body) ['\''] :=
    Alike.loop (fun _ _ => rfl) stable awaits fun c mem =>
      contains_outside literalStops (by decide) (plain c mem) (by decide)
  have closed : Alike .default ('\'' :: body ++ ['\'']) ['\'', '\''] :=
    inside.concat awaits fun _ _ => rfl
  exact nextPiece_sample (s := ⟨.default, ['\'', '\''], ⟨.plain closedLiteral,
    .token .stringLiteral⟩, []⟩) (by simp [samples]) (by simp) closed (by simp)

theorem nextPiece_bracket (rest : List Char) :
    nextPiece .default (['['] ++ rest) = .found .openBracket ['['] rest :=
  nextPiece_sample (s := ⟨.default, ['['], ⟨.plain (.one '['), .openBracket⟩, []⟩)
    (by simp [samples]) (by simp) (fun _ _ => rfl) (by simp)

/-- The inside of a character set is one piece up to its bracket. -/
theorem nextPiece_set (some_ : body ≠ []) (plain : ∀ c ∈ body, c ∉ setStops) (rest : List Char) :
    nextPiece .charSet (body ++ ']' :: rest) = .found .more body (']' :: rest) := by
  obtain ⟨first, later, rfl⟩ := exists_cons_of_ne_nil some_
  obtain ⟨start, awaitsStart⟩ := twins_alike ⟨.charSet, [], [],
    [(true, setStops), (false, ['\\']), (false, [']'])]⟩ (by simp [twins])
  obtain ⟨stable, awaits⟩ := twins_alike ⟨.charSet, ['a', 'a'], ['a'],
    [(true, setStops), (false, ['\\'])]⟩ (by simp [twins])
  have entered : Alike .charSet [first] ['a'] := start.concat awaitsStart
    (contains_outside setStops (by decide) (plain first mem_cons_self) (by decide))
  have alike : Alike .charSet (first :: later) ['a'] :=
    entered.loop stable awaits fun c mem => contains_outside setStops (by decide)
      (plain c (mem_cons_of_mem _ mem)) (by decide)
  refine nextPiece_sample (s := ⟨.charSet, ['a'], ⟨.plain (.plus (.alt (.noneOf [']', '\\'])
    (.seq (.one '\\') .any))), .more⟩, [.ofChars true setStops, .ofChars false ['\\']]⟩)
    (by simp [samples]) some_ alike fun c head => ?_
  cases head
  decide

theorem nextPiece_setEnd (rest : List Char) :
    nextPiece .charSet ([']'] ++ rest) = .found (.close .lexerCharSet) [']'] rest :=
  nextPiece_sample (s := ⟨.charSet, [']'], ⟨.plain (.one ']'), .close .lexerCharSet⟩, []⟩)
    (by simp [samples]) (by simp) (fun _ _ => rfl) (by simp)

end GrammarLint.Lexical
