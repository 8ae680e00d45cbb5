import GrammarLint.Console.Print
import GrammarLint.Proofs.JsonText

open List

namespace GrammarLint.Console

open Text (CodePoint Loose)

/-- A bracket that may open a tag, or one behind a backslash. -/
def Loud (c d : CodePoint) : Prop := c = .char '[' ∧ startsTag d = true ∨ c = .char '\\' ∧ d = .char '['

instance (c d : CodePoint) : Decidable (Loud c d) := inferInstanceAs (Decidable (_ ∨ _))

/-- There is nothing in the text that could be taken for a tag. -/
def Quiet (cs : List CodePoint) : Prop := cs.IsChain fun c d => ¬Loud c d

instance (cs : List CodePoint) : Decidable (Quiet cs) := inferInstanceAs (Decidable (List.IsChain ..))

/-- A name stands between two colons, as that of a picture which a console shows in its place. -/
def namesPicture : List CodePoint → Bool
  | [] => false
  | c :: rest =>
    let name := rest.takeWhile fun d => d != .char ':' && !Text.isSpace d
    c == .char ':' && !name.isEmpty && rest[name.length]? == some (.char ':') || namesPicture rest

/-- A console leaves the text alone. -/
def Inert (cs : List CodePoint) : Prop := Quiet cs ∧ namesPicture cs = false

instance (cs : List CodePoint) : Decidable (Inert cs) := inferInstanceAs (Decidable (_ ∧ _))

section Plain

variable {cs ds : List CodePoint}

theorem Quiet.append_iff : Quiet (cs ++ ds) ↔
    Quiet cs ∧ Quiet ds ∧ ∀ c ∈ cs.getLast?, ∀ d ∈ ds.head?, ¬Loud c d := isChain_append

/-- Only brackets and backslashes can be loud in front of something. -/
theorem not_loud {c d : CodePoint} (noBracket : c ≠ .char '[') (noSlash : c ≠ .char '\\') : ¬Loud c d := by
  simp [Loud, noBracket, noSlash]

theorem tag?_eq_none (silent : ∀ c ∈ cs.head?, startsTag c = false) : tag? cs = none := by
  match cs with
  | [] => rfl
  | c :: rest =>
    rw [tag?]
    split
    · rw [if_neg (by simp [silent c rfl])]
    · rfl

/-- A quiet text is one stretch. -/
theorem stretches_quiet {fuel : Nat} {before : List CodePoint} (quiet : Quiet cs)
    (enough : cs.length ≤ fuel) : stretches fuel before cs = [.text (before.reverse ++ cs)] := by
  induction fuel generalizing before cs with
  | zero =>
    obtain rfl : cs = [] := length_eq_zero_iff.mp (Nat.le_zero.mp enough)
    simp [stretches]
  | succ fuel ih =>
    cases cs with
    | nil => simp [stretches]
    | cons c rest =>
      -- A step takes all backslashes at once: the text is split behind them.
      let slashes := (c :: rest).takeWhile (· == .char '\\')
      have allSlashes : ∀ d ∈ slashes, d = .char '\\' := fun d mem =>
        eq_of_beq (@mem_takeWhile_imp _ (· == CodePoint.char '\\') _ _ mem)
      have whole : slashes ++ (c :: rest).drop slashes.length = c :: rest :=
        prefix_iff_eq_append.mp <| takeWhile_prefix _
      rw [stretches]
      have parts := whole ▸ quiet
      rw [Quiet.append_iff] at parts
      obtain ⟨-, quietAfter, apart⟩ := parts
      have lengths := congrArg length whole
      rw [length_append] at lengths
      split
      · rename_i inner bracket
        rw [bracket] at whole quietAfter apart lengths
        have none : slashes = [] := by
          by_contra some
          refine apart _ (getLast?_eq_some_getLast some) _ rfl (.inr ⟨?_, rfl⟩)
          exact allSlashes _ (getLast_mem some)
        have silent : ∀ d ∈ inner.head?, startsTag d = false := by
          intro d first
          have calm := (isChain_cons.mp quietAfter).1 d first
          simpa [Loud] using calm
        rw [tag?_eq_none silent]
        rw [length_cons] at lengths
        have rest := @ih inner (.char '[' :: (slashes ++ before)) (isChain_cons.mp quietAfter).2
          (by omega)
        simpa [none, ← whole] using rest
      · split
        · have rest := @ih rest (c :: before) quiet.tail (by simpa using enough)
          simpa using rest
        · rename_i some
          have positive : 0 < slashes.length := by
            refine length_pos_iff.mpr fun none => some ?_
            rw [List.isEmpty_iff]
            exact none
          have backwards : slashes.reverse = slashes := by
            have same := eq_replicate_iff.mpr ⟨rfl, allSlashes⟩
            rw [same, reverse_replicate]
          have rest := @ih _ (slashes ++ before) quietAfter (by omega)
          rw [reverse_append, backwards, append_assoc, whole] at rest
          exact rest

/-- The first stretch begins with what was there before. -/
theorem exists_stretches (fuel : Nat) (before cs : List CodePoint) :
    ∃ more rest, stretches fuel before cs = .text (before.reverse ++ more) :: rest := by
  induction fuel generalizing before cs with
  | zero => exact ⟨[], [], by simp [stretches]⟩
  | succ fuel ih =>
    cases cs with
    | nil => exact ⟨[], [], by simp [stretches]⟩
    | cons c cs =>
      rw [stretches]
      split
      · rename_i inner _
        split
        · exact ⟨[], _, by rw [append_nil]⟩
        · obtain ⟨more, rest, same⟩ :=
            ih (.char '[' :: ((c :: cs).takeWhile (· == .char '\\') ++ before)) inner
          rw [reverse_cons, reverse_append, append_assoc, append_assoc] at same
          exact ⟨_, rest, same⟩
      · split
        · obtain ⟨more, rest, same⟩ := ih (c :: before) cs
          exact ⟨_, rest, by rw [same, reverse_cons, append_assoc]⟩
        · obtain ⟨more, rest, same⟩ := ih ((c :: cs).takeWhile (· == .char '\\') ++ before)
            ((c :: cs).drop ((c :: cs).takeWhile (· == .char '\\')).length)
          exact ⟨_, rest, by rw [same, reverse_append, append_assoc]⟩

/-- A text that begins neither with a bracket nor with a backslash is shown from its first character
on. -/
theorem exists_stretches_shown {c : CodePoint} (noBracket : c ≠ .char '[') (noSlash : c ≠ .char '\\')
    (fuel : Nat) (cs : List CodePoint) :
    ∃ ds, (stretches (fuel + 1) [] (c :: cs)).flatMap Stretch.shown = c :: ds := by
  have none : (c :: cs).takeWhile (· == .char '\\') = [] := by simp [noSlash]
  have on : stretches (fuel + 1) [] (c :: cs) = stretches fuel [c] cs := by
    rw [stretches, none]
    split
    · rename_i same
      exact absurd (cons.inj same).1 noBracket
    · rfl
  obtain ⟨more, rest, same⟩ := exists_stretches fuel [c] cs
  refine ⟨unescape more ++ rest.flatMap Stretch.shown, ?_⟩
  rw [on, same]
  simp [Stretch.shown, unescape, noSlash]

theorem unescape_quiet (quiet : Quiet cs) : unescape cs = cs := by
  fun_induction unescape cs with
  | case1 rest ih => exact absurd (.inr ⟨rfl, rfl⟩) (isChain_cons_cons.mp quiet).1
  | case2 c rest _ ih => rw [ih quiet.tail]
  | case3 => rfl

/-- A quiet text without control characters is shown as it is. -/
theorem plain_quiet (quiet : Quiet cs) (visible : ∀ c ∈ cs, isStripped c = false) : plain cs = cs := by
  have unchanged : cs.filter (!isStripped ·) = cs :=
    filter_eq_self.mpr fun c mem => by simp [visible c mem]
  rw [plain]
  split
  · simp [stretches_quiet quiet le_rfl, Stretch.shown, unescape_quiet quiet, unchanged]
  · exact unchanged

section FirstCharacter

variable {c : CodePoint} (visible : isStripped c = false) (noBracket : c ≠ .char '[')
  (noSlash : c ≠ .char '\\')

include visible noBracket noSlash

/-- A text is shown from its first character on, if that is an ordinary one. -/
theorem exists_plain (cs : List CodePoint) : ∃ ds, plain (c :: cs) = c :: ds := by
  rw [plain]
  split
  · obtain ⟨ds, same⟩ := exists_stretches_shown noBracket noSlash cs.length cs
    exact ⟨_, by rw [length_cons, same, filter_cons_of_pos (by simpa using visible)]⟩
  · exact ⟨_, filter_cons_of_pos (by simpa using visible)⟩

/-- A tag in front of a text is not shown. -/
theorem exists_plain_tagged {t : CodePoint} {inside : List CodePoint} (starts : startsTag t = true)
    (between : ∀ d ∈ inside, isBracket d = false) (cs : List CodePoint) :
    ∃ ds, plain (.char '[' :: t :: (inside ++ .char ']' :: c :: cs)) = c :: ds := by
  have tagged : tag? (t :: (inside ++ .char ']' :: c :: cs)) = some (t :: inside, c :: cs) := by
    have free : ∀ d ∈ inside, (!isBracket d) = true := by simpa using between
    rw [tag?, takeWhile_append_of_pos free, dropWhile_append_of_pos free]
    simp [isBracket, starts]
  have step (fuel : Nat) : stretches (fuel + 1) [] (.char '[' :: t :: (inside ++ .char ']' :: c :: cs)) =
      .text [] :: .exact [] :: .exact [] :: stretches fuel [] (c :: cs) := by
    have none : (CodePoint.char '[' :: t :: (inside ++ .char ']' :: c :: cs)).takeWhile
        (· == .char '\\') = [] := rfl
    rw [stretches]
    simp [tagged]
  obtain ⟨ds, same⟩ := exists_stretches_shown noBracket noSlash (inside.length + cs.length + 2) cs
  refine ⟨ds.filter (!isStripped ·), ?_⟩
  have length : (CodePoint.char '[' :: t :: (inside ++ .char ']' :: c :: cs)).length =
      inside.length + cs.length + 2 + 1 + 1 := by
    simp only [length_cons, length_append]
    omega
  rw [plain, length, step]
  simp [Stretch.shown, unescape, same, visible]

end FirstCharacter

end Plain

end GrammarLint.Console

namespace GrammarLint.Json

open Console (Loud Quiet not_loud startsTag)
open Text (CodePoint Loose)

def pointsOf (cs : List Char) : List CodePoint := cs.map .char

@[simp]
theorem pointsOf_append (cs ds : List Char) : pointsOf (cs ++ ds) = pointsOf cs ++ pointsOf ds :=
  map_append ..

@[simp]
theorem pointsOf_cons (c : Char) (cs : List Char) : pointsOf (c :: cs) = .char c :: pointsOf cs := rfl

@[simp]
theorem pointsOf_nil : pointsOf [] = [] := rfl

section Quoting

def Calm (cs : List Char) : Prop := ∀ c ∈ cs, c ≠ '[' ∧ c ≠ '\\'

theorem quiet_append {cs ds : List Char} (calm : ∀ c ∈ cs.getLast?, c ≠ '[' ∧ c ≠ '\\')
    (first : Quiet (pointsOf cs)) (second : Quiet (pointsOf ds)) : Quiet (pointsOf (cs ++ ds)) := by
  rw [pointsOf_append]
  refine Quiet.append_iff.mpr ⟨first, second, ?_⟩
  intro c last d _
  rw [pointsOf, getLast?_map, Option.mem_def, Option.map_eq_some_iff] at last
  obtain ⟨c, final, rfl⟩ := last
  exact not_loud (by simpa using (calm c final).1) (by simpa using (calm c final).2)

theorem Calm.quiet {cs : List Char} (calm : Calm cs) : Quiet (pointsOf cs) := by
  induction cs with
  | nil => exact .nil
  | cons c cs ih =>
    obtain ⟨first, others⟩ := forall_mem_cons.mp calm
    exact @quiet_append [c] cs (by simpa using first) (.singleton _) (ih others)

theorem unicodeEscape_quiet (n : Nat) :
    Quiet (pointsOf (unicodeEscape n)) ∧ ∀ c ∈ (unicodeEscape n).getLast?, c ≠ '[' ∧ c ≠ '\\' := by
  have digit : ∀ n < 16, hexDigit n ≠ '[' ∧ hexDigit n ≠ '\\' := by decide
  have digits : Calm (hex4 n) := by simp [Calm, hex4, digit _ (Nat.mod_lt _ _)]
  have letter : Calm ('u' :: hex4 n) := forall_mem_cons.mpr ⟨by decide, digits⟩
  refine ⟨isChain_cons.mpr ⟨fun c first => ?_, letter.quiet⟩, ?_⟩
  · obtain rfl : .char 'u' = c := by simpa using first
    decide
  · simp [unicodeEscape, hex4, digit _ (Nat.mod_lt _ _)]

/-- How a code point is written is quiet. It ends in a bracket or backslash, and begins with anything but
a backslash, only where the code point is that character. -/
theorem escapePoint_quiet (point : CodePoint) : Quiet (pointsOf (escapePoint point)) ∧
    (∀ c ∈ (escapePoint point).getLast?, c ≠ '[' ∧ c ≠ '\\' ∨ point = .char c) ∧
    ∃ c cs, escapePoint point = c :: cs ∧ (c = '\\' ∨ point = .char c) := by
  match point with
  | .half place =>
    obtain ⟨quiet, last⟩ := unicodeEscape_quiet (CodePoint.half place).value
    exact ⟨quiet, fun c final => .inl (last c final), _, _, rfl, .inl rfl⟩
  | .char c =>
    rw [escapePoint]
    by_cases direct : isDirect c = true
    · rcases escapeChar_direct direct with ⟨e, letter, short, written⟩ | ⟨-, -, -, written⟩
      · have noBracket : e ≠ '[' := by
          rintro rfl
          simp at letter
        rw [written]
        refine ⟨isChain_pair.mpr (by simp [Loud, noBracket]), fun d final => ?_, _, _, rfl, .inl rfl⟩
        obtain rfl : e = d := by simpa using final
        by_cases slash : e = '\\'
        · subst slash
          cases short
          exact .inr rfl
        · exact .inl ⟨noBracket, slash⟩
      · rw [written]
        exact ⟨.singleton _, fun d final => .inr (by simpa using final), _, _, rfl, .inr rfl⟩
    · rw [escapeChar_indirect direct]
      split
      · obtain ⟨quiet, last⟩ := unicodeEscape_quiet c.toNat
        exact ⟨quiet, fun c final => .inl (last c final), _, _, rfl, .inl rfl⟩
      · obtain ⟨high, highLast⟩ := unicodeEscape_quiet (0xd800 + (c.toNat - 0x10000) / 1024)
        obtain ⟨low, last⟩ := unicodeEscape_quiet (0xdc00 + (c.toNat - 0x10000) % 1024)
        refine ⟨quiet_append highLast high low, fun c final => .inl (last c ?_), _, _, rfl, .inl rfl⟩
        rwa [getLast?_append_of_ne_nil _ (by simp [unicodeEscape])] at final

/-- A quiet text is written without anything that could be taken for a tag. -/
theorem points_quiet {points : List CodePoint} (quiet : Quiet points) :
    Quiet (pointsOf (points.flatMap escapePoint ++ ['"'])) := by
  induction points with
  | nil => exact .singleton _
  | cons p points ih =>
    obtain ⟨block, last, -⟩ := escapePoint_quiet p
    rw [flatMap_cons, append_assoc, pointsOf_append]
    refine Quiet.append_iff.mpr ⟨block, ih quiet.tail, fun x final y first => ?_⟩
    rw [pointsOf, getLast?_map, Option.mem_def, Option.map_eq_some_iff] at final
    obtain ⟨c, final, rfl⟩ := final
    rcases last c final with ⟨noBracket, noSlash⟩ | rfl
    · exact not_loud (by simpa using noBracket) (by simpa using noSlash)
    · cases points with
      | nil =>
        obtain rfl : .char '"' = y := by simpa using first
        simp [Loud, startsTag]
      | cons q points =>
        obtain ⟨-, -, d, cs, written, either⟩ := escapePoint_quiet q
        obtain rfl : .char d = y := by simpa [written] using first
        rcases either with rfl | rfl
        · simp [Loud, startsTag]
        · exact (isChain_cons_cons.mp quiet).1

theorem quote_quiet {s : Loose} (quiet : Quiet s.points) : Quiet (pointsOf (quote s)) :=
  @quiet_append ['"'] _ (by simp) (.singleton _) (points_quiet quiet)

theorem toString_calm (n : Int) : Calm (toString n).toList := by
  intro c mem
  have written := mem_toString_int mem
  constructor <;>
  · rintro rfl
    simp [isDecimalDigit] at written

end Quoting

end GrammarLint.Json
