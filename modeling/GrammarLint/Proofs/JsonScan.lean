import GrammarLint.Proofs.JsonText

open List

namespace GrammarLint.Json

open Text (CodePoint Loose)

/-- Where one stands in a text: between its parts, in a word or number, behind one with a blank between,
in a quoted text, or behind a backslash there. -/
inductive Stand where
  | free
  | word
  | gap
  | quoted
  | escaped
deriving DecidableEq, Repr

def isMark (c : Char) : Bool := [',', ':', '[', ']', '\x7b', '\x7d'].contains c

def isWordly (c : Char) : Bool := c != '"' && !isMark c && !isBlank c

namespace Stand

/-- Where a character leads. A quoted text holds no control characters, and words do not follow each
other with only blanks between. -/
def step : Stand → Char → Option Stand
  | .quoted, c =>
    if c == '"' then some .free
    else if c == '\\' then some .escaped
    else if c.toNat < 0x20 then none
    else some .quoted
  | .escaped, c => if c.toNat < 0x20 then none else some .quoted
  | s, c =>
    if c == '"' then some .quoted
    else if isMark c then some .free
    else if isBlank c then some (if s = .free then .free else .gap)
    else if s = .gap then none
    else some .word

def run (s : Stand) (cs : List Char) : Option Stand := cs.foldlM step s

def isOutside : Stand → Bool
  | .free | .word | .gap => true
  | .quoted | .escaped => false

@[simp]
theorem run_nil (s : Stand) : s.run [] = some s := rfl

@[simp]
theorem run_cons (s : Stand) (c : Char) (cs : List Char) :
    s.run (c :: cs) = (s.step c).bind (·.run cs) := foldlM_cons ..

@[simp]
theorem run_append (s : Stand) (cs ds : List Char) : s.run (cs ++ ds) = (s.run cs).bind (·.run ds) :=
  foldlM_append ..

section Steps

variable {s : Stand} {c : Char}

section

variable (outside : s.isOutside = true)

include outside

theorem step_outside (c : Char) : s.step c =
    if c == '"' then some .quoted
    else if isMark c then some .free
    else if isBlank c then some (if s = .free then .free else .gap)
    else if s = .gap then none
    else some .word := by
  cases s with
  | free | word | gap => rfl
  | quoted | escaped => cases outside

theorem step_mark (mark : isMark c = true) : s.step c = some .free := by
  have noQuote : c ≠ '"' := by
    rintro rfl
    cases mark
  simp [step_outside outside, noQuote, mark]

theorem step_blank (blank : isBlank c = true) :
    s.step c = some (if s = .free then .free else .gap) := by
  have noQuote : c ≠ '"' := by
    rintro rfl
    cases blank
  have noMark : isMark c = false := by
    simp only [isBlank, Bool.or_eq_true, beq_iff_eq] at blank
    rcases blank with ((rfl | rfl) | rfl) | rfl <;> rfl
  simp [step_outside outside, noQuote, noMark, blank]

theorem step_wordly (wordly : isWordly c = true) :
    s.step c = if s = .gap then none else some .word := by
  simp only [isWordly, Bool.and_eq_true, bne_iff_ne, Bool.not_eq_true'] at wordly
  obtain ⟨⟨noQuote, noMark⟩, noBlank⟩ := wordly
  simp [step_outside outside, noQuote, noMark, noBlank]

end

theorem run_blank {cs : List Char} (outside : s.isOutside = true) (blank : Blank cs) :
    ∃ s', s.run cs = some s' ∧ s'.isOutside = true ∧ (s = .free → s' = .free) ∧
      (s ≠ .word → s' ≠ .word) := by
  induction cs generalizing s with
  | nil => exact ⟨s, rfl, outside, id, id⟩
  | cons c cs ih =>
    obtain ⟨first, others⟩ := forall_mem_cons.mp blank
    rw [run_cons, step_blank outside first]
    split
    · obtain ⟨s', ran, out, stays, -⟩ := @ih .free rfl others
      exact ⟨s', ran, out, fun _ => stays rfl, fun _ => by simp [stays rfl]⟩
    · rename_i used
      obtain ⟨s', ran, out, -, calm⟩ := @ih .gap rfl others
      exact ⟨s', ran, out, fun free => absurd free used, fun _ => calm (by decide)⟩

variable {cs : List Char}

theorem run_wordly (wordly : ∀ c ∈ cs, isWordly c = true) : (run .word cs) = some .word := by
  induction cs with
  | nil => rfl
  | cons c cs ih =>
    obtain ⟨first, others⟩ := forall_mem_cons.mp wordly
    rw [run_cons, step_wordly rfl first]
    exact ih others

theorem run_free_wordly (wordly : ∀ c ∈ cs, isWordly c = true) (some : cs ≠ []) :
    run .free cs = .some .word := by
  match cs with
  | [] => exact absurd rfl some
  | c :: cs =>
    obtain ⟨first, others⟩ := forall_mem_cons.mp wordly
    rw [run_cons, step_wordly rfl first]
    exact run_wordly others

end Steps

end Stand

/-- The front of a text down to `rest` leads from one stand to another. -/
def Passes (s : Stand) (cs rest : List Char) (s' : Stand) : Prop :=
  ∃ piece, cs = piece ++ rest ∧ s.run piece = some s'

namespace Passes

variable {s s' s'' : Stand} {cs mid rest : List Char}

theorem trans (first : Passes s cs mid s') (second : Passes s' mid rest s'') : Passes s cs rest s'' := by
  obtain ⟨piece, rfl, ran⟩ := first
  obtain ⟨next, rfl, further⟩ := second
  exact ⟨piece ++ next, by rw [append_assoc], by simp [ran, further]⟩

variable {c : Char}

theorem step (stepped : s.step c = some s') : Passes s (c :: cs) cs s' :=
  ⟨[c], rfl, by simp [stepped]⟩

theorem blanks (outside : s.isOutside = true) :
    ∃ s', Passes s cs (skipBlanks cs) s' ∧ s'.isOutside = true ∧ (s = .free → s' = .free) := by
  have blank : Blank (cs.takeWhile isBlank) := fun _ => mem_takeWhile_imp
  obtain ⟨s', ran, out, stays, -⟩ := Stand.run_blank outside blank
  exact ⟨s', ⟨_, takeWhile_append_dropWhile.symm, ran⟩, out, stays⟩

theorem free_blanks : Passes .free cs (skipBlanks cs) .free := by
  obtain ⟨s', passes, -, stays⟩ := @blanks .free cs rfl
  rwa [stays rfl] at passes

/-- A mark leads between the parts of a text, also behind blanks. -/
theorem mark (outside : s.isOutside = true) (next : skipBlanks cs = c :: rest)
    (isMark : isMark c = true) : Passes s cs rest .free := by
  obtain ⟨s', blanks, out, -⟩ := @blanks s cs outside
  rw [next] at blanks
  exact blanks.trans (.step (Stand.step_mark out isMark))

theorem opened (isMark : isMark c = true) : Passes .free (c :: cs) cs .free :=
  .step (Stand.step_mark rfl isMark)

end Passes

section Numbers

def Wordly (cs rest : List Char) : Prop :=
  ∃ piece, cs = piece ++ rest ∧ ∀ c ∈ piece, isWordly c = true

variable {cs rest : List Char}

theorem Wordly.refl : Wordly cs cs := ⟨[], rfl, by simp⟩

theorem Wordly.cons {c : Char} (first : isWordly c = true) (wordly : Wordly cs rest) :
    Wordly (c :: cs) rest := by
  obtain ⟨piece, rfl, each⟩ := wordly
  exact ⟨c :: piece, rfl, forall_mem_cons.mpr ⟨first, each⟩⟩

theorem Wordly.trans {mid : List Char} (first : Wordly cs mid) (second : Wordly mid rest) :
    Wordly cs rest := by
  obtain ⟨piece, rfl, each⟩ := first
  obtain ⟨next, rfl, others⟩ := second
  exact ⟨piece ++ next, by rw [append_assoc], forall_mem_append.mpr ⟨each, others⟩⟩

theorem Wordly.passes (wordly : Wordly cs rest) : ∃ s, Passes .free cs rest s ∧ s.isOutside = true := by
  obtain ⟨piece, split, each⟩ := wordly
  by_cases empty : piece = []
  · exact ⟨.free, ⟨piece, split, by rw [empty]; rfl⟩, rfl⟩
  · exact ⟨.word, ⟨piece, split, Stand.run_free_wordly each empty⟩, rfl⟩

theorem isWordly_digit {c : Char} (digit : isDecimalDigit c = true) : isWordly c = true := by
  have noQuote : c ≠ '"' := by
    rintro rfl
    cases digit
  have noMark : isMark c = false := by
    refine Bool.eq_false_iff.mpr fun mark => ?_
    simp only [isMark, contains_cons, contains_nil, Bool.or_false, Bool.or_eq_true,
      beq_iff_eq] at mark
    rcases mark with rfl | rfl | rfl | rfl | rfl | rfl <;> cases digit
  have noBlank : isBlank c = false := by
    refine Bool.eq_false_iff.mpr fun blank => ?_
    simp only [isBlank, Bool.or_eq_true, beq_iff_eq] at blank
    rcases blank with ((rfl | rfl) | rfl) | rfl <;> cases digit
  simp [isWordly, noQuote, noMark, noBlank]

theorem wordly_digits : Wordly cs (cs.dropWhile isDecimalDigit) :=
  ⟨_, takeWhile_append_dropWhile.symm, fun _ mem =>
    isWordly_digit (mem_takeWhile_imp mem)⟩

theorem readWhole_wordly {whole : List Char} (read : readWhole cs = some (whole, rest)) :
    Wordly cs rest := by
  unfold readWhole at read
  split at read
  · cases read
    exact .cons rfl .refl
  · split at read
    · rename_i digit
      cases read
      exact .cons (isWordly_digit digit) wordly_digits
    · cases read
  · cases read

theorem readFraction_wordly : Wordly cs (readFraction cs).2 := by
  unfold readFraction
  split
  · split
    · exact .refl
    · rename_i digits after spanned
      obtain ⟨-, rfl⟩ := Prod.mk.inj spanned
      exact .cons rfl wordly_digits
  · exact .refl

theorem readExponent_wordly : Wordly cs (readExponent cs).2 := by
  unfold readExponent
  split
  · rename_i c behind
    split
    · rename_i letter
      have first : isWordly c = true := by
        simp only [Bool.or_eq_true, beq_iff_eq] at letter
        rcases letter with rfl | rfl <;> rfl
      dsimp only
      split
      · exact .refl
      · rename_i digits after spanned
        obtain ⟨-, rfl⟩ := Prod.mk.inj spanned
        refine .cons first ?_
        split
        · exact .cons rfl wordly_digits
        · exact .cons rfl wordly_digits
        · exact wordly_digits
    · exact .refl
  · exact .refl

theorem readNumeral_wordly {numeral : Numeral} (read : readNumeral cs = some (numeral, rest)) :
    Wordly cs rest := by
  unfold readNumeral at read
  simp only [Option.bind_eq_bind, Option.bind_eq_some_iff] at read
  obtain ⟨⟨whole, behind⟩, first, same⟩ := read
  cases same
  have unsigned := ((readWhole_wordly first).trans readFraction_wordly).trans readExponent_wordly
  split at unsigned
  · exact .cons rfl unsigned
  · exact unsigned

theorem readPlain_wordly {limits : Limits} {value : Value}
    (read : readPlain limits cs = .ok (value, rest)) : Wordly cs rest := by
  have letters : ∀ word ∈ words, ∀ c ∈ word.1, isWordly c = true := by
    simp [words, isWordly, isMark, isBlank]
  unfold readPlain at read
  split at read
  · rename_i word _ found
    cases read
    have begins := find?_some found
    have front := isPrefixOf_iff_prefix.mp begins
    exact ⟨word, (prefix_iff_eq_append.mp front).symm,
      letters _ (mem_of_find?_eq_some found)⟩
  · split at read
    · split at read
      · cases read
      · rename_i written _
        cases read
        exact readNumeral_wordly written
    · cases read

end Numbers

section Texts

variable {c : Char} {cs rest : List Char}

theorem Stand.step_visible (visible : 0x20 ≤ c.toNat) : Stand.step .escaped c = some .quoted := by
  rw [step, if_neg (by omega)]

def IsPlain (c : Char) : Prop := Stand.step .quoted c = some .quoted

theorem isPlain_of_ne (visible : 0x20 ≤ c.toNat) (noQuote : c ≠ '"') (noSlash : c ≠ '\\') :
    IsPlain c := by
  rw [IsPlain, Stand.step, if_neg (by simpa using noQuote), if_neg (by simpa using noSlash),
    if_neg (by omega)]

theorem isPlain_hex (hex : (hexValue c).isSome = true) : IsPlain c := by
  have least : '0' ≤ c := by
    unfold hexValue at hex
    split at hex
    · rename_i digit
      exact digit.1
    · split at hex
      · rename_i digit
        exact Char.le_trans (by decide) digit.1
      · split at hex
        · rename_i digit
          exact Char.le_trans (by decide) digit.1
        · cases hex
  refine isPlain_of_ne ?_ ?_ ?_
  · exact Nat.le_trans (by decide) (UInt32.le_iff_toNat_le.mp least)
  · rintro rfl
    cases hex
  · rintro rfl
    cases hex

theorem shortEscape_visible {e : Char} (short : shortEscape e = some c) : 0x20 ≤ e.toNat := by
  by_contra control
  have apart (d : Char) (visible : 0x20 ≤ d.toNat) : (e == d) = false := by
    refine beq_eq_false_iff_ne.mpr ?_
    rintro rfl
    exact control visible
  simp [shortEscape, apart] at short

theorem hexCode_isPlain {w x y z : Char} {n : Nat} (code : hexCode w x y z = some n) :
    ∀ c ∈ [w, x, y, z], IsPlain c := by
  simp only [hexCode, Option.bind_eq_bind, Option.bind_eq_some_iff] at code
  obtain ⟨a, first, b, second, c, third, d, fourth, -⟩ := code
  simp [isPlain_hex, first, second, third, fourth]

/-- A quoted text is read up to a quote, behind which one stands between parts again. -/
theorem readUnits_passes {begun : Nat} {units : List TextUnit}
    (read : readUnits begun cs = .ok (units, rest)) : Passes .quoted cs rest .free := by
  have slash {e : Char} (isSlash : (e == '\\') = true) {cs : List Char} :
      Passes .quoted (e :: cs) cs .escaped := .step (by rw [eq_of_beq isSlash]; rfl)
  fun_induction readUnits begun cs generalizing units with
  | case1 | case3 | case5 | case6 | case8 | case9 => cases read
  | case2 c later quote =>
    cases read
    exact .step (by rw [eq_of_beq quote]; rfl)
  | case4 c _ isSlash e unicode w x y z n d later code ih =>
    obtain ⟨⟨others, behind⟩, readOthers, same⟩ := bind_ok read
    cases same
    have plain := hexCode_isPlain code
    simp only [forall_mem_cons, IsPlain] at plain
    obtain ⟨first, second, third, fourth, -⟩ := plain
    have letter : Passes .escaped (e :: w :: x :: y :: z :: d :: later) (w :: x :: y :: z :: d :: later)
        .quoted := .step (by rw [eq_of_beq unicode]; rfl)
    exact (slash isSlash).trans (letter.trans ((Passes.step first).trans ((Passes.step second).trans
      ((Passes.step third).trans ((Passes.step fourth).trans (ih readOthers))))))
  | case7 c _ isSlash e later _ escaped short ih =>
    obtain ⟨⟨others, behind⟩, readOthers, same⟩ := bind_ok read
    cases same
    exact (slash isSlash).trans
      ((Passes.step (Stand.step_visible (shortEscape_visible short))).trans (ih readOthers))
  | case10 c later noQuote noSlash visible ih =>
    obtain ⟨⟨others, behind⟩, readOthers, same⟩ := bind_ok read
    cases same
    have plain : IsPlain c :=
      isPlain_of_ne (by omega) (by simpa using noQuote) (by simpa using noSlash)
    exact (Passes.step plain).trans (ih readOthers)

theorem readString_passes {s : Loose}
    (read : (readString cs).mapError ReadError.mistake = .ok (s, rest)) :
    Passes .free ('"' :: cs) rest .free := by
  obtain ⟨⟨units, behind⟩, readAll, same⟩ := bind_ok (mapError_eq_ok.mp read)
  cases same
  exact (Passes.step rfl).trans (readUnits_passes readAll)

end Texts

section Values

/-- What is read as a value, as items or as fields leads from between the parts of a text to a stand
outside of quotes. -/
structure ReadsPass (limits : Limits) (fuel : Nat) : Prop where
  value : ∀ {room cs value rest}, readValue limits fuel room cs = .ok (value, rest) →
    ∃ s, Passes .free cs rest s ∧ s.isOutside = true
  items : ∀ {room cs items rest}, readItems limits fuel room cs = .ok (items, rest) →
    Passes .free cs rest .free
  fields : ∀ {room before cs fields rest}, readFields limits fuel room before cs = .ok (fields, rest) →
    Passes .free cs rest .free

namespace ReadsPass

variable {limits : Limits} {fuel room : Nat} {cs rest : List Char}

variable (passes : ReadsPass limits fuel)

include passes

theorem value_succ {value : Value}
    (read : readValue limits (fuel + 1) room cs = .ok (value, rest)) :
    ∃ s, Passes .free cs rest s ∧ s.isOutside = true := by
  unfold readValue at read
  split at read
  · obtain ⟨⟨s, behind⟩, readS, same⟩ := bind_ok read
    cases same
    exact ⟨.free, readString_passes readS, rfl⟩
  · cases read
  · split at read
    · rename_i closed
      cases read
      exact ⟨.free, (Passes.opened rfl).trans (.mark rfl closed rfl), rfl⟩
    · obtain ⟨⟨found, behind⟩, readFound, same⟩ := bind_ok read
      cases same
      exact ⟨.free, (Passes.opened rfl).trans (Passes.free_blanks.trans (passes.items readFound)), rfl⟩
  · cases read
  · split at read
    · rename_i closed
      cases read
      exact ⟨.free, (Passes.opened rfl).trans (.mark rfl closed rfl), rfl⟩
    · obtain ⟨⟨found, behind⟩, readFound, same⟩ := bind_ok read
      cases same
      exact ⟨.free, (Passes.opened rfl).trans (Passes.free_blanks.trans (passes.fields readFound)), rfl⟩
  · exact (readPlain_wordly read).passes

theorem items_succ {items : List Value}
    (read : readItems limits (fuel + 1) room cs = .ok (items, rest)) : Passes .free cs rest .free := by
  obtain ⟨⟨item, later⟩, readItem, read⟩ := bind_ok read
  obtain ⟨s, one, outside⟩ := passes.value readItem
  simp only at read
  split at read
  · rename_i closed
    cases read
    exact one.trans (.mark outside closed rfl)
  · rename_i comma
    obtain ⟨⟨others, behind⟩, readOthers, same⟩ := bind_ok read
    cases same
    have next := Passes.free_blanks.trans (passes.items readOthers)
    exact one.trans ((Passes.mark outside comma rfl).trans next)
  · cases read

theorem fields_succ {before fields : List (Loose × Value)}
    (read : readFields limits (fuel + 1) room before cs = .ok (fields, rest)) :
    Passes .free cs rest .free := by
  unfold readFields at read
  split at read
  · obtain ⟨⟨key, later⟩, readKey, read⟩ := bind_ok read
    simp only at read
    split at read
    · rename_i colon
      obtain ⟨⟨value, behind⟩, readOne, read⟩ := bind_ok read
      obtain ⟨s, one, outside⟩ := passes.value readOne
      have named := (readString_passes readKey).trans (.mark rfl colon rfl)
      have field := named.trans (Passes.free_blanks.trans one)
      split at read
      · rename_i closed
        cases read
        exact field.trans (.mark outside closed rfl)
      · rename_i comma
        have next := Passes.free_blanks.trans (passes.fields read)
        exact field.trans ((Passes.mark outside comma rfl).trans next)
      · cases read
    · cases read
  · cases read

end ReadsPass

theorem readsPass (limits : Limits) (fuel : Nat) : ReadsPass limits fuel := by
  induction fuel with
  | zero =>
    refine ⟨fun read => ?_, fun read => ?_, fun read => ?_⟩
    · cases read
    · cases read
    · cases read
  | succ fuel ih => exact ⟨ih.value_succ, ih.items_succ, ih.fields_succ⟩

/-- No text of a value leads astray. -/
theorem run_of_read {limits : Limits} {text : List Char} {value : Value}
    (done : read limits text = .ok value) : ∃ s, Stand.run .free text = some s := by
  unfold read at done
  split at done
  · cases done
  · obtain ⟨⟨first, rest⟩, begun, ended⟩ := bind_ok done
    obtain ⟨s, passes, outside⟩ := (readsPass limits _).value begun
    obtain ⟨s', blanks, -, -⟩ := Passes.blanks outside
    dsimp only at ended
    split at ended
    · rename_i empty
      rw [empty] at blanks
      obtain ⟨piece, whole, ran⟩ := Passes.free_blanks.trans (passes.trans blanks)
      exact ⟨s', by rw [whole, append_nil, ran]⟩
    · cases ended

end Values

/-- A text within quotes: each front of it stays there, and it ends where it began. -/
structure Stays (cs : List Char) : Prop where
  whole : Stand.run .quoted cs = some .quoted
  front : ∀ n, ∃ s, Stand.run .quoted (cs.take n) = some s ∧ s.isOutside = false

namespace Stays

variable {cs ds : List Char}

theorem nil : Stays [] := ⟨rfl, fun _ => ⟨.quoted, by simp, rfl⟩⟩

theorem append (first : Stays cs) (second : Stays ds) : Stays (cs ++ ds) := by
  refine ⟨by simp [first.whole, second.whole], fun n => ?_⟩
  rw [take_append, Stand.run_append]
  by_cases inside : n ≤ cs.length
  · rw [Nat.sub_eq_zero_of_le inside]
    obtain ⟨s, ran, out⟩ := first.front n
    exact ⟨s, by simp [ran], out⟩
  · rw [take_of_length_le (by omega), first.whole]
    exact second.front _

theorem plain (each : ∀ c ∈ cs, IsPlain c) : Stays cs := by
  induction cs with
  | nil => exact nil
  | cons c cs ih =>
    obtain ⟨first, others⟩ := forall_mem_cons.mp each
    have one : Stays [c] := by
      refine ⟨by simp [show Stand.step .quoted c = _ from first], fun n => ?_⟩
      cases n with
      | zero => exact ⟨.quoted, rfl, rfl⟩
      | succ n => exact ⟨.quoted, by simp [show Stand.step .quoted c = _ from first], rfl⟩
    exact one.append (ih others)

theorem escape {e : Char} (visible : 0x20 ≤ e.toNat) : Stays ['\\', e] := by
  have slash : Stand.step .quoted '\\' = some .escaped := rfl
  have stepped := Stand.step_visible visible
  refine ⟨by simp [slash, stepped], fun n => ?_⟩
  match n with
  | 0 => exact ⟨.quoted, rfl, rfl⟩
  | 1 => exact ⟨.escaped, rfl, rfl⟩
  | n + 2 => exact ⟨.quoted, by simp [slash, stepped], rfl⟩

theorem unicodeEscape (n : Nat) : Stays (unicodeEscape n) := by
  have digit : ∀ n < 16, IsPlain (hexDigit n) := fun n small =>
    isPlain_hex (by rw [hexValue_hexDigit n small]; rfl)
  have digits : ∀ c ∈ hex4 n, IsPlain c := by simp [hex4, digit _ (Nat.mod_lt _ _)]
  exact (escape (by decide)).append (plain digits)

theorem escapePoint (point : CodePoint) : Stays (escapePoint point) := by
  match point with
  | .half place => exact unicodeEscape _
  | .char c =>
    rw [Json.escapePoint]
    by_cases direct : isDirect c = true
    · rcases escapeChar_direct direct with ⟨e, -, short, written⟩ | ⟨printable, noQuote, noSlash, written⟩
      · rw [written]
        exact escape (shortEscape_visible short)
      · rw [written]
        have visible : 0x20 ≤ c.toNat := UInt32.le_iff_toNat_le.mp printable.1
        exact plain (by simpa using isPlain_of_ne visible noQuote noSlash)
    · rw [escapeChar_indirect direct]
      split
      · exact unicodeEscape _
      · exact (unicodeEscape _).append (unicodeEscape _)

theorem points (points : List CodePoint) : Stays (points.flatMap Json.escapePoint) := by
  induction points with
  | nil => exact nil
  | cons p points ih => exact (escapePoint p).append ih

end Stays

section Written

variable {s : Stand}

/-- A quoted text leads to where parts begin. -/
theorem Stand.run_quote (outside : s.isOutside = true) (text : Loose) : s.run (quote text) = some .free := by
  have opening : s.step '"' = some .quoted := by simp [step_outside outside]
  have closed : step .quoted '"' = some .free := rfl
  simp [quote, opening, (Stays.points text.points).whole, closed]

/-- A front of a quoted text stays within the quotes. -/
theorem Stand.run_quote_front (outside : s.isOutside = true) (text : Loose) {n : Nat} (positive : 0 < n)
    (less : n < (quote text).length) :
    ∃ s', s.run ((quote text).take n) = some s' ∧ s'.isOutside = false := by
  have opening : s.step '"' = some .quoted := by simp [step_outside outside]
  obtain ⟨n, rfl⟩ : ∃ m, n = m + 1 := ⟨n - 1, by omega⟩
  rw [quote, length_cons, length_append, length_singleton] at less
  rw [quote, take_succ_cons, take_append_of_le_length (by omega), run_cons, opening]
  exact (Stays.points text.points).front n

theorem isWordly_toString {n : Int} : ∀ c ∈ (toString n).toList, isWordly c = true := by
  intro c mem
  rcases mem_toString_int mem with rfl | digit
  · rfl
  · exact isWordly_digit digit

end Written

end GrammarLint.Json
