import GrammarLint.Proofs.JsonRows
import GrammarLint.Proofs.JsonScan
import GrammarLint.Proofs.LineBreaks
import GrammarLint.Proofs.QuietText
import GrammarLint.Proofs.WrittenFiles

open List

namespace GrammarLint.Json

open Console (Keyed Narrow Quiet Solid Spaces StartsSolid EndsSolid printLine)
open Text (CodePoint Loose isSpace)

/-- A short key that is written as one word without brackets and backslashes. -/
def plainKey (key : Loose) : Bool :=
  decide ((quote key).length ≤ 14) &&
    (quote key).all fun c => isPrintable c && c != ' ' && c != '[' && c != '\\'

def keyLead (n : Nat) (key : Loose) : List Char := replicate n ' ' ++ (quote key ++ [':', ' '])

/-- The texts of rows that hold no value of their own. -/
def brackets : List (List Char) := [['['], [']'], ['\x7b'], ['\x7d'], ['[', ']'], ['\x7b', '\x7d']]

/-- The text of a row that holds a value. -/
inductive IsScalar : List Char → Prop
  | quote {s : Loose} : Quiet s.points → IsScalar (quote s)
  | int {n : Int} : IsScalar (toString n).toList

/-- A row of an indented text of objects and arrays: a bracket behind blanks or a key, or a value behind
a key. -/
inductive Row.Regular : Row → Prop
  | bracket {n : Nat} {text : List Char} {comma : Bool} : n ≤ 14 → text ∈ brackets →
      Regular ⟨replicate n ' ', text, comma⟩
  | opening {n : Nat} {key : Loose} {text : List Char} {comma : Bool} : n ≤ 14 → plainKey key = true →
      text ∈ brackets → Regular ⟨keyLead n key, text, comma⟩
  | field {n : Nat} {key : Loose} {text : List Char} {comma : Bool} : n ≤ 14 → plainKey key = true →
      IsScalar text → Regular ⟨keyLead n key, text, comma⟩

def Value.isContainer : Value → Bool
  | .arr _ | .obj _ => true
  | _ => false

/-- Quiet texts and numbers in objects with plain keys, over at most so many levels. -/
inductive Tabular : Nat → Value → Prop
  | str {room : Nat} {s : Loose} : Quiet s.points → Tabular room (.str s)
  | int {room : Nat} {n : Int} : Tabular room (.int n)
  | arr {room : Nat} {items : List Value} : (∀ item ∈ items, item.isContainer = true) →
      (∀ item ∈ items, Tabular room item) → Tabular (room + 1) (.arr items)
  | obj {room : Nat} {fields : List (Loose × Value)} : (∀ field ∈ fields, plainKey field.1 = true) →
      (∀ field ∈ fields, Tabular room field.2) → Tabular (room + 1) (.obj fields)

section Regular

variable {depth : Nat} {row : Row} {value : Value} {lead : List Char}

theorem mem_itemRows {items : List Value} (mem : row ∈ Value.itemRows depth items) :
    ∃ item ∈ items, ∃ comma, row ∈ item.rows (depth + 1) (Value.indent (depth + 1)) comma := by
  induction items with
  | nil => simp [Value.itemRows] at mem
  | cons item items ih =>
    rcases mem_append.mp mem with first | later
    · exact ⟨item, mem_cons_self, _, first⟩
    · obtain ⟨other, among, comma, inside⟩ := ih later
      exact ⟨other, mem_cons_of_mem _ among, comma, inside⟩

theorem mem_fieldRows {fields : List (Loose × Value)} (mem : row ∈ Value.fieldRows depth fields) :
    ∃ field ∈ fields, ∃ comma, row ∈ field.2.rows (depth + 1) (keyLead (2 * (depth + 1)) field.1) comma := by
  induction fields with
  | nil => simp [Value.fieldRows] at mem
  | cons field fields ih =>
    rcases mem_append.mp mem with first | later
    · exact ⟨field, mem_cons_self, _, first⟩
    · obtain ⟨other, among, comma, inside⟩ := ih later
      exact ⟨other, mem_cons_of_mem _ among, comma, inside⟩

/-- What may stand in front of a value. -/
def FitsLead (value : Value) (lead : List Char) : Prop :=
  ∃ n ≤ 14, value.isContainer = true ∧ lead = replicate n ' ' ∨
    ∃ key, plainKey key = true ∧ lead = keyLead n key

theorem FitsLead.bracket {value : Value} {lead text : List Char} (fits : FitsLead value lead) (comma : Bool)
    (isBracket : text ∈ brackets) : Row.Regular ⟨lead, text, comma⟩ := by
  rcases fits with ⟨n, few, ⟨-, rfl⟩ | ⟨key, plain, rfl⟩⟩
  · exact .bracket few isBracket
  · exact .opening few plain isBracket

theorem FitsLead.scalar {text : List Char} (fits : FitsLead value lead) (comma : Bool)
    (single : value.isContainer = false) (isScalar : IsScalar text) :
    Row.Regular ⟨lead, text, comma⟩ := by
  rcases fits with ⟨n, few, ⟨several, -⟩ | ⟨key, plain, rfl⟩⟩
  · rw [single] at several
    cases several
  · exact .field few plain isScalar

/-- The rows of a tabular value are regular. -/
theorem Tabular.regular {room : Nat} (tabular : Tabular room value) {comma : Bool}
    (shallow : depth + room ≤ 7) (fits : FitsLead value lead) :
    ∀ row ∈ value.rows depth lead comma, row.Regular := by
  have indented {depth : Nat} (shallow : depth ≤ 7) (comma : Bool) {text : List Char}
      (isBracket : text ∈ brackets) : Row.Regular ⟨Value.indent depth, text, comma⟩ :=
    .bracket (by omega) isBracket
  induction tabular generalizing depth lead comma with
  | str quiet =>
    simp only [Value.rows, forall_mem_singleton]
    exact fits.scalar comma rfl (.quote quiet)
  | int =>
    simp only [Value.rows, forall_mem_singleton]
    exact fits.scalar comma rfl .int
  | @arr room items containers _ ih =>
    cases items with
    | nil =>
      simp only [Value.rows, forall_mem_singleton]
      exact fits.bracket comma (by simp [brackets, Value.indented])
    | cons item items =>
      refine forall_mem_cons.mpr ⟨fits.bracket false (by decide), forall_mem_append.mpr
        ⟨fun row mem => ?_, by simpa using indented (by omega) comma (by decide)⟩⟩
      obtain ⟨item, among, comma, inside⟩ := mem_itemRows mem
      exact ih item among (by omega) ⟨2 * (depth + 1), by omega, .inl ⟨containers item among, rfl⟩⟩ row inside
  | @obj room fields keys _ ih =>
    cases fields with
    | nil =>
      simp only [Value.rows, forall_mem_singleton]
      exact fits.bracket comma (by simp [brackets, Value.indented])
    | cons field fields =>
      refine forall_mem_cons.mpr ⟨fits.bracket false (by decide), forall_mem_append.mpr
        ⟨fun row mem => ?_, by simpa using indented (by omega) comma (by decide)⟩⟩
      obtain ⟨field, among, comma, inside⟩ := mem_fieldRows mem
      exact ih field among (by omega)
        ⟨2 * (depth + 1), by omega, .inr ⟨field.1, keys field among, rfl⟩⟩ row inside

end Regular

section Characters

theorem isSpace_printable {c : Char} (printable : isPrintable c = true) : isSpace (.char c) = (c == ' ') := by
  obtain ⟨least, most⟩ := of_decide_eq_true printable
  have low : 32 ≤ c.toNat := UInt32.le_iff_toNat_le.mp least
  have high : c.toNat ≤ 126 := UInt32.le_iff_toNat_le.mp most
  have same : c = ' ' ↔ c.toNat = 32 :=
    ⟨fun space => by rw [space]; rfl, fun value => Char.toNat_inj.mp value⟩
  have value : (CodePoint.char c).value = c.toNat := rfl
  rw [Bool.eq_iff_iff, beq_iff_eq, same]
  simp only [isSpace, Bool.or_eq_true, Bool.and_eq_true, decide_eq_true_eq, contains_cons,
    contains_nil, Bool.or_false, beq_iff_eq]
  omega

variable {cs : List Char}

theorem narrow_printable (printable : ∀ c ∈ cs, isPrintable c = true) : Narrow (pointsOf cs) :=
  forall_mem_map.mpr fun c mem => if_pos (of_decide_eq_true (printable c mem))

theorem solid_printable (printable : ∀ c ∈ cs, isPrintable c = true) : Solid (pointsOf cs) ↔ ' ' ∉ cs := by
  constructor
  · intro solid mem
    have := solid _ (mem_map_of_mem mem)
    cases this
  · intro noSpace
    refine forall_mem_map.mpr fun c mem => ?_
    rw [isSpace_printable (printable c mem)]
    exact beq_eq_false_iff_ne.mpr fun space => noSpace (space ▸ mem)

theorem takeWhile_printable (printable : ∀ c ∈ cs, isPrintable c = true) :
    (pointsOf cs).takeWhile (!isSpace ·) = pointsOf (cs.takeWhile (· != ' ')) := by
  induction cs with
  | nil => rfl
  | cons c cs ih =>
    obtain ⟨first, others⟩ := forall_mem_cons.mp printable
    rw [pointsOf_cons, takeWhile_cons, isSpace_printable first, ih others]
    cases space : c == ' ' <;> simp [bne, space]

variable {key : Loose}

theorem plainKey_length (plain : plainKey key = true) : (quote key).length ≤ 14 := by
  simp only [plainKey, Bool.and_eq_true, decide_eq_true_eq] at plain
  exact plain.1

theorem plainKey_mem (plain : plainKey key = true) :
    ∀ c ∈ quote key, c ≠ ' ' ∧ c ≠ '[' ∧ c ≠ '\\' := by
  simp only [plainKey, Bool.and_eq_true, all_eq_true, bne_iff_ne] at plain
  exact fun c mem => ⟨(plain.2 c mem).1.1.2, (plain.2 c mem).1.2, (plain.2 c mem).2⟩

theorem replicate_printable (n : Nat) : ∀ c ∈ replicate n ' ', isPrintable c = true := by
  intro c mem
  rw [eq_of_mem_replicate mem]
  rfl

theorem keyLead_printable (n : Nat) (key : Loose) : ∀ c ∈ keyLead n key, isPrintable c = true := by
  simp only [keyLead, forall_mem_append]
  exact ⟨replicate_printable n, quote_printable key, by simp [isPrintable]⟩

theorem IsScalar.printable (isScalar : IsScalar cs) : ∀ c ∈ cs, isPrintable c = true := by
  cases isScalar with
  | quote => exact quote_printable _
  | int => exact toString_printable _

theorem brackets_printable : ∀ text ∈ brackets, ∀ c ∈ text, isPrintable c = true := by
  simp [brackets, isPrintable]

theorem closing_printable (comma : Bool) : ∀ c ∈ closing comma, isPrintable c = true := by
  cases comma <;> simp [closing, isPrintable]

theorem closing_length (comma : Bool) : (closing comma).length ≤ 1 := by
  cases comma <;> simp [closing]

theorem keyLead_length {n : Nat} (few : n ≤ 14) (plain : plainKey key = true) :
    (keyLead n key).length ≤ 30 := by
  have short := plainKey_length plain
  simp only [keyLead, length_append, length_replicate, length_cons, length_nil]
  omega

namespace Row.Regular

theorem printable {row : Row} (regular : row.Regular) : ∀ c ∈ row.line, isPrintable c = true := by
  rw [line]
  simp only [forall_mem_append]
  cases regular with
  | bracket few isBracket =>
    exact ⟨replicate_printable _, brackets_printable _ isBracket, closing_printable _⟩
  | opening few plain isBracket =>
    exact ⟨keyLead_printable _ _, brackets_printable _ isBracket, closing_printable _⟩
  | field few plain isScalar =>
    exact ⟨keyLead_printable _ _, isScalar.printable, closing_printable _⟩

end Row.Regular

theorem IsScalar.bounds (isScalar : IsScalar cs) :
    StartsSolid (pointsOf cs) ∧ EndsSolid (pointsOf cs) := by
  cases isScalar with
  | @quote s =>
    refine ⟨⟨.char '"', _, rfl, rfl⟩, ⟨pointsOf ('"' :: s.points.flatMap escapePoint), .char '"', ?_, rfl⟩⟩
    simp [Json.quote]
  | @int n =>
    have solid : ∀ c ∈ (toString n).toList, isSpace (.char c) = false := by
      intro c member
      rw [isSpace_printable (toString_printable n c member)]
      refine beq_eq_false_iff_ne.mpr ?_
      rintro rfl
      simpa [isDecimalDigit] using mem_toString_int member
    obtain ⟨c, rest, written, -⟩ := exists_toString_int n
    rw [written] at solid ⊢
    refine ⟨⟨.char c, _, rfl, solid c List.mem_cons_self⟩, ?_⟩
    refine ⟨pointsOf ((c :: rest).dropLast), .char ((c :: rest).getLast (by simp)), ?_,
      solid _ (List.getLast_mem _)⟩
    rw [← pointsOf_nil, ← pointsOf_cons, ← pointsOf_append, List.dropLast_append_getLast]

/-- A row with a value is a line behind a key. -/
theorem keyed_field (n : Nat) (key : Loose) (text : List Char) (comma : Bool)
    (plain : plainKey key = true) (isScalar : IsScalar text) :
    Keyed (pointsOf (keyLead n key)) (pointsOf text) (pointsOf (closing comma)) := by
  obtain ⟨starts, ends⟩ := isScalar.bounds
  refine ⟨?_, ⟨pointsOf (replicate n ' '), pointsOf (quote key ++ [':']), ?_, ?_, ?_, ?_⟩, starts, ends,
    ?_, ?_⟩
  · rw [← pointsOf_append, ← pointsOf_append]
    refine narrow_printable (forall_mem_append.mpr ⟨keyLead_printable n key, ?_⟩)
    exact forall_mem_append.mpr ⟨isScalar.printable, closing_printable comma⟩
  · simp [keyLead]
  · refine forall_mem_map.mpr fun c mem => ?_
    rw [eq_of_mem_replicate mem]
    rfl
  · refine (solid_printable ?_).mpr ?_
    · exact forall_mem_append.mpr ⟨quote_printable key, by simp [isPrintable]⟩
    · simpa using fun mem => (plainKey_mem plain ' ' mem).1 rfl
  · simp
  · exact (solid_printable (closing_printable comma)).mpr (by cases comma <;> simp [closing])
  · simpa [pointsOf] using closing_length comma

end Characters

namespace Row

variable {width : Nat} {row : Row}

def fits (width : Nat) (row : Row) : Bool := decide (row.line.length ≤ width)

/-- The first word of the text does not fit behind the lead, and on a line of its own the whole text does.
A comma may be left over if no blank in the text comes before it. -/
def moves (width : Nat) (row : Row) : Bool :=
  let part := row.text ++ closing row.comma
  decide (width < row.lead.length + (part.takeWhile (· != ' ')).length) &&
    (decide (part.length ≤ width) || decide (row.text.length ≤ width) && !row.text.contains ' ')

/-- On lines of some width the row is broken in front of its text or behind it, if at all. -/
def survives (width : Nat) (row : Row) : Bool := row.fits width || row.moves width

end Row

/-- Where rows that survive are broken. -/
def gapsAt (width : Nat) : Gaps where
  front row := !row.fits width
  back row := !row.fits width && decide (width < (row.text ++ closing row.comma).length)

section Printing

variable {width : Nat} {row : Row}

theorem brackets_length : ∀ text ∈ brackets, text.length ≤ 2 := by decide

/-- Only rows with values can be long. -/
theorem Row.Regular.fits_or_field (regular : row.Regular) (wide : 33 ≤ width) : row.fits width = true ∨
    ∃ n key, n ≤ 14 ∧ plainKey key = true ∧ row.lead = keyLead n key ∧ IsScalar row.text := by
  cases regular with
  | @bracket n text comma few isBracket =>
    have short := brackets_length text isBracket
    have mark := closing_length comma
    simp only [Row.fits, Row.line, length_append, length_replicate, decide_eq_true_eq]
    omega
  | @opening n key text comma few plain isBracket =>
    have short := brackets_length text isBracket
    have mark := closing_length comma
    have lead := keyLead_length few plain
    simp only [Row.fits, Row.line, length_append, decide_eq_true_eq]
    omega
  | @field n key text comma few plain isScalar => exact .inr ⟨n, key, few, plain, rfl, isScalar⟩

theorem firstCells_row (printable : ∀ c ∈ row.text ++ closing row.comma, isPrintable c = true) :
    Keyed.firstCells (pointsOf row.text) (pointsOf (closing row.comma)) =
      ((row.text ++ closing row.comma).takeWhile (· != ' ')).length := by
  rw [Keyed.firstCells, ← pointsOf_append, takeWhile_printable printable, pointsOf, length_map]

@[simp]
theorem length_pointsOf (cs : List Char) : (pointsOf cs).length = cs.length := length_map _

/-- A row that survives is printed with breaks in front of and behind its text only. -/
theorem Row.Regular.printLine_eq (regular : row.Regular) (wide : 33 ≤ width)
    (survives : row.survives width = true) :
    printLine width (pointsOf row.line) = pointsOf (row.spread (gapsAt width) ++ ['\n']) := by
  have narrow := narrow_printable regular.printable
  by_cases short : row.fits width = true
  · rw [Console.printLine_of_le narrow (by simpa [Row.fits] using short)]
    simp [Row.spread, gapsAt, short, breakIf, Row.line]
  · obtain ⟨n, key, few, plain, lead, isScalar⟩ := (regular.fits_or_field wide).resolve_left short
    have keyed := keyed_field n key row.text row.comma plain isScalar
    have leadFits := keyLead_length few plain
    have printable := regular.printable
    simp only [Row.survives, short, Bool.false_or, Row.moves, Bool.and_eq_true, Bool.or_eq_true,
      decide_eq_true_eq, Bool.not_eq_true', contains_eq_mem, decide_eq_false_iff_not] at survives
    obtain ⟨unfit, either⟩ := survives
    rw [Row.line, forall_mem_append] at printable
    rw [← firstCells_row printable.2, lead] at unfit
    have front : (gapsAt width).front row = true := by simp [gapsAt, short]
    rw [Row.line, Row.spread, front, lead, pointsOf_append, pointsOf_append]
    by_cases together : (row.text ++ closing row.comma).length ≤ width
    · have back : (gapsAt width).back row = false := by simpa [gapsAt, short] using together
      rw [back, keyed.printLine_of_moved (by simpa using leadFits.trans (by omega)) (by simpa using unfit)
        (by simpa using together)]
      simp [breakIf]
    · have back : (gapsAt width).back row = true := by simpa [gapsAt, short] using together
      obtain ⟨alone, noSpace⟩ := either.resolve_left together
      rw [back, keyed.printLine_of_full (by simpa using leadFits.trans (by omega))
        (by simpa using together) (by simpa using alone)
        ((solid_printable isScalar.printable).mpr noSpace)]
      simp [breakIf]

/-- A row that does not survive is broken within its text. -/
theorem Row.Regular.exists_break (regular : row.Regular) (wide : 33 ≤ width)
    (broken : row.survives width = false) : ∃ gap n c behind, 0 < n ∧ n < row.text.length ∧ c ∈ row.text ∧
      printLine width (pointsOf row.line) =
        pointsOf (row.lead ++ (breakIf gap ++ (row.text.take n ++ ['\n', c]))) ++ behind := by
  simp only [Row.survives, Bool.or_eq_false_iff] at broken
  obtain ⟨long, stays⟩ := broken
  obtain ⟨n, key, few, plain, lead, isScalar⟩ :=
    (regular.fits_or_field wide).resolve_left (by simp [long])
  have keyed := keyed_field n key row.text row.comma plain isScalar
  have leadFits := keyLead_length few plain
  have printable := regular.printable
  rw [Row.line, forall_mem_append] at printable
  have tooLong : width < (keyLead n key).length + (row.text ++ closing row.comma).length := by
    simpa [Row.fits, Row.line, lead] using long
  have stuck : width < (keyLead n key).length +
      Keyed.firstCells (pointsOf row.text) (pointsOf (closing row.comma)) →
      width < (row.text ++ closing row.comma).length ∧
        (row.text.length ≤ width → ¬Solid (pointsOf row.text)) := by
    intro unfit
    rw [firstCells_row printable.2, ← lead] at unfit
    rw [solid_printable isScalar.printable]
    simpa [Row.moves, unfit] using stays
  obtain ⟨gap, n, c, behind, either, some, less, mem, printed⟩ :=
    @Keyed.printLine_of_broken _ _ _ width keyed (by simpa using leadFits.trans_lt (by omega))
      (by simpa using tooLong) (by simpa using stuck)
  obtain ⟨d, inside, rfl⟩ := mem_map.mp mem
  refine ⟨gap == [.char '\n'], n, d, behind, some, by simpa using less, inside, ?_⟩
  rw [Row.line, lead, pointsOf_append, pointsOf_append, printed]
  rcases either with rfl | rfl <;> simp [breakIf, pointsOf]

end Printing

section Scanning

/-- Between rows one stands outside of texts and words. -/
def Stand.isCalm (s : Stand) : Bool := s.isOutside && s != .word

variable {s : Stand} {row : Row} {gaps : Gaps}

theorem Stand.isCalm_iff : s.isCalm = true ↔ s.isOutside = true ∧ s ≠ .word := by
  simp [isCalm]

theorem Stand.run_lineEnd (outside : s.isOutside = true) :
    ∃ s', s.run ['\n'] = some s' ∧ s'.isCalm = true := by
  rw [run_cons, step_blank outside rfl]
  split <;> exact ⟨_, rfl, rfl⟩

theorem Stand.run_closing (outside : s.isOutside = true) (comma : Bool) :
    ∃ s', s.run (closing comma) = some s' ∧ s'.isOutside = true := by
  cases comma with
  | false => exact ⟨s, rfl, outside⟩
  | true => exact ⟨.free, by simp [closing, step_mark outside (show isMark ',' = true from rfl)], rfl⟩

theorem Stand.run_keyLead (calm : s.isCalm = true) (n : Nat) (key : Loose) :
    s.run (keyLead n key) = some .free := by
  obtain ⟨s', ran, outside, -⟩ := run_blank (isCalm_iff.mp calm).1 (Blank.replicate n)
  have colon : Stand.step .free ':' = some .free := rfl
  have space : Stand.step .free ' ' = some .free := rfl
  simp [keyLead, ran, run_quote outside key, colon, space]

variable {text : List Char}

theorem Stand.run_bracket (outside : s.isOutside = true) (isBracket : text ∈ brackets) :
    s.run text = some .free := by
  have marks : ∀ text ∈ brackets, text ≠ [] ∧ ∀ c ∈ text, isMark c = true := by
    simp [brackets, isMark]
  obtain ⟨some, each⟩ := marks text isBracket
  clear isBracket marks
  induction text generalizing s with
  | nil => exact absurd rfl some
  | cons c text ih =>
    obtain ⟨first, others⟩ := forall_mem_cons.mp each
    rw [run_cons, step_mark outside first]
    by_cases last : text = []
    · rw [last]
      rfl
    · exact @ih .free rfl last others

theorem Stand.run_scalar (isScalar : IsScalar text) :
    ∃ s, Stand.run .free text = some s ∧ s.isOutside = true := by
  cases isScalar with
  | quote => exact ⟨.free, run_quote rfl _, rfl⟩
  | @int n =>
    obtain ⟨c, cs, written, -⟩ := exists_toString_int n
    exact ⟨.word, run_free_wordly isWordly_toString (by rw [written]; exact cons_ne_nil c cs), rfl⟩

/-- Breaks in front of and behind its text do not change where a row leads. -/
theorem Row.run_spread {t : Stand} (led : s.run row.lead = some t) (outside : t.isOutside = true)
    (reads : ∀ t' : Stand, t'.isOutside = true → (t = .free → t' = .free) →
      ∃ u : Stand, t'.run row.text = some u ∧ u.isOutside = true) (gaps : Gaps) :
    ∃ s', s.run (row.spread gaps ++ ['\n']) = some s' ∧ s'.isCalm = true := by
  obtain ⟨t₁, front, outside, free, -⟩ := Stand.run_blank outside (breakIf_blank (gaps.front row))
  obtain ⟨t₂, text, outside⟩ := reads t₁ outside free
  obtain ⟨t₃, back, outside, -⟩ := Stand.run_blank outside (breakIf_blank (gaps.back row))
  obtain ⟨t₄, closed, outside⟩ := Stand.run_closing outside row.comma
  obtain ⟨s', ended, calm⟩ := Stand.run_lineEnd outside
  refine ⟨s', ?_, calm⟩
  simp only [Row.spread, Stand.run_append, led, front, text, back, closed, ended, Option.bind_some]

/-- A row leads from between rows to between rows, wherever its line is broken. -/
theorem Row.Regular.run_calm (regular : row.Regular) (gaps : Gaps) (calm : s.isCalm = true) :
    ∃ s', s.run (row.spread gaps ++ ['\n']) = some s' ∧ s'.isCalm = true := by
  cases regular with
  | @bracket n text comma few isBracket =>
    obtain ⟨t, blanks, outside, -⟩ := Stand.run_blank (Stand.isCalm_iff.mp calm).1 (Blank.replicate n)
    exact Row.run_spread blanks outside
      (fun t' outside _ => ⟨.free, Stand.run_bracket outside isBracket, rfl⟩) gaps
  | @opening n key text comma few plain isBracket =>
    exact Row.run_spread (Stand.run_keyLead calm n key) rfl
      (fun t' outside _ => ⟨.free, Stand.run_bracket outside isBracket, rfl⟩) gaps
  | @field n key text comma few plain isScalar =>
    refine Row.run_spread (Stand.run_keyLead calm n key) rfl (fun t' _ free => ?_) gaps
    rw [free rfl]
    exact Stand.run_scalar isScalar

theorem run_spread_calm {rows : List Row} (regular : ∀ row ∈ rows, row.Regular) (gaps : Gaps)
    (calm : s.isCalm = true) : ∃ s', s.run (spread gaps rows) = some s' ∧ s'.isCalm = true := by
  induction rows generalizing s with
  | nil => exact ⟨s, rfl, calm⟩
  | cons row rows ih =>
    obtain ⟨first, others⟩ := forall_mem_cons.mp regular
    obtain ⟨t, one, calm⟩ := first.run_calm gaps calm
    obtain ⟨s', rest, calm⟩ := ih others calm
    refine ⟨s', ?_, calm⟩
    rw [spread_cons, ← singleton_append, ← append_assoc, Stand.run_append, one,
      Option.bind_some, rest]

/-- A break within a text or a number leads astray. -/
theorem IsScalar.run_broken {n : Nat} {c : Char} (isScalar : IsScalar text) (positive : 0 < n)
    (less : n < text.length) (mem : c ∈ text) : Stand.run .free (text.take n ++ ['\n', c]) = none := by
  cases isScalar with
  | @quote s =>
    obtain ⟨t, ran, inside⟩ := Stand.run_quote_front (s := .free) rfl s (n := n) positive less
    have refused : t.step '\n' = none := by
      cases t with
      | free | word | gap => cases inside
      | quoted | escaped => rfl
    simp [ran, refused]
  | @int k =>
    have wordly := isWordly_toString (n := k)
    have some : (toString k).toList.take n ≠ [] := by
      intro empty
      have length := congrArg length empty
      rw [length_take, length_nil] at length
      omega
    have ran := Stand.run_free_wordly (fun d front => wordly d (mem_of_mem_take front)) some
    -- Digits alone could be read in two parts, so the digit behind the break is needed too.
    have gap : Stand.step .word '\n' = .some .gap := rfl
    have refused : Stand.step .gap c = none := Stand.step_wordly rfl (wordly c mem)
    rw [Stand.run_append, ran, Option.bind_some, Stand.run_cons, gap, Option.bind_some, Stand.run_cons,
      refused]
    rfl

/-- A row that does not survive is printed as something that leads astray. -/
theorem Row.Regular.run_broken {width : Nat} (regular : row.Regular) (wide : 33 ≤ width)
    (broken : row.survives width = false) :
    ∃ front behind, printLine width (pointsOf row.line) = pointsOf front ++ behind ∧
      ∀ s : Stand, s.isCalm = true → s.run front = none := by
  obtain ⟨gap, m, c, behind, positive, less, mem, printed⟩ := regular.exists_break wide broken
  refine ⟨_, behind, printed, fun s calm => ?_⟩
  have long : row.fits width = false := by
    simp only [Row.survives, Bool.or_eq_false_iff] at broken
    exact broken.1
  obtain ⟨n, key, -, -, lead, isScalar⟩ := (regular.fits_or_field wide).resolve_left (by simp [long])
  obtain ⟨t, gapped, -, free, -⟩ := Stand.run_blank (s := .free) rfl (breakIf_blank gap)
  rw [free rfl] at gapped
  rw [lead, Stand.run_append, Stand.run_keyLead calm, Option.bind_some, Stand.run_append, gapped]
  exact isScalar.run_broken positive less mem

end Scanning

section Quietness

variable {row : Row}

theorem keyLead_calm {n : Nat} {key : Loose} (plain : plainKey key = true) : Calm (keyLead n key) := by
  simp only [keyLead, Calm, forall_mem_append]
  refine ⟨fun c mem => ?_, fun c mem => (plainKey_mem plain c mem).2, by simp⟩
  rw [eq_of_mem_replicate mem]
  decide

theorem Calm.last {cs : List Char} (calm : Calm cs) : ∀ c ∈ cs.getLast?, c ≠ '[' ∧ c ≠ '\\' :=
  fun c last => calm c (mem_of_getLast? last)

theorem IsScalar.quiet {text : List Char} (isScalar : IsScalar text) :
    Quiet (pointsOf text) ∧ ∀ c ∈ text.getLast?, c ≠ '[' ∧ c ≠ '\\' := by
  cases isScalar with
  | @quote s quiet =>
    refine ⟨quote_quiet quiet, fun c last => ?_⟩
    obtain rfl : '"' = c := by simpa [Json.quote, List.getLast?_cons] using last
    decide
  | int => exact ⟨(toString_calm _).quiet, (toString_calm _).last⟩

/-- A line with its end holds nothing that could be taken for a tag. -/
theorem Row.Regular.quiet (regular : row.Regular) : Quiet (pointsOf (row.line ++ ['\n'])) := by
  have bracketed {text : List Char} (comma : Bool) (isBracket : text ∈ brackets) :
      Quiet (pointsOf (text ++ (closing comma ++ ['\n']))) := by
    have each : ∀ comma, ∀ text ∈ brackets, Quiet (pointsOf (text ++ (closing comma ++ ['\n']))) := by
      decide
    exact each comma text isBracket
  rw [Row.line, append_assoc, append_assoc]
  cases regular with
  | @bracket n text comma few isBracket =>
    have calm : Calm (replicate n ' ') := fun c mem => by
      rw [eq_of_mem_replicate mem]
      decide
    exact quiet_append calm.last calm.quiet (bracketed comma isBracket)
  | @opening n key text comma few plain isBracket =>
    exact quiet_append (keyLead_calm plain).last (keyLead_calm plain).quiet (bracketed comma isBracket)
  | @field n key text comma few plain isScalar =>
    obtain ⟨quiet, last⟩ := isScalar.quiet
    have calm : Calm (closing comma ++ ['\n']) := by cases comma <;> simp [Calm, closing]
    exact quiet_append (keyLead_calm plain).last (keyLead_calm plain).quiet
      (quiet_append last quiet calm.quiet)

theorem spread_quiet {rows : List Row} (regular : ∀ row ∈ rows, row.Regular) :
    Quiet (pointsOf (spread .none rows)) := by
  induction rows with
  | nil => exact .nil
  | cons row rows ih =>
    obtain ⟨first, others⟩ := forall_mem_cons.mp regular
    exact quiet_append (by simp) first.quiet (ih others)

end Quietness

section Whole

variable {value : Value} {digits room width : Nat}

theorem intercalate_lines {lines : List (List CodePoint)} {separator : CodePoint} (some : lines ≠ []) :
    (lines.flatMap fun line => line ++ [separator]) = [separator].intercalate lines ++ [separator] := by
  induction lines with
  | nil => exact absurd rfl some
  | cons line lines ih =>
    cases lines with
    | nil => simp
    | cons next lines =>
      rw [flatMap_cons, ih (by simp)]
      simp

theorem rows_ne_nil (value : Value) (depth : Nat) (lead : List Char) (comma : Bool) :
    value.rows depth lead comma ≠ [] := by
  unfold Value.rows
  split <;> simp

theorem isStripped_printable {c : Char} (printable : isPrintable c = true) :
    Console.isStripped (.char c) = false := by
  have low : 32 ≤ c.toNat := UInt32.le_iff_toNat_le.mp (of_decide_eq_true printable).1
  have value : (CodePoint.char c).value = c.toNat := rfl
  simp only [Console.isStripped, value, contains_cons, contains_nil, Bool.or_false,
    Bool.or_eq_false_iff, beq_eq_false_iff_ne]
  omega

/-- The text of a value without loud texts is printed row by row. -/
theorem print_rows (readable : Readable digits room value)
    (regular : ∀ row ∈ value.rows 0 [] false, row.Regular) (width : Nat) :
    (Console.Item.text ⟨pointsOf (value.indented 0)⟩).print width =
      ⟨(value.rows 0 [] false).flatMap fun row => printLine width (pointsOf row.line)⟩ := by
  have text : spread .none (value.rows 0 [] false) = value.indented 0 ++ ['\n'] := by
    rw [spread_rows readable]
    simp [closing]
  have quiet : Quiet (pointsOf (value.indented 0)) := by
    have all := spread_quiet regular
    rw [text, pointsOf_append] at all
    exact (Console.Quiet.append_iff.mp all).1
  have printable : ∀ row ∈ value.rows 0 [] false, ∀ c ∈ row.line, isPrintable c = true :=
    fun row mem => (regular row mem).printable
  have visible : ∀ c ∈ pointsOf (value.indented 0), Console.isStripped c = false := by
    refine forall_mem_map.mpr fun c mem => ?_
    have inside : c ∈ spread .none (value.rows 0 [] false) := text ▸ mem_append_left _ mem
    simp only [spread, Row.spread_none, mem_flatMap, mem_append, mem_singleton] at inside
    obtain ⟨row, among, ⟨inLine⟩ | rfl⟩ := inside
    · exact isStripped_printable (printable row among c inLine)
    · rfl
  have outside {row : Row} (mem : row ∈ value.rows 0 [] false) {c : Char}
      (hidden : isPrintable c = false) : .char c ∉ pointsOf row.line := by
    intro inside
    obtain ⟨d, inLine, same⟩ := mem_map.mp inside
    cases same
    simp [printable row mem c inLine] at hidden
  have joined : ((value.rows 0 [] false).map fun row => pointsOf row.line).flatMap
      (fun line => line ++ [.char '\n']) = pointsOf (value.indented 0) ++ [.char '\n'] := by
    rw [← pointsOf_nil, ← pointsOf_cons, ← pointsOf_append, ← text]
    simp [spread, pointsOf, map_flatMap, flatMap_map]
  have lines : Text.splitAt (.char '\n') (pointsOf (value.indented 0)) =
      (value.rows 0 [] false).map fun row => pointsOf row.line := by
    have some : ((value.rows 0 [] false).map fun row => pointsOf row.line) ≠ [] := by
      simpa using rows_ne_nil value 0 [] false
    have whole := append_cancel_right ((intercalate_lines some).symm.trans joined)
    rw [Text.splitAt_eq_splitOn, ← whole]
    exact splitOn_intercalate _ (forall_mem_map.mpr fun row mem => outside mem rfl) some
  have noTab : ∀ line ∈ (value.rows 0 [] false).map (fun row => pointsOf row.line), .char '\t' ∉ line :=
    forall_mem_map.mpr fun row mem => outside mem rfl
  simp only [Console.Item.print, Console.plain_quiet quiet visible, Console.wrap_printed lines noTab,
    flatMap_map]

theorem flatMap_printLine {rows : List Row} (regular : ∀ row ∈ rows, row.Regular) (wide : 33 ≤ width)
    (survives : ∀ row ∈ rows, row.survives width = true) :
    (rows.flatMap fun row => printLine width (pointsOf row.line)) =
      pointsOf (spread (gapsAt width) rows) := by
  rw [spread, pointsOf, map_flatMap]
  exact flatMap_congr fun row mem =>
    (regular row mem).printLine_eq wide (survives row mem)

/-- If all rows survive, the text of a value is printed as its rows with breaks in front of and behind
their texts. -/
theorem print_survives (readable : Readable digits room value)
    (regular : ∀ row ∈ value.rows 0 [] false, row.Regular) (wide : 33 ≤ width)
    (survives : ∀ row ∈ value.rows 0 [] false, row.survives width = true) :
    (Console.Item.text ⟨pointsOf (value.indented 0)⟩).print width =
      ⟨pointsOf (spread (gapsAt width) (value.rows 0 [] false))⟩ := by
  rw [print_rows readable regular, flatMap_printLine regular wide survives]

/-- If some row does not survive, what is printed leads astray at the first such row. -/
theorem print_broken (readable : Readable digits room value)
    (regular : ∀ row ∈ value.rows 0 [] false, row.Regular) (wide : 33 ≤ width)
    (broken : ¬∀ row ∈ value.rows 0 [] false, row.survives width = true) :
    ∃ front behind, ((Console.Item.text ⟨pointsOf (value.indented 0)⟩).print width).points =
      pointsOf front ++ behind ∧ Stand.run .free front = none := by
  obtain ⟨row, first⟩ : ∃ row, (value.rows 0 [] false).find? (!·.survives width) = some row := by
    rw [← Option.isSome_iff_exists]
    simpa using broken
  -- All rows before it survive, so the scan reaches it between rows.
  obtain ⟨unlike, before, after, split, earlier⟩ := find?_eq_some_iff_append.mp first
  rw [print_rows readable regular]
  rw [split] at regular ⊢
  simp only [forall_mem_append, forall_mem_cons] at regular
  obtain ⟨regularBefore, regularRow, -⟩ := regular
  obtain ⟨front, behind, printed, astray⟩ := regularRow.run_broken wide (by simpa using unlike)
  obtain ⟨s, ran, calm⟩ := run_spread_calm (s := .free) regularBefore (gapsAt width) rfl
  refine ⟨spread (gapsAt width) before ++ front,
    behind ++ after.flatMap fun row => printLine width (pointsOf row.line), ?_, ?_⟩
  · rw [flatMap_append, flatMap_cons, printed, flatMap_printLine regularBefore wide fun row mem => by simpa using earlier row mem]
    simp
  · rw [Stand.run_append, ran, Option.bind_some, astray s calm]

end Whole

end GrammarLint.Json
