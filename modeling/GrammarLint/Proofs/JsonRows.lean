import GrammarLint.Proofs.JsonText

open List

namespace GrammarLint.Json

open Text (Loose)

def closing (comma : Bool) : List Char := if comma then [','] else []

def breakIf (broken : Bool) : List Char := if broken then ['\n'] else []

/-- A line of the text of a value. Its own text is a bracket, or a value without lines of its own. -/
structure Row where
  lead : List Char
  text : List Char
  comma : Bool

def Row.line (row : Row) : List Char := row.lead ++ (row.text ++ closing row.comma)

/-- Where lines are broken: in front of the text of a row, and behind it. -/
structure Gaps where
  front : Row → Bool
  back : Row → Bool

def Gaps.none : Gaps := ⟨fun _ => false, fun _ => false⟩

def Row.spread (gaps : Gaps) (row : Row) : List Char :=
  row.lead ++ (breakIf (gaps.front row) ++ (row.text ++ (breakIf (gaps.back row) ++ closing row.comma)))

def spread (gaps : Gaps) (rows : List Row) : List Char :=
  rows.flatMap fun row => row.spread gaps ++ ['\n']

namespace Value

def indent (depth : Nat) : List Char := replicate (2 * depth) ' '

mutual
/-- The lines of a value. The first begins with `lead`. -/
def rows (depth : Nat) (lead : List Char) (comma : Bool) : Value → List Row
  | arr (item :: items) =>
    ⟨lead, ['['], false⟩ :: (itemRows depth (item :: items) ++ [⟨indent depth, [']'], comma⟩])
  | obj (field :: fields) =>
    ⟨lead, ['\x7b'], false⟩ ::
      (fieldRows depth (field :: fields) ++ [⟨indent depth, ['\x7d'], comma⟩])
  | value => [⟨lead, value.indented depth, comma⟩]

def itemRows (depth : Nat) : List Value → List Row
  | [] => []
  | item :: items =>
    item.rows (depth + 1) (indent (depth + 1)) (!items.isEmpty) ++ itemRows depth items

def fieldRows (depth : Nat) : List (Loose × Value) → List Row
  | [] => []
  | (key, value) :: fields =>
    value.rows (depth + 1) (indent (depth + 1) ++ (quote key ++ [':', ' '])) (!fields.isEmpty) ++
      fieldRows depth fields
end

end Value

section Lines

variable {gaps : Gaps} (row : Row) (depth : Nat)

@[simp]
theorem spread_nil : spread gaps [] = [] := rfl

@[simp]
theorem spread_cons (rows : List Row) :
    spread gaps (row :: rows) = row.spread gaps ++ '\n' :: spread gaps rows := by
  simp [spread]

@[simp]
theorem spread_append (rows others : List Row) :
    spread gaps (rows ++ others) = spread gaps rows ++ spread gaps others := by
  simp [spread]

@[simp]
theorem Row.spread_none : row.spread .none = row.line := by
  simp [Row.spread, Row.line, Gaps.none, breakIf]

theorem breakIf_blank (broken : Bool) : Blank (breakIf broken) := by
  cases broken <;> simp [Blank, breakIf, isBlank]

theorem newLine_eq : Value.newLine depth = '\n' :: Value.indent depth := rfl

theorem indent_blank : Blank (Value.indent depth) := .replicate _

variable {depth : Nat} {value : Value}

/-- The text of the items of an array is that of their rows. -/
theorem indentedItems_eq {item : Value} {items : List Value}
    (each : ∀ v ∈ item :: items, ∀ lead comma, spread .none (v.rows (depth + 1) lead comma) =
      lead ++ (v.indented (depth + 1) ++ (closing comma ++ ['\n']))) :
    Value.indent (depth + 1) ++ (item.indented (depth + 1) ++ Value.indentedItems depth items) =
      spread .none (Value.itemRows depth (item :: items)) ++ (Value.indent depth ++ [']']) := by
  induction items generalizing item with
  | nil =>
    rw [Value.itemRows, spread_append, each item mem_cons_self]
    simp [Value.indentedItems, Value.itemRows, newLine_eq, closing]
  | cons next items ih =>
    obtain ⟨one, others⟩ := forall_mem_cons.mp each
    rw [Value.itemRows, spread_append, one, append_assoc, ← ih others, Value.indentedItems]
    simp [newLine_eq, closing]

theorem indentedFields_eq {key : Loose} {fields : List (Loose × Value)}
    (each : ∀ field ∈ (key, value) :: fields, ∀ lead comma, spread .none (field.2.rows (depth + 1) lead comma) =
      lead ++ (field.2.indented (depth + 1) ++ (closing comma ++ ['\n']))) :
    Value.indent (depth + 1) ++ (quote key ++ ([':', ' '] ++ (value.indented (depth + 1) ++
        Value.indentedFields depth fields))) =
      spread .none (Value.fieldRows depth ((key, value) :: fields)) ++ (Value.indent depth ++ ['\x7d']) := by
  induction fields generalizing key value with
  | nil =>
    rw [Value.fieldRows, spread_append, each _ mem_cons_self]
    simp [Value.indentedFields, Value.fieldRows, newLine_eq, closing]
  | cons next fields ih =>
    obtain ⟨one, others⟩ := forall_mem_cons.mp each
    rw [Value.fieldRows, spread_append, one, append_assoc, ← ih others, Value.indentedFields]
    simp [newLine_eq, closing]

/-- The text of a value is that of its rows. -/
theorem spread_rows {digits room : Nat} (readable : Readable digits room value) (depth : Nat)
    (lead : List Char) (comma : Bool) : spread .none (value.rows depth lead comma) =
      lead ++ (value.indented depth ++ (closing comma ++ ['\n'])) := by
  induction readable generalizing depth lead comma with
  | null | bool | int | float | str => simp [Value.rows, Row.line]
  | @arr _ items _ ih =>
    cases items with
    | nil => simp [Value.rows, Row.line]
    | cons item items =>
      have inside := indentedItems_eq fun v mem => ih v mem (depth + 1)
      simp only [Value.rows, Value.indented, spread_cons, spread_append, Row.spread_none, Row.line,
        newLine_eq]
      simpa [closing] using congrArg (· ++ (closing comma ++ ['\n'])) inside.symm
  | @obj _ fields _ _ _ ih =>
    cases fields with
    | nil => simp [Value.rows, Row.line]
    | cons field fields =>
      have inside := indentedFields_eq fun f mem => ih f mem (depth + 1)
      simp only [Value.rows, Value.indented, spread_cons, spread_append, Row.spread_none, Row.line,
        newLine_eq]
      simpa [closing] using congrArg (· ++ (closing comma ++ ['\n'])) inside.symm

end Lines

/-- The text is read as the value in front of all that can stand behind a value. -/
structure ReadAs (limits : Limits) (room : Nat) (value : Value) (text : List Char) : Prop where
  starts : ∃ c cs, text = c :: cs ∧ isBlank c = false ∧ c ≠ ']' ∧ c ≠ '\ufeff'
  reads : ∀ fuel rest, Ends rest → 2 * text.length ≤ fuel →
    readValue limits fuel room (text ++ rest) = .ok (value, rest)

/-- Between the lead of its first row and the end of its last one, a value stands as a text that is
read as the value. -/
def Laid (limits : Limits) (room : Nat) (gaps : Gaps) (value : Value) : Prop :=
  ∀ depth lead comma, ∃ front text back, ReadAs limits room value text ∧
    spread gaps (value.rows depth lead comma) =
      lead ++ (breakIf front ++ (text ++ (breakIf back ++ (closing comma ++ ['\n']))))

section Reading

variable {limits : Limits} {room : Nat} {gaps : Gaps} {c : Char} {text : List Char}

theorem ends_breakIf (broken : Bool) (ends : c = ',' ∨ c = '\n') (rest : List Char) :
    Ends (breakIf broken ++ c :: rest) := by
  cases broken <;> simp [Ends, breakIf, ends]

variable {value : Value} {key : Loose} {fields : List (Loose × Value)}

theorem ReadAs.plain {cs : List Char} (begins : text = c :: cs) (solid : isBlank c = false)
    (noMark : c ∉ ['"', '[', '\x7b', ']', '\ufeff'])
    (plain : ∀ rest, Ends rest → readPlain limits (text ++ rest) = .ok (value, rest)) :
    ReadAs limits room value text := by
  simp only [mem_cons, not_mem_nil, or_false, not_or] at noMark
  obtain ⟨noText, noArray, noObject, noEnd, noOrder⟩ := noMark
  refine ⟨⟨c, cs, begins, solid, noEnd, noOrder⟩, fun fuel rest ends enough => ?_⟩
  rw [begins, length_cons] at enough
  obtain _ | fuel := fuel
  · omega
  have read := plain rest ends
  rw [begins, cons_append] at read ⊢
  rw [readValue_plain noText noArray noObject, read]

theorem ReadAs.int (positive : 0 < limits.digits) {n : Int} (few : n.natAbs < 10 ^ limits.digits) :
    ReadAs limits room (.int n) (toString n).toList := by
  obtain ⟨c, cs, written, either⟩ := exists_toString_int n
  refine .plain written (Bool.eq_false_iff.mpr fun blank => ?_) (fun mark => ?_)
    fun rest ends => readPlain_int positive few ends
  · simp only [isBlank, Bool.or_eq_true, beq_iff_eq] at blank
    rcases blank with ((rfl | rfl) | rfl) | rfl <;> simp [isDecimalDigit] at either
  · simp only [mem_cons, not_mem_nil, or_false] at mark
    rcases mark with rfl | rfl | rfl | rfl | rfl <;> simp [isDecimalDigit] at either

theorem ReadAs.quote {s : Loose} (unpaired : Unpaired s.points) :
    ReadAs limits room (.str s) (quote s) := by
  refine ⟨⟨'"', _, rfl, rfl, by decide, by decide⟩, fun fuel rest ends enough => ?_⟩
  rw [Json.quote, length_cons] at enough
  obtain _ | fuel := fuel
  · omega
  exact readValue_quote unpaired rest

/-- A value on one line stands there as it is. -/
theorem Laid.of_readAs
    (single : ∀ depth lead comma, value.rows depth lead comma = [⟨lead, value.indented depth, comma⟩])
    (readAs : ∀ depth, ReadAs limits room value (value.indented depth)) :
    Laid limits room gaps value := by
  intro depth lead comma
  let row : Row := ⟨lead, value.indented depth, comma⟩
  refine ⟨gaps.front row, _, gaps.back row, readAs depth, ?_⟩
  rw [single, spread_cons, Row.spread]
  simp [spread_nil, append_assoc, row]

/-- The items of an array are read one behind the other. -/
theorem readItems_spread {item : Value} {items : List Value}
    (each : ∀ v ∈ item :: items, Laid limits room gaps v) (depth : Nat) :
    ∃ blanks inner, Blank blanks ∧
      spread gaps (Value.itemRows depth (item :: items)) = blanks ++ inner ∧
      (∃ c cs, inner = c :: cs ∧ isBlank c = false ∧ c ≠ ']') ∧
      ∀ fuel post rest, Blank post → 2 * inner.length < fuel →
        readItems limits fuel room (inner ++ (post ++ ']' :: rest)) = .ok (item :: items, rest) := by
  induction items generalizing item with
  | nil =>
    obtain ⟨front, text, back, readAs, written⟩ := each item mem_cons_self (depth + 1) _ false
    obtain ⟨c, cs, begins, solid, noEnd, -⟩ := readAs.starts
    refine ⟨Value.indent (depth + 1) ++ breakIf front, text ++ (breakIf back ++ ['\n']),
      (indent_blank _).append (breakIf_blank _), ?_, ⟨c, _, by rw [begins, cons_append], solid,
        noEnd⟩, fun fuel post rest blank enough => ?_⟩
    · rw [Value.itemRows, spread_append, isEmpty_nil, Bool.not_true, written]
      simp [Value.itemRows, closing]
    · obtain _ | fuel := fuel
      · omega
      rw [length_append] at enough
      have one := readAs.reads fuel (breakIf back ++ '\n' :: (post ++ ']' :: rest))
        (ends_breakIf back (.inr rfl) _) (by omega)
      have between : Blank (breakIf back ++ '\n' :: post) :=
        (breakIf_blank _).append (forall_mem_cons.mpr ⟨rfl, blank⟩)
      refine readItems_last between ?_
      simpa using one
  | cons next items ih =>
    obtain ⟨first, others⟩ := forall_mem_cons.mp each
    obtain ⟨front, text, back, readAs, written⟩ := first (depth + 1) (Value.indent (depth + 1)) true
    obtain ⟨c, cs, begins, solid, noEnd, -⟩ := readAs.starts
    obtain ⟨blanks, inner, blankInner, later, ⟨d, ds, innerBegins, innerSolid, -⟩, reads⟩ := ih others
    refine ⟨Value.indent (depth + 1) ++ breakIf front,
      text ++ (breakIf back ++ ',' :: '\n' :: (blanks ++ inner)),
      (indent_blank _).append (breakIf_blank _), ?_, ⟨c, _, by rw [begins, cons_append], solid,
        noEnd⟩, fun fuel post rest blank enough => ?_⟩
    · rw [Value.itemRows, spread_append, isEmpty_cons, Bool.not_false, written, later]
      simp [closing]
    · obtain _ | fuel := fuel
      · omega
      simp only [length_append, length_cons] at enough
      have one := readAs.reads fuel
        (breakIf back ++ ',' :: '\n' :: (blanks ++ (inner ++ (post ++ ']' :: rest))))
        (ends_breakIf back (.inl rfl) _) (by omega)
      have more := reads fuel post rest blank (by omega)
      have between : Blank ('\n' :: blanks) := forall_mem_cons.mpr ⟨rfl, blankInner⟩
      rw [innerBegins] at one more ⊢
      refine readItems_more (breakIf_blank back) between innerSolid ?_ more
      simpa using one

theorem Value.insert_new (new : key ∉ fields.map (·.1)) :
    Value.insert key value fields = fields ++ [(key, value)] := by
  induction fields with
  | nil => rfl
  | cons first fields ih =>
    simp only [map_cons, mem_cons, not_or] at new
    rw [Value.insert, if_neg (by simpa using Ne.symm new.1), ih new.2, cons_append]

theorem key_new {before : List (Loose × Value)}
    (distinct : ((before ++ (key, value) :: fields).map (·.1)).Nodup) : key ∉ before.map (·.1) := by
  rw [map_append] at distinct
  intro old
  exact (nodup_append.mp distinct).2.2 key old key mem_cons_self rfl

/-- The fields of an object are read one behind the other. -/
theorem readFields_spread
    (each : ∀ field ∈ (key, value) :: fields, Unpaired field.1.points ∧ Laid limits room gaps field.2)
    (depth : Nat) : ∃ blanks inner, Blank blanks ∧
      spread gaps (Value.fieldRows depth ((key, value) :: fields)) = blanks ++ '"' :: inner ∧
      ∀ fuel before post rest, Blank post →
        ((before ++ (key, value) :: fields).map (·.1)).Nodup → 2 * ('"' :: inner).length < fuel →
        readFields limits fuel room before ('"' :: inner ++ (post ++ '\x7d' :: rest)) =
          .ok (before ++ (key, value) :: fields, rest) := by
  have space (front : Bool) : Blank (' ' :: breakIf front) :=
    forall_mem_cons.mpr ⟨rfl, breakIf_blank front⟩
  induction fields generalizing key value with
  | nil =>
    obtain ⟨unpaired, laid⟩ := each _ mem_cons_self
    obtain ⟨front, text, back, readAs, written⟩ := laid (depth + 1)
      (Value.indent (depth + 1) ++ (quote key ++ [':', ' '])) false
    obtain ⟨c, cs, begins, solid, -⟩ := readAs.starts
    refine ⟨Value.indent (depth + 1), key.points.flatMap escapePoint ++ '"' :: ':' :: ' ' ::
      (breakIf front ++ (text ++ (breakIf back ++ ['\n']))), indent_blank _, ?_,
      fun fuel before post rest blank distinct enough => ?_⟩
    · rw [Value.fieldRows, spread_append, isEmpty_nil, Bool.not_true, written]
      simp [Value.fieldRows, closing, quote]
    · obtain _ | fuel := fuel
      · omega
      simp only [length_append, length_cons] at enough
      have one := readAs.reads fuel (breakIf back ++ '\n' :: (post ++ '\x7d' :: rest))
        (ends_breakIf back (.inr rfl) _) (by omega)
      have between : Blank (breakIf back ++ '\n' :: post) :=
        (breakIf_blank _).append (forall_mem_cons.mpr ⟨rfl, blank⟩)
      rw [← Value.insert_new (key_new distinct)]
      rw [begins] at one ⊢
      have all := readFields_last before unpaired (space front) solid between (by simpa using one)
      simpa [quote] using all
  | cons next fields ih =>
    obtain ⟨⟨unpaired, laid⟩, others⟩ := forall_mem_cons.mp each
    obtain ⟨front, text, back, readAs, written⟩ := laid (depth + 1)
      (Value.indent (depth + 1) ++ (quote key ++ [':', ' '])) true
    obtain ⟨c, cs, begins, solid, -⟩ := readAs.starts
    obtain ⟨blanks, inner, blankInner, later, reads⟩ := ih others
    refine ⟨Value.indent (depth + 1), key.points.flatMap escapePoint ++ '"' :: ':' :: ' ' ::
      (breakIf front ++ (text ++ (breakIf back ++ ',' :: '\n' :: (blanks ++ '"' :: inner)))),
      indent_blank _, ?_, fun fuel before post rest blank distinct enough => ?_⟩
    · rw [Value.fieldRows, spread_append, isEmpty_cons, Bool.not_false, written, later]
      simp [closing, quote]
    · obtain _ | fuel := fuel
      · omega
      simp only [length_append, length_cons] at enough
      have one := readAs.reads fuel
        (breakIf back ++ ',' :: '\n' :: (blanks ++ '"' :: (inner ++ (post ++ '\x7d' :: rest))))
        (ends_breakIf back (.inl rfl) _) (by omega)
      have more := reads fuel (before ++ [(key, value)]) post rest blank
        (by rwa [append_assoc]) (by rw [length_cons]; omega)
      rw [append_assoc, ← Value.insert_new (key_new distinct)] at more
      have between : Blank ('\n' :: blanks) := forall_mem_cons.mpr ⟨rfl, blankInner⟩
      rw [begins] at one ⊢
      have all := readFields_more unpaired (space front) solid (breakIf_blank back) between
        (by simpa using one) more
      simpa [quote] using all

/-- A value over several lines, given how the text between its brackets is read. -/
theorem Laid.of_inner {opening close : Char} {inner : Nat → List Row}
    (several : ∀ depth lead comma, value.rows depth lead comma =
      ⟨lead, [opening], false⟩ :: (inner depth ++ [⟨Value.indent depth, [close], comma⟩]))
    (readAs : ∀ depth pre post, Blank pre → Blank post →
      ReadAs limits room value (opening :: (pre ++ (spread gaps (inner depth) ++ (post ++ [close]))))) :
    Laid limits room gaps value := by
  intro depth lead comma
  let last : Row := ⟨Value.indent depth, [close], comma⟩
  have pre : Blank (breakIf (gaps.back ⟨lead, [opening], false⟩) ++ ['\n']) :=
    (breakIf_blank _).append (by simp [Blank, isBlank])
  have post : Blank (Value.indent depth ++ breakIf (gaps.front last)) :=
    (indent_blank _).append (breakIf_blank _)
  refine ⟨gaps.front ⟨lead, [opening], false⟩, _, gaps.back last, readAs depth _ _ pre post, ?_⟩
  rw [several, spread_cons, spread_append, spread_cons, Row.spread, Row.spread]
  simp [closing, last]

/-- A value that a text can hold is read from its rows, wherever their lines are broken. -/
theorem Readable.laid (positive : 0 < limits.digits) {value : Value}
    (readable : Readable limits.digits room value) (noFloat : value.floatFree = true) :
    Laid limits room gaps value := by
  induction readable with
  | null =>
    exact .of_readAs (fun _ _ _ => by simp [Value.rows])
      fun _ => .plain rfl rfl (by decide) fun _ _ => rfl
  | @bool _ b =>
    refine .of_readAs (fun _ _ _ => by simp [Value.rows]) fun _ => ?_
    cases b <;> exact .plain rfl rfl (by decide) fun _ _ => rfl
  | int few => exact .of_readAs (fun _ _ _ => by simp [Value.rows]) fun _ => .int positive few
  | float => cases noFloat
  | str unpaired => exact .of_readAs (fun _ _ _ => by simp [Value.rows]) fun _ => .quote unpaired
  | @arr room items _ ih =>
    have each := Value.floatFree_arr.mp noFloat
    cases items with
    | nil =>
      refine .of_readAs (fun _ _ _ => by simp [Value.rows]) fun depth =>
        ⟨⟨'[', [']'], rfl, rfl, by decide, by decide⟩, fun fuel rest _ enough => ?_⟩
      obtain _ | fuel := fuel
      · simp [Value.indented] at enough
      rfl
    | cons item items =>
      refine .of_inner (fun _ _ _ => by rw [Value.rows]) fun depth pre post blankPre blankPost =>
        ⟨⟨'[', _, rfl, rfl, by decide, by decide⟩, fun fuel rest _ enough => ?_⟩
      obtain ⟨blanks, inner, blank, written, ⟨c, cs, begins, solid, noEnd⟩, reads⟩ :=
        readItems_spread (fun v mem => ih v mem (each v mem)) depth
      simp only [written, length_cons, length_append] at enough
      obtain _ | fuel := fuel
      · omega
      have inside := reads fuel post rest blankPost (by omega)
      have skip := (blankPre.append blank).skip solid (cs ++ (post ++ ']' :: rest))
      rw [begins] at inside
      simpa [written, begins] using readValue_array skip noEnd inside
  | @obj room fields distinct keys _ ih =>
    have each := Value.floatFree_obj.mp noFloat
    cases fields with
    | nil =>
      refine .of_readAs (fun _ _ _ => by simp [Value.rows]) fun depth =>
        ⟨⟨'\x7b', ['\x7d'], rfl, rfl, by decide, by decide⟩, fun fuel rest _ enough => ?_⟩
      obtain _ | fuel := fuel
      · simp [Value.indented] at enough
      rfl
    | cons field fields =>
      refine .of_inner (fun _ _ _ => by rw [Value.rows]) fun depth pre post blankPre blankPost =>
        ⟨⟨'\x7b', _, rfl, rfl, by decide, by decide⟩, fun fuel rest _ enough => ?_⟩
      obtain ⟨blanks, inner, blank, written, reads⟩ := readFields_spread
        (fun field mem => ⟨keys field mem, ih field mem (each field mem)⟩) depth
      simp only [written, length_cons, length_append] at enough
      obtain _ | fuel := fuel
      · omega
      have inside := reads fuel [] post rest blankPost distinct (by rw [length_cons]; omega)
      have skip := (blankPre.append blank).skip (show isBlank '"' = false from rfl)
        (inner ++ (post ++ '\x7d' :: rest))
      simpa [written] using readValue_object skip (by decide) inside

theorem ReadAs.read (readAs : ReadAs limits limits.nesting value text) (front back : Bool)
    {rest : List Char} (blank : Blank rest) (ends : Ends (breakIf back ++ rest)) :
    read limits (breakIf front ++ (text ++ (breakIf back ++ rest))) = .ok value := by
  obtain ⟨c, cs, begins, solid, -, noOrder⟩ := readAs.starts
  have skip := (breakIf_blank front).skip solid (cs ++ (breakIf back ++ rest))
  have value := readAs.reads (2 * (breakIf front ++ (text ++ (breakIf back ++ rest))).length + 1) _ ends
    (by simp only [length_append]; omega)
  have last := ((breakIf_blank back).append blank).skip_all
  rw [← cons_append, ← begins] at skip
  unfold Json.read
  split
  · rename_i rest order
    cases front <;> simp [breakIf, begins, noOrder] at order
  · rw [skip, value, ok_bind]
    simp only [last]
    rfl

/-- A value is read from its rows, wherever their lines are broken in front of or behind a text. -/
theorem read_spread (positive : 0 < limits.digits)
    (readable : Readable limits.digits limits.nesting value) (noFloat : value.floatFree = true)
    (gaps : Gaps) : read limits (spread gaps (value.rows 0 [] false)) = .ok value := by
  obtain ⟨front, text, back, readAs, written⟩ := readable.laid positive noFloat 0 [] false
  rw [written]
  exact readAs.read front back (by simp [Blank, closing, isBlank]) (ends_breakIf back (.inr rfl) _)

/-- The text of a value is read as the value. -/
theorem read_indented (positive : 0 < limits.digits)
    (readable : Readable limits.digits limits.nesting value) (noFloat : value.floatFree = true) :
    read limits (value.indented 0) = .ok value := by
  obtain ⟨front, text, back, readAs, written⟩ :=
    Readable.laid positive readable noFloat 0 [] false
  rw [spread_rows readable] at written
  have same : value.indented 0 = breakIf front ++ (text ++ (breakIf back ++ [])) := by
    simpa [← append_assoc] using written
  rw [same]
  refine readAs.read front back .nil ?_
  cases back <;> simp [Ends, breakIf]

end Reading

end GrammarLint.Json
