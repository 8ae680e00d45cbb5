import GrammarLint.Proofs.JsonNumbers
import GrammarLint.Proofs.JsonStrings
import GrammarLint.Proofs.Outcomes

open List

namespace GrammarLint.Json

open Text (CodePoint Loose)

namespace Value

mutual
/-- There are only whole numbers in the value. -/
def floatFree : Value → Bool
  | float _ => false
  | arr items => floatFreeItems items
  | obj fields => floatFreeFields fields
  | _ => true

def floatFreeItems : List Value → Bool
  | [] => true
  | item :: items => item.floatFree && floatFreeItems items

def floatFreeFields : List (Loose × Value) → Bool
  | [] => true
  | (_, value) :: fields => value.floatFree && floatFreeFields fields
end

@[simp]
theorem floatFree_arr {items : List Value} :
    (arr items).floatFree = true ↔ ∀ item ∈ items, item.floatFree = true := by
  rw [floatFree]
  induction items with
  | nil => simp [floatFreeItems]
  | cons item items ih => simp [floatFreeItems, ih]

@[simp]
theorem floatFree_obj {fields : List (Loose × Value)} :
    (obj fields).floatFree = true ↔ ∀ field ∈ fields, field.2.floatFree = true := by
  rw [floatFree]
  induction fields with
  | nil => simp [floatFreeFields]
  | cons field fields ih => simp [floatFreeFields, ih]

end Value

/-- A value that a text can hold: its whole numbers have no more digits than allowed, its arrays and
objects go on for no more than `room` levels, all pairs in texts are joined and no key comes
twice. -/
inductive Readable (digits : Nat) : Nat → Value → Prop
  | null {room : Nat} : Readable digits room .null
  | bool {room : Nat} {b : Bool} : Readable digits room (.bool b)
  | int {room : Nat} {n : Int} : n.natAbs < 10 ^ digits → Readable digits room (.int n)
  | float {room : Nat} {x : Float} : Readable digits room (.float x)
  | str {room : Nat} {s : Loose} : Unpaired s.points → Readable digits room (.str s)
  | arr {room : Nat} {items : List Value} : (∀ item ∈ items, Readable digits room item) →
      Readable digits (room + 1) (.arr items)
  | obj {room : Nat} {fields : List (Loose × Value)} : (fields.map (·.1)).Nodup →
      (∀ field ∈ fields, Unpaired field.1.points) →
      (∀ field ∈ fields, Readable digits room field.2) → Readable digits (room + 1) (.obj fields)

section Reading

variable {limits : Limits} {fuel room : Nat} {cs rest : List Char}

theorem readString_unpaired {s : Loose} (read : readString cs = .ok (s, rest)) : Unpaired s.points := by
  obtain ⟨units, -, same⟩ := bind_ok read
  cases same
  exact joinUnits_unpaired _

variable {value : Value} {key : Loose} {fields : List (Loose × Value)}

theorem readPlain_readable (read : readPlain limits cs = .ok (value, rest)) :
    Readable limits.digits room value := by
  rcases readPlain_kind read with rfl | ⟨b, rfl⟩ | ⟨n, rfl⟩ | ⟨x, rfl⟩
  · exact .null
  · exact .bool
  · exact .int (readPlain_few read)
  · exact .float

theorem Value.mem_insert {field : Loose × Value} (mem : field ∈ Value.insert key value fields) :
    field = (key, value) ∨ field ∈ fields := by
  induction fields with
  | nil => exact .inl (mem_singleton.mp mem)
  | cons first fields ih =>
    rw [Value.insert] at mem
    split at mem
    · exact (mem_cons.mp mem).imp_right (mem_cons_of_mem _)
    · rcases mem_cons.mp mem with rfl | later
      · exact .inr mem_cons_self
      · exact (ih later).imp_right (mem_cons_of_mem _)

/-- A new value for a key takes the place of the old one. -/
theorem Value.nodup_insert (distinct : (fields.map (·.1)).Nodup) :
    ((Value.insert key value fields).map (·.1)).Nodup := by
  induction fields with
  | nil => simp [Value.insert]
  | cons first fields ih =>
    obtain ⟨new, later⟩ := nodup_cons.mp distinct
    rw [Value.insert]
    split
    · rename_i same
      rw [← eq_of_beq same]
      exact distinct
    · rename_i other
      refine nodup_cons.mpr ⟨fun mem => ?_, ih later⟩
      obtain ⟨field, inside, key⟩ := mem_map.mp mem
      rcases Value.mem_insert inside with rfl | old
      · exact other (by simp [← key])
      · exact new (mem_map.mpr ⟨field, old, key⟩)

theorem Readable.insert {digits : Nat} (readable : Readable digits (room + 1) (.obj fields))
    (unpaired : Unpaired key.points) (valueReadable : Readable digits room value) :
    Readable digits (room + 1) (.obj (Value.insert key value fields)) := by
  cases readable with
  | obj distinct keys values =>
    refine .obj (Value.nodup_insert distinct) (fun field mem => ?_) (fun field mem => ?_)
    · rcases Value.mem_insert mem with rfl | old
      · exact unpaired
      · exact keys field old
    · rcases Value.mem_insert mem with rfl | old
      · exact valueReadable
      · exact values field old

/-- What is read can be held by a text. -/
theorem read_readable (limits : Limits) (fuel : Nat) :
    (∀ {room cs value rest}, readValue limits fuel room cs = .ok (value, rest) →
      Readable limits.digits room value) ∧
    (∀ {room cs items rest}, readItems limits fuel room cs = .ok (items, rest) →
      ∀ item ∈ items, Readable limits.digits room item) ∧
    (∀ {room before cs fields rest}, Readable limits.digits (room + 1) (.obj before) →
      readFields limits fuel room before cs = .ok (fields, rest) →
      Readable limits.digits (room + 1) (.obj fields)) := by
  induction fuel with
  | zero =>
    refine ⟨fun read => ?_, fun read => ?_, fun _ read => ?_⟩
    · rw [readValue] at read
      cases read
    · rw [readItems] at read
      cases read
    · rw [readFields] at read
      cases read
  | succ fuel ih =>
    obtain ⟨values, items, fields⟩ := ih
    refine ⟨fun read => ?_, fun read => ?_, fun known read => ?_⟩
    · unfold readValue at read
      split at read
      · obtain ⟨s, readS, same⟩ := bind_ok read
        cases same
        exact .str (readString_unpaired (mapError_eq_ok.mp readS))
      · cases read
      · split at read
        · cases read
          exact .arr (by simp)
        · obtain ⟨found, readFound, same⟩ := bind_ok read
          cases same
          exact .arr (items readFound)
      · cases read
      · split at read
        · cases read
          exact .obj (by simp) (by simp) (by simp)
        · obtain ⟨found, readFound, same⟩ := bind_ok read
          cases same
          exact fields (.obj (by simp) (by simp) (by simp)) readFound
      · exact readPlain_readable read
    · obtain ⟨⟨item, later⟩, readItem, read⟩ := bind_ok read
      have one := values readItem
      simp only at read
      split at read
      · cases read
        simpa using one
      · obtain ⟨⟨others, behind⟩, readOthers, same⟩ := bind_ok read
        cases same
        exact forall_mem_cons.mpr ⟨one, items readOthers⟩
      · cases read
    · unfold readFields at read
      split at read
      · obtain ⟨⟨key, later⟩, readKey, read⟩ := bind_ok read
        have unpaired := readString_unpaired (mapError_eq_ok.mp readKey)
        simp only at read
        split at read
        · obtain ⟨⟨value, behind⟩, readOne, read⟩ := bind_ok read
          have more := known.insert unpaired (values readOne)
          split at read
          · cases read
            exact more
          · exact fields more read
          · cases read
        · cases read
      · cases read

theorem readable_of_read {text : List Char} (done : read limits text = .ok value) :
    Readable limits.digits limits.nesting value := by
  unfold read at done
  split at done
  · cases done
  · obtain ⟨⟨first, rest⟩, begun, ended⟩ := bind_ok done
    dsimp only at ended
    split at ended
    · cases ended
      exact (read_readable limits _).1 begun
    · cases ended

end Reading

def Blank (cs : List Char) : Prop := ∀ c ∈ cs, isBlank c = true

section Blanks

theorem Blank.append {cs ds : List Char} (first : Blank cs) (second : Blank ds) : Blank (cs ++ ds) :=
  forall_mem_append.mpr ⟨first, second⟩

theorem Blank.nil : Blank [] := by simp [Blank]

theorem Blank.replicate (n : Nat) : Blank (replicate n ' ') := by
  intro c mem
  rw [eq_of_mem_replicate mem]
  rfl

theorem skipBlanks_solid {c : Char} (solid : isBlank c = false) (cs : List Char) :
    skipBlanks (c :: cs) = c :: cs := by
  rw [skipBlanks, dropWhile_cons_of_neg (by simp [solid])]

theorem Blank.skip {blanks : List Char} (blank : Blank blanks) {c : Char} (solid : isBlank c = false)
    (cs : List Char) : skipBlanks (blanks ++ c :: cs) = c :: cs := by
  rw [skipBlanks, dropWhile_append_of_pos blank]
  exact skipBlanks_solid solid cs

theorem Blank.skip_all {blanks : List Char} (blank : Blank blanks) : skipBlanks blanks = [] :=
  dropWhile_eq_nil_iff.mpr blank

end Blanks

section Steps

variable {limits : Limits} {fuel room : Nat} {rest cs later : List Char} {c : Char} {items : List Value}
  {item value : Value} {key : Loose} {before fields : List (Loose × Value)} {front back between : List Char}

theorem readValue_plain (noText : c ≠ '"') (noArray : c ≠ '[') (noObject : c ≠ '\x7b')
    (cs : List Char) : readValue limits (fuel + 1) room (c :: cs) = readPlain limits (c :: cs) := by
  unfold readValue
  split <;> simp_all

theorem readValue_quote {s : Loose} (unpaired : Unpaired s.points) (rest : List Char) :
    readValue limits (fuel + 1) room (quote s ++ rest) = .ok (.str s, rest) := by
  rw [quote, cons_append, append_assoc, singleton_append, readValue,
    readString_quote unpaired]
  rfl

theorem readValue_array
    (skipped : skipBlanks cs = c :: later) (more : c ≠ ']')
    (read : readItems limits fuel room (c :: later) = .ok (items, rest)) :
    readValue limits (fuel + 1) (room + 1) ('[' :: cs) = .ok (.arr items, rest) := by
  unfold readValue
  simp only [skipped]
  split
  · rename_i same
    exact absurd (cons.inj same).1 more
  · rw [read]
    rfl

theorem readValue_object (skipped : skipBlanks cs = c :: later)
    (more : c ≠ '\x7d') (read : readFields limits fuel room [] (c :: later) = .ok (fields, rest)) :
    readValue limits (fuel + 1) (room + 1) ('\x7b' :: cs) = .ok (.obj fields, rest) := by
  unfold readValue
  simp only [skipped]
  split
  · rename_i same
    exact absurd (cons.inj same).1 more
  · rw [read]
    rfl

/-- The last item of an array. -/
theorem readItems_last {blanks : List Char} (blank : Blank blanks)
    (read : readValue limits fuel room cs = .ok (item, blanks ++ ']' :: rest)) :
    readItems limits (fuel + 1) room cs = .ok ([item], rest) := by
  rw [readItems, read, ok_bind]
  simp only [blank.skip (show isBlank ']' = false from rfl)]
  rfl

theorem readItems_more {before : List Char}
    (blankBefore : Blank before) (blankBetween : Blank between) (solid : isBlank c = false)
    (read : readValue limits fuel room cs = .ok (item, before ++ ',' :: (between ++ c :: later)))
    (others : readItems limits fuel room (c :: later) = .ok (items, rest)) :
    readItems limits (fuel + 1) room cs = .ok (item :: items, rest) := by
  rw [readItems, read, ok_bind]
  simp only [blankBefore.skip (show isBlank ',' = false from rfl), blankBetween.skip solid, others]
  rfl

/-- The last field of an object. -/
theorem readFields_last (before : List (Loose × Value)) (unpaired : Unpaired key.points)
    (blankFront : Blank front)
    (solid : isBlank c = false) (blankBack : Blank back)
    (read : readValue limits fuel room (c :: cs) = .ok (value, back ++ '\x7d' :: rest)) :
    readFields limits (fuel + 1) room before (quote key ++ ':' :: (front ++ c :: cs)) =
      .ok (Value.insert key value before, rest) := by
  rw [quote, cons_append, append_assoc, singleton_append, readFields,
    readString_quote unpaired]
  simp only [Except.mapError, ok_bind, skipBlanks_solid (show isBlank ':' = false from rfl),
    blankFront.skip solid, read, blankBack.skip (show isBlank '\x7d' = false from rfl)]
  rfl

theorem readFields_more (unpaired : Unpaired key.points)
    (blankFront : Blank front) (solid : isBlank c = false) (blankBack : Blank back)
    (blankBetween : Blank between)
    (read : readValue limits fuel room (c :: cs) =
      .ok (value, back ++ ',' :: (between ++ '"' :: later)))
    (others : readFields limits fuel room (Value.insert key value before) ('"' :: later) =
      .ok (fields, rest)) :
    readFields limits (fuel + 1) room before (quote key ++ ':' :: (front ++ c :: cs)) =
      .ok (fields, rest) := by
  rw [quote, cons_append, append_assoc, singleton_append, readFields,
    readString_quote unpaired]
  simp [Except.mapError, ok_bind, skipBlanks_solid (show isBlank ':' = false from rfl), blankFront.skip solid,
    read, blankBack.skip (show isBlank ',' = false from rfl),
    blankBetween.skip (show isBlank '"' = false from rfl), others]

end Steps

def isPrintable (c : Char) : Bool := decide (' ' ≤ c ∧ c ≤ '~')

def isWritten (c : Char) : Bool := c == '\n' || isPrintable c

section Written

variable {depth : Nat} (s : Loose)

theorem isWritten_of_isPrintable {c : Char} (printable : isPrintable c = true) : isWritten c = true := by
  simp [isWritten, printable]

theorem newLine_written : ∀ c ∈ Value.newLine depth, isWritten c = true := by
  intro c mem
  rcases mem_cons.mp mem with rfl | space
  · rfl
  · rw [eq_of_mem_replicate space]
    rfl

theorem toString_printable (n : Int) : ∀ c ∈ (toString n).toList, isPrintable c = true := by
  intro c mem
  rcases mem_toString_int mem with rfl | digit
  · rfl
  · simp only [isDecimalDigit, Bool.and_eq_true, decide_eq_true_eq] at digit
    exact decide_eq_true ⟨Char.le_trans (by decide) digit.1, Char.le_trans digit.2 (by decide)⟩

theorem unicodeEscape_printable (n : Nat) : ∀ c ∈ unicodeEscape n, isPrintable c = true := by
  have digit : ∀ n < 16, isPrintable (hexDigit n) = true := by decide
  simp [unicodeEscape, hex4, digit _ (Nat.mod_lt _ _), show isPrintable '\\' = true from rfl,
    show isPrintable 'u' = true from rfl]

theorem escapePoint_printable (point : CodePoint) : ∀ c ∈ escapePoint point, isPrintable c = true := by
  match point with
  | .half place => exact unicodeEscape_printable _
  | .char c =>
    rw [escapePoint]
    by_cases direct : isDirect c = true
    · rcases escapeChar_direct direct with ⟨e, letter, -, written⟩ | ⟨printable, -, -, written⟩
      · have letters : ∀ e ∈ ['"', '\\', 'n', 'r', 't', 'f', 'b'], isPrintable e = true := by
          simp [isPrintable]
        rw [written]
        exact forall_mem_cons.mpr ⟨rfl, by simpa using letters e letter⟩
      · rw [written]
        simp [isPrintable, printable]
    · rw [escapeChar_indirect direct]
      split
      · exact unicodeEscape_printable _
      · exact forall_mem_append.mpr ⟨unicodeEscape_printable _, unicodeEscape_printable _⟩

theorem quote_printable : ∀ c ∈ quote s, isPrintable c = true := by
  refine forall_mem_cons.mpr ⟨rfl, forall_mem_append.mpr ⟨?_, by simp [isPrintable]⟩⟩
  intro c mem
  obtain ⟨point, -, inside⟩ := mem_flatMap.mp mem
  exact escapePoint_printable point c inside

theorem quote_written : ∀ c ∈ quote s, isWritten c = true :=
  fun c mem => isWritten_of_isPrintable (quote_printable s c mem)

theorem indentedItems_written {items : List Value}
    (each : ∀ v ∈ items, ∀ c ∈ v.indented (depth + 1), isWritten c = true) :
    ∀ c ∈ Value.indentedItems depth items, isWritten c = true := by
  induction items with
  | nil => exact forall_mem_append.mpr ⟨newLine_written, by simp [isWritten, isPrintable]⟩
  | cons item items ih =>
    obtain ⟨one, others⟩ := forall_mem_cons.mp each
    refine forall_mem_cons.mpr ⟨rfl, ?_⟩
    simp only [forall_mem_append]
    exact ⟨⟨newLine_written, one⟩, ih others⟩

theorem indentedFields_written {fields : List (Loose × Value)}
    (each : ∀ field ∈ fields, ∀ c ∈ field.2.indented (depth + 1), isWritten c = true) :
    ∀ c ∈ Value.indentedFields depth fields, isWritten c = true := by
  induction fields with
  | nil => exact forall_mem_append.mpr ⟨newLine_written, by simp [isWritten, isPrintable]⟩
  | cons field fields ih =>
    obtain ⟨one, others⟩ := forall_mem_cons.mp each
    refine forall_mem_cons.mpr ⟨rfl, ?_⟩
    simp only [forall_mem_append]
    exact ⟨⟨⟨⟨newLine_written, quote_written _⟩, by simp [isWritten, isPrintable]⟩, one⟩, ih others⟩

/-- The text of a value has no other characters than printable ones and ends of lines. -/
theorem Readable.indented_written {digits room : Nat} {value : Value}
    (readable : Readable digits room value) (noFloat : value.floatFree = true) :
    ∀ c ∈ value.indented depth, isWritten c = true := by
  induction readable generalizing depth with
  | null => simp [Value.indented, isWritten, isPrintable]
  | @bool _ b => cases b <;> simp [Value.indented, isWritten, isPrintable]
  | @int _ n _ => exact fun c mem => isWritten_of_isPrintable (toString_printable n c mem)
  | float => cases noFloat
  | str _ => exact quote_written _
  | @arr _ items _ ih =>
    have each := Value.floatFree_arr.mp noFloat
    cases items with
    | nil => simp [Value.indented, isWritten, isPrintable]
    | cons item items =>
      have inside := fun v mem => @ih v mem (depth + 1) (each v mem)
      obtain ⟨one, others⟩ := forall_mem_cons.mp inside
      refine forall_mem_cons.mpr ⟨rfl, ?_⟩
      simp only [forall_mem_append]
      exact ⟨⟨newLine_written, one⟩, indentedItems_written others⟩
  | @obj _ fields _ _ _ ih =>
    have each := Value.floatFree_obj.mp noFloat
    cases fields with
    | nil => simp [Value.indented, isWritten, isPrintable]
    | cons field fields =>
      have inside := fun field mem => @ih field mem (depth + 1) (each field mem)
      obtain ⟨one, others⟩ := forall_mem_cons.mp inside
      refine forall_mem_cons.mpr ⟨rfl, ?_⟩
      simp only [forall_mem_append]
      exact ⟨⟨⟨⟨newLine_written, quote_written _⟩, by simp [isWritten, isPrintable]⟩, one⟩,
        indentedFields_written others⟩

end Written

/-- The value comes back from its own text. -/
structure Storable (digits room : Nat) (value : Value) : Prop where
  readable : Readable digits room value
  noFloat : value.floatFree = true

namespace Storable

variable {digits room : Nat} {value : Value} {fields : List (Loose × Value)} {key : Loose}

theorem obj_iff : Storable digits (room + 1) (.obj fields) ↔ (fields.map (·.1)).Nodup ∧
    ∀ field ∈ fields, Unpaired field.1.points ∧ Storable digits room field.2 := by
  constructor
  · rintro ⟨readable, noFloat⟩
    rw [Value.floatFree_obj] at noFloat
    cases readable with
    | obj distinct unpaired each =>
      exact ⟨distinct, fun field mem =>
        ⟨unpaired field mem, each field mem, noFloat field mem⟩⟩
  · rintro ⟨distinct, each⟩
    exact ⟨.obj distinct (fun field mem => (each field mem).1) fun field mem =>
      (each field mem).2.readable,
      Value.floatFree_obj.mpr fun field mem => (each field mem).2.noFloat⟩

theorem arr_map {α : Type} {f : α → Value} {items : List α}
    (each : ∀ a ∈ items, Storable digits room (f a)) : Storable digits (room + 1) (.arr (items.map f)) :=
  ⟨.arr (forall_mem_map.mpr fun a mem => (each a mem).readable),
    Value.floatFree_arr.mpr (forall_mem_map.mpr fun a mem => (each a mem).noFloat)⟩

theorem empty : Storable digits (room + 1) (.obj []) := obj_iff.mpr ⟨.nil, by simp⟩

theorem str {s : Loose} (unpaired : Unpaired s.points) : Storable digits room (.str s) :=
  ⟨.str unpaired, rfl⟩

theorem int {n : Int} (few : n.natAbs < 10 ^ digits) : Storable digits room (.int n) := ⟨.int few, rfl⟩

theorem bool (b : Bool) : Storable digits room (.bool b) := ⟨.bool, rfl⟩

theorem of_lookUp (storable : Storable digits (room + 1) (.obj fields))
    (found : Value.lookUp key fields = some value) : Storable digits room value := by
  obtain ⟨field, first, rfl⟩ := Option.map_eq_some_iff.mp found
  exact ((obj_iff.mp storable).2 field (mem_of_find?_eq_some first)).2

theorem getD_lookUp {standard : Value}
    (storable : Storable digits (room + 1) (.obj fields)) (usual : Storable digits room standard) :
    Storable digits room ((Value.lookUp key fields).getD standard) := by
  cases found : Value.lookUp key fields with
  | none => exact usual
  | some value => exact storable.of_lookUp found

end Storable

end GrammarLint.Json
