import GrammarLint.Proofs.QuietText

open List

namespace GrammarLint

open Text (CodePoint Loose)

namespace Text

/-- No half of a surrogate pair stands alone. -/
def Whole (points : List CodePoint) : Prop := ∀ p ∈ points, p.char?.isSome = true

namespace Whole

variable {cs ds : List CodePoint}

theorem nil : Whole [] := by simp [Whole]

theorem cons_iff {c : CodePoint} : Whole (c :: cs) ↔ c.char?.isSome = true ∧ Whole cs := forall_mem_cons

theorem append_iff : Whole (cs ++ ds) ↔ Whole cs ∧ Whole ds := forall_mem_append

theorem append (first : Whole cs) (second : Whole ds) : Whole (cs ++ ds) := append_iff.mpr ⟨first, second⟩

theorem subset (whole : Whole cs) (inside : ds ⊆ cs) : Whole ds := fun p mem => whole p (inside mem)

theorem flatMap {α : Type} {items : List α} {f : α → List CodePoint} (each : ∀ a ∈ items, Whole (f a)) :
    Whole (items.flatMap f) := by
  intro p mem
  obtain ⟨a, inItems, inside⟩ := mem_flatMap.mp mem
  exact each a inItems p inside

theorem replicate (n : Nat) (c : Char) : Whole (replicate n (.char c)) := by
  intro p mem
  rw [eq_of_mem_replicate mem]
  rfl

theorem chars (cs : List Char) : Whole (cs.map .char) := by
  intro p mem
  obtain ⟨c, -, rfl⟩ := mem_map.mp mem
  rfl

theorem intersperse {separator : List CodePoint} (sep : Whole separator) {parts : List (List CodePoint)}
    (each : ∀ part ∈ parts, Whole part) : Whole (parts.intersperse separator).flatten := by
  induction parts with
  | nil => exact .nil
  | cons part parts ih =>
    obtain ⟨here, later⟩ := forall_mem_cons.mp each
    cases parts with
    | nil => simpa using here
    | cons next parts => exact here.append (sep.append (ih later))

end Whole

theorem Loose.whole_ofString (s : String) : Whole (ofString s).points := .chars s.toList

theorem Loose.whole_append {s t : Loose} (first : Whole s.points) (second : Whole t.points) :
    Whole (s ++ t).points := first.append second

/-- A text between two others that are strings. -/
theorem Loose.whole_between {t : Loose} (before behind : String) (whole : Whole t.points) :
    Whole (before ++ t ++ behind : Loose).points :=
  whole_append (whole_append (whole_ofString before) whole) (whole_ofString behind)

end Text

namespace Console

open Text (Whole)

variable {cs : List CodePoint} {width : Nat}

section Markup

theorem unescape_whole (whole : Whole cs) : Whole (unescape cs) := by
  fun_induction unescape cs with
  | case1 rest ih => exact Whole.cons_iff.mpr ⟨rfl, ih (Whole.cons_iff.mp (Whole.cons_iff.mp whole).2).2⟩
  | case2 c rest _ ih =>
    obtain ⟨here, later⟩ := Whole.cons_iff.mp whole
    exact Whole.cons_iff.mpr ⟨here, ih later⟩
  | case3 => exact .nil

theorem tag?_split {tag behind : List CodePoint} (found : tag? cs = some (tag, behind)) :
    cs = tag ++ .char ']' :: behind := by
  cases cs with
  | nil => cases found
  | cons c rest =>
    simp only [tag?] at found
    split at found
    · rename_i after same
      split at found
      · cases found
        rw [cons_append, ← same, takeWhile_append_dropWhile]
      · cases found
    · cases found

theorem stretches_whole {fuel : Nat} {before : List CodePoint} (first : Whole before) (whole : Whole cs) :
    ∀ stretch ∈ stretches fuel before cs, Whole stretch.shown := by
  have shown {ds : List CodePoint} (whole : Whole ds) : Whole (Stretch.text ds.reverse).shown :=
    unescape_whole (whole.subset (by simp))
  fun_induction stretches fuel before cs with
  | case1 before cs => simpa using shown first
  | case2 before fuel => simpa using shown first
  | case3 before fuel c rest slashes inner bracket tag behind found ih =>
    have inside : Whole inner := whole.subset fun p mem =>
      drop_subset slashes.length _ (bracket ▸ mem_cons_of_mem _ mem)
    rw [tag?_split found, Whole.append_iff, Whole.cons_iff] at inside
    have escaped : Whole (if slashes.length % 2 == 1 then .char '[' :: (tag ++ [.char ']']) else []) := by
      split
      · exact Whole.cons_iff.mpr ⟨rfl, inside.1.append (.chars [']'])⟩
      · exact .nil
    simp only [forall_mem_cons]
    exact ⟨shown first, .replicate _ _, escaped, ih .nil inside.2.2⟩
  | case4 before fuel c rest slashes inner bracket none ih =>
    have inside : Whole inner := whole.subset fun p mem =>
      drop_subset slashes.length _ (bracket ▸ mem_cons_of_mem _ mem)
    have marks : Whole slashes := whole.subset (takeWhile_subset _)
    exact ih (Whole.cons_iff.mpr ⟨rfl, marks.append first⟩) inside
  | case5 before fuel c rest slashes other none ih =>
    obtain ⟨here, later⟩ := Whole.cons_iff.mp whole
    exact ih (Whole.cons_iff.mpr ⟨here, first⟩) later
  | case6 before fuel c rest slashes other some ih =>
    have marks : Whole slashes := whole.subset (takeWhile_subset _)
    exact ih (marks.append first) (whole.subset (drop_subset _ _))

theorem plain_whole (whole : Whole cs) : Whole (plain cs) := by
  have shown : Whole (if cs.contains '[' then (stretches cs.length [] cs).flatMap Stretch.shown else cs) := by
    split
    · exact .flatMap (stretches_whole .nil whole)
    · exact whole
  exact shown.subset (filter_subset_self _)

end Markup

section Lines

theorem cutAt_subset {start : Nat} {places : List Nat} {piece : List CodePoint}
    (mem : piece ∈ cutAt start cs places) : piece ⊆ cs := by
  induction places generalizing start cs with
  | nil => simp_all [cutAt]
  | cons place places ih =>
    rcases mem_cons.mp mem with rfl | later
    · exact take_subset _ _
    · exact List.Subset.trans (ih later) (drop_subset _ _)

theorem fillCells_whole (whole : Whole cs) : Whole (fillCells width cs) := by
  induction cs generalizing width with
  | nil => exact .replicate _ _
  | cons c cs ih =>
    obtain ⟨here, later⟩ := Whole.cons_iff.mp whole
    unfold fillCells
    split
    · exact Whole.cons_iff.mpr ⟨here, ih later⟩
    · exact .replicate _ _

theorem truncate_whole {overflow : Overflow} (whole : Whole cs) : Whole (truncate width overflow cs) := by
  unfold truncate
  split
  · exact whole
  · cases overflow with
    | fold => exact fillCells_whole whole
    | ellipsis => exact (fillCells_whole whole).append (.chars ['…'])

theorem expandTabs_whole {used : Nat} (whole : Whole cs) : Whole (expandTabs used cs) := by
  fun_induction expandTabs used cs with
  | case1 => exact .nil
  | case2 used rest size ih => exact (Whole.replicate _ _).append (ih (Whole.cons_iff.mp whole).2)
  | case3 used c rest _ ih =>
    obtain ⟨here, later⟩ := Whole.cons_iff.mp whole
    exact Whole.cons_iff.mpr ⟨here, ih later⟩

theorem wrap_whole {overflow : Overflow} (whole : Whole cs) :
    ∀ line ∈ wrap width overflow cs, Whole line := by
  intro line mem
  obtain ⟨part, inText, inPart⟩ := mem_flatMap.mp mem
  obtain ⟨piece, cut, rfl⟩ := mem_map.mp inPart
  have own : Whole part := whole.subset (Text.of_mem_splitAt inText).2
  have expanded : Whole (if part.contains '\t' then expandTabs 0 part else part) := by
    split
    · exact expandTabs_whole own
    · exact own
  exact truncate_whole ((expanded.subset (cutAt_subset cut)).subset (take_subset _ _))

end Lines

namespace Table

theorem setLine_whole {centered : Bool} (whole : Whole cs) : Whole (setLine centered width cs) := by
  cases centered with
  | true => 
    have stripped : Whole (Text.stripRight cs) := whole.subset fun p mem => by
      simpa using dropWhile_subset _ (mem_reverse.mp mem)
    exact ((Whole.replicate _ _).append stripped).append (.replicate _ _)
  | false => exact whole.append (.replicate _ _)

theorem cellLines_whole {centered : Bool} (whole : Whole cs) :
    ∀ line ∈ cellLines centered width cs, Whole line := by
  intro line mem
  obtain ⟨piece, wrapped, rfl⟩ := mem_map.mp mem
  exact Whole.cons_iff.mpr ⟨rfl, (setLine_whole (wrap_whole whole piece wrapped)).append (.chars [' '])⟩

theorem rowLines_whole {bar : CodePoint} (isChar : bar.char?.isSome = true)
    {cells : List (Nat × List (List CodePoint))} (each : ∀ cell ∈ cells, ∀ line ∈ cell.2, Whole line) :
    ∀ line ∈ rowLines bar cells, Whole line := by
  intro line mem
  obtain ⟨i, -, rfl⟩ := mem_map.mp mem
  have bars : Whole [bar] := Whole.cons_iff.mpr ⟨isChar, .nil⟩
  suffices general : ∀ front, Whole front → Whole (cells.foldl (fun line cell =>
      line ++ (cell.2[i]?).getD (replicate cell.1 (.char ' ')) ++ [bar]) front) from general _ bars
  clear mem
  induction cells with
  | nil => exact fun front whole => whole
  | cons cell cells ih =>
    intro front whole
    obtain ⟨here, later⟩ := forall_mem_cons.mp each
    refine ih later _ ((whole.append ?_).append bars)
    cases found : cell.2[i]? with
    | none => exact .replicate _ _
    | some line => exact here line (mem_of_getElem? found)

theorem rule_whole {left line cross right : Char} (widths : List Nat) :
    Whole (rule left line cross right widths) := by
  refine Whole.cons_iff.mpr ⟨rfl, (Whole.intersperse (.chars [cross]) ?_).append (.chars [right])⟩
  intro part mem
  obtain ⟨width, -, rfl⟩ := mem_map.mp mem
  exact .replicate _ _

/-- All texts of a table are whole. -/
structure Whole (table : Table) : Prop where
  titles : ∀ column ∈ table.columns, Text.Whole column.title
  rows : ∀ row ∈ table.rows, ∀ text ∈ row, Text.Whole text

theorem Whole.lines {table : Table} (whole : table.Whole) : ∀ line ∈ table.lines width, Text.Whole line := by
  have row {bar : Char} {texts : List (List CodePoint)} (each : ∀ text ∈ texts, Text.Whole text) :
      ∀ line ∈ rowLines bar ((table.columns.zip ((table.widths width).zip texts)).map
        fun cell => (cell.2.1, cellLines cell.1.centered cell.2.1 cell.2.2)), Text.Whole line := by
    refine rowLines_whole rfl fun cell member => ?_
    obtain ⟨⟨column, width, text⟩, zipped, rfl⟩ := mem_map.mp member
    exact cellLines_whole (each text (of_mem_zip (of_mem_zip zipped).2).2)
  intro line member
  simp only [Table.lines, mem_append, mem_singleton, mem_flatMap] at member
  rcases member with (((rfl | title) | rfl) | ⟨texts, inRows, inRow⟩) | rfl
  · exact rule_whole _
  · exact row (forall_mem_map.mpr whole.titles) line title
  · exact rule_whole _
  · exact row (whole.rows texts inRows) line inRow
  · exact rule_whole _

end Table

/-- All texts of an item are whole. -/
def Item.Whole : Item → Prop
  | .text markup => Text.Whole markup.points
  | .table grid => grid.Whole

theorem Item.Whole.print {item : Item} (whole : item.Whole) : Text.Whole (item.print width).points := by
  refine .flatMap fun line mem => Text.Whole.append ?_ (.chars ['\n'])
  cases item with
  | text markup => exact wrap_whole (plain_whole whole) line mem
  | table grid => exact Table.Whole.lines whole line mem

end Console

end GrammarLint
