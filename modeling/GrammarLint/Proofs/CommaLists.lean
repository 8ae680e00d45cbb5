import GrammarLint.Proofs.FoundFiles

open List

namespace GrammarLint.Text

open String (ofList utf8Len)
open String.Pos (Raw)

/-- The parts of a text between the commas that a blank follows. -/
def cut : List Char → List (List Char)
  | [] => [[]]
  | ',' :: ' ' :: rest => [] :: cut rest
  | c :: rest => (cut rest).modifyHead (c :: ·)

theorem cut_ne_nil (text : List Char) : cut text ≠ [] := by
  induction text using cut.induct with
  | case1 | case2 => simp [cut]
  | case3 c rest plain ih =>
    rw [cut]
    · simpa using ih
    · exact plain

section Split

variable {front part rest : List Char} {c : Char} {begun : Raw} {found : List String}

theorem next_of_append : Raw.next (ofList (front ++ c :: rest)) ⟨utf8Len front⟩ = ⟨utf8Len (front ++ [c])⟩ := by
  simpa using String.next_of_valid front c rest

theorem get_of_append : Raw.get (ofList (front ++ c :: rest)) ⟨utf8Len front⟩ = c := by
  simpa using String.get_of_valid front (c :: rest)

theorem atEnd_of_append : ¬ Raw.atEnd (ofList (front ++ c :: rest)) ⟨utf8Len front⟩ = true := by
  rw [String.atEnd_of_valid]
  exact cons_ne_nil c rest

theorem splitOnAux_end (matched : Raw) :
    (ofList (front ++ part)).splitOnAux ", " ⟨utf8Len front⟩ ⟨utf8Len (front ++ part)⟩ matched found =
      found.reverse ++ [ofList part] := by
  have atEnd := (String.atEnd_of_valid (front ++ part) []).mpr rfl
  have last := String.extract_of_valid front part []
  rw [append_nil] at atEnd last
  rw [String.utf8Len_append] at atEnd ⊢
  rw [String.splitOnAux, if_pos atEnd, last, reverse_cons]

theorem splitOnAux_other (other : c ≠ ',') :
    (ofList (front ++ c :: rest)).splitOnAux ", " begun ⟨utf8Len front⟩ 0 found =
      (ofList (front ++ c :: rest)).splitOnAux ", " begun ⟨utf8Len (front ++ [c])⟩ 0 found := by
  have first : Raw.get ", " 0 = ',' := by decide
  rw [String.splitOnAux, if_neg atEnd_of_append, get_of_append, first, if_neg (by simpa using other)]
  exact congrArg (String.splitOnAux _ _ _ · _ _) next_of_append

theorem splitOnAux_comma :
    (ofList (front ++ ',' :: rest)).splitOnAux ", " begun ⟨utf8Len front⟩ 0 found =
      (ofList (front ++ ',' :: rest)).splitOnAux ", " begun ⟨utf8Len (front ++ [','])⟩ ⟨1⟩ found := by
  have first : Raw.get ", " 0 = ',' ∧ Raw.next ", " 0 = ⟨1⟩ ∧ Raw.atEnd ", " ⟨1⟩ = false := by decide
  rw [String.splitOnAux, if_neg atEnd_of_append, get_of_append, first.1, if_pos (by simp), next_of_append,
    first.2.1, if_neg (by simp [first.2.2])]

theorem splitOnAux_blank :
    (ofList (front ++ ' ' :: rest)).splitOnAux ", " begun ⟨utf8Len front⟩ ⟨1⟩ found =
      (ofList (front ++ ' ' :: rest)).splitOnAux ", " ⟨utf8Len (front ++ [' '])⟩ ⟨utf8Len (front ++ [' '])⟩ 0
        (Raw.extract (ofList (front ++ ' ' :: rest)) begun ⟨utf8Len front - 1⟩ :: found) := by
  have second : Raw.get ", " ⟨1⟩ = ' ' ∧ Raw.next ", " ⟨1⟩ = ⟨2⟩ ∧ Raw.atEnd ", " ⟨2⟩ = true := by decide
  have back : (⟨utf8Len (front ++ [' '])⟩ : Raw).unoffsetBy ⟨2⟩ = ⟨utf8Len front - 1⟩ := by
    simp [Raw.unoffsetBy, show ' '.utf8Size = 1 by decide]
  rw [String.splitOnAux, if_neg atEnd_of_append, get_of_append, second.1, if_pos (by simp), next_of_append,
    second.2.1, if_pos (by simp [second.2.2]), back]

theorem splitOnAux_unblank (other : c ≠ ' ') :
    (ofList (front ++ ',' :: c :: rest)).splitOnAux ", " begun ⟨utf8Len (front ++ [','])⟩ ⟨1⟩ found =
      (ofList (front ++ ',' :: c :: rest)).splitOnAux ", " begun ⟨utf8Len (front ++ [','])⟩ 0 found := by
  have second : Raw.get ", " ⟨1⟩ = ' ' := by decide
  have back : (⟨utf8Len (front ++ [','])⟩ : Raw).unoffsetBy ⟨1⟩ = ⟨utf8Len front⟩ := by
    simp [Raw.unoffsetBy, show ','.utf8Size = 1 by decide]
  have whole : front ++ ',' :: c :: rest = front ++ [','] ++ c :: rest := by simp
  rw [String.splitOnAux, back, next_of_append, whole, if_neg atEnd_of_append, get_of_append, second,
    if_neg (by simpa using other)]

/-- With `part` read since the last cut, the rest is cut as a text of its own. -/
theorem splitOnAux_eq_cut (front part rest : List Char) (found : List String) :
    (ofList (front ++ part ++ rest)).splitOnAux ", " ⟨utf8Len front⟩ ⟨utf8Len (front ++ part)⟩ 0 found =
      found.reverse ++ ((cut rest).modifyHead (part ++ ·)).map ofList := by
  induction rest using cut.induct generalizing front part found with
  | case1 => simpa [cut] using splitOnAux_end 0
  | case2 rest ih =>
    have whole : front ++ part ++ ',' :: ' ' :: rest = (front ++ part ++ [',']) ++ ' ' :: rest := by simp
    have cutOff : Raw.extract (ofList (front ++ part ++ ',' :: ' ' :: rest)) ⟨utf8Len front⟩
        ⟨utf8Len (front ++ part ++ [',']) - 1⟩ = ofList part := by
      simpa [show ','.utf8Size = 1 by decide] using String.extract_of_valid front part (',' :: ' ' :: rest)
    have later := ih (front ++ part ++ [','] ++ [' ']) [] (ofList part :: found)
    rw [append_nil, append_assoc _ [' '], singleton_append, ← whole] at later
    rw [splitOnAux_comma, whole, splitOnAux_blank, ← whole, cutOff, later, cut]
    cases cut rest <;> simp
  | case3 c rest plain ih =>
    have whole : front ++ part ++ c :: rest = front ++ (part ++ [c]) ++ rest := by simp
    have later := ih front (part ++ [c]) found
    rw [← whole, ← append_assoc] at later
    have parts : (cut (c :: rest)).modifyHead (part ++ ·) = (cut rest).modifyHead (part ++ [c] ++ ·) := by
      rw [cut]
      · cases cut rest <;> simp
      · exact plain
    rw [parts, ← later]
    by_cases comma : c = ','
    · subst comma
      rw [splitOnAux_comma]
      cases rest with
      | nil =>
        have atEnd (matched : Raw) := @splitOnAux_end front (part ++ [',']) found matched
        simp only [← append_assoc] at atEnd
        exact (atEnd ⟨1⟩).trans (atEnd 0).symm
      | cons d rest => exact splitOnAux_unblank fun blank => plain rest rfl (by rw [blank])
    · exact splitOnAux_other comma

theorem splitOn_eq_cut (text : String) : text.splitOn ", " = (cut text.toList).map ofList := by
  have whole := splitOnAux_eq_cut [] [] text.toList []
  rw [nil_append, nil_append, String.ofList_toList] at whole
  rw [String.splitOn]
  refine whole.trans ?_
  cases cut text.toList <;> simp

end Split

/-- Where two texts are joined by a comma and a blank, they are cut apart again. -/
theorem cut_joined (first second : List Char) : cut (first ++ ',' :: ' ' :: second) = cut first ++ cut second := by
  induction first using cut.induct with
  | case1 => simp [cut]
  | case2 rest ih => simp [cut, ih]
  | case3 c rest plain ih =>
    have plainJoined : ∀ later, c = ',' → rest ++ ',' :: ' ' :: second = ' ' :: later → False := by
      intro later comma blank
      cases rest with
      | nil => simp at blank
      | cons d rest =>
        obtain ⟨rfl, -⟩ := cons.inj blank
        exact plain rest comma rfl
    rw [cons_append, cut, cut, ih]
    · cases parts : cut rest with
      | nil => exact absurd parts (cut_ne_nil rest)
      | cons part parts => rfl
    · exact plain
    · exact plainJoined

variable {texts others : List String}

theorem splitOn_commaList (some_ : texts ≠ []) :
    (commaList texts).splitOn ", " = texts.flatMap (·.splitOn ", ") := by
  simp only [splitOn_eq_cut]
  induction texts with
  | nil => exact absurd rfl some_
  | cons text texts ih =>
    cases texts with
    | nil => simp [commaList]
    | cons other texts =>
      have joined : (commaList (text :: other :: texts)).toList =
          text.toList ++ ',' :: ' ' :: (commaList (other :: texts)).toList := by
        simp [commaList]
      rw [joined, cut_joined, map_append, ih (cons_ne_nil _ _)]
      rfl

theorem sorted_eq_of_perm (perm : texts.Perm others) : sorted texts = sorted others :=
  ((sorted_perm texts).trans (perm.trans (sorted_perm others).symm)).eq_of_pairwise
    (fun _ _ _ _ => String.le_antisymm) (sorted_pairwise texts) (sorted_pairwise others)

/-- It does not matter in which order texts are given that are listed in order. -/
theorem sortedCommaList_eq_of_perm (perm : texts.Perm others) :
    sortedCommaList texts = sortedCommaList others := by
  cases texts with
  | nil => rw [nil_perm.mp perm]
  | cons text texts =>
    have some_ : others ≠ [] := fun none => cons_ne_nil text texts (perm_nil.mp (none ▸ perm))
    rw [sortedCommaList, sortedCommaList, splitOn_commaList (cons_ne_nil _ _), splitOn_commaList some_,
      sorted_eq_of_perm (perm.flatMap_right _)]

end GrammarLint.Text
