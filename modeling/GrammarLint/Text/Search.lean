namespace GrammarLint.Text

/-- `part` occurs in `text` without a gap. -/
def hasInfix {α : Type} [BEq α] (part : List α) : List α → Bool
  | [] => part.isEmpty
  | c :: rest => part.isPrefixOf (c :: rest) || hasInfix part rest

def contains (text part : String) : Bool := hasInfix part.toList text.toList

/-- `text` without the characters of `set` at both ends. -/
def strip (set : List Char) (text : List Char) : List Char :=
  ((text.dropWhile set.contains).reverse.dropWhile set.contains).reverse

/-- The parts of `text` between the occurrences of `separator`; there is always one. -/
def splitAt {α : Type} [BEq α] (separator : α) : List α → List (List α)
  | [] => [[]]
  | c :: rest =>
    if c == separator then [] :: splitAt separator rest
    else
      match splitAt separator rest with
      | part :: parts => (c :: part) :: parts
      | [] => [[c]]

section Split

variable {α : Type} [BEq α] [LawfulBEq α] {separator : α}

theorem splitAt_cons_of_ne {c : α} (other : c ≠ separator) (rest : List α) :
    ∃ part parts, splitAt separator (c :: rest) = (c :: part) :: parts := by
  rw [splitAt, if_neg (by simpa using other)]
  split <;> exact ⟨_, _, rfl⟩

theorem of_mem_splitAt {text part : List α} (member : part ∈ splitAt separator text) :
    separator ∉ part ∧ part ⊆ text := by
  have grown {c : α} {part rest : List α} (inRest : separator ∉ part ∧ part ⊆ rest) :
      separator ∉ part ∧ part ⊆ c :: rest := inRest.imp_right (List.subset_cons_of_subset c)
  induction text generalizing part with
  | nil => simp_all [splitAt]
  | cons c rest ih =>
    rw [splitAt] at member
    split at member
    · rcases List.mem_cons.mp member with rfl | later
      · simp
      · exact grown (ih later)
    · rename_i other
      have apart : separator ≠ c := fun same => other (by simp [same])
      split at member
      · rename_i split
        rcases List.mem_cons.mp member with rfl | later
        · obtain ⟨none, within⟩ := ih (split ▸ List.mem_cons_self)
          exact ⟨List.not_mem_cons_of_ne_of_not_mem apart none, List.cons_subset_cons c within⟩
        · exact grown (ih (split ▸ List.mem_cons_of_mem _ later))
      · rw [List.mem_singleton.mp member]
        simp [apart]

end Split

/-- How often `first` followed by `second` occurs in `text`, where the two differ. -/
def countPair (first second : Char) : List Char → Nat
  | [] => 0
  | c :: rest =>
    (if c == first && rest.head? == some second then 1 else 0) + countPair first second rest

/-- Orders texts by the code points of their characters. -/
def sorted (texts : List String) : List String := texts.mergeSort fun a b => decide (a ≤ b)

def commaList (texts : List String) : String := String.intercalate ", " texts

/-- The texts behind each other with commas between, cut at all commas that a blank follows, in
order. Commas within a text count too. -/
def sortedCommaList (texts : List String) : String :=
  commaList (sorted ((commaList texts).splitOn ", "))

end GrammarLint.Text
