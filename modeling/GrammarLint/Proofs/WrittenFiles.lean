import Mathlib
import GrammarLint.Files.Store
import GrammarLint.Proofs.Outcomes

open List

namespace GrammarLint

namespace Text

theorem splitAt_eq_splitOn {α : Type} [DecidableEq α] (separator : α) (text : List α) :
    splitAt separator text = text.splitOn separator := by
  induction text with
  | nil => rfl
  | cons c rest ih =>
    have nonempty := splitOn_ne_nil separator rest
    rw [splitAt, splitOn_cons_eq_if_modifyHead, ih]
    split
    · rfl
    · cases parts : rest.splitOn separator with
      | nil => exact absurd parts nonempty
      | cons part parts => rfl

end Text

namespace Files

def isTelling (name : String) : Bool := name != "" && name != "."

namespace Store

variable {store : Store} {place finish : List String} {name : String} {names : List String}

def through (place : List String) (name : String) : List String :=
  if isTelling name then if name == ".." then place.dropLast else place ++ [name] else place

theorem walk_cons_eq_ok : store.walk place (name :: names) = .ok finish ↔
    store.node? place = some .folder ∧ store.walk (through place name) names = .ok finish := by
  rw [walk]
  split
  · rename_i missing
    simp [missing]
  · rename_i isFile
    simp [isFile]
  · rename_i isFolder
    have silent : (name == "" || name == ".") = !isTelling name := by simp [isTelling, bne]
    simp only [isFolder, true_and, through, silent]
    cases isTelling name with
    | false => rfl
    | true => simp only [Bool.not_true, Bool.false_eq_true, if_false, if_true]; split <;> rfl

theorem walk_append {middle : List String} {more : List String}
    (first : store.walk place names = .ok middle) (second : store.walk middle more = .ok finish) :
    store.walk place (names ++ more) = .ok finish := by
  induction names generalizing place with
  | nil =>
    cases first
    exact second
  | cons name names ih =>
    obtain ⟨isFolder, later⟩ := walk_cons_eq_ok.mp first
    exact walk_cons_eq_ok.mpr ⟨isFolder, ih later⟩

/-- Names that say nothing can be left out. -/
theorem walk_filter (walked : store.walk place names = .ok finish) :
    store.walk place (names.filter isTelling) = .ok finish := by
  induction names generalizing place with
  | nil => exact walked
  | cons name names ih =>
    obtain ⟨isFolder, later⟩ := walk_cons_eq_ok.mp walked
    rw [filter_cons]
    split
    · exact walk_cons_eq_ok.mpr ⟨isFolder, ih later⟩
    · rename_i silent
      rw [through, if_neg silent] at later
      exact ih later

/-- What is put in place of a node is found under the same names. -/
theorem find?_replaced (nodes : List (List String × Node)) (place other : List String)
    (node : Node) :
    (nodes.map fun entry => if entry.1 == place then (place, node) else entry).find?
        (·.1 == other) =
      (nodes.find? (·.1 == other)).map fun entry =>
        if entry.1 == place then (place, node) else entry := by
  rw [find?_map]
  congr 2
  funext entry
  by_cases here : entry.1 = place
  · simp [here]
  · simp [here]

theorem node?_put_self (store : Store) (below : place ≠ []) (node : Node) :
    (store.put place node).node? place = some node := by
  have notRoot : place.isEmpty = false := by simpa using below
  unfold put
  simp only [node?, notRoot, Bool.false_eq_true, if_false, Option.isSome_map]
  cases found : store.nodes.find? (·.1 == place) with
  | none => simp [found]
  | some entry =>
    have here := find?_some found
    simp only [Option.isSome_some, if_true, find?_replaced, found, Option.map_some, if_pos here]

theorem node?_put_other (store : Store) {other : List String} (apart : other ≠ place)
    (node : Node) : (store.put place node).node? other = store.node? other := by
  unfold node?
  split
  · rfl
  · unfold put
    split
    · rw [find?_replaced]
      cases found : store.nodes.find? (·.1 == other) with
      | none => rfl
      | some entry =>
        have here : entry.1 = other := by simpa using find?_some found
        simp [here, apart]
    · simp [apart.symm]

/-- A way through folders stays open if something is put where there is no folder. -/
theorem walk_put {target : List String} (noFolder : store.node? target ≠ some .folder)
    (node : Node) (walked : store.walk place names = .ok finish) :
    (store.put target node).walk place names = .ok finish := by
  induction names generalizing place with
  | nil => exact walked
  | cons name names ih =>
    obtain ⟨isFolder, later⟩ := walk_cons_eq_ok.mp walked
    have apart : place ≠ target := by
      rintro rfl
      exact noFolder isFolder
    exact walk_cons_eq_ok.mpr ⟨by rw [node?_put_other store apart, isFolder], ih later⟩

end Store

theorem names_eq_filter (path : String) : names path = (pieces path).filter isTelling := rfl

variable {path name : String}

theorem isTelling_of_mem_names (mem : name ∈ names path) : isTelling name = true :=
  (mem_filter.mp mem).2

theorem pieces_slash (path : String) : pieces ("/" ++ path) = "" :: pieces path := by
  unfold pieces
  rw [String.toList_append]
  rfl

theorem noSlash_of_mem_pieces (mem : name ∈ pieces path) : '/' ∉ name.toList := by
  obtain ⟨part, isPart, rfl⟩ := mem_map.mp mem
  rw [String.toList_ofList]
  exact (Text.of_mem_splitAt isPart).1

/-- What may stand between the slashes of a path and says where to go. -/
def IsPart (name : String) : Prop := isTelling name = true ∧ '/' ∉ name.toList

theorem isPart_of_mem_names (mem : name ∈ names path) : IsPart name :=
  ⟨isTelling_of_mem_names mem, noSlash_of_mem_pieces (mem_filter.mp mem).1⟩

theorem pieces_intercalate {parts : List String} (nonempty : parts ≠ [])
    (noSlash : ∀ part ∈ parts, '/' ∉ part.toList) :
    pieces (String.intercalate "/" parts) = parts := by
  have slash : "/".toList = ['/'] := rfl
  have apart : ∀ part ∈ parts.map String.toList, '/' ∉ part := by simpa using noSlash
  unfold pieces
  rw [Text.splitAt_eq_splitOn, String.toList_intercalate, slash,
    splitOn_intercalate '/' apart (by simpa using nonempty)]
  simp

/-- A path that is empty or starts at the root has a piece that says nothing. -/
theorem silent_of_head (starts : path.toList = [] ∨ path.toList.head? = some '/') :
    "" ∈ pieces path := by
  unfold pieces
  rcases starts with empty | slash
  · rw [empty]
    exact mem_cons_self
  · obtain ⟨rest, split⟩ := head?_eq_some_iff.mp slash
    rw [split]
    exact mem_cons_self

theorem anchor_cases (path : String) :
    (anchor path = "" ∧ path.toList.head? ≠ some '/') ∨
      (anchor path = "/" ∨ anchor path = "//") ∧ path.toList.head? = some '/' := by
  unfold anchor
  split
  · simp_all
  · simp_all
  · simp_all
  · rename_i other
    refine .inl ⟨rfl, fun slash => ?_⟩
    obtain ⟨rest, split⟩ := head?_eq_some_iff.mp slash
    exact other rest split

namespace Workspace

variable {w : Workspace} {path : String} {place : List String}

theorem place_of_walk (nonempty : path.toList ≠ [])
    (walked : w.store.walk (w.origin path) (pieces path) = .ok place) : w.place path = .ok place := by
  have notEmpty : ¬path.isEmpty = true := by simpa using nonempty
  rw [Workspace.place, if_neg notEmpty, walked]

/-- A slash in front of a path from the root changes nothing. -/
theorem walk_slash (walked : w.store.walk [] (pieces path) = .ok place) :
    w.store.walk [] (pieces ("/" ++ path)) = .ok place := by
  rw [pieces_slash]
  exact Store.walk_cons_eq_ok.mpr ⟨rfl, walked⟩

theorem place_slash (walked : w.store.walk [] (pieces path) = .ok place) :
    w.place ("/" ++ path) = .ok place := by
  have slash : ("/" ++ path).toList = '/' :: path.toList := by
    rw [String.toList_append]
    rfl
  refine place_of_walk (by simp [slash]) ?_
  rw [origin, if_pos (by simp [slash])]
  exact walk_slash walked

/-- Where some names lead to, a path through them leads to as well. -/
theorem place_pathText {parts : List String} (nonempty : parts ≠ []) (clean : ∀ part ∈ parts, IsPart part)
    (walked : w.store.walk (w.origin path) parts = .ok place) :
    w.place (pathText (anchor path) parts) = .ok place := by
  have joined : pieces (String.intercalate "/" parts) = parts :=
    pieces_intercalate nonempty fun part mem => (clean part mem).2
  rw [pathText, if_neg (by simp [nonempty])]
  rw [← joined] at walked
  rcases anchor_cases path with ⟨noAnchor, relative⟩ | ⟨slashes, absolute⟩
  · -- no name is empty, so the joined names are neither empty nor do they start with a slash
    have telling : "" ∉ pieces (String.intercalate "/" parts) := by
      rw [joined]
      intro mem
      exact absurd (clean _ mem).1 (by decide)
    have stillRelative : (String.intercalate "/" parts).toList.head? ≠ some '/' :=
      fun slash => telling (silent_of_head (.inr slash))
    rw [noAnchor]
    refine place_of_walk (fun empty => telling (silent_of_head (.inl empty))) ?_
    rw [origin, if_neg (by simpa using relative)] at walked
    rw [origin, if_neg (by simpa using stillRelative)]
    exact walked
  · rw [origin, if_pos (by simpa using absolute)] at walked
    rcases slashes with one | two
    · rw [one]
      exact place_slash walked
    · have split : "//" ++ String.intercalate "/" parts = "/" ++ ("/" ++ String.intercalate "/" parts) := by
        rfl
      rw [two, split]
      exact place_slash (walk_slash walked)

/-- Empty pieces at the end of a path say nothing. -/
theorem names_eq_filter_ended (path : String) :
    names path = ((pieces path).reverse.dropWhile String.isEmpty).reverse.filter isTelling := by
  have silent : ((pieces path).reverse.takeWhile String.isEmpty).filter isTelling = [] := by
    refine filter_eq_nil_iff.mpr fun name mem => ?_
    have empty := mem_takeWhile_imp mem
    simp_all [isTelling]
  conv_lhs => rw [names_eq_filter, ← reverse_reverse (pieces path),
    ← @takeWhile_append_dropWhile _ String.isEmpty (pieces path).reverse]
  rw [filter_reverse, filter_append, silent, nil_append, ← filter_reverse]

/-- A file goes where the names of its path lead to: into a folder that is there, under the last
name. -/
theorem target_ok (found : w.target path = .ok place) :
    ∃ above parent name, names path = above ++ [name] ∧
      w.store.walk (w.origin path) above = .ok parent ∧ w.store.node? parent = some .folder ∧
      isTelling name = true ∧ name ≠ ".." ∧ place = parent ++ [name] ∧
      w.store.node? place ≠ some .folder := by
  unfold target at found
  split at found
  · cases found
  · obtain ⟨parent, walked, rest⟩ := bind_ok found
    generalize ended : ((pieces path).reverse.dropWhile String.isEmpty).reverse = parts
      at walked rest
    split at rest
    · cases rest
    · cases rest
    · rename_i isFolder
      dsimp only at rest
      split at rest
      · cases rest
      · cases rest
        obtain ⟨telling, onward, noFolder⟩ :
            isTelling (parts.getLast?.getD "") = true ∧ parts.getLast?.getD "" ≠ ".." ∧
              w.store.node? (parent ++ [parts.getLast?.getD ""]) ≠ some .folder := by
          simp_all [isTelling]
        rcases parts.eq_nil_or_concat' with rfl | ⟨above, name, rfl⟩
        · exact absurd telling (by decide)
        · rw [dropLast_concat] at walked
          simp only [getLast?_concat, Option.getD_some] at telling onward noFolder ⊢
          refine ⟨above.filter isTelling, parent, name, ?_, Store.walk_filter walked, isFolder,
            telling, onward, rfl, noFolder⟩
          rw [names_eq_filter_ended, ended, filter_append, filter_cons_of_pos telling,
            filter_nil]

/-- What is written under a path is read back from there. -/
theorem read_write {bytes : List UInt8} (found : w.target path = .ok place) :
    ∃ w', w.write path bytes = .ok w' ∧ w'.present (normalPath path) = true ∧
      w'.read (normalPath path) = .ok bytes := by
  obtain ⟨above, parent, name, split, walked, isFolder, telling, onward, rfl, noFolder⟩ :=
    target_ok found
  let written : Workspace := { w with store := w.store.put (parent ++ [name]) (.file bytes) }
  have stays := Store.walk_put noFolder (.file bytes) walked
  have apart : parent ≠ parent ++ [name] := by simp
  have last : written.store.walk parent [name] = .ok (parent ++ [name]) := by
    refine Store.walk_cons_eq_ok.mpr ⟨?_, ?_⟩
    · exact (Store.node?_put_other w.store apart _).trans isFolder
    · rw [Store.through, if_pos telling, if_neg (by simpa using onward)]
      rfl
  have there : written.place (normalPath path) = .ok (parent ++ [name]) := by
    refine place_pathText (by simp [split]) (fun _ => isPart_of_mem_names) ?_
    rw [split]
    exact Store.walk_append stays last
  have holds : written.store.node? (parent ++ [name]) = some (.file bytes) :=
    Store.node?_put_self w.store (by simp) _
  have located : written.locate (normalPath path) = .ok (parent ++ [name], .file bytes) := by
    unfold locate
    rw [there, ok_bind, holds]
    rfl
  refine ⟨written, ?_, ?_, ?_⟩
  · rw [write, found]
  · rw [present, located]
    rfl
  · rw [read, located]

end Workspace

end Files

end GrammarLint
