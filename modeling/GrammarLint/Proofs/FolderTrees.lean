import GrammarLint.Files.Find
import GrammarLint.Proofs.WrittenFiles

open List

namespace GrammarLint.Files

def IsName (name : String) : Prop := isTelling name = true ∧ name ≠ ".." ∧ '/' ∉ name.toList

instance (name : String) : Decidable (IsName name) := inferInstanceAs (Decidable (_ ∧ _ ∧ _))

namespace Store

/-- The nodes make up a tree: each is listed once and has a name of its own in a folder. -/
structure IsTree (store : Store) : Prop where
  once : (store.nodes.map (·.1)).Nodup
  inFolder : ∀ entry ∈ store.nodes, ∃ folder name, entry.1 = folder ++ [name] ∧ IsName name ∧
    store.node? folder = some .folder

variable {store : Store} {place way : List String} {name : String} {node : Node}

section

variable (tree : store.IsTree)

include tree

theorem IsTree.mem_nodes (below : place ≠ []) :
    (place, node) ∈ store.nodes ↔ store.node? place = some node := by
  have notRoot : ¬place.isEmpty = true := by simpa using below
  rw [node?, if_neg notRoot, Option.map_eq_some_iff]
  constructor
  · intro mem
    have found : (store.nodes.find? (·.1 == place)).isSome = true :=
      find?_isSome.mpr ⟨_, mem, beq_self_eq_true place⟩
    obtain ⟨entry, isEntry⟩ := Option.isSome_iff_exists.mp found
    have same : entry.1 = place := by simpa using find?_some isEntry
    have only := inj_on_of_nodup_map tree.once (mem_of_find?_eq_some isEntry) mem same
    exact ⟨entry, isEntry, by rw [only]⟩
  · rintro ⟨entry, isEntry, rfl⟩
    have same : entry.1 = place := by simpa using find?_some isEntry
    exact same ▸ mem_of_find?_eq_some isEntry

/-- What lies in a folder has a proper name, and the folder is there. -/
theorem IsTree.folder_of_child (there : (store.node? (place ++ [name])).isSome = true) :
    IsName name ∧ store.node? place = some .folder := by
  obtain ⟨node, found⟩ := Option.isSome_iff_exists.mp there
  obtain ⟨folder, last, same, isName, isFolder⟩ :=
    tree.inFolder _ ((tree.mem_nodes (by simp)).mpr found)
  obtain ⟨rfl, rfl⟩ := append_singleton_inj.mp same
  exact ⟨isName, isFolder⟩

/-- From a place down to a node one goes through proper names, and through folders only. -/
theorem IsTree.way_down (there : (store.node? (place ++ way)).isSome = true) :
    (∀ name ∈ way, IsName name) ∧ (way ≠ [] → store.node? place = some .folder) := by
  induction way using reverseRecOn with
  | nil => exact ⟨nofun, fun empty => absurd rfl empty⟩
  | append_singleton way name ih =>
    rw [← append_assoc] at there
    obtain ⟨isName, isFolder⟩ := tree.folder_of_child there
    obtain ⟨names, above⟩ := ih (by rw [isFolder]; rfl)
    refine ⟨forall_mem_append.mpr ⟨names, by simpa using isName⟩, fun _ => ?_⟩
    rcases way.eq_nil_or_concat' with rfl | ⟨front, last, rfl⟩
    · simpa using isFolder
    · exact above (by simp)

theorem IsTree.walk_down (there : (store.node? (place ++ way)).isSome = true) :
    store.walk place way = .ok (place ++ way) := by
  induction way generalizing place with
  | nil => rw [walk, append_nil]
  | cons name way ih =>
    obtain ⟨names, above⟩ := tree.way_down there
    obtain ⟨telling, onward, -⟩ := names name mem_cons_self
    have through : through place name = place ++ [name] := by
      rw [through, if_pos telling, if_neg (by simpa using onward)]
    rw [append_cons] at there ⊢
    refine walk_cons_eq_ok.mpr ⟨above (by simp), ?_⟩
    rw [through]
    exact ih there

theorem IsTree.dropLast_folder (isFolder : store.node? place = some .folder) :
    store.node? place.dropLast = some .folder := by
  rcases place.eq_nil_or_concat' with rfl | ⟨front, last, rfl⟩
  · rfl
  · rw [dropLast_concat]
    exact (tree.folder_of_child (by rw [isFolder]; rfl)).2

end

theorem walk_split {first second finish : List String}
    (walked : store.walk place (first ++ second) = .ok finish) :
    ∃ middle, store.walk place first = .ok middle ∧ store.walk middle second = .ok finish := by
  induction first generalizing place with
  | nil => exact ⟨place, rfl, walked⟩
  | cons name first ih =>
    obtain ⟨isFolder, later⟩ := walk_cons_eq_ok.mp walked
    obtain ⟨middle, before, after⟩ := ih later
    exact ⟨middle, walk_cons_eq_ok.mpr ⟨isFolder, before⟩, after⟩

/-- A file that names lead to has the last of them. -/
theorem IsTree.walk_file (tree : store.IsTree) {names finish : List String} {bytes : List UInt8}
    (telling : ∀ name ∈ names, isTelling name = true) (walked : store.walk place names = .ok finish)
    (isFile : store.node? finish = some (.file bytes)) (moved : names ≠ []) :
    finish.getLast? = names.getLast? := by
  rcases names.eq_nil_or_concat' with rfl | ⟨above, name, rfl⟩
  · exact absurd rfl moved
  · obtain ⟨middle, -, last⟩ := walk_split walked
    obtain ⟨isFolder, arrived⟩ := walk_cons_eq_ok.mp last
    cases arrived
    rw [through, if_pos (telling name (by simp))] at isFile ⊢
    split at isFile
    · -- two points as the last name lead to a folder
      rw [tree.dropLast_folder isFolder] at isFile
      cases isFile
    · rename_i onward
      rw [if_neg onward, getLast?_concat, getLast?_concat]

theorem IsTree.mem_children (tree : store.IsTree) :
    name ∈ store.children place ↔ (store.node? (place ++ [name])).isSome = true := by
  rw [children, mem_filterMap, Option.isSome_iff_exists]
  constructor
  · rintro ⟨⟨names, node⟩, mem, found⟩
    obtain ⟨inside, last⟩ := Option.ite_none_right_eq_some.mp found
    rw [Bool.and_eq_true, isPrefixOf_iff_prefix] at inside
    obtain ⟨length, rest, rfl⟩ := inside
    obtain ⟨only, rfl⟩ := length_eq_one_iff.mp (by simpa using length)
    rw [getLast?_concat] at last
    cases last
    exact ⟨node, (tree.mem_nodes (by simp)).mp mem⟩
  · rintro ⟨node, found⟩
    refine ⟨(place ++ [name], node), (tree.mem_nodes (by simp)).mpr found, ?_⟩
    simp

theorem IsTree.mem_foldersBelow (tree : store.IsTree) :
    way ∈ store.foldersBelow place ↔ way ≠ [] ∧ store.node? (place ++ way) = some .folder := by
  rw [foldersBelow, mem_filterMap]
  constructor
  · rintro ⟨⟨names, node⟩, mem, found⟩
    obtain ⟨inside, cut⟩ := Option.ite_none_right_eq_some.mp found
    simp only [Bool.and_eq_true, beq_iff_eq, decide_eq_true_eq, isPrefixOf_iff_prefix] at inside
    obtain ⟨⟨rfl, longer⟩, rest, rfl⟩ := inside
    rw [drop_left] at cut
    cases cut
    have further : way ≠ [] := by
      rintro rfl
      simp at longer
    exact ⟨further, (tree.mem_nodes (by simp [further])).mp mem⟩
  · rintro ⟨further, found⟩
    refine ⟨(place ++ way, .folder), (tree.mem_nodes (by simp [further])).mpr found, ?_⟩
    simp [length_pos_iff.mpr further]

end Store

section Texts

variable {path : String} {parts : List String}

theorem IsName.isPart {name : String} (isName : IsName name) : IsPart name := ⟨isName.1, isName.2.2⟩

theorem pieces_ne_nil (path : String) : pieces path ≠ [] := by
  rw [pieces, Text.splitAt_eq_splitOn]
  simp

theorem names_slash (path : String) : names ("/" ++ path) = names path := by
  rw [names_eq_filter, pieces_slash]
  rfl

theorem names_intercalate (clean : ∀ part ∈ parts, IsPart part) :
    names (String.intercalate "/" parts) = parts := by
  rcases Classical.em (parts = []) with rfl | further
  · rfl
  · rw [names_eq_filter, pieces_intercalate further fun part mem => (clean part mem).2]
    exact filter_eq_self.mpr fun part mem => (clean part mem).1

/-- Parts joined by slashes do not begin with a slash. -/
theorem head_intercalate (clean : ∀ part ∈ parts, IsPart part) :
    (String.intercalate "/" parts).toList.head? ≠ some '/' := by
  intro slash
  rcases Classical.em (parts = []) with rfl | further
  · cases slash
  · have silent := silent_of_head (.inr slash)
    rw [pieces_intercalate further fun part mem => (clean part mem).2] at silent
    exact absurd (clean _ silent).1 (by decide)

/-- Behind its slashes a path through some names is relative and goes through the same names. -/
theorem pathText_eq_append (root : String) (clean : ∀ part ∈ parts, IsPart part) :
    ∃ rest, pathText root parts = root ++ rest ∧ names rest = parts ∧ rest.toList.head? ≠ some '/' := by
  unfold pathText
  split
  · rename_i empty
    obtain ⟨rfl, rfl⟩ : root = "" ∧ parts = [] := by simpa using empty
    exact ⟨".", rfl, rfl, by decide⟩
  · exact ⟨_, rfl, names_intercalate clean, head_intercalate clean⟩

theorem names_pathText (clean : ∀ part ∈ parts, IsPart part) :
    names (pathText (anchor path) parts) = parts := by
  obtain ⟨rest, text, same, -⟩ := pathText_eq_append (anchor path) clean
  rw [text]
  rcases anchor_cases path with ⟨none, -⟩ | ⟨one | two, -⟩
  · rw [none, String.empty_append, same]
  · rw [one, names_slash, same]
  · rw [two, show "//" = "/" ++ "/" from rfl, String.append_assoc, names_slash, names_slash, same]

/-- A path through some names starts where the path starts from which it has its slashes. -/
theorem origin_pathText (w : Workspace) (clean : ∀ part ∈ parts, IsPart part) :
    w.origin (pathText (anchor path) parts) = w.origin path := by
  obtain ⟨rest, text, -, relative⟩ := pathText_eq_append (anchor path) clean
  rw [text, Workspace.origin, Workspace.origin]
  rcases anchor_cases path with ⟨none, start⟩ | ⟨one | two, start⟩
  · rw [none, if_neg (by simpa using relative), if_neg (by simpa using start)]
  · rw [one, if_pos (by simp), if_pos (by simpa using start)]
  · rw [two, if_pos (by simp), if_pos (by simpa using start)]

/-- The names of a path lead to its place. -/
theorem Workspace.walk_normalPath {w : Workspace} {place : List String}
    (found : w.place (normalPath path) = .ok place) : w.store.walk (w.origin path) (names path) = .ok place := by
  have clean : ∀ part ∈ names path, IsPart part := fun _ => isPart_of_mem_names
  unfold Workspace.place at found
  split at found
  · cases found
  · have walked := Store.walk_filter found
    rwa [← names_eq_filter, normalPath, origin_pathText w clean, names_pathText clean] at walked

end Texts

end GrammarLint.Files
