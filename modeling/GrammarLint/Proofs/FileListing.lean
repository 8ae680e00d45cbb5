import GrammarLint.Proofs.FoundFiles
import GrammarLint.Session

open List

namespace GrammarLint

open Files

/-- The files that one path among the arguments stands for. -/
def listedFiles (w : Workspace) (path : String) : List String :=
  if w.isFile (normalPath path) then
    if suffix (fileName path) == ".g4" then [normalPath path] else []
  else if w.isFolder (normalPath path) then ((w.find path "*.g4").toOption).getD []
  else []

theorem grammarFiles_eq (w : Workspace) (paths : List String) :
    grammarFiles w paths = Text.sorted (paths.flatMap (listedFiles w)) := rfl

section Listing

variable {w : Workspace} {path : String} {place : List String}

/-- The listed paths lead to the listed places. -/
theorem places_listedFiles (tree : w.store.IsTree) (path : String) :
    ((listedFiles w path).map w.place).Perm ((w.listedPlaces path).map .ok) := by
  unfold listedFiles Workspace.listedPlaces Workspace.isFile Workspace.isFolder
  cases located : w.locate (normalPath path) with
  | error cause => simp
  | ok there =>
    obtain ⟨base, _ | _⟩ := there
    · obtain ⟨found, isFile⟩ := Workspace.locate_eq_ok.mp located
      rw [Workspace.fileName_eq tree found isFile]
      by_cases named : suffix (lastName base) = ".g4" <;> simp [named, found]
    · obtain ⟨found, isFolder⟩ := Workspace.locate_eq_ok.mp located
      simp only [Bool.false_eq_true, if_false, if_true, Workspace.find_g4]
      exact Workspace.places_find tree found isFolder

/-- The listing that some arguments ask for: in order, and with each grammar file among or below the
arguments once and nothing else. -/
structure IsListing (w : Workspace) (paths files : List String) : Prop where
  sorted : files.Pairwise (· ≤ ·)
  once : (files.map w.place).Nodup
  covered : ∀ result, result ∈ files.map w.place ↔
    ∃ place, result = .ok place ∧ w.store.IsGrammarFile place ∧ ∃ path ∈ paths, w.Covers path place

theorem places_grammarFiles (tree : w.store.IsTree) (paths : List String) :
    ((grammarFiles w paths).map w.place).Perm ((paths.flatMap w.listedPlaces).map .ok) := by
  rw [map_flatMap]
  refine ((Text.sorted_perm _).map w.place).trans ?_
  rw [map_flatMap]
  exact .flatMap_left _ fun path _ => places_listedFiles tree path

/-- Whether a listing is as it should be can be told from its places. -/
theorem isListing_iff (tree : w.store.IsTree) (paths : List String) : IsListing w paths (grammarFiles w paths) ↔
    (paths.flatMap w.listedPlaces).Nodup ∧ ∀ place, place ∈ paths.flatMap w.listedPlaces ↔
      w.store.IsGrammarFile place ∧ ∃ path ∈ paths, w.Covers path place := by
  have places := places_grammarFiles tree paths
  have nodup : ((grammarFiles w paths).map w.place).Nodup ↔ (paths.flatMap w.listedPlaces).Nodup :=
    places.nodup_iff.trans (nodup_map_iff fun _ _ => Except.ok.inj)
  constructor
  · intro listing
    refine ⟨nodup.mp listing.once, fun place => ?_⟩
    have covered := listing.covered (.ok place)
    simpa [places.mem_iff] using covered
  · rintro ⟨once, covered⟩
    refine ⟨Text.sorted_pairwise _, nodup.mpr once, fun result => ?_⟩
    rw [places.mem_iff, mem_map]
    constructor
    · rintro ⟨place, mem, rfl⟩
      exact ⟨place, rfl, (covered place).mp mem⟩
    · rintro ⟨place, rfl, wanted⟩
      exact ⟨place, (covered place).mpr wanted, rfl⟩

theorem isStray_not_isGrammarFile {store : Store} (isStray : store.IsStray place) : ¬store.IsGrammarFile place := by
  rintro ⟨⟨bytes, isFile⟩, named⟩
  rcases isStray with ⟨isFolder, -⟩ | ⟨-, bare⟩
  · cases isFile.symm.trans isFolder
  · exact (suffix_eq_g4.mp named).2 bare

theorem isFile_iff {file : String} (found : w.place file = .ok place) :
    w.isFile file = true ↔ ∃ bytes, w.store.node? place = some (.file bytes) := by
  have located (node : Node) : w.locate file = .ok (place, node) ↔ w.store.node? place = some node := by
    simp [Workspace.locate_eq_ok, found]
  unfold Workspace.isFile
  split
  · rename_i other bytes isFile
    obtain ⟨same, holds⟩ := Workspace.locate_eq_ok.mp isFile
    cases found.symm.trans same
    simp [holds]
  · rename_i noFile
    simp only [Bool.false_eq_true, false_iff, not_exists, ← located]
    exact fun bytes => noFile place bytes

def IsGrammarFolder (store : Store) (place : List String) : Prop :=
  store.node? place = some .folder ∧ EndsInG4 (lastName place)

/-- What is listed for a folder are files just if no folder below it is called like a grammar file. -/
theorem filter_isFile_iff (tree : w.store.IsTree) (path : String) :
    (grammarFiles w [path]).filter w.isFile = grammarFiles w [path] ↔
      ∀ place, w.CoversBelow path place → ¬IsGrammarFolder w.store place := by
  have places := places_grammarFiles tree [path]
  rw [flatMap_singleton] at places
  have listed : ∀ file ∈ grammarFiles w [path], ∃ place, w.place file = .ok place ∧ place ∈ w.listedPlaces path := by
    intro file mem
    obtain ⟨place, inPlaces, same⟩ := mem_map.mp (places.mem_iff.mp (mem_map_of_mem mem))
    exact ⟨place, same.symm, inPlaces⟩
  rw [filter_eq_self]
  constructor
  · rintro allFiles place below ⟨isFolder, ends⟩
    have mem := places.mem_iff.mpr (mem_map_of_mem
      ((Workspace.mem_listedPlaces tree).mpr (.inr ⟨.inl ⟨isFolder, ends⟩, below⟩)))
    obtain ⟨file, isListed, found⟩ := mem_map.mp mem
    obtain ⟨bytes, isFile⟩ := (isFile_iff found).mp (allFiles file isListed)
    cases isFile.symm.trans isFolder
  · intro noFolders file mem
    obtain ⟨place, found, inPlaces⟩ := listed file mem
    rw [isFile_iff found]
    rcases (Workspace.mem_listedPlaces tree).mp inPlaces with ⟨isGrammar, -⟩ | ⟨isFolder | isBare, below⟩
    · exact isGrammar.1
    · exact absurd isFolder (noFolders place below)
    · exact isBare.1

/-- The library lints the files among what is listed for a folder. -/
theorem lintFolder_eq (s : Session) (isFolder : s.workspace.isFolder (normalPath path) = true) :
    s.lintFolder path "*.g4" = s.lintFiles ((grammarFiles s.workspace [path]).filter s.workspace.isFile) := by
  have noFile : s.workspace.isFile (normalPath path) = false := by
    unfold Workspace.isFile
    unfold Workspace.isFolder at isFolder
    split at isFolder
    · rename_i located
      rw [located]
    · cases isFolder
  have files : grammarFiles s.workspace [path] =
      Text.sorted ((s.workspace.foundNames path).map (pathText (anchor path))) := by
    rw [grammarFiles_eq, flatMap_singleton, listedFiles, noFile, isFolder, Workspace.find_g4]
    rfl
  unfold Session.lintFolder
  rw [isFolder, Workspace.find_g4, files, ← Text.sorted_filter]
  rfl

/-- In a tree of folders, the listing of grammar files is in order and leads to the files among the
arguments with the right suffix and to all nodes below the arguments with names that end so. It is the
listing that was asked for just if there is no stray below an argument and no grammar file is among or
below two of them. For a folder, the library lints the files of the listing, which are all of it just if no
folder below is called like a grammar file. -/
theorem grammarFiles_isListing_iff (w : Workspace) (tree : w.store.IsTree) (paths : List String) :
    ((grammarFiles w paths).map w.place).Perm ((paths.flatMap w.listedPlaces).map .ok) ∧
    (IsListing w paths (grammarFiles w paths) ↔
      (∀ path ∈ paths, ∀ place, w.CoversBelow path place → ¬w.store.IsStray place) ∧
      paths.Pairwise fun path other => ∀ place, w.store.IsGrammarFile place →
        w.Covers path place → ¬w.Covers other place) ∧
    ∀ linter path, w.isFolder (normalPath path) = true →
      Session.lintFolder { workspace := w, linter } path "*.g4" =
        Session.lintFiles { workspace := w, linter } ((grammarFiles w [path]).filter w.isFile) ∧
      ((grammarFiles w [path]).filter w.isFile = grammarFiles w [path] ↔
        ∀ place, w.CoversBelow path place → ¬IsGrammarFolder w.store place) := by
  refine ⟨places_grammarFiles tree paths, ?_, fun linter path isFolder =>
    ⟨lintFolder_eq _ isFolder, filter_isFile_iff tree path⟩⟩
  rw [isListing_iff tree, nodup_flatMap]
  have member {path : String} {place : List String} := @Workspace.mem_listedPlaces w path place tree
  constructor
  · rintro ⟨⟨-, apart⟩, covered⟩
    refine ⟨fun path isPath place below isStray => ?_, apart.imp fun disjoint place isGrammar first second => ?_⟩
    · have inListing := mem_flatMap.mpr ⟨path, isPath, member.mpr (.inr ⟨isStray, below⟩)⟩
      exact isStray_not_isGrammarFile isStray ((covered place).mp inListing).1
    · exact disjoint (member.mpr (.inl ⟨isGrammar, first⟩)) (member.mpr (.inl ⟨isGrammar, second⟩))
  · rintro ⟨noStrays, apart⟩
    have grammar {path : String} {place : List String} (isPath : path ∈ paths) :
        place ∈ w.listedPlaces path ↔ w.store.IsGrammarFile place ∧ w.Covers path place := by
      rw [member, or_iff_left]
      exact fun both => noStrays path isPath place both.2 both.1
    refine ⟨⟨fun path _ => Workspace.nodup_listedPlaces tree path, ?_⟩, fun place => ?_⟩
    · refine apart.imp_of_mem fun isPath isOther disjoint place first second => ?_
      obtain ⟨isGrammar, covers⟩ := (grammar isPath).mp first
      exact disjoint place isGrammar covers ((grammar isOther).mp second).2
    · rw [mem_flatMap]
      constructor
      · rintro ⟨path, isPath, inListing⟩
        obtain ⟨isGrammar, covers⟩ := (grammar isPath).mp inListing
        exact ⟨isGrammar, path, isPath, covers⟩
      · rintro ⟨isGrammar, path, isPath, covers⟩
        exact ⟨path, isPath, (grammar isPath).mpr ⟨isGrammar, covers⟩⟩

end Listing

/-- A folder with a grammar file in it and a folder that is called like one. -/
def mixedFolder : Workspace :=
  ⟨⟨[(["d"], .folder), (["d", "a.g4"], .file []), (["d", "x.g4"], .folder)]⟩, []⟩

theorem mixedFolder_isTree : mixedFolder.store.IsTree := by
  have named : IsName "d" ∧ IsName "a.g4" ∧ IsName "x.g4" := by decide
  refine ⟨by decide, fun entry mem => ?_⟩
  simp only [mixedFolder, mem_cons, not_mem_nil, or_false] at mem
  rcases mem with rfl | rfl | rfl
  · exact ⟨[], "d", rfl, named.1, rfl⟩
  · exact ⟨["d"], "a.g4", rfl, named.2.1, rfl⟩
  · exact ⟨["d"], "x.g4", rfl, named.2.2, rfl⟩

theorem grammarFiles_isListing_iff_mixedFolder : mixedFolder.store.IsTree ∧
    (IsListing mixedFolder ["d", "d/a.g4"] (grammarFiles mixedFolder ["d", "d/a.g4"]) ↔
      (∀ path ∈ ["d", "d/a.g4"], ∀ place, mixedFolder.CoversBelow path place → ¬mixedFolder.store.IsStray place) ∧
      ["d", "d/a.g4"].Pairwise fun path other => ∀ place, mixedFolder.store.IsGrammarFile place →
        mixedFolder.Covers path place → ¬mixedFolder.Covers other place) :=
  ⟨mixedFolder_isTree, (grammarFiles_isListing_iff mixedFolder mixedFolder_isTree ["d", "d/a.g4"]).2.1⟩

theorem mixedFolder_covers : mixedFolder.CoversBelow "d" ["d", "x.g4"] ∧
    IsGrammarFolder mixedFolder.store ["d", "x.g4"] := by
  have place : mixedFolder.place (normalPath "d") = .ok ["d"] := by decide +kernel
  exact ⟨⟨["d"], place, ⟨["x.g4"], rfl⟩, by decide⟩, rfl, ['x'], rfl⟩

theorem listedPlaces_mixedFolder : mixedFolder.listedPlaces "d" = [["d", "a.g4"], ["d", "x.g4"]] ∧
    mixedFolder.listedPlaces "d/a.g4" = [["d", "a.g4"]] := by
  decide +kernel

/-- For a folder, a folder in it is listed as a grammar file, though the library leaves it out; and a file
that is named twice is listed twice. -/
theorem grammarFiles_astray : mixedFolder.store.IsTree ∧
    ¬IsListing mixedFolder ["d"] (grammarFiles mixedFolder ["d"]) ∧
    (grammarFiles mixedFolder ["d"]).filter mixedFolder.isFile ≠ grammarFiles mixedFolder ["d"] ∧
    ¬IsListing mixedFolder ["d/a.g4", "d/a.g4"] (grammarFiles mixedFolder ["d/a.g4", "d/a.g4"]) := by
  obtain ⟨below, isFolder⟩ := mixedFolder_covers
  obtain ⟨forFolder, forFile⟩ := listedPlaces_mixedFolder
  rw [isListing_iff mixedFolder_isTree, isListing_iff mixedFolder_isTree]
  refine ⟨mixedFolder_isTree, ?_, fun same => ?_, ?_⟩
  · rintro ⟨-, covered⟩
    exact isStray_not_isGrammarFile (.inl isFolder) ((covered ["d", "x.g4"]).mp (by simp [forFolder])).1
  · exact (filter_isFile_iff mixedFolder_isTree "d").mp same _ below isFolder
  · rintro ⟨once, -⟩
    simp [forFile] at once

end GrammarLint
