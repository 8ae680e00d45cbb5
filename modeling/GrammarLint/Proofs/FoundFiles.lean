import GrammarLint.Proofs.FolderTrees

open List

namespace GrammarLint

namespace Text

theorem nodup_eraseDups {α : Type} [BEq α] [LawfulBEq α] (texts : List α) : texts.eraseDups.Nodup := by
  induction length : texts.length using Nat.strong_induction_on generalizing texts with
  | _ n ih =>
    cases texts with
    | nil => simp
    | cons text rest =>
      rw [eraseDups_cons, nodup_cons]
      refine ⟨by simp, ih _ ?_ _ rfl⟩
      have shorter := length_filter_le (fun other => !other == text) rest
      simp only [length_cons] at length
      omega

variable (texts : List String)

theorem sorted_perm : (sorted texts).Perm texts := mergeSort_perm ..

theorem sorted_pairwise : (sorted texts).Pairwise (· ≤ ·) := by
  have ordered := @pairwise_mergeSort _ (fun a b : String => decide (a ≤ b))
    (fun a b c first second => by simpa using String.le_trans (by simpa using first) (by simpa using second))
    (fun a b => by simpa using String.le_total a b) texts
  simpa [sorted] using ordered

/-- It does not matter whether some texts are left out before or after sorting. -/
theorem sorted_filter (keep : String → Bool) (texts : List String) :
    sorted (texts.filter keep) = (sorted texts).filter keep :=
  ((sorted_perm _).trans ((sorted_perm texts).filter keep).symm).eq_of_pairwise
    (fun _ _ _ _ => String.le_antisymm) (sorted_pairwise _) ((sorted_pairwise texts).filter keep)

namespace Wildcard

variable {parts : List Wildcard} {name : List CodePoint}

theorem matchesAll_char {c : CodePoint} :
    matchesAll (.char c :: parts) name = true ↔ ∃ rest, name = c :: rest ∧ matchesAll parts rest = true := by
  cases name with
  | nil => simp [matchesAll]
  | cons d rest =>
    simp only [matchesAll, takes, Bool.and_eq_true, beq_iff_eq, cons.injEq]
    constructor
    · rintro ⟨rfl, fit⟩
      exact ⟨rest, ⟨rfl, rfl⟩, fit⟩
    · rintro ⟨_, ⟨rfl, rfl⟩, fit⟩
      exact ⟨rfl, fit⟩

theorem matchesAll_many :
    matchesAll (.many :: parts) name = true ↔ ∃ front back, name = front ++ back ∧ matchesAll parts back = true := by
  induction name with
  | nil => simp [matchesAll]
  | cons c rest ih =>
    rw [matchesAll, Bool.or_eq_true, ih]
    constructor
    · rintro (whole | ⟨front, back, rfl, fit⟩)
      · exact ⟨[], _, rfl, whole⟩
      · exact ⟨c :: front, back, rfl, fit⟩
    · rintro ⟨_ | ⟨d, front⟩, back, same, fit⟩
      · exact .inl (same ▸ fit)
      · obtain ⟨-, rfl⟩ := cons_eq_cons.mp same
        exact .inr ⟨front, back, rfl, fit⟩

end Wildcard

end Text

namespace Files

def EndsInG4 (name : String) : Prop := ".g4".toList <:+ name.toList

variable {name : String} {place : List String}

theorem fits_g4 : Text.fits "*.g4" name = true ↔ EndsInG4 name := by
  have read : Text.Wildcard.read (Text.Loose.ofString "*.g4").points =
    [.many, .char (.char '.'), .char (.char 'g'), .char (.char '4')] := by decide
  have ended {points : List Text.CodePoint} : Text.Wildcard.matchesAll [] points = true ↔ points = [] := by
    simp [Text.Wildcard.matchesAll]
  rw [Text.fits, read, Text.Wildcard.matchesAll_many]
  simp only [Text.Wildcard.matchesAll_char, ended, Text.Loose.ofString, map_eq_append_iff]
  constructor
  · rintro ⟨_, _, ⟨front, back, same, rfl, rfl⟩, last⟩
    obtain ⟨_, split, _, rfl, _, rfl, rfl⟩ := last
    have chars : back = ".g4".toList := map_injective_iff.mpr (fun _ _ => Text.CodePoint.char.inj) split
    exact ⟨front, by rw [same, chars]⟩
  · rintro ⟨front, same⟩
    exact ⟨_, _, ⟨front, ".g4".toList, same.symm, rfl, rfl⟩, _, rfl, _, rfl, _, rfl, rfl⟩

/-- The suffix of a name begins with a point that has something before it. -/
theorem suffix_cases (name : String) : suffix name = "" ∨ ∃ front ending, front ≠ [] ∧
    name.toList = front ++ '.' :: ending ∧ suffix name = "." ++ String.ofList ending := by
  let ending := (name.toList.reverse.takeWhile (· != '.')).reverse
  have split := @takeWhile_append_dropWhile _ (· != '.') name.toList.reverse
  by_cases proper : (decide (ending.length + 1 < name.toList.length) && !ending.isEmpty) = true
  · have long : ending.length + 1 < name.toList.length := of_decide_eq_true (Bool.and_eq_true_iff.mp proper).1
    have length : ending.length + (name.toList.reverse.dropWhile (· != '.')).length = name.toList.length := by
      rw [length_reverse, ← length_append, split, length_reverse]
    cases behind : name.toList.reverse.dropWhile (· != '.') with
    | nil =>
      rw [behind, length_nil] at length
      omega
    | cons c front =>
      have point : c = '.' := by
        have stops := head?_dropWhile_not (· != '.') name.toList.reverse
        simpa [behind] using stops
      refine .inr ⟨front.reverse, ending, ?_, ?_, if_pos proper⟩
      · intro none
        rw [behind, reverse_eq_nil_iff.mp none, length_singleton] at length
        omega
      · rw [← reverse_reverse name.toList, ← split, behind, point]
        simp [ending]
  · exact .inl (if_neg proper)

theorem suffix_of_append {front ending : List Char} (further : front ≠ []) (nonempty : ending ≠ [])
    (pointless : '.' ∉ ending) (same : name.toList = front ++ '.' :: ending) :
    suffix name = "." ++ String.ofList ending := by
  have all : ∀ c ∈ ending.reverse, (c != '.') = true := by
    intro c mem
    simpa using ne_of_mem_of_not_mem (mem_reverse.mp mem) pointless
  have taken : (name.toList.reverse.takeWhile (· != '.')).reverse = ending := by
    rw [same, reverse_append, reverse_cons, append_assoc, takeWhile_append_of_pos all]
    simp
  have length := length_pos_iff.mpr further
  unfold suffix
  dsimp only
  rw [taken, same]
  exact if_pos (by simp [nonempty, length])

/-- A name has the suffix of grammar files if it ends so and has something before it. -/
theorem suffix_eq_g4 : suffix name = ".g4" ↔ EndsInG4 name ∧ name ≠ ".g4" := by
  constructor
  · intro same
    rcases suffix_cases name with none | ⟨front, ending, further, split, is⟩
    · rw [none] at same
      exact absurd same (by decide)
    · have letters : ending = ['g', '4'] := by simpa using congrArg String.toList (is.symm.trans same)
      subst letters
      refine ⟨⟨front, split.symm⟩, ?_⟩
      rintro rfl
      exact further (append_cancel_right (nil_append _ ▸ split)).symm
  · rintro ⟨⟨front, same⟩, more⟩
    have further : front ≠ [] := by
      rintro rfl
      exact more (String.toList_injective same.symm)
    exact suffix_of_append further (by simp) (by decide) same.symm

def lastName (place : List String) : String := place.getLast?.getD ""

theorem lastName_append {way : List String} (further : way ≠ []) :
    lastName (place ++ way) = lastName way := by
  rw [lastName, lastName, getLast?_append_of_ne_nil _ further]

def Store.IsGrammarFile (store : Store) (place : List String) : Prop :=
  (∃ bytes, store.node? place = some (.file bytes)) ∧ suffix (lastName place) = ".g4"

/-- What looks like a grammar file below a folder and is none: a folder with such a name, or a file with
nothing before the point. -/
def Store.IsStray (store : Store) (place : List String) : Prop :=
  store.node? place = some .folder ∧ EndsInG4 (lastName place) ∨
    (∃ bytes, store.node? place = some (.file bytes)) ∧ lastName place = ".g4"

/-- What ends like a grammar file is one or is a stray. -/
theorem Store.endsInG4_iff {store : Store} :
    (store.node? place).isSome = true ∧ EndsInG4 (lastName place) ↔
      store.IsGrammarFile place ∨ store.IsStray place := by
  have itself : EndsInG4 ".g4" := suffix_rfl
  rw [IsGrammarFile, IsStray, suffix_eq_g4]
  rcases store.node? place with _ | _ | _
  · simp
  · by_cases bare : lastName place = ".g4" <;> simp [bare, itself]
  · simp

namespace Workspace

variable {w : Workspace} {path : String} {base place way : List String} {node : Node}

theorem locate_eq_ok : w.locate path = .ok (place, node) ↔
    w.place path = .ok place ∧ w.store.node? place = some node := by
  unfold locate
  cases found : w.place path with
  | error cause => simp [bind, Except.bind]
  | ok there =>
    simp only [bind, Except.bind, Except.ok.injEq]
    cases holds : w.store.node? there with
    | none =>
      simp only [reduceCtorEq, false_iff, not_and]
      rintro rfl
      simp [holds]
    | some other =>
      simp only [pure, Except.pure, Except.ok.injEq, Prod.mk.injEq]
      constructor
      · rintro ⟨rfl, rfl⟩
        exact ⟨rfl, holds⟩
      · rintro ⟨rfl, same⟩
        exact ⟨rfl, Option.some.inj (holds.symm.trans same)⟩

/-- A path to a file ends in the name of the file. -/
theorem fileName_eq (tree : w.store.IsTree) {bytes : List UInt8}
    (found : w.place (normalPath path) = .ok place) (isFile : w.store.node? place = some (.file bytes)) :
    fileName path = lastName place := by
  have walked := walk_normalPath found
  have moved : names path ≠ [] := by
    intro none
    rw [none] at walked
    cases walked
    unfold place at found
    split at found
    · cases found
    · obtain ⟨piece, rest, split⟩ := exists_cons_of_ne_nil (pieces_ne_nil (normalPath path))
      rw [split] at found
      have isFolder := (Store.walk_cons_eq_ok.mp found).1
      rw [normalPath, origin_pathText w fun _ => isPart_of_mem_names, isFile] at isFolder
      cases isFolder
  rw [fileName, lastName, tree.walk_file (fun _ => isTelling_of_mem_names) walked isFile moved]

/-- From the place of a path one gets to all that lies below it by going on with the path. -/
theorem place_below (tree : w.store.IsTree) (found : w.place (normalPath path) = .ok base)
    (there : (w.store.node? (base ++ way)).isSome = true) :
    w.place (pathText (anchor path) (names path ++ way)) = .ok (base ++ way) := by
  rcases Classical.em (way = []) with rfl | further
  · rwa [append_nil, append_nil]
  · have clean : ∀ part ∈ names path ++ way, IsPart part :=
      forall_mem_append.mpr ⟨fun _ => isPart_of_mem_names, fun name mem =>
        ((tree.way_down there).1 name mem).isPart⟩
    exact place_pathText (by simp [further]) clean (Store.walk_append (walk_normalPath found) (tree.walk_down there))

section Search

variable {pattern : String} {parts down : List String} (tree : w.store.IsTree)
  (found : w.place (normalPath path) = .ok base)

include tree found

/-- In a folder that one gets to from that of a path, the names are looked at. -/
theorem mem_select_fitting (isFolder : w.store.node? (base ++ down) = some .folder) :
    parts ∈ w.select (anchor path) [.fitting pattern] (names path ++ down) ↔
      ∃ name, parts = names path ++ (down ++ [name]) ∧
        (w.store.node? (base ++ (down ++ [name]))).isSome = true ∧ Text.fits pattern name = true := by
  have located : w.locate (pathText (anchor path) (names path ++ down)) = .ok (base ++ down, .folder) :=
    locate_eq_ok.mpr ⟨place_below tree found (by rw [isFolder]; rfl), isFolder⟩
  simp only [select, located, isEmpty_nil, Bool.true_or, filter_true, mem_flatMap,
    mem_filter, tree.mem_children, mem_singleton, append_assoc]
  constructor
  · rintro ⟨name, ⟨there, fit⟩, same⟩
    exact ⟨name, same, there, fit⟩
  · rintro ⟨name, same, there, fit⟩
    exact ⟨name, ⟨there, fit⟩, same⟩

/-- From the folder of a path the search goes on in it and in all folders below it. -/
theorem mem_select_folders (isFolder : w.store.node? base = some .folder) {rest : List Part} :
    parts ∈ w.select (anchor path) (.folders :: rest) (names path) ↔
      ∃ down, w.store.node? (base ++ down) = some .folder ∧
        parts ∈ w.select (anchor path) rest (names path ++ down) := by
  have located : w.locate (pathText (anchor path) (names path)) = .ok (base, .folder) :=
    locate_eq_ok.mpr ⟨found, isFolder⟩
  rw [select, located]
  simp only [mem_flatMap, mem_cons, mem_map, tree.mem_foldersBelow]
  constructor
  · rintro ⟨_, rfl | ⟨down, ⟨-, isBelow⟩, rfl⟩, selected⟩
    · exact ⟨[], by rwa [append_nil], by rwa [append_nil]⟩
    · exact ⟨down, isBelow, selected⟩
  · rintro ⟨down, isBelow, selected⟩
    refine ⟨_, ?_, selected⟩
    rcases Classical.em (down = []) with rfl | further
    · exact .inl (append_nil _)
    · exact .inr ⟨down, ⟨further, isBelow⟩, rfl⟩

/-- A pattern for names is looked for in the folder of a path and in all folders below it. -/
theorem mem_select (isFolder : w.store.node? base = some .folder) :
    parts ∈ w.select (anchor path) [.folders, .fitting pattern] (names path) ↔
      ∃ way, way ≠ [] ∧ parts = names path ++ way ∧ (w.store.node? (base ++ way)).isSome = true ∧
        Text.fits pattern (lastName way) = true := by
  rw [mem_select_folders tree found isFolder]
  constructor
  · rintro ⟨down, isBelow, selected⟩
    obtain ⟨name, same, there, fit⟩ := (mem_select_fitting tree found isBelow).mp selected
    refine ⟨down ++ [name], by simp, same, there, ?_⟩
    rwa [lastName_append (by simp)]
  · rintro ⟨way, further, same, there, fit⟩
    -- what was found lies in the folder that all but its last name lead to
    rcases way.eq_nil_or_concat' with rfl | ⟨down, name, rfl⟩
    · exact absurd rfl further
    · rw [lastName_append (by simp)] at fit
      have isBelow : w.store.node? (base ++ down) = some .folder :=
        (tree.folder_of_child (by rwa [append_assoc])).2
      exact ⟨down, isBelow, (mem_select_fitting tree found isBelow).mpr ⟨name, same, there, fit⟩⟩

end Search

/-- The names that lead to what a search for grammar files finds, each once. -/
def foundNames (w : Workspace) (path : String) : List (List String) :=
  (w.select (anchor path) [.folders, .fitting "*.g4"] (names path)).eraseDups

theorem find_g4 (w : Workspace) (path : String) :
    w.find path "*.g4" = .ok ((w.foundNames path).map (pathText (anchor path))) := by
  have parts : Part.ofPattern "*.g4" = .ok [.folders, .fitting "*.g4"] := by decide +kernel
  rw [find, parts]
  rfl

/-- The places below a folder with names that end like those of grammar files. -/
def grammarPlaces (store : Store) (base : List String) : List (List String) :=
  (store.nodes.map (·.1)).filter fun place =>
    base.isPrefixOf place && base != place && ".g4".toList.isSuffixOf (lastName place).toList

theorem mem_grammarPlaces (tree : w.store.IsTree) : place ∈ grammarPlaces w.store base ↔
    ∃ way, way ≠ [] ∧ place = base ++ way ∧ (w.store.node? place).isSome = true ∧ EndsInG4 (lastName place) := by
  simp only [grammarPlaces, mem_filter, Bool.and_eq_true, isPrefixOf_iff_prefix, bne_iff_ne,
    isSuffixOf_iff_suffix]
  constructor
  · rintro ⟨listed, ⟨⟨way, rfl⟩, apart⟩, ends⟩
    have further : way ≠ [] := by
      rintro rfl
      simp at apart
    obtain ⟨⟨_, node⟩, mem, rfl⟩ := mem_map.mp listed
    refine ⟨way, further, rfl, ?_, ends⟩
    rw [(tree.mem_nodes (by simp [further])).mp mem]
    rfl
  · rintro ⟨way, further, rfl, there, ends⟩
    obtain ⟨node, holds⟩ := Option.isSome_iff_exists.mp there
    refine ⟨mem_map.mpr ⟨(base ++ way, node), (tree.mem_nodes (by simp [further])).mpr holds, rfl⟩,
      ⟨⟨way, rfl⟩, by simpa using further⟩, ends⟩

/-- A search below a folder finds the nodes with names that end like those of grammar files, each once. -/
theorem places_find (tree : w.store.IsTree) (found : w.place (normalPath path) = .ok base)
    (isFolder : w.store.node? base = some .folder) :
    (((w.foundNames path).map (pathText (anchor path))).map w.place).Perm
      ((grammarPlaces w.store base).map .ok) := by
  have mem {parts : List String} : parts ∈ w.foundNames path ↔ ∃ way, way ≠ [] ∧ parts = names path ++ way ∧
      (w.store.node? (base ++ way)).isSome = true ∧ EndsInG4 (lastName way) := by
    rw [foundNames, mem_eraseDups, mem_select tree found isFolder]
    simp [fits_g4]
  -- nothing is listed twice on either side, so it is enough to compare what is listed
  rw [map_map, perm_ext_iff_of_nodup]
  · intro result
    simp only [mem_map, Function.comp_apply, mem, mem_grammarPlaces tree]
    constructor
    · rintro ⟨_, ⟨way, further, rfl, there, ends⟩, rfl⟩
      exact ⟨base ++ way, ⟨way, further, rfl, there, by rwa [lastName_append further]⟩, (place_below tree found there).symm⟩
    · rintro ⟨_, ⟨way, further, rfl, there, ends⟩, rfl⟩
      rw [lastName_append further] at ends
      exact ⟨_, ⟨way, further, rfl, there, ends⟩, place_below tree found there⟩
  · refine (Text.nodup_eraseDups _).map_on fun first isFirst second isSecond same => ?_
    obtain ⟨way, -, rfl, there, -⟩ := mem.mp isFirst
    obtain ⟨other, -, rfl, elsewhere, -⟩ := mem.mp isSecond
    rw [Function.comp_apply, Function.comp_apply, place_below tree found there,
      place_below tree found elsewhere] at same
    rw [append_cancel_left (Except.ok.inj same)]
  · exact (tree.once.filter _).map (fun _ _ => Except.ok.inj)

/-- The place is that of the path or lies below it. -/
def Covers (w : Workspace) (path : String) (place : List String) : Prop :=
  ∃ base, w.place (normalPath path) = .ok base ∧ base <+: place

def CoversBelow (w : Workspace) (path : String) (place : List String) : Prop :=
  ∃ base, w.place (normalPath path) = .ok base ∧ base <+: place ∧ base ≠ place

/-- The places that a path among the arguments stands for: its own, if it is one of a grammar file, and
for a folder those below it with such names. -/
def listedPlaces (w : Workspace) (path : String) : List (List String) :=
  match w.locate (normalPath path) with
  | .ok (base, .file _) => if suffix (lastName base) = ".g4" then [base] else []
  | .ok (base, .folder) => grammarPlaces w.store base
  | .error _ => []

theorem nodup_listedPlaces (tree : w.store.IsTree) (path : String) : (w.listedPlaces path).Nodup := by
  unfold listedPlaces
  split
  · split <;> simp
  · exact tree.once.filter _
  · exact .nil

/-- A path to a place above a node leads to a folder. -/
theorem locate_above (tree : w.store.IsTree) (found : w.place (normalPath path) = .ok base)
    (above : base <+: place) (apart : base ≠ place) (there : (w.store.node? place).isSome = true) :
    w.locate (normalPath path) = .ok (base, .folder) := by
  obtain ⟨way, rfl⟩ := above
  exact locate_eq_ok.mpr ⟨found, (tree.way_down there).2 (by simpa using apart)⟩

/-- All grammar files among and below the arguments are listed, and below them all strays. -/
theorem mem_listedPlaces (tree : w.store.IsTree) : place ∈ w.listedPlaces path ↔
    w.store.IsGrammarFile place ∧ w.Covers path place ∨ w.store.IsStray place ∧ w.CoversBelow path place := by
  constructor
  · intro mem
    unfold listedPlaces at mem
    split at mem
    · rename_i base bytes located
      obtain ⟨found, isFile⟩ := locate_eq_ok.mp located
      obtain ⟨named, only⟩ := mem_ite_nil_right.mp mem
      rw [mem_singleton.mp only]
      exact .inl ⟨⟨⟨bytes, isFile⟩, named⟩, base, found, prefix_rfl⟩
    · rename_i base located
      obtain ⟨found, isFolder⟩ := locate_eq_ok.mp located
      obtain ⟨way, further, rfl, there, ends⟩ := (mem_grammarPlaces tree).mp mem
      refine (Store.endsInG4_iff.mp ⟨there, ends⟩).imp (⟨·, base, found, way, rfl⟩) fun isStray => ?_
      exact ⟨isStray, base, found, ⟨way, rfl⟩, by simpa using further⟩
    · cases mem
  · have below {base : List String} (found : w.place (normalPath path) = .ok base) (above : base <+: place)
        (apart : base ≠ place) (looks : w.store.IsGrammarFile place ∨ w.store.IsStray place) :
        place ∈ w.listedPlaces path := by
      obtain ⟨there, ends⟩ := Store.endsInG4_iff.mpr looks
      rw [listedPlaces, locate_above tree found above apart there]
      obtain ⟨way, rfl⟩ := above
      exact (mem_grammarPlaces tree).mpr ⟨way, by simpa using apart, rfl, there, ends⟩
    rintro (⟨isGrammar, base, found, above⟩ | ⟨isStray, base, found, above, apart⟩)
    · rcases Classical.em (base = place) with rfl | apart
      · obtain ⟨⟨bytes, isFile⟩, named⟩ := isGrammar
        rw [listedPlaces, locate_eq_ok.mpr ⟨found, isFile⟩]
        simp [named]
      · exact below found above apart (.inl isGrammar)
    · exact below found above apart (.inr isStray)

end Workspace

end Files

end GrammarLint
