import GrammarLint.Config.File
import Mathlib.Data.List.Induction

open List

namespace GrammarLint.Config

/-- A folder on the way up to the root holds something of a name for configurations. -/
def Offers (there : List String → Bool) (folder d : List String) (name : String) : Prop :=
  d <+: folder ∧ name ∈ fileNames ∧ there (d ++ [name]) = true

/-- Nothing on offer is nearer, nor has an earlier name in the same folder. -/
structure IsNearest (offered : List String → String → Prop) (d : List String) (name : String) : Prop where
  holds : offered d name
  nearest : ∀ d' name', offered d' name' → d' <+: d
  earliest : ∃ before after, fileNames = before ++ name :: after ∧ ∀ earlier ∈ before, ¬offered d earlier

/-- The nearest of what is on offer, or nothing where nothing is. -/
def FindsNearest (offered : List String → String → Prop) : Option (List String) → Prop
  | some place => ∃ d name, place = d ++ [name] ∧ IsNearest offered d name
  | none => ∀ d name, ¬offered d name

theorem FindsNearest.congr {offered others : List String → String → Prop} {found : Option (List String)}
    (same : ∀ d name, others d name ↔ offered d name) (finds : FindsNearest offered found) :
    FindsNearest others found := by
  rwa [show others = offered from funext₂ fun d name => propext (same d name)]

theorem searched_concat (folder : List String) (last : String) :
    searched (folder ++ [last]) = (folder ++ [last]) :: searched folder := by
  rw [searched, length_append, length_singleton, range_succ_eq_map, map_cons, map_map, take_of_length_le (by simp)]
  refine congrArg _ (map_congr_left fun n _ => ?_)
  rw [Function.comp_apply, Nat.add_sub_add_right, take_append_of_le_length (Nat.sub_le ..)]

variable {there : List String → Bool} {folder : List String}

/-- What is found is the nearest of what lies below the root. -/
theorem discover_belowRoot :
    FindsNearest (fun d name => d ≠ [] ∧ Offers there folder d name) (discover there folder) := by
  induction folder using reverseRecOn with
  | nil => exact fun d name ⟨deep, above, _⟩ => deep (prefix_nil.mp above)
  | append_singleton folder last ih =>
    rw [discover, searched_concat, findSome?_cons]
    cases found : (fileNames.map fun name => folder ++ [last] ++ [name]).find? there with
    | some place =>
      rw [find?_map, Option.map_eq_some_iff] at found
      obtain ⟨name, first, rfl⟩ := found
      obtain ⟨present, before, after, same, others⟩ := find?_eq_some_iff_append.mp first
      refine ⟨_, name, rfl, ⟨by simp, prefix_rfl, by simp [same], present⟩, fun _ _ other => other.2.1, before, after,
        same, fun earlier mem offered => ?_⟩
      exact absurd offered.2.2.2 (by simpa using others earlier mem)
    | none =>
      -- The last folder has nothing to offer, so all is as it is one folder up.
      rw [find?_eq_none, forall_mem_map] at found
      refine ih.congr fun d name => and_congr_right fun _ => ?_
      rw [Offers, prefix_concat_iff]
      constructor
      · rintro ⟨rfl | above, named, present⟩
        · exact absurd present (found name named)
        · exact ⟨above, named, present⟩
      · exact fun ⟨above, holds⟩ => ⟨.inr above, holds⟩

/-- What the workspace offers on the way up from the folder of a path. -/
def OffersTo (w : Files.Workspace) (path : String) : List String → String → Prop :=
  Offers (fun place => (w.store.node? place).isSome) (w.resolve path)

/-- The search finds the nearest configuration of all folders but the root. It finds the nearest one of all folders
exactly where the root holds none or has one below it on the way. -/
theorem find_nearest (w : Files.Workspace) (path : String) :
    FindsNearest (fun d name => d ≠ [] ∧ OffersTo w path d name) (find w path) ∧
    (FindsNearest (OffersTo w path) (find w path) ↔
      ((∃ name, OffersTo w path [] name) → ∃ d name, d ≠ [] ∧ OffersTo w path d name)) := by
  have below : FindsNearest (fun d name => d ≠ [] ∧ OffersTo w path d name) (find w path) := discover_belowRoot
  refine ⟨below, ?_⟩
  cases found : find w path with
  | none =>
    rw [found] at below
    refine ⟨fun none ⟨name, offered⟩ => absurd offered (none [] name), fun deeper d name offered => ?_⟩
    obtain rfl : d = [] := by_contra fun deep => below d name ⟨deep, offered⟩
    obtain ⟨d, name, deep⟩ := deeper ⟨name, offered⟩
    exact below d name deep
  | some place =>
    rw [found] at below
    obtain ⟨d, name, rfl, holds, nearest, before, after, same, others⟩ := below
    refine ⟨fun _ _ => ⟨d, name, holds⟩, fun _ => ⟨d, name, rfl, holds.2, fun d' name' other => ?_, before, after, same,
      fun earlier mem offered => others earlier mem ⟨holds.1, offered⟩⟩⟩
    by_cases root : d' = []
    · exact root ▸ nil_prefix
    · exact nearest d' name' ⟨root, other⟩

/-- A folder beside a configuration in the root. -/
def besideRoot : Files.Workspace := ⟨⟨[(["work"], .folder), (["antlr-lint.json"], .file [])]⟩, ["work"]⟩

/-- The configuration in the root is the nearest one, and it is not found. -/
theorem find_root_missed : find besideRoot "." = none ∧ ¬FindsNearest (OffersTo besideRoot ".") (find besideRoot ".") := by
  have missed : find besideRoot "." = none := by decide +kernel
  refine ⟨missed, fun finds => ?_⟩
  rw [missed] at finds
  exact finds [] "antlr-lint.json" ⟨by simp, by decide, by decide +kernel⟩

end GrammarLint.Config
