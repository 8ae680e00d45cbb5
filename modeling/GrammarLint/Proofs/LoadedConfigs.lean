import GrammarLint.Proofs.SavedConfig

open List

namespace GrammarLint

open Files (Workspace normalPath)
open Json (Value)
open Text (Loose)

theorem Text.hasInfix_iff {α : Type} [BEq α] [LawfulBEq α] {part text : List α} :
    hasInfix part text = true ↔ part <:+: text := by
  induction text with
  | nil => simp [hasInfix]
  | cons c rest ih => simp [hasInfix, ih, infix_cons_iff]

theorem exists_bind_ok {ε α β : Type} {x : Except ε α} {f : α → Except ε β} :
    (∃ b, x >>= f = .ok b) ↔ ∃ a, x = .ok a ∧ ∃ b, f a = .ok b := by
  constructor
  · rintro ⟨b, bound⟩
    obtain ⟨a, first, later⟩ := bind_ok bound
    exact ⟨a, first, b, later⟩
  · rintro ⟨a, rfl, b, later⟩
    exact ⟨b, later⟩

def Severity.Named (value : Value) : Prop := ∃ severity : Severity, value = .str severity.name

theorem Severity.ofValue_ok_iff {value : Value} : (∃ severity, ofValue value = .ok severity) ↔ Named value := by
  constructor
  · rintro ⟨severity, read⟩
    unfold ofValue at read
    split at read
    · split at read
      · rename_i found
        have same := find?_some found
        exact ⟨_, congrArg Value.str (eq_of_beq same)⟩
      · cases read
    · cases read
  · rintro ⟨severity, rfl⟩
    cases severity <;> exact ⟨_, rfl⟩

namespace RuleConfig

/-- Settings that are an object have no severity or one of the three, and those that are a text are one. -/
def Fits : Value → Prop
  | .obj fields => ∀ severity ∈ Value.lookUp "severity" fields, Severity.Named severity
  | .str name => Severity.Named (.str name)
  | _ => True

variable {value : Value}

theorem ofValue_ok_iff : (∃ settings, ofValue value = .ok settings) ↔ Fits value := by
  cases value with
  | obj fields =>
    rw [ofValue, exists_bind_ok, Fits]
    simp only [pure, Except.pure, Except.ok.injEq, exists_eq', and_true, Severity.ofValue_ok_iff]
    cases Value.lookUp "severity" fields with
    | none => simpa using ⟨.warning, rfl⟩
    | some severity => simp
  | str name =>
    rw [ofValue, exists_bind_ok, Fits]
    simp [pure, Except.pure, Except.ok.injEq, exists_eq', and_true, Severity.ofValue_ok_iff]
  | _ => exact iff_of_true ⟨_, rfl⟩ trivial

end RuleConfig

namespace Config

/-- An entry is taken from an object in any case, and else from what does not hold the key but could. -/
def Spares (key : Loose) : Value → Prop
  | .obj _ => True
  | .arr items => .str key ∉ items
  | .str text => ¬key.points <:+: text.points
  | _ => False

section Entries

variable {key : Loose} {data : Value}

theorem entry?_ok_iff : (∃ found, entry? key data = .ok found) ↔ Spares key data := by
  unfold entry? Spares
  cases data with
  | obj fields => simp
  | arr items =>
    dsimp only
    split
    · rename_i held
      obtain ⟨item, mem, same⟩ := any_eq_true.mp held
      refine iff_of_false (by simp) fun unheld => ?_
      cases item with
      | str text => exact unheld (eq_of_beq same ▸ mem)
      | _ => cases same
    · rename_i unheld
      refine iff_of_true ⟨_, rfl⟩ fun mem => unheld ?_
      exact any_eq_true.mpr ⟨_, mem, beq_self_eq_true key⟩
  | str text =>
    simp only [Loose.contains, Text.hasInfix_iff]
    split <;> simp [*]
  | _ => simp

theorem entry?_eq_none {found : Option Value} (read : entry? key data = .ok found)
    (other : ∀ fields, data ≠ .obj fields) : found = none := by
  unfold entry? at read
  split at read
  · exact absurd rfl (other _)
  · split at read <;> cases read
    rfl
  · split at read <;> cases read
    rfl
  · cases read

theorem rulesOfValue_ok_iff : (∃ rules, rulesOfValue data = .ok rules) ↔
    ∃ entries, data = .obj entries ∧ ∀ entry ∈ entries, RuleConfig.Fits entry.2 := by
  cases data with
  | obj fields =>
    have each (entry : Loose × Value) : (∃ kept, (do return (← RuleConfig.ofValue entry.2).map fun config =>
        (entry.1, config)) = .ok kept) ↔ RuleConfig.Fits entry.2 := by
      rw [exists_bind_ok, ← RuleConfig.ofValue_ok_iff]
      exact exists_congr fun _ => and_iff_left ⟨_, rfl⟩
    simp only [← each, Value.obj.injEq, exists_eq_left']
    exact ⟨fun ⟨_, read⟩ => each_of_filterMapM read, filterMapM_ok⟩
  | _ => simp [rulesOfValue]

theorem ofValue_ok_iff_entries : (∃ config, ofValue data = .ok config) ↔
    (∃ found, entry? "rules" data = .ok found ∧ ∃ rules, found.elim (.ok []) rulesOfValue = .ok rules) ∧
      Spares "excludePatterns" data ∧ Spares "outputFormat" data := by
  simp [ofValue_eq, exists_bind_ok, ← entry?_ok_iff, ← and_assoc]

def keys : List Loose := ["rules", "excludePatterns", "outputFormat"]

/-- Data that a configuration can be read from: an object whose rules, if it has them, are an object of
settings that fit, or an array or a text that holds none of the keys. -/
def Loadable : Value → Prop
  | .obj fields => ∀ rules ∈ Value.lookUp "rules" fields, ∃ entries, rules = .obj entries ∧
      ∀ entry ∈ entries, RuleConfig.Fits entry.2
  | data => ∀ key ∈ keys, Spares key data

theorem ofValue_ok_iff : (∃ config, ofValue data = .ok config) ↔ Loadable data := by
  rw [ofValue_ok_iff_entries]
  by_cases object : ∃ fields, data = .obj fields
  · obtain ⟨fields, rfl⟩ := object
    simp only [ entry?, Except.ok.injEq, exists_eq_left', Spares, and_true, Loadable]
    cases Value.lookUp "rules" fields with
    | none => simp
    | some rules => simp [rulesOfValue_ok_iff]
  · have spared : (∃ found, entry? "rules" data = .ok found ∧
        ∃ rules, found.elim (.ok []) rulesOfValue = .ok rules) ↔ Spares "rules" data := by
      rw [← entry?_ok_iff]
      refine exists_congr fun found => and_iff_left_of_imp fun read => ?_
      rw [entry?_eq_none read fun fields same => object ⟨fields, same⟩]
      exact ⟨[], rfl⟩
    rw [spared, Loadable]
    · simp [keys]
    · exact fun fields same => object ⟨fields, same⟩

end Entries

section Files

variable {w : Workspace} {path : String} {bytes : List UInt8}

/-- The path leads to a file of text, which is read as data of the configuration. -/
def Holds (w : Workspace) (path : String) (config : Config) : Prop :=
  ∃ place bytes text data, w.locate (normalPath path) = .ok (place, .file bytes) ∧
    Text.Utf8.decode bytes = .ok text ∧ Json.read limits (Text.unifyLines text) = .ok data ∧
    ofValue data = .ok config

variable (bytes) in
/-- The bytes of a file are read in three steps, each of which may find them of no use. -/
theorem ofBytes_outcome : (∀ config, ofBytes bytes = .ok config ↔ ∃ text data,
      Text.Utf8.decode bytes = .ok text ∧ Json.read limits (Text.unifyLines text) = .ok data ∧
      ofValue data = .ok config) ∧
    ∀ name, ofBytes bytes ≠ .error (.missing name) := by
  unfold ofBytes ofBytesWithin
  cases Text.Utf8.decode bytes with
  | error error => simp
  | ok text =>
    cases read : Json.read limits (Text.unifyLines text) with
    | error error => cases error <;> simp [ofTextWithin, read]
    | ok data => cases made : ofValue data <;> simp [ofTextWithin, read, made, Except.mapError]

theorem load_file {place : List String} (located : w.locate (normalPath path) = .ok (place, .file bytes)) :
    load w path = ofBytes bytes := by
  simp [load, loadWithin, Workspace.present, Workspace.read, located, Except.isOk, Except.toBool, ofBytes]

theorem load_not_file (other : ∀ place bytes, w.locate (normalPath path) ≠ .ok (place, .file bytes)) :
    ∃ error, load w path = .error error ∧
      (w.present (normalPath path) = true → ∀ name, error ≠ .missing name) := by
  unfold load loadWithin Workspace.read Workspace.present
  cases located : w.locate (normalPath path) with
  | error cause => simp [located, Except.isOk, Except.toBool]
  | ok found =>
    obtain ⟨place, bytes | -⟩ := found
    · exact absurd located (other place bytes)
    · simp [located, Except.isOk, Except.toBool]

theorem load_outcome : (∀ config, load w path = .ok config ↔ Holds w path config) ∧
    (w.present (normalPath path) = true → ∀ name, load w path ≠ .error (.missing name)) := by
  by_cases file : ∃ place bytes, w.locate (normalPath path) = .ok (place, .file bytes)
  · obtain ⟨place, bytes, located⟩ := file
    obtain ⟨loads, there⟩ := ofBytes_outcome bytes
    simp only [load_file located, loads]
    refine ⟨?_, fun _ => there⟩
    simp [Holds, located]
  · obtain ⟨error, failed, there⟩ := load_not_file fun place bytes same => file ⟨place, bytes, same⟩
    simp only [failed]
    refine ⟨fun config => iff_of_false (by simp) ?_, fun present name same => ?_⟩
    · rintro ⟨place, bytes, _, _, located, -⟩
      exact file ⟨place, bytes, located⟩
    · exact there present name (Except.error.inj same)

end Files

theorem rules_of_fields {fields : List (Loose × Value)} {config : Config}
    (read : ofValue (.obj fields) = .ok config) : ∃ entries,
      (Value.lookUp "rules" fields).getD (.obj []) = .obj entries ∧ KeepsSettings entries config.rules := by
  obtain ⟨_, -, -, found, -, -, rules, -⟩ := ofValue_ok read
  cases found
  cases there : Value.lookUp "rules" fields with
  | none =>
    rw [there] at rules
    rw [← Except.ok.inj rules]
    exact ⟨[], rfl, .nil⟩
  | some data =>
    rw [there] at rules
    cases data with
    | obj entries => exact ⟨entries, rfl, keepsSettings_rulesOfValue rules⟩
    | _ => cases rules

/-- Data gives a configuration just if it is an object whose rules, if it has them, are an object of settings
that fit, or an array or a text without the keys. The settings that are objects, truth values or texts are then
kept, in order. What is there is loaded just if it is a file of text that is read as such data, and what goes
wrong is never that it is missing. -/
theorem loads_exactly :
    (∀ data, (∃ config, ofValue data = .ok config) ↔ Loadable data) ∧
    (∀ fields config, ofValue (.obj fields) = .ok config → ∃ entries,
      (Value.lookUp "rules" fields).getD (.obj []) = .obj entries ∧ KeepsSettings entries config.rules) ∧
    ∀ w path, (∀ config, load w path = .ok config ↔ Holds w path config) ∧
      (w.present (normalPath path) = true → ∀ name, load w path ≠ .error (.missing name)) :=
  ⟨fun _ => ofValue_ok_iff, fun _ _ => rules_of_fields, fun _ _ => load_outcome⟩

end Config

end GrammarLint
