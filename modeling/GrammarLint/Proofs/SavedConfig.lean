import GrammarLint.Config.File
import GrammarLint.Proofs.Encoding
import GrammarLint.Proofs.JsonRows
import GrammarLint.Proofs.WrittenFiles

open List

namespace GrammarLint

open Json (Limits Value)
open Text (Loose)

namespace Json

/-- An empty object in place of a value that says nothing. -/
def Value.orEmpty : Value → Value
  | .null => .obj []
  | .bool false => .obj []
  | .int 0 => .obj []
  | .str ⟨[]⟩ => .obj []
  | .arr [] => .obj []
  | value => value

theorem Value.orEmpty_eq {value : Value} (noFloat : value.floatFree = true) :
    value.orEmpty = if value.truthy then value else .obj [] := by
  match value with
  | .null => rfl
  | .bool true => rfl
  | .bool false => rfl
  | .int (.ofNat 0) => rfl
  | .int (.ofNat (_ + 1)) => rfl
  | .int (.negSucc _) => rfl
  | .float _ => exact absurd noFloat Bool.false_ne_true
  | .str ⟨[]⟩ => rfl
  | .str ⟨_ :: _⟩ => rfl
  | .arr [] => rfl
  | .arr (_ :: _) => rfl
  | .obj [] => rfl
  | .obj (_ :: _) => rfl

end Json

namespace RuleConfig

/-- The settings with an empty object for thresholds that say nothing. -/
def tidied (rule : RuleConfig) : RuleConfig := { rule with thresholds := rule.thresholds.orEmpty }

structure Storable (digits room : Nat) (rule : RuleConfig) : Prop where
  enabled : Json.Storable digits room rule.enabled
  thresholds : Json.Storable digits room rule.thresholds

variable {digits room : Nat} {rule : RuleConfig} {value : Value}

/-- Each of the three shapes of settings holds its parts no deeper than they are written. -/
theorem storable_of_ofValue (storable : Json.Storable digits (room + 2) value)
    (read : ofValue value = .ok (some rule)) : rule.Storable digits (room + 1) := by
  unfold ofValue at read
  split at read
  · obtain ⟨severity, -, same⟩ := bind_ok read
    cases same
    exact ⟨storable.getD_lookUp (.bool true), storable.getD_lookUp .empty⟩
  · cases read
    exact ⟨.bool _, .empty⟩
  · obtain ⟨severity, -, same⟩ := bind_ok read
    cases same
    exact ⟨.bool true, .empty⟩
  · cases read

/-- Settings are an object, a truth value or a text. -/
def isSettings : Value → Bool
  | .obj _ | .bool _ | .str _ => true
  | _ => false

theorem isSome_of_ofValue {settings : Option RuleConfig}
    (read : ofValue value = .ok settings) : settings.isSome = isSettings value := by
  unfold ofValue at read
  split at read
  · obtain ⟨_, -, same⟩ := bind_ok read
    cases same
    rfl
  · cases read
    rfl
  · obtain ⟨_, -, same⟩ := bind_ok read
    cases same
    rfl
  · cases value <;> simp_all [isSettings]

theorem Storable.toValue (storable : rule.Storable digits room) :
    Json.Storable digits (room + 1) rule.toValue := by
  have severity : Json.Storable digits room (.str rule.severity.name) :=
    ⟨.str (Json.unpaired_ofString _), rfl⟩
  have key := Json.unpaired_ofString
  rw [RuleConfig.toValue, Json.Storable.obj_iff]
  split
  · have distinct : (["enabled", "severity", "thresholds"] : List Loose).Nodup := by decide
    exact ⟨distinct, by simp [key, severity, storable.enabled, storable.thresholds]⟩
  · have distinct : (["enabled", "severity"] : List Loose).Nodup := by decide
    exact ⟨distinct, by simp [key, severity, storable.enabled]⟩

theorem ofValue_toValue (noFloat : rule.thresholds.floatFree = true) :
    ofValue rule.toValue = .ok (some rule.tidied) := by
  obtain ⟨enabled, severity, thresholds⟩ := rule
  rw [tidied, Value.orEmpty_eq noFloat]
  cases said : thresholds.truthy with
  | true =>
    simp only [toValue, said, if_true]
    cases severity <;> rfl
  | false =>
    simp only [toValue, said, Bool.false_eq_true, if_false]
    cases severity <;> rfl

end RuleConfig

namespace Config

/-- The configuration with an empty object for all thresholds that say nothing. -/
def tidied (config : Config) : Config :=
  { config with rules := config.rules.map fun entry => (entry.1, entry.2.tidied) }

def ruleValues (config : Config) : List (Loose × Value) :=
  config.rules.map fun entry => (entry.1, entry.2.toValue)

structure Storable (digits room : Nat) (config : Config) : Prop where
  distinct : (config.rules.map (·.1)).Nodup
  rules : ∀ entry ∈ config.rules,
    Json.Unpaired entry.1.points ∧ entry.2.Storable digits (room + 1)
  excludePatterns : Json.Storable digits (room + 3) config.excludePatterns
  outputFormat : Json.Storable digits (room + 3) config.outputFormat

variable {digits room : Nat} {config : Config} {key : Loose} {data : Value}
  {rules : List (Loose × RuleConfig)}

theorem storable_of_entry {value : Value} (storable : Json.Storable digits (room + 1) data)
    (found : entry? key data = .ok (some value)) : Json.Storable digits room value := by
  unfold entry? at found
  split at found
  · exact storable.of_lookUp (Except.ok.inj found)
  · split at found <;> cases found
  · split at found <;> cases found
  · cases found

/-- The checks are those with settings among the entries, in their order. -/
def KeepsSettings (entries : List (Loose × Value)) (rules : List (Loose × RuleConfig)) : Prop :=
  Forall₂ (fun entry rule => rule.1 = entry.1 ∧ RuleConfig.ofValue entry.2 = .ok (some rule.2))
    (entries.filter fun entry => RuleConfig.isSettings entry.2) rules

theorem keepsSettings_rulesOfValue {entries : List (Loose × Value)}
    (read : rulesOfValue (.obj entries) = .ok rules) : KeepsSettings entries rules := by
  obtain ⟨h, rfl, each⟩ := of_filterMapM_eq_ok read
  clear read
  induction entries with
  | nil => exact .nil
  | cons entry entries ih =>
    obtain ⟨one, others⟩ := forall_mem_cons.mp each
    obtain ⟨settings, made, same⟩ := bind_ok one
    have kept := RuleConfig.isSome_of_ofValue made
    have made' : settings.map (fun config => (entry.1, config)) = h entry := Except.ok.inj same
    cases settings with
    | none =>
      rw [KeepsSettings, filter_cons_of_neg (by simp [← kept]), filterMap_cons_none made'.symm]
      exact ih others
    | some settings =>
      rw [KeepsSettings, filter_cons_of_pos (by simp [← kept]), filterMap_cons_some made'.symm]
      exact .cons ⟨rfl, made⟩ (ih others)

/-- No check comes twice. -/
theorem storable_of_rulesOfValue
    (storable : Json.Storable digits (room + 3) data) (read : rulesOfValue data = .ok rules) :
    (rules.map (·.1)).Nodup ∧
      ∀ entry ∈ rules, Json.Unpaired entry.1.points ∧ entry.2.Storable digits (room + 1) := by
  unfold rulesOfValue at read
  split at read
  · rename_i fields
    obtain ⟨distinct, each⟩ := Json.Storable.obj_iff.mp storable
    refine ⟨?_, fun entry mem => ?_⟩
    · have names : (fields.filter fun entry => RuleConfig.isSettings entry.2).map (·.1) = rules.map (·.1) := by
        rw [← forall₂_eq_eq_eq, forall₂_map_left_iff, forall₂_map_right_iff]
        exact (keepsSettings_rulesOfValue read).imp fun _ _ same => same.1.symm
      exact names ▸ distinct.sublist (filter_sublist.map _)
    · obtain ⟨⟨id, value⟩, inFields, one⟩ := mem_of_filterMapM read mem
      obtain ⟨kept, settings, same⟩ := bind_ok one
      obtain ⟨rule, rfl, rfl⟩ := Option.map_eq_some_iff.mp (Except.ok.inj same)
      obtain ⟨unpaired, storable⟩ := each _ inFields
      exact ⟨unpaired, RuleConfig.storable_of_ofValue storable settings⟩
  · cases read

theorem ofValue_eq : ofValue data = entry? "rules" data >>= fun found =>
    found.elim (.ok []) rulesOfValue >>= fun rules => entry? "excludePatterns" data >>= fun patterns =>
      entry? "outputFormat" data >>= fun format =>
        .ok ⟨rules, patterns.getD (.arr []), format.getD (.str "text")⟩ :=
  bind_congr fun found => by cases found <;> rfl

/-- A configuration is read from three entries of its data. -/
theorem ofValue_ok (read : ofValue data = .ok config) :
    ∃ rules patterns format, entry? "rules" data = .ok rules ∧
      entry? "excludePatterns" data = .ok patterns ∧ entry? "outputFormat" data = .ok format ∧
      rules.elim (.ok []) rulesOfValue = .ok config.rules ∧
      config.excludePatterns = patterns.getD (.arr []) ∧
      config.outputFormat = format.getD (.str "text") := by
  rw [ofValue_eq] at read
  obtain ⟨rules, foundRules, read⟩ := bind_ok read
  obtain ⟨checks, readRules, read⟩ := bind_ok read
  obtain ⟨patterns, foundPatterns, read⟩ := bind_ok read
  obtain ⟨format, foundFormat, same⟩ := bind_ok read
  cases same
  exact ⟨rules, patterns, format, foundRules, foundPatterns, foundFormat, readRules, rfl, rfl⟩

theorem storable_getD_entry {standard : Value} {found : Option Value}
    (storable : Json.Storable digits (room + 1) data) (usual : Json.Storable digits room standard)
    (read : entry? key data = .ok found) : Json.Storable digits room (found.getD standard) := by
  cases found with
  | none => exact usual
  | some value => exact storable_of_entry storable read

theorem storable_of_ofValue (storable : Json.Storable digits (room + 4) data)
    (read : ofValue data = .ok config) : config.Storable digits room := by
  obtain ⟨rules, patterns, format, foundRules, foundPatterns, foundFormat, readRules, samePatterns,
    sameFormat⟩ := ofValue_ok read
  obtain ⟨distinct, each⟩ : (config.rules.map (·.1)).Nodup ∧ ∀ entry ∈ config.rules,
      Json.Unpaired entry.1.points ∧ entry.2.Storable digits (room + 1) := by
    cases rules with
    | none =>
      rw [← Except.ok.inj readRules]
      exact ⟨.nil, by simp⟩
    | some data => exact storable_of_rulesOfValue (storable_of_entry storable foundRules) readRules
  refine ⟨distinct, each, ?_, ?_⟩
  · rw [samePatterns]
    exact storable_getD_entry storable ⟨.arr (by simp), rfl⟩ foundPatterns
  · rw [sameFormat]
    exact storable_getD_entry storable ⟨.str (Json.unpaired_ofString _), rfl⟩ foundFormat

theorem storable_standard (long : 2 ≤ digits) : standard.Storable digits room := by
  have small : ∀ n, n.natAbs < 10 ^ 2 → Json.Storable digits room (.int n) := fun n few =>
    ⟨.int (few.trans_le (Nat.pow_le_pow_right (by decide) long)), rfl⟩
  have key := Json.unpaired_ofString
  have keys : (["maxAlternatives", "maxNestingDepth", "maxTokens"] : List Loose).Nodup := by decide
  have numbers : Json.Storable digits (room + 1) standardLimits :=
    Json.Storable.obj_iff.mpr ⟨keys, by
      simp [key, small 10 (by decide), small 5 (by decide), small 50 (by decide)]⟩
  have plain : ∀ severity, RuleConfig.Storable digits (room + 1) { severity := severity } :=
    fun severity => ⟨.bool true, .empty⟩
  have limited : RuleConfig.Storable digits (room + 1) { thresholds := standardLimits } :=
    ⟨.bool true, numbers⟩
  refine ⟨by decide, ?_, ⟨.arr (by simp), rfl⟩, ⟨.str (key _), rfl⟩⟩
  simp [standard, key, plain, limited]

theorem Storable.toValue (storable : config.Storable digits room) :
    Json.Storable digits (room + 4) config.toValue := by
  have key := Json.unpaired_ofString
  have rules : Json.Storable digits (room + 3) (.obj config.ruleValues) := by
    refine Json.Storable.obj_iff.mpr ⟨?_, fun field mem => ?_⟩
    · rw [ruleValues, map_map]
      exact storable.distinct
    · obtain ⟨entry, inRules, rfl⟩ := mem_map.mp mem
      obtain ⟨unpaired, rule⟩ := storable.rules entry inRules
      exact ⟨unpaired, rule.toValue⟩
  have distinct : (["rules", "excludePatterns", "outputFormat"] : List Loose).Nodup := by decide
  have fields : ∀ field ∈ [(("rules" : Loose), Value.obj config.ruleValues),
      ("excludePatterns", config.excludePatterns), ("outputFormat", config.outputFormat)],
      Json.Unpaired field.1.points ∧ Json.Storable digits (room + 3) field.2 := by
    simp [key, rules, storable.excludePatterns, storable.outputFormat]
  exact Json.Storable.obj_iff.mpr ⟨distinct, fields⟩

theorem ofValue_toValue (noFloat : ∀ entry ∈ config.rules, entry.2.thresholds.floatFree = true) :
    ofValue config.toValue = .ok config.tidied := by
  have rules : rulesOfValue (.obj config.ruleValues) = .ok config.tidied.rules := by
    refine filterMapM_map_eq_ok fun entry mem => ?_
    simp only [RuleConfig.ofValue_toValue (noFloat entry mem), ok_bind]
    rfl
  have found : entry? "rules" config.toValue = .ok (some (.obj config.ruleValues)) := rfl
  rw [ofValue, found]
  simp only [rules, ok_bind]
  rfl

end Config

theorem Text.unifyLines_eq_self {text : List Char} (noReturn : '\r' ∉ text) : unifyLines text = text := by
  induction text with
  | nil => rfl
  | cons c rest ih =>
    rw [mem_cons, not_or] at noReturn
    rw [unifyLines, ih noReturn.2]
    · exact fun _ same _ => noReturn.1 same.symm
    · exact fun same => noReturn.1 same.symm

namespace Config

variable {room : Nat}

/-- The text of a configuration is read as the configuration. -/
theorem ofBytesWithin_render {limits : Limits} {config : Config} (deep : limits.nesting = room + 4)
    (positive : 0 < limits.digits) (storable : config.Storable limits.digits room) :
    ofBytesWithin limits (Text.Utf8.encode config.render.toList) = .ok config.tidied := by
  obtain ⟨readable, noFloat⟩ := storable.toValue
  have text : config.render.toList = config.toValue.indented 0 := String.toList_ofList
  have noReturn : '\r' ∉ config.toValue.indented 0 := fun mem =>
    absurd (readable.indented_written noFloat _ mem) (by decide)
  rw [← deep] at readable
  have read := Json.read_indented positive readable noFloat
  have back : ofValue config.toValue = .ok config.tidied :=
    ofValue_toValue fun entry mem => (storable.rules entry mem).2.thresholds.noFloat
  rw [ofBytesWithin, Text.Utf8.decode_encode, text]
  simp only [Text.unifyLines_eq_self noReturn, ofTextWithin, read, back]
  rfl

/-- A configuration that is saved under a path where a file may be written is loaded from there as
it was, but for thresholds that say nothing. -/
theorem load_save {limits : Limits} (deep : 4 ≤ limits.nesting) (long : 2 ≤ limits.digits)
    {config : Config} (source : config = .standard ∨ ∃ text data,
      Json.read limits text = .ok data ∧ data.floatFree = true ∧ ofValue data = .ok config)
    {w : Files.Workspace} {path : String} {place : List String}
    (writable : w.target path = .ok place) :
    ∃ w', config.save w path = .ok w' ∧ loadWithin limits w' path = .ok config.tidied := by
  obtain ⟨room, levels⟩ := Nat.exists_eq_add_of_le' deep
  have storable : config.Storable limits.digits room := by
    rcases source with rfl | ⟨text, data, read, noFloat, made⟩
    · exact storable_standard long
    · have readable := Json.readable_of_read read
      rw [levels] at readable
      exact storable_of_ofValue ⟨readable, noFloat⟩ made
  obtain ⟨w', written, present, read⟩ := Files.Workspace.read_write writable
  refine ⟨w', written, ?_⟩
  simp only [loadWithin, present, read]
  exact ofBytesWithin_render levels (by omega) storable

/-- Settings in all three shapes, among them thresholds that say nothing and an id that is written as
a pair of halves. -/
def threeShapes : Value :=
  .obj [("rules", .obj [("C001", .obj [("enabled", .arr [.null]), ("thresholds", .int 0)]),
    ("😀", .str "info"), ("X", .bool false)])]

theorem threeShapes_readable {digits : Nat} : Json.Readable digits (room + 4) threeShapes := by
  have text : ∀ s : String, Json.Readable digits (room + 2) (.str s) := fun s =>
    .str (Json.unpaired_ofString s)
  have enabled : Json.Readable digits (room + 1) (.arr [.null]) := .arr (by simp [Json.Readable.null])
  have zero : Json.Readable digits (room + 1) (.int 0) := .int (by simp)
  have checks : (["C001", "😀", "X"] : List Loose).Nodup := by decide
  have keys : (["enabled", "thresholds"] : List Loose).Nodup := by decide
  have key := Json.unpaired_ofString
  have first : Json.Readable digits (room + 2)
      (.obj [("enabled", .arr [.null]), ("thresholds", .int 0)]) :=
    .obj keys (by simp [key]) (by simp [enabled, zero])
  exact .obj (by simp) (by simp [key]) (by
    simpa using .obj checks (by simp [key]) (by simp [first, text, Json.Readable.bool]))

/-- Of the settings in three shapes only the thresholds come back in another one. -/
theorem load_save_threeShapes : ∃ w',
    save { rules := [("C001", { enabled := .arr [.null], thresholds := .int 0 }),
      ("😀", { severity := .info }), ("X", { enabled := .bool false })] }
      ⟨⟨[(["a"], .folder)]⟩, ["a"]⟩ ".//../a/c.json" = .ok w' ∧
    load w' ".//../a/c.json" = .ok { rules := [("C001", { enabled := .arr [.null] }),
      ("😀", { severity := .info }), ("X", { enabled := .bool false })] } :=
  load_save (by decide) (by decide) (.inr ⟨threeShapes.indented 0, threeShapes,
    Json.read_indented (by decide) threeShapes_readable rfl, rfl, rfl⟩) rfl

end Config

end GrammarLint
