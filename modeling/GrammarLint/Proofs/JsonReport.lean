import GrammarLint.Proofs.JsonRows
import GrammarLint.Proofs.ReportPages
import GrammarLint.Report.Format

open List

namespace GrammarLint

open Json (Limits Unpaired Value)
open Text (CodePoint Loose)

namespace Json

/-- The character in place of each pair of halves that stands for it. -/
def joinHalves : List CodePoint → List CodePoint
  | p :: q :: rest =>
    if isHigh p.value && isLow q.value then
      .char (Char.ofNat (0x10000 + (p.value - 0xd800) * 1024 + (q.value - 0xdc00))) :: joinHalves rest
    else p :: joinHalves (q :: rest)
  | [p] => [p]
  | [] => []

variable {p q : CodePoint} (points : List CodePoint)

theorem isLow_of_head_joinHalves {rest : List CodePoint} (head : (joinHalves (q :: rest)).head? = some p)
    (low : isLow p.value = true) : isLow q.value = true := by
  unfold joinHalves at head
  split at head
  · split at head <;> cases head
    · simp at low
    · simp_all
  · simp_all
  · simp_all

theorem joinHalves_unpaired : Unpaired (joinHalves points) := by
  fun_induction joinHalves points with
  | case1 p q rest pair ih => exact isChain_cons.mpr ⟨by simp, ih⟩
  | case2 p q rest apart ih =>
    refine isChain_cons.mpr ⟨?_, ih⟩
    rintro r head ⟨high, low⟩
    exact apart (by rw [high, isLow_of_head_joinHalves head low]; rfl)
  | case3 p => exact .singleton p
  | case4 => exact .nil

theorem joinHalves_eq_self {points : List CodePoint} (unpaired : Unpaired points) :
    joinHalves points = points := by
  fun_induction joinHalves points with
  | case1 p q rest pair ih =>
    exact absurd (by simpa using pair) (isChain_cons_cons.mp unpaired).1
  | case2 p q rest apart ih => rw [ih (isChain_cons_cons.mp unpaired).2]
  | case3 | case4 => rfl

theorem escapePoint_half (half : isHigh p.value = true ∨ isLow p.value = true) :
    escapePoint p = unicodeEscape p.value := by
  cases p with
  | char c => simp at half
  | half place => rfl

/-- A character above the first plane is written as its two halves are. -/
theorem escapePoint_pair (high : isHigh p.value = true) (low : isLow q.value = true) :
    escapePoint (.char (Char.ofNat (0x10000 + (p.value - 0xd800) * 1024 + (q.value - 0xdc00)))) =
      escapePoint p ++ escapePoint q := by
  rw [escapePoint_half (.inl high), escapePoint_half (.inr low), escapePoint]
  rw [isHigh_iff] at high
  rw [isLow_iff] at low
  have code : (Char.ofNat (0x10000 + (p.value - 0xd800) * 1024 + (q.value - 0xdc00))).toNat =
      0x10000 + (p.value - 0xd800) * 1024 + (q.value - 0xdc00) := by
    rw [Char.toNat_ofNat, if_pos (by omega)]
  have indirect : ¬isDirect (Char.ofNat
      (0x10000 + (p.value - 0xd800) * 1024 + (q.value - 0xdc00))) = true := by
    intro direct
    have small : ∀ c, isDirect c = true → c.toNat < 0x10000 := by
      intro c direct
      rcases escapeChar_direct direct with ⟨e, letter, short, -⟩ | ⟨printable, -⟩
      · fin_cases letter <;> cases short <;> decide
      · exact Nat.lt_of_le_of_lt (show c.toNat ≤ '~'.toNat from printable.2) (by decide)
    have := small _ direct
    omega
  have first : 0xd800 + (0x10000 + (p.value - 0xd800) * 1024 + (q.value - 0xdc00) - 0x10000) / 1024 =
      p.value := by omega
  have second : 0xdc00 + (0x10000 + (p.value - 0xd800) * 1024 + (q.value - 0xdc00) - 0x10000) % 1024 =
      q.value := by omega
  rw [escapeChar_indirect indirect, code, if_neg (by omega), first, second]

theorem flatMap_escapePoint_joinHalves :
    (joinHalves points).flatMap escapePoint = points.flatMap escapePoint := by
  fun_induction joinHalves points with
  | case1 p q rest pair ih =>
    obtain ⟨high, low⟩ := Bool.and_eq_true_iff.mp pair
    simp [ih, escapePoint_pair high low]
  | case2 p q rest apart ih => rw [flatMap_cons, ih, ← flatMap_cons]
  | case3 | case4 => rfl

end Json

def Text.Loose.joined (text : Loose) : Loose := ⟨Json.joinHalves text.points⟩

theorem Text.Loose.joined_eq_self {text : Loose} (unpaired : Unpaired text.points) : text.joined = text :=
  congrArg Loose.mk (Json.joinHalves_eq_self unpaired)

namespace Json.Value

mutual
/-- The value with the pairs of halves joined in all its texts. -/
def joined : Value → Value
  | str s => str s.joined
  | arr items => arr (joinedItems items)
  | obj fields => obj (joinedFields fields)
  | value => value

def joinedItems : List Value → List Value
  | [] => []
  | item :: items => item.joined :: joinedItems items

def joinedFields : List (Loose × Value) → List (Loose × Value)
  | [] => []
  | (key, value) :: fields => (key.joined, value.joined) :: joinedFields fields
end

@[simp]
theorem joined_str (s : Loose) : (str s).joined = str s.joined := by rw [joined]

@[simp]
theorem joined_int (n : Int) : (int n).joined = int n := by rw [joined] <;> simp

@[simp]
theorem joined_arr (items : List Value) : (arr items).joined = arr (items.map joined) := by
  rw [joined]
  congr 1
  induction items with
  | nil => rfl
  | cons item items ih => rw [joinedItems, ih, map_cons]

@[simp]
theorem joined_obj (fields : List (Loose × Value)) :
    (obj fields).joined = obj (fields.map fun field => (field.1.joined, field.2.joined)) := by
  rw [joined]
  congr 1
  induction fields with
  | nil => rfl
  | cons field fields ih => rw [joinedFields, ih, map_cons]

theorem quote_joined (s : Loose) : quote s.joined = quote s := by
  simp [quote, Loose.joined, flatMap_escapePoint_joinHalves]

mutual
/-- Pairs that are joined are written as before. -/
theorem indented_joined (depth : Nat) : (value : Value) →
    value.joined.indented depth = value.indented depth
  | null | bool _ | int _ | float _ => by rw [joined] <;> simp
  | str s => by rw [joined_str, indented, indented, quote_joined]
  | arr [] => by simp
  | arr (item :: items) => by
    rw [joined, joinedItems, indented, indented, indented_joined (depth + 1) item,
      indentedItems_joined depth items]
  | obj [] => by simp
  | obj ((key, value) :: fields) => by
    rw [joined, joinedFields, indented, indented, quote_joined, indented_joined (depth + 1) value,
      indentedFields_joined depth fields]

theorem indentedItems_joined (depth : Nat) : (items : List Value) →
    indentedItems depth (joinedItems items) = indentedItems depth items
  | [] => rfl
  | item :: items => by
    rw [joinedItems, indentedItems, indentedItems, indented_joined (depth + 1) item,
      indentedItems_joined depth items]

theorem indentedFields_joined (depth : Nat) : (fields : List (Loose × Value)) →
    indentedFields depth (joinedFields fields) = indentedFields depth fields
  | [] => rfl
  | (key, value) :: fields => by
    rw [joinedFields, indentedFields, indentedFields, quote_joined, indented_joined (depth + 1) value,
      indentedFields_joined depth fields]
end

/-- The value under a key of an object. -/
def field? (key : Loose) : Value → Option Value
  | obj fields => lookUp key fields
  | _ => none

def text? : Value → Option Loose
  | str s => some s
  | _ => none

def number? : Value → Option Int
  | int n => some n
  | _ => none

def count? (value : Value) : Option Nat := value.number?.bind Int.toNat?

def items? : Value → Option (List Value)
  | arr items => some items
  | _ => none

end Json.Value

namespace Report

/-- What a report says of a file. -/
structure PageReport where
  page : Page
  summary : Tally

/-- What a report says. -/
structure Contents where
  pages : List PageReport
  files : Nat
  summary : Tally

def suggestionOf? (value : Value) : Option (Loose × Loose) := do
  return (← (← value.field? "description").text?, ← (← value.field? "fix").text?)

def Remark.ofValue? (value : Value) : Option Remark := do
  let severity ← (← value.field? "severity").text?
  return {
    rule := ← (← value.field? "ruleId").text?
    severity := ← Severity.all.find? (severity == ·.name)
    message := ← (← value.field? "message").text?
    range := ⟨← (← value.field? "line").number?, ← (← value.field? "column").number?,
      ← (← value.field? "endLine").number?, ← (← value.field? "endColumn").number?⟩
    suggestions := ← (← (← value.field? "suggestions").items?).mapM suggestionOf? }

def Tally.ofValue? (value : Value) : Option Tally := do
  return {
    issues := ← (← value.field? "totalIssues").count?
    errors := ← (← value.field? "errorCount").count?
    warnings := ← (← value.field? "warningCount").count?
    infos := ← (← value.field? "infoCount").count? }

def PageReport.ofValue? (value : Value) : Option PageReport := do
  let remarks ← (← (← value.field? "issues").items?).mapM Remark.ofValue?
  return {
    page := ⟨← (← value.field? "file").text?, remarks⟩
    summary := ← Tally.ofValue? (← value.field? "summary") }

/-- Takes a report apart by the names of its fields. -/
def Contents.ofValue? (value : Value) : Option Contents := do
  let summary ← value.field? "summary"
  return {
    pages := ← (← (← value.field? "results").items?).mapM PageReport.ofValue?
    files := ← (← summary.field? "totalFiles").count?
    summary := ← Tally.ofValue? summary }

section TakingApart

theorem Remark.ofValue?_entryValue (remark : Remark) :
    ofValue? (entryValue remark.entry) = some remark := by
  have suggestions : (remark.entry.suggestions.map suggestionValue).mapM suggestionOf? =
      some remark.suggestions := by
    have each : ∀ s, suggestionOf? (suggestionValue (.str s.1, .str s.2)) = some s :=
      fun _ => rfl
    rw [entry, map_map]
    exact (mapM_map_eq_some _ each).trans (by rw [map_id'])
  have severity : Severity.all.find? (Loose.ofString remark.severity.name == ·.name) =
      some remark.severity := by
    cases remark.severity <;> rfl
  have apart : ofValue? (entryValue remark.entry) = (do
      return {
        rule := remark.rule
        severity := ← Severity.all.find? (Loose.ofString remark.severity.name == ·.name)
        message := remark.message
        range := remark.range
        suggestions := ← (remark.entry.suggestions.map suggestionValue).mapM suggestionOf? }) := rfl
  rw [apart, suggestions, severity]
  rfl

theorem PageReport.ofValue?_sheetValue (page : Page) :
    ofValue? (sheetValue page.sheet) = some ⟨page, page.tally⟩ := by
  have remarks : (page.sheet.entries.map entryValue).mapM Remark.ofValue? = some page.remarks := by
    rw [Page.sheet, map_map]
    exact (mapM_map_eq_some _ Remark.ofValue?_entryValue).trans (by rw [map_id'])
  have apart : ofValue? (sheetValue page.sheet) = (do
      let remarks ← (page.sheet.entries.map entryValue).mapM Remark.ofValue?
      return ⟨⟨page.file, remarks⟩, Report.tally page.sheet.entries⟩) := rfl
  rw [apart, remarks, Page.tally_sheet]
  rfl

theorem Contents.ofValue?_toValue (pages : List Page) :
    ofValue? (toValue (pages.map Page.sheet)) =
      some ⟨pages.map fun page => ⟨page, page.tally⟩, pages.length, totals (pages.map Page.tally)⟩ := by
  have reports : ((pages.map Page.sheet).map sheetValue).mapM PageReport.ofValue? =
      some (pages.map fun page => ⟨page, page.tally⟩) := by
    rw [map_map]
    exact mapM_map_eq_some _ PageReport.ofValue?_sheetValue
  have apart : ofValue? (toValue (pages.map Page.sheet)) = (do
      return {
        pages := ← ((pages.map Page.sheet).map sheetValue).mapM PageReport.ofValue?
        files := (pages.map Page.sheet).length
        summary := tally (allEntries (pages.map Page.sheet)) }) := rfl
  rw [apart, reports, tally_allEntries, length_map]
  rfl

end TakingApart

section Joined

def Remark.joined (remark : Remark) : Remark :=
  { remark with
    rule := remark.rule.joined
    message := remark.message.joined
    suggestions := remark.suggestions.map fun s => (s.1.joined, s.2.joined) }

def Page.joined (page : Page) : Page := ⟨page.file.joined, page.remarks.map Remark.joined⟩

def Remark.texts (remark : Remark) : List Loose :=
  remark.rule :: remark.message :: remark.suggestions.flatMap fun s => [s.1, s.2]

def Page.texts (page : Page) : List Loose := page.file :: page.remarks.flatMap Remark.texts

variable {remark : Remark} {page : Page} {text : Loose}

theorem Remark.joined_eq_self (unpaired : ∀ text ∈ remark.texts, Unpaired text.points) :
    remark.joined = remark := by
  obtain ⟨rule, severity, message, range, suggestions⟩ := remark
  simp only [texts, forall_mem_cons, forall_mem_flatMap] at unpaired
  obtain ⟨ofRule, ofMessage, ofSuggestions⟩ := unpaired
  have same : ∀ s ∈ suggestions, (s.1.joined, s.2.joined) = id s := fun s mem =>
    Prod.ext (Loose.joined_eq_self (ofSuggestions s mem).1)
      (Loose.joined_eq_self (ofSuggestions s mem).2.1)
  simp [joined, Loose.joined_eq_self ofRule, Loose.joined_eq_self ofMessage, map_congr_left same]

theorem Page.joined_eq_self (unpaired : ∀ text ∈ page.texts, Unpaired text.points) :
    page.joined = page := by
  obtain ⟨file, remarks⟩ := page
  simp only [texts, forall_mem_cons, forall_mem_flatMap] at unpaired
  have same : ∀ remark ∈ remarks, remark.joined = id remark := fun remark mem =>
    Remark.joined_eq_self (unpaired.2 remark mem)
  simp [joined, Loose.joined_eq_self unpaired.1, map_congr_left same]

theorem Remark.texts_joined (mem : text ∈ remark.joined.texts) : Unpaired text.points := by
  have each (s : Loose) : Unpaired s.joined.points := Json.joinHalves_unpaired _
  simp only [texts, joined, mem_cons, mem_flatMap, mem_map] at mem
  rcases mem with rfl | rfl | ⟨_, ⟨s, -, rfl⟩, mem⟩
  · exact each _
  · exact each _
  · simp only [not_mem_nil, or_false] at mem
    rcases mem with rfl | rfl <;> exact each _

theorem Page.texts_joined (mem : text ∈ page.joined.texts) : Unpaired text.points := by
  simp only [texts, joined, mem_cons, mem_flatMap, mem_map] at mem
  rcases mem with rfl | ⟨_, ⟨remark, -, rfl⟩, mem⟩
  · exact Json.joinHalves_unpaired _
  · exact Remark.texts_joined mem

theorem Page.tally_joined (page : Page) : page.joined.tally = page.tally := by
  simp [tally, joined, Function.comp_def, Remark.joined]

/-- A report is written as that of the joined pages is. -/
theorem json_joined (pages : List Page) :
    json ((pages.map Page.joined).map Page.sheet) = json (pages.map Page.sheet) := by
  have key (s : String) : (Loose.ofString s).joined = .ofString s :=
    Loose.joined_eq_self (Json.unpaired_ofString s)
  have entry (remark : Remark) : entryValue remark.joined.entry = (entryValue remark.entry).joined := by
    simp [entryValue, Remark.entry, Remark.joined, key, Function.comp_def, suggestionValue]
  have sheet (page : Page) : sheetValue page.joined.sheet = (sheetValue page.sheet).joined := by
    rw [sheetValue, sheetValue, Page.tally_sheet, Page.tally_sheet, Page.tally_joined]
    simp [Page.sheet, Page.joined, key, Function.comp_def, entry, tallyFields]
  have whole : toValue ((pages.map Page.joined).map Page.sheet) =
      (toValue (pages.map Page.sheet)).joined := by
    rw [toValue, toValue, tally_allEntries, tally_allEntries]
    simp [key, Function.comp_def, sheet, tallyFields, Page.tally_joined]
  rw [json, json, whole, Value.render, Value.render, Value.indented_joined]

end Joined

def Remark.numbers (remark : Remark) : List Int :=
  [remark.range.startLine, remark.range.startColumn, remark.range.endLine, remark.range.endColumn]

/-- The positions in a report and its greatest counts. -/
def numbers (pages : List Page) : List Int :=
  (pages.length : Int) :: ((totals (pages.map Page.tally)).issues : Int) ::
    pages.flatMap (·.remarks.flatMap Remark.numbers)

section Storable

variable {digits room : Nat}

theorem Remark.storable {remark : Remark} (unpaired : ∀ text ∈ remark.texts, Unpaired text.points)
    (few : ∀ n ∈ remark.numbers, n.natAbs < 10 ^ digits) :
    Json.Storable digits (room + 3) (entryValue remark.entry) := by
  have key := Json.unpaired_ofString
  simp only [texts, forall_mem_cons, forall_mem_flatMap] at unpaired
  obtain ⟨rule, message, each⟩ := unpaired
  have pair : (["description", "fix"] : List Loose).Nodup := by decide
  have suggestion : ∀ s ∈ remark.suggestions,
      Json.Storable digits (room + 1) (suggestionValue (.str s.1, .str s.2)) := fun s mem =>
    Json.Storable.obj_iff.mpr ⟨pair, by
      simp [key, Json.Storable.str (each s mem).1, Json.Storable.str (each s mem).2.1]⟩
  have suggestions := Json.Storable.arr_map suggestion
  have distinct : (["ruleId", "severity", "message", "line", "column", "endLine", "endColumn",
      "suggestions"] : List Loose).Nodup := by decide
  simp only [numbers, forall_mem_cons] at few
  refine Json.Storable.obj_iff.mpr ⟨distinct, ?_⟩
  simpa [key, entry, Json.Storable.str rule, Json.Storable.str message, Json.Storable.str (key _),
    Json.Storable.int few.1, Json.Storable.int few.2.1, Json.Storable.int few.2.2.1,
    Json.Storable.int few.2.2.2.1, Function.comp_def] using suggestions

theorem tallyFields_storable {tally : Tally} (balanced : tally.issues =
    tally.errors + tally.warnings + tally.infos) (few : tally.issues < 10 ^ digits) :
    ∀ field ∈ tallyFields tally, Unpaired field.1.points ∧ Json.Storable digits room field.2 := by
  have number (n : Nat) (less : n ≤ tally.issues) : Json.Storable digits room (.int n) :=
    .int (by omega)
  simp [tallyFields, Json.unpaired_ofString, number tally.issues (by omega),
    number tally.errors (by omega), number tally.warnings (by omega), number tally.infos (by omega)]

theorem Page.storable {page : Page} (unpaired : ∀ text ∈ page.texts, Unpaired text.points)
    (few : ∀ remark ∈ page.remarks, ∀ n ∈ remark.numbers, n.natAbs < 10 ^ digits)
    (fewIssues : page.tally.issues < 10 ^ digits) :
    Json.Storable digits (room + 5) (sheetValue page.sheet) := by
  have key := Json.unpaired_ofString
  simp only [texts, forall_mem_cons, forall_mem_flatMap] at unpaired
  have remarks := Json.Storable.arr_map fun remark mem =>
    @Remark.storable digits room remark (unpaired.2 remark mem) (few remark mem)
  have counts : (["totalIssues", "errorCount", "warningCount", "infoCount"] : List Loose).Nodup := by
    decide
  have summary : Json.Storable digits (room + 4) (.obj (tallyFields (Report.tally page.sheet.entries))) := by
    rw [Page.tally_sheet]
    exact Json.Storable.obj_iff.mpr ⟨counts, tallyFields_storable page.tally_balanced fewIssues⟩
  have distinct : (["file", "issues", "summary"] : List Loose).Nodup := by decide
  refine Json.Storable.obj_iff.mpr ⟨distinct, ?_⟩
  simpa [key, Page.sheet, Json.Storable.str unpaired.1, Function.comp_def] using
    .intro remarks summary

theorem totals_balanced (pages : List Page) :
    (totals (pages.map Page.tally)).issues = (totals (pages.map Page.tally)).errors +
      (totals (pages.map Page.tally)).warnings + (totals (pages.map Page.tally)).infos := by
  induction pages with
  | nil => rfl
  | cons page pages ih =>
    have first := page.tally_balanced
    simp only [totals, map_cons, sum_cons] at ih ⊢
    omega

theorem toValue_storable {pages : List Page}
    (unpaired : ∀ page ∈ pages, ∀ text ∈ page.texts, Unpaired text.points)
    (few : ∀ n ∈ numbers pages, n.natAbs < 10 ^ digits) :
    Json.Storable digits (room + 7) (toValue (pages.map Page.sheet)) := by
  have key := Json.unpaired_ofString
  simp only [numbers, forall_mem_cons, forall_mem_flatMap, Int.natAbs_natCast] at few
  obtain ⟨fewPages, fewIssues, positions⟩ := few
  have least : ∀ page ∈ pages, page.tally.issues ≤ (totals (pages.map Page.tally)).issues := by
    intro page mem
    rw [totals, map_map]
    exact le_sum_of_mem (mem_map.mpr ⟨page, mem, rfl⟩)
  have sheets := Json.Storable.arr_map fun page mem =>
    @Page.storable digits room page (unpaired page mem) (positions page mem)
      ((least page mem).trans_lt fewIssues)
  have counts : (["totalFiles", "totalIssues", "errorCount", "warningCount", "infoCount"] :
      List Loose).Nodup := by decide
  have summary : Json.Storable digits (room + 6) (.obj (("totalFiles", .int (pages.map Page.sheet).length) ::
      tallyFields (tally (allEntries (pages.map Page.sheet))))) := by
    rw [tally_allEntries, length_map]
    exact Json.Storable.obj_iff.mpr ⟨counts, forall_mem_cons.mpr
      ⟨⟨key _, .int fewPages⟩, tallyFields_storable (totals_balanced pages) fewIssues⟩⟩
  have distinct : (["results", "summary"] : List Loose).Nodup := by decide
  refine Json.Storable.obj_iff.mpr ⟨distinct, ?_⟩
  simpa [key, Function.comp_def] using And.intro sheets summary

theorem numbers_joined (pages : List Page) : numbers (pages.map Page.joined) = numbers pages := by
  have positions (page : Page) : page.joined.remarks.flatMap Remark.numbers =
      page.remarks.flatMap Remark.numbers := flatMap_map ..
  simp [numbers, flatMap_map, Page.tally_joined, positions, Function.comp_def]

end Storable

/-- A report in JSON is read back as the pages it is made of, with right counts. Only halves that make
a pair come back as the character they stand for. -/
theorem json_contents {limits : Limits} (deep : 7 ≤ limits.nesting) (pages : List Page)
    (short : ∀ n ∈ numbers pages, (Nat.toDigits 10 n.natAbs).length ≤ limits.digits) :
    ∃ text value contents, render (.str "json") (pages.map Page.findings) = .ok (.ofString text) ∧
      Json.read limits text.toList = .ok value ∧ Contents.ofValue? value = some contents ∧
      contents.pages.map (·.page) = pages.map Page.joined ∧
      (∀ page ∈ pages, (∀ text ∈ page.texts, Unpaired text.points) → page.joined = page) ∧
      (∀ report ∈ contents.pages, report.summary = report.page.tally ∧
        report.summary.issues = report.page.remarks.length ∧
        report.summary.issues =
          report.summary.errors + report.summary.warnings + report.summary.infos) ∧
      contents.files = pages.length ∧
      contents.summary = totals (contents.pages.map (·.summary)) := by
  have positive : 0 < limits.digits :=
    Nat.length_toDigits_pos.trans_le (short _ mem_cons_self)
  have few : ∀ n ∈ numbers (pages.map Page.joined), n.natAbs < 10 ^ limits.digits := by
    rw [numbers_joined]
    exact fun n member => (Nat.length_toDigits_le_iff (by decide) positive).mp (short n member)
  have unpaired : ∀ page ∈ pages.map Page.joined, ∀ text ∈ page.texts, Unpaired text.points :=
    forall_mem_map.mpr fun page _ text member => Page.texts_joined member
  obtain ⟨room, levels⟩ := Nat.exists_eq_add_of_le' deep
  obtain ⟨readable, noFloat⟩ := @toValue_storable limits.digits room _ unpaired few
  rw [← levels] at readable
  have text : (json (pages.map Page.sheet)).toList =
      (toValue ((pages.map Page.joined).map Page.sheet)).indented 0 := by
    rw [← json_joined, json, Value.render, String.toList_ofList]
  refine ⟨json (pages.map Page.sheet), _, _, ?_, ?_,
    Contents.ofValue?_toValue (pages.map Page.joined), ?_, ?_, ?_, ?_, ?_⟩
  · rw [render, ofFindings_pages]
    rfl
  · rw [text]
    exact Json.read_indented positive readable noFloat
  · simp [Function.comp_def]
  · exact fun page _ whole => Page.joined_eq_self whole
  · exact forall_mem_map.mpr fun page _ => ⟨rfl, rfl, page.tally_balanced⟩
  · exact length_map _
  · simp [Function.comp_def]

def oddPage : Page :=
  ⟨"\"\\\n😀.g4", [⟨"", .error, ⟨[.half ⟨0, by decide⟩, .char 'x']⟩, ⟨-1, 0, 10, 99⟩, [("\r\x00", "\x7f")]⟩]⟩

/-- Positions of any sign, and texts with all kinds of characters that have to be escaped. -/
theorem json_contents_oddPage : (∀ n ∈ numbers [oddPage], (Nat.toDigits 10 n.natAbs).length ≤ 2) ∧
    ∃ text value contents, render (.str "json") [oddPage.findings] = .ok (.ofString text) ∧
      Json.read ⟨7, 2⟩ text.toList = .ok value ∧ Contents.ofValue? value = some contents ∧
      contents.pages.map (·.page) = [oddPage] ∧ contents.files = 1 := by
  have short : ∀ n ∈ numbers [oddPage], (Nat.toDigits 10 n.natAbs).length ≤ 2 := by decide
  obtain ⟨text, value, contents, written, read, apart, pages, -, -, files, -⟩ :=
    @json_contents ⟨7, 2⟩ (by decide) [oddPage] short
  exact ⟨short, text, value, contents, written, read, apart, pages, files⟩

/-- The two halves of a character, which are not put together. -/
def halves : Loose := ⟨[.half ⟨0x3d, by decide⟩, .half ⟨0x600, by decide⟩]⟩

def remarked (message : Loose) : Page := ⟨"a.g4", [⟨"S001", .warning, message, ⟨1, 1, 1, 1⟩, []⟩]⟩

/-- The report does not tell the halves of a character from the character. -/
theorem json_halves : remarked halves ≠ remarked "😀" ∧
    render (.str "json") [(remarked halves).findings] = render (.str "json") [(remarked "😀").findings] :=
  ⟨by decide, rfl⟩

end Report

end GrammarLint
