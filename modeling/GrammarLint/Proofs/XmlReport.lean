import GrammarLint.Report.Format
import GrammarLint.Proofs.ReportPages
import GrammarLint.Proofs.XmlReader

open List

namespace GrammarLint

open Text (CodePoint Loose)

namespace Xml.Node

/-- The text of an element with that tag that has no attributes and no children. -/
def leaf? (tag : Loose) : Node → Option Loose
  | .element t [] [] => if t = tag then some "" else none
  | .element t [] [.text s] => if t = tag then some s else none
  | _ => none

/-- What is in an element with that tag that has no attributes. -/
def group? (tag : Loose) : Node → Option (List Node)
  | .element t [] content => if t = tag then some content else none
  | _ => none

end Xml.Node

namespace Report

open Xml (Node)

/-- What a report in XML says of a finding. -/
structure Notice where
  rule : Loose
  severity : Severity
  line : Int
  column : Int
  message : Loose
  suggestions : List (Loose × Loose)

/-- The notices on a file. -/
structure FileNotices where
  path : Loose
  notices : List Notice

/-- What a report in XML says. -/
structure Digest where
  files : Nat
  summary : Tally
  pages : List FileNotices

def number? (text : Loose) : Option Int := text.string?.bind String.toInt?

def count? (tag : Loose) (node : Node) : Option Nat := do (← number? (← node.leaf? tag)).toNat?

/-- Without an element for the fix, the fix is empty. -/
def suggestionOfNode? (node : Node) : Option (Loose × Loose) := do
  match ← node.group? "suggestion" with
  | [description] => return (← description.leaf? "description", "")
  | [description, fix] => return (← description.leaf? "description", ← fix.leaf? "fix")
  | _ => none

def suggestionsOfNodes? : List Node → Option (List (Loose × Loose))
  | [] => some []
  | [node] => do (← node.group? "suggestions").mapM suggestionOfNode?
  | _ => none

def Notice.ofNode? : Node → Option Notice
  | .element tag [(key₁, rule), (key₂, severity), (key₃, line), (key₄, column)] (message :: others) => do
    guard ([tag, key₁, key₂, key₃, key₄] = ["issue", "ruleId", "severity", "line", "column"])
    return {
      rule
      severity := ← Severity.all.find? (severity == ·.name)
      line := ← number? line
      column := ← number? column
      message := ← message.leaf? "message"
      suggestions := ← suggestionsOfNodes? others }
  | _ => none

def FileNotices.ofNode? : Node → Option FileNotices
  | .element tag [(key, path)] issues => do
    guard ([tag, key] = ["file", "path"])
    return ⟨path, ← issues.mapM Notice.ofNode?⟩
  | _ => none

/-- Takes a report apart. There is no more in it than what is taken. -/
def Digest.ofNode? (node : Node) : Option Digest := do
  let [summary, results] ← node.group? "lintResults" | none
  let [files, issues, errors, warnings, infos] ← summary.group? "summary" | none
  return {
    files := ← count? "totalFiles" files
    summary := ⟨← count? "totalIssues" issues, ← count? "errorCount" errors,
      ← count? "warningCount" warnings, ← count? "infoCount" infos⟩
    pages := ← (← results.group? "results").mapM FileNotices.ofNode? }

def Remark.notice (remark : Remark) : Notice where
  rule := remark.rule
  severity := remark.severity
  line := remark.range.startLine
  column := remark.range.startColumn
  message := remark.message
  suggestions := remark.suggestions

def Page.notices (page : Page) : FileNotices := ⟨page.file, page.remarks.map Remark.notice⟩

section Elements

/-- The element of a suggestion. -/
def suggestionElement (suggestion : Loose × Loose) : Xml :=
  group "suggestion" (leaf "description" suggestion.1 ::
    if suggestion.2.isEmpty then [] else [leaf "fix" suggestion.2])

def Remark.element (remark : Remark) : Xml :=
  .element "issue" [("ruleId", remark.rule), ("severity", remark.severity.name),
      ("line", toString remark.range.startLine), ("column", toString remark.range.startColumn)] ""
    (leaf "message" remark.message ::
      if remark.suggestions.isEmpty then []
      else [group "suggestions" (remark.suggestions.map suggestionElement)])

def Page.element (page : Page) : Xml :=
  .element "file" [("path", page.file)] "" (page.remarks.map Remark.element)

theorem xmlText_str (s : Loose) : xmlText (.str s) = .ok s := by
  obtain ⟨points⟩ := s
  cases points <;> rfl

theorem suggestionXml_str (suggestion : Loose × Loose) :
    suggestionXml (.str suggestion.1, .str suggestion.2) = .ok (suggestionElement suggestion) := by
  rw [suggestionXml, xmlText_str]
  obtain ⟨description, ⟨fix⟩⟩ := suggestion
  cases fix <;> rfl

theorem entryXml_entry (remark : Remark) : entryXml remark.entry = .ok remark.element := by
  have suggestions : remark.entry.suggestions.mapM suggestionXml =
      .ok (remark.suggestions.map suggestionElement) := by
    rw [Remark.entry, mapM_map]
    exact mapM_eq_ok fun s _ => suggestionXml_str s
  have message : xmlText remark.entry.message = .ok remark.message := xmlText_str remark.message
  rw [entryXml, suggestions, message, Remark.element, ← isEmpty_map]
  rfl

theorem sheetXml_sheet (page : Page) : sheetXml page.sheet = .ok page.element := by
  have entries : page.sheet.entries.mapM entryXml = .ok (page.remarks.map Remark.element) := by
    rw [Page.sheet, mapM_map]
    exact mapM_eq_ok fun remark _ => entryXml_entry remark
  rw [sheetXml, entries]
  rfl

def reportElement (pages : List Page) : Xml :=
  group "lintResults" [summaryXml (pages.map Page.sheet), group "results" (pages.map Page.element)]

theorem toXml_sheets (pages : List Page) : toXml (pages.map Page.sheet) = .ok (reportElement pages) := by
  have sheets : (pages.map Page.sheet).mapM sheetXml = .ok (pages.map Page.element) := by
    rw [mapM_map]
    exact mapM_eq_ok fun page _ => sheetXml_sheet page
  rw [toXml, sheets]
  rfl

end Elements

section Names

open Xml (wellNamed allWellNamed allWellNamed_iff isName)

theorem leaf_wellNamed {tag : String} (named : isName tag = true) (text : Loose) :
    (leaf tag text).wellNamed = true := by
  simp [leaf, wellNamed, allWellNamed, named]

theorem group_wellNamed {tag : String} (named : isName tag = true) {children : List Xml}
    (each : children.all wellNamed = true) : (group tag children).wellNamed = true := by
  simpa [group, wellNamed, allWellNamed_iff, named] using each

theorem suggestionElement_wellNamed (suggestion : Loose × Loose) :
    (suggestionElement suggestion).wellNamed = true := by
  have description := leaf_wellNamed (show isName "description" = true by decide) suggestion.1
  have fix := leaf_wellNamed (show isName "fix" = true by decide) suggestion.2
  refine group_wellNamed (by decide) ?_
  split <;> simp [description, fix]

theorem Remark.element_wellNamed (remark : Remark) : remark.element.wellNamed = true := by
  have message := leaf_wellNamed (show isName "message" = true by decide) remark.message
  have suggestions := @group_wellNamed "suggestions" (by decide) (remark.suggestions.map suggestionElement)
    (by simp [suggestionElement_wellNamed])
  rw [Remark.element, wellNamed, Bool.and_eq_true, allWellNamed_iff]
  refine ⟨show ["issue", "ruleId", "severity", "line", "column"].all isName = true by decide, ?_⟩
  split <;> simp [message, suggestions]

theorem Page.element_wellNamed (page : Page) : page.element.wellNamed = true := by
  rw [Page.element, wellNamed, Bool.and_eq_true, allWellNamed_iff]
  exact ⟨show ["file", "path"].all isName = true by decide, by simp [Remark.element_wellNamed]⟩

theorem reportElement_wellNamed (pages : List Page) : (reportElement pages).wellNamed = true := by
  have results := @group_wellNamed "results" (by decide) (pages.map Page.element)
    (by simp [Page.element_wellNamed])
  have summary : (summaryXml (pages.map Page.sheet)).wellNamed = true := rfl
  exact group_wellNamed (by decide) (by simp [results, summary])

end Names

section TakingApart

variable (tag : String)

theorem leaf?_node (text : Loose) : (leaf tag text).node.leaf? tag = some text := by
  obtain ⟨points⟩ := text
  cases points with
  | nil => simp [leaf, Xml.node, Xml.nodes, Loose.isEmpty, Node.leaf?]; rfl
  | cons => simp [leaf, Xml.node, Xml.nodes, Loose.isEmpty, Node.leaf?]

theorem group?_node (children : List Xml) :
    (group tag children).node.group? tag = some (children.map Xml.node) := by
  rw [group, Xml.node_of_no_text]
  exact if_pos rfl

theorem string?_ofString (s : String) : (Loose.ofString s).string? = some s := by
  have points : (s.toList.map CodePoint.char).mapM CodePoint.char? = some s.toList := by
    simpa using mapM_map_eq_some (f := CodePoint.char?) (g := CodePoint.char) (h := id) s.toList fun _ => rfl
  rw [Loose.string?, Loose.ofString, points, Option.map_some, String.ofList_toList]

theorem number?_toString (n : Int) : number? (toString n : String) = some n := by
  rw [number?, string?_ofString]
  exact Int.toInt?_repr n

theorem count?_node (n : Nat) :
    count? tag (leaf tag (toString n : String)).node = some n := by
  have number : number? (toString n : String) = some (n : Int) := number?_toString n
  rw [count?, leaf?_node]
  change (number? _).bind _ = _
  rw [number]
  rfl

theorem suggestionOfNode?_node (suggestion : Loose × Loose) :
    suggestionOfNode? (suggestionElement suggestion).node = some suggestion := by
  obtain ⟨description, fix⟩ := suggestion
  rw [suggestionOfNode?, suggestionElement, group?_node]
  by_cases isEmpty : fix.isEmpty = true
  · have empty : fix = "" := congrArg Loose.mk (isEmpty_iff.mp isEmpty)
    rw [if_pos isEmpty, empty]
    simp [leaf?_node]
  · simp [isEmpty, leaf?_node]

theorem suggestionsOfNodes?_nodes (suggestions : List (Loose × Loose)) :
    suggestionsOfNodes? ((if suggestions.isEmpty then []
      else [group "suggestions" (suggestions.map suggestionElement)]).map Xml.node) = some suggestions := by
  cases suggestions with
  | nil => rfl
  | cons first others =>
    rw [if_neg (by simp), map_singleton, suggestionsOfNodes?, group?_node, map_map]
    exact (mapM_map_eq_some _ suggestionOfNode?_node).trans (by rw [map_id'])

theorem Notice.ofNode?_node (remark : Remark) : ofNode? remark.element.node = some remark.notice := by
  have severity : Severity.all.find? (Loose.ofString remark.severity.name == ·.name) =
      some remark.severity := by
    cases remark.severity <;> rfl
  rw [Remark.element, Xml.node_of_no_text]
  simp only [ofNode?, map_cons, map_nil, leaf?_node, number?_toString, severity,
    suggestionsOfNodes?_nodes]
  rfl

theorem FileNotices.ofNode?_node (page : Page) : ofNode? page.element.node = some page.notices := by
  have notices : (page.remarks.map (·.element.node)).mapM Notice.ofNode? =
      some (page.remarks.map Remark.notice) := mapM_map_eq_some _ Notice.ofNode?_node
  rw [Page.element, Xml.node_of_no_text, map_map]
  simp only [ofNode?, map_cons, map_nil]
  change Option.bind (mapM Notice.ofNode? (page.remarks.map (·.element.node))) _ = _
  rw [notices]
  rfl

theorem Digest.ofNode?_node (pages : List Page) :
    ofNode? (reportElement pages).node =
      some ⟨pages.length, totals (pages.map Page.tally), pages.map Page.notices⟩ := by
  have notices : ((pages.map Page.element).map Xml.node).mapM FileNotices.ofNode? =
      some (pages.map Page.notices) := by
    rw [map_map]
    exact mapM_map_eq_some _ FileNotices.ofNode?_node
  simp only [ofNode?, reportElement, summaryXml, group?_node, map_cons, map_nil,
    tally_allEntries, length_map, Option.bind_eq_bind, Option.bind_some, count?_node, notices]
  rfl

end TakingApart

/-- A report in XML is read back as the pages it is made of: one element for each file and each
remark, all texts and places as they were, and right counts. -/
theorem xml_contents (pages : List Page) :
    ∃ text node, render (.str "xml") (pages.map Page.findings) = .ok text ∧
      Xml.read text.points = some node ∧
      Digest.ofNode? node = some {
        files := pages.length
        summary := totals (pages.map Page.tally)
        pages := pages.map fun page => ⟨page.file, page.remarks.map fun remark =>
          { rule := remark.rule
            severity := remark.severity
            line := remark.range.startLine
            column := remark.range.startColumn
            message := remark.message
            suggestions := remark.suggestions }⟩ } := by
  refine ⟨⟨(reportElement pages).render⟩, (reportElement pages).node, ?_,
    Xml.read_render (reportElement_wellNamed pages), Digest.ofNode?_node pages⟩
  rw [render, ofFindings_pages]
  change xml _ = _
  rw [xml, toXml_sheets]
  rfl

end Report

end GrammarLint
