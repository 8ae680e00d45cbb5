import GrammarLint.Grammar.OfTree
import GrammarLint.Proofs.Budget
import GrammarLint.Proofs.CheckRuns
import GrammarLint.Proofs.TokenTiling

open List

namespace GrammarLint.Phrase

open Lexical (Kind Token)

/-- Every phrase in a tree begins and ends at tokens among the given. -/
inductive Tree.EndsAmong (known : List Token) : Tree → Prop
  | leaf {token : Token} : EndsAmong known (.leaf token)
  | error {token : Token} : EndsAmong known (.error token)
  | phrase {cat : Category} {start : Token} {stop : Option Token} {children : List Tree} :
      start ∈ known → (∀ token, stop = some token → token ∈ known) →
      (∀ child ∈ children, EndsAmong known child) →
      EndsAmong known (.phrase cat start stop children)

variable {known : List Token} {tree child : Tree} {cat : Category} {p : Progress} {point : Point}
  {calls : List Point}

theorem Tree.EndsAmong.phrases (among : tree.EndsAmong known) (mem : child ∈ tree.phrases cat) :
    child.EndsAmong known := by
  cases among with
  | leaf | error => simp [Tree.phrases, Tree.children] at mem
  | phrase _ _ each => exact each child (mem_filter.mp mem).1

theorem Tree.EndsAmong.phrase? (among : tree.EndsAmong known)
    (found : tree.phrase? cat = some child) :
    child.EndsAmong known :=
  among.phrases (mem_of_mem_head? found)

/-- All that is left to take, and the last token taken, are among the given. -/
structure Progress.Among (known : List Token) (p : Progress) : Prop where
  ahead : ∀ token ∈ p.ahead, token ∈ known
  finish : p.finish ∈ known
  last : ∀ token, p.last = some token → token ∈ known

namespace Progress.Among

variable {p : Progress}

variable (among : p.Among known)

include among

theorem current : p.current ∈ known := by
  cases tokens : p.ahead with
  | nil => simpa [Progress.current, tokens] using among.finish
  | cons token later =>
    simpa [Progress.current, tokens] using among.ahead token (by simp [tokens])

theorem take : p.take.Among known := by
  unfold Progress.take
  split
  · exact among
  · rename_i token later tokens
    refine ⟨fun other mem => ?_, among.finish, fun other same => ?_⟩
    · exact among.ahead other (tokens ▸ mem_cons_of_mem _ mem)
    · cases same
      exact among.ahead token (tokens ▸ mem_cons_self)

theorem matched : p.matched.Among known :=
  ⟨among.ahead, among.finish, among.last⟩

theorem report (token : Token) : (p.report token).Among known := by
  unfold Progress.report
  split
  · exact among
  · exact ⟨among.ahead, among.finish, among.last⟩

theorem skipUntil (fits : Kind → Bool) : (skipUntil fits p).2.Among known := by
  refine ⟨fun token mem => ?_, among.finish, fun token same => ?_⟩
  · exact among.ahead token (mem_of_mem_drop mem)
  · rcases Option.or_eq_some_iff.mp same with dropped | ⟨-, before⟩
    · exact among.ahead token (takeWhile_subset _ (mem_of_getLast? dropped))
    · exact among.last token before

theorem recover (calls : List Point) (failure : Failure) :
    (recover calls failure p).2.Among known := by
  rw [recover_progress]
  refine skipUntil ?_ _
  have reported := among.report failure.token
  unfold noted
  cases repeated failure (p.report failure.token) with
  | true => exact ⟨reported.take.ahead, reported.take.finish, reported.take.last⟩
  | false => exact ⟨reported.ahead, reported.finish, reported.last⟩

end Progress.Among

theorem skipUntil_dropped {fits : Kind → Bool} (mem : tree ∈ (skipUntil fits p).1) :
    ∃ token, tree = .error token := by
  obtain ⟨token, -, rfl⟩ := mem_map.mp mem
  exact ⟨token, rfl⟩

theorem recover_dropped (calls : List Point) (failure : Failure) (p : Progress) :
    ∀ tree ∈ (recover calls failure p).1, ∃ token, tree = .error token := by
  rw [recover_eq]
  intro tree mem
  rcases mem_append.mp mem with dropped | skipped
  · split at dropped
    · exact ⟨_, mem_singleton.mp dropped⟩
    · simp at dropped
  · exact skipUntil_dropped skipped

/-- The parts found, and what is left, are among the given tokens. -/
structure Parsed.Among (known : List Token) (parsed : Parsed) : Prop where
  parts : ∀ tree ∈ parsed.parts, tree.EndsAmong known
  progress : parsed.progress.Among known

namespace Parsed.Among

variable {p : Progress}

theorem ok {parts : List Tree} (each : ∀ tree ∈ parts, tree.EndsAmong known) (among : p.Among known) :
    (ok parts p).Among known := ⟨each, among⟩

theorem ok_nil (among : p.Among known) : (Parsed.ok [] p).Among known :=
  ok (by simp) among

theorem failed {point : Point} {token : Token} (among : p.Among known) :
    (failed point token [] p).Among known :=
  ⟨by simp [Parsed.failed], among⟩

theorem behind {before : List Tree} {parsed : Parsed} (first : ∀ tree ∈ before, tree.EndsAmong known)
    (among : parsed.Among known) : (parsed.behind before).Among known := by
  refine ⟨fun tree mem => ?_, among.progress⟩
  rcases mem_append.mp mem with inBefore | inParts
  · exact first tree inBefore
  · exact among.parts tree inParts

end Parsed.Among

theorem phrase_among {callee : Category} {start : Token} {inner : Parsed} {skipped : List Tree}
    {after : Progress} (begins : start ∈ known) (within : inner.Among known)
    (closed : (match inner.failure with
      | none => ([], inner.progress)
      | some failure => recover calls failure inner.progress) = (skipped, after)) :
    Tree.EndsAmong known (.phrase callee start after.last (inner.parts ++ skipped)) ∧
      after.Among known := by
  have ends : (∀ tree ∈ skipped, ∃ token, tree = .error token) ∧ after.Among known := by
    split at closed
    · cases closed
      exact ⟨by simp, within.progress⟩
    · rename_i failure _
      have errors := recover_dropped calls failure inner.progress
      have progress := within.progress.recover calls failure
      rw [closed] at errors progress
      exact ⟨errors, progress⟩
  refine ⟨.phrase begins ends.2.last fun tree mem => ?_, ends.2⟩
  rcases mem_append.mp mem with inParts | inSkipped
  · exact within.parts tree inParts
  · obtain ⟨token, rfl⟩ := ends.1 tree inSkipped
    exact .error

theorem entered_among {index : Nat} {callee : Category} {inner : Parsed} (among : p.Among known)
    (within : inner.Among known) : (entered cat calls index callee p inner).Among known := by
  obtain ⟨phrase, after⟩ := phrase_among among.current within rfl
  refine .ok (fun tree mem => ?_) after
  cases mem_singleton.mp mem
  exact phrase

theorem among_steady : Steady fun p parsed => p.Among known → parsed.Among known where
  stay _ := .ok_nil
  fail _ _ _ := .failed
  take _ among := .ok (by simp [Tree.EndsAmong.leaf]) among.matched.take
  drop token _ among := .ok (by simp [Tree.EndsAmong.error]) (among.report token).take
  resync token _ among := .ok (by simp [Tree.EndsAmong.error]) (among.report token).take.matched
  fill errors token _ among := by
    refine .ok (fun tree mem => ?_) (among.report token)
    obtain ⟨other, rfl⟩ := errors tree mem
    exact .error
  skip fits token _ among := by
    refine .ok (fun tree mem => ?_) ((among.report token).skipUntil fits)
    obtain ⟨other, rfl⟩ := skipUntil_dropped mem
    exact .error
  behind _ here there among := (there (here among).progress).behind (here among).parts
  enter inside among := entered_among among (inside among)

/-- The phrases of a parsed file begin and end at tokens of the file, errors or not. -/
theorem parseTokens_endsAmong (cat : Category) (tokens : List Token) (finish : Token) :
    (parseTokens cat tokens finish).tree.EndsAmong (tokens ++ [finish]) := by
  have among : (Progress.start tokens finish).Among (tokens ++ [finish]) :=
    ⟨fun token mem => mem_append_left _ mem, by simp [Progress.start],
      by simp [Progress.start]⟩
  exact (phrase_among among.current (among_steady.parseForm _ _ .whole among) rfl).1

end GrammarLint.Phrase

namespace GrammarLint

open Lexical (Token)
open Phrase (Tree)

/-- A range that begins and ends with tokens among the given. -/
def Range.Among (known : List Token) (range : Range) : Prop :=
  ∃ first ∈ known, ∃ last ∈ known, range = ⟨first.position.line, first.position.column + 1,
    last.position.line, last.position.column + 1⟩

theorem Phrase.Tree.EndsAmong.range {known : List Token} {tree : Tree} {range : Range}
    (among : tree.EndsAmong known) (same : tree.range = some range) : range.Among known := by
  cases among with
  | leaf | error => cases same
  | @phrase cat start stop children begins ends _ =>
    cases same
    cases stop with
    | none => exact ⟨start, begins, start, begins, rfl⟩
    | some token => exact ⟨start, begins, token, ends token rfl, rfl⟩

section Parts

variable (tree : Tree)

namespace Phrase.Tree

def alternatives (outer inner item : Category) : List Tree :=
  ((tree.phrase? outer).bind (·.phrase? inner)).elim [] (·.phrases item)

def elementsIn (body item : Category) : List Tree := (tree.phrase? body).elim [] (·.phrases item)

end Phrase.Tree

theorem Rule.parserAlternatives_eq : parserAlternatives tree =
    (tree.alternatives .ruleBlock .ruleAltList .labeledAlt).map fun alt =>
      ⟨(alt.elementsIn .alternative .element).map Element.ofTree, (alt.phrase? .identifier).map (·.text),
        none⟩ := by
  unfold parserAlternatives Tree.alternatives
  cases (tree.phrase? .ruleBlock).bind (·.phrase? .ruleAltList) with
  | none => rfl
  | some list =>
    refine map_congr_left fun alt _ => ?_
    unfold Tree.elementsIn
    cases alt.phrase? .alternative <;> rfl

theorem Rule.lexerAlternatives_eq : lexerAlternatives tree =
    (tree.alternatives .lexerRuleBlock .lexerAltList .lexerAlt).map fun alt =>
      ⟨(alt.elementsIn .lexerElements .lexerElement).map Element.ofTree, none, none⟩ := by
  unfold lexerAlternatives Tree.alternatives
  cases (tree.phrase? .lexerRuleBlock).bind (·.phrase? .lexerAltList) with
  | none => rfl
  | some list =>
    refine map_congr_left fun alt _ => ?_
    unfold Tree.elementsIn
    cases alt.phrase? .lexerElements <;> rfl

end Parts

section Ranges

variable {known : List Token} {tree : Tree} {range : Range} {outer inner item body : Phrase.Category}
  {r : Rule}

variable (among : tree.EndsAmong known)

include among

theorem Phrase.Tree.EndsAmong.alternatives {alt : Tree}
    (mem : alt ∈ tree.alternatives outer inner item) :
    alt.EndsAmong known := by
  unfold Tree.alternatives at mem
  cases found : (tree.phrase? outer).bind (·.phrase? inner) with
  | none => simp [found] at mem
  | some list =>
    obtain ⟨block, inTree, inBlock⟩ := Option.bind_eq_some_iff.mp found
    rw [found] at mem
    exact ((among.phrase? inTree).phrase? inBlock).phrases mem

theorem Phrase.Tree.EndsAmong.elementsIn {child : Tree}
    (mem : child ∈ tree.elementsIn body item) : child.EndsAmong known := by
  unfold Tree.elementsIn at mem
  cases found : tree.phrase? body with
  | none => simp [found] at mem
  | some list =>
    rw [found] at mem
    exact (among.phrase? found).phrases mem

theorem alternatives_among {part : Phrase.Category} {label : Tree → Option String} {a : Alternative}
    (mem : a ∈ (tree.alternatives outer inner item).map fun alt =>
      ⟨(alt.elementsIn body part).map Element.ofTree, label alt, none⟩)
    (inside : some range ∈ a.range :: a.elements.map (·.range)) : range.Among known := by
  obtain ⟨alt, inTree, rfl⟩ := mem_map.mp mem
  obtain ⟨e, isElement, same⟩ := mem_map.mp ((mem_cons.mp inside).resolve_left (by simp))
  obtain ⟨child, inBody, rfl⟩ := mem_map.mp isElement
  exact ((among.alternatives inTree).elementsIn inBody).range same

theorem Rule.ofTree?_ranges (made : Rule.ofTree? tree = some r)
    (inside : some range ∈ r.ranges) : range.Among known := by
  unfold Rule.ofTree? at made
  split at made
  · rename_i found
    cases made
    rcases mem_cons.mp inside with own | part
    · exact (among.phrase? found).range own.symm
    · obtain ⟨a, inRule, inAlternative⟩ := mem_flatMap.mp part
      rw [Rule.ofParserTree, Rule.parserAlternatives_eq] at inRule
      exact alternatives_among (among.phrase? found) inRule inAlternative
  · rename_i found
    cases made
    rcases mem_cons.mp inside with own | part
    · exact (among.phrase? found).range own.symm
    · obtain ⟨a, inRule, inAlternative⟩ := mem_flatMap.mp part
      rw [Rule.ofLexerTree, Rule.lexerAlternatives_eq] at inRule
      exact alternatives_among (among.phrase? found) inRule inAlternative
  · cases made

/-- The rules of a grammar and all their parts lie between tokens of its file. -/
theorem Grammar.ofTree_ranges {file : String}
    (mem : r ∈ (Grammar.ofTree file tree).rules) (inside : some range ∈ r.ranges) :
    range.Among known := by
  unfold Grammar.ofTree at mem
  split at mem
  · rename_i rules found
    obtain ⟨spec, inRules, made⟩ := mem_filterMap.mp mem
    exact Rule.ofTree?_ranges ((among.phrase? found).phrases inRules) made inside
  · simp at mem

end Ranges

end GrammarLint
