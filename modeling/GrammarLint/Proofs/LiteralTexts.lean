import GrammarLint.Proofs.FormParts
import GrammarLint.Proofs.LiteralTokens
import GrammarLint.Proofs.Relocation

open List

namespace GrammarLint

open Lexical (Kind Token Position Readable openers innerKinds)
open Text (Stretch Legible IsLiteral)

namespace Phrase

/-- What stands only in brackets stands behind an opening one. -/
def Opened (kinds : List Kind) : Prop :=
  ∀ front kind later, kinds = front ++ kind :: later → kind ∈ innerKinds → .beginArgument ∈ front

theorem Opened.append {u v : List Kind} (first : Opened u) (second : Opened v) : Opened (u ++ v) := by
  intro front kind later split inner
  rcases append_eq_append_iff.mp split with ⟨more, rfl, rest⟩ | ⟨more, rfl, rest⟩
  · exact mem_append_right _ (second more kind later rest inner)
  · cases more with
    | nil => exact absurd (second [] kind later rest.symm inner) (by simp)
    | cons k more =>
      obtain ⟨rfl, -⟩ := cons.inj rest
      exact first front kind more rfl inner

variable {kind : Kind}

theorem Opened.single (outer : kind ∉ innerKinds) : Opened [kind] := by
  intro front other later split inner
  cases front with
  | nil =>
    cases (cons.inj split).1
    exact absurd inner outer
  | cons k front => simp at split

theorem Opened.tail {kinds : List Kind} (opened : Opened (kind :: kinds))
    (other : kind ≠ .beginArgument) : kind ∉ innerKinds ∧ Opened kinds := by
  refine ⟨fun inner => ?_, fun front k later split inner => ?_⟩
  · exact absurd (opened [] kind kinds rfl inner) (by simp)
  · have inside := opened (kind :: front) k later (by rw [split]; rfl) inner
    rcases mem_cons.mp inside with same | inFront
    · exact absurd same.symm other
    · exact inFront

theorem Opened.of_begin (kinds : List Kind) : Opened (.beginArgument :: kinds) := by
  intro front kind later split inner
  cases front with
  | nil =>
    cases (cons.inj split).1
    exact absurd inner (by decide)
  | cons k front =>
    cases (cons.inj split).1
    exact mem_cons_self

/-- Phrases other than argument blocks have no such tokens of their own. -/
theorem uses_outer {cat : Category} (other : cat ≠ .argActionBlock) :
    cat.form.uses (fun kind => !innerKinds.contains kind) Category.all = true := by
  have checked : ∀ cat ∈ Category.all, cat ≠ .argActionBlock →
      cat.form.uses (fun kind => !innerKinds.contains kind) Category.all = true := by decide +kernel
  exact checked cat (mem_all cat) other

theorem Derives.opened {form : Form} {word : List Kind} (derives : Derives form word)
    (own : form.uses (fun kind => !innerKinds.contains kind) Category.all = true) : Opened word := by
  refine derives.of_parts Opened (fun front kind later split => by simp at split) .append
    (fun kind outer => .single (by simpa using outer)) (fun cat _ word inside ih => ?_) own
  by_cases arguments : cat = .argActionBlock
  · subst arguments
    cases inside with
    | seq first second =>
      cases first
      exact .of_begin _
  · exact ih (uses_outer arguments)

def literalText (σ : String → String) (kind : Kind) (text : String) : String :=
  if kind = .stringLiteral ∧ text.toList.head? = some '\'' then σ text else text

/-- The same tokens at other places and with other literals. -/
def Change.literals (f : Position → Position) (σ : String → String) : Change where
  place := f
  text := literalText σ
  taken := 0
  errors := []
  text_missing kind := if_neg fun ⟨_, quote⟩ => by simp at quote

theorem literalText_other {σ : String → String} (other : kind ≠ .stringLiteral) (text : String) :
    literalText σ kind text = text := if_neg fun both => other both.1

end Phrase

open Phrase

/-- The text of some tokens falls into stretches, and so does that with other literals. -/
structure FallsInto (σ : String → String) (tokens : List Token) (ps : List Stretch) : Prop where
  legible : Legible ps
  text : tokens.flatMap (·.text.toList) = ps.flatMap Stretch.chars
  image : (tokens.flatMap fun token => (literalText σ token.kind token.text).toList) =
    (ps.map (Stretch.map σ)).flatMap Stretch.chars
  literals : ∀ literal, .quoted literal ∈ ps → ∃ token ∈ tokens, token.kind = .stringLiteral ∧
    token.text.toList = literal

namespace FallsInto

variable {σ : String → String} {token : Token} {tokens : List Token} {ps : List Stretch}

theorem cons_literal (falls : FallsInto σ tokens ps) (kind : token.kind = .stringLiteral)
    (isLiteral : IsLiteral token.text.toList) :
    FallsInto σ (token :: tokens) (.quoted token.text.toList :: ps) where
  legible := .quoted isLiteral falls.legible
  text := by rw [flatMap_cons, falls.text, flatMap_cons, Stretch.chars]
  image := by
    rw [flatMap_cons, falls.image, map_cons, flatMap_cons, Stretch.map, Stretch.chars,
      String.ofList_toList, literalText, if_pos ⟨kind, isLiteral.head?⟩]
  literals literal mem := by
    rcases mem_cons.mp mem with same | behind
    · cases same
      exact ⟨token, mem_cons_self, kind, rfl⟩
    · obtain ⟨other, inside, about⟩ := falls.literals literal behind
      exact ⟨other, mem_cons_of_mem _ inside, about⟩

theorem cons_quiet (falls : FallsInto σ tokens ps) (kind : token.kind ≠ .stringLiteral)
    (quiet : Text.Quiet token.text.toList) :
    FallsInto σ (token :: tokens) (token.text.toList.map .plain ++ ps) where
  legible := .of_quiet quiet falls.legible
  text := by rw [flatMap_cons, falls.text, flatMap_append, Text.chars_plain]
  image := by
    rw [flatMap_cons, falls.image, literalText_other kind, map_append, flatMap_append,
      map_map]
    exact congrArg (· ++ _) (Text.chars_plain _).symm
  literals literal mem := by
    have behind : .quoted literal ∈ ps := by simpa using mem
    obtain ⟨other, inside, about⟩ := falls.literals literal behind
    exact ⟨other, mem_cons_of_mem _ inside, about⟩

/-- Behind a bracket there must be no literals. -/
theorem cons_opener {front rest : List Char} {c : Char} (split : token.text.toList = front ++ c :: rest)
    (quiet : Text.Quiet front) (bracket : c = '[' ∨ c = '\x7b')
    (others : ∀ other ∈ token :: tokens, other.kind ≠ .stringLiteral) :
    FallsInto σ (token :: tokens)
      (front.map .plain ++ [.rest (c :: (rest ++ tokens.flatMap (·.text.toList)))]) where
  legible := .of_quiet quiet (.rest bracket)
  text := by simp [Text.chars_plain, split, Stretch.chars]
  image := by
    have kept : ((token :: tokens).flatMap fun token => (literalText σ token.kind token.text).toList) =
        (token :: tokens).flatMap (·.text.toList) :=
      flatMap_congr fun other inside => by rw [literalText_other (others other inside)]
    rw [kept, flatMap_cons, split]
    simp [Function.comp_def, Stretch.map, Text.chars_plain, Stretch.chars]
  literals := by simp

end FallsInto

/-- The text of tokens falls into stretches, if no literal stands behind a bracket. -/
theorem exists_stretches (σ : String → String) {tokens : List Token}
    (readable : ∀ token ∈ tokens, Readable token.kind token.text.toList)
    (opened : Opened (tokens.map (·.kind)))
    (before : tokens.Pairwise fun a b => a.kind ∈ openers → b.kind ≠ .stringLiteral) :
    ∃ ps, FallsInto σ tokens ps := by
  induction tokens with
  | nil => exact ⟨[], .nil, rfl, rfl, by simp⟩
  | cons token tokens ih =>
    obtain ⟨here, later⟩ := forall_mem_cons.mp readable
    obtain ⟨apart, before⟩ := pairwise_cons.mp before
    by_cases opener : token.kind ∈ openers
    · have other : token.kind ≠ .stringLiteral := by
        intro same
        rw [same] at opener
        exact absurd opener (by decide)
      obtain ⟨front, c, rest, split, quiet, bracket⟩ := here.opener opener
      exact ⟨_, .cons_opener split quiet bracket
        (forall_mem_cons.mpr ⟨other, fun later inside => apart later inside opener⟩)⟩
    · have outside : token.kind ≠ .beginArgument := by
        intro same
        rw [same] at opener
        exact opener (by decide)
      obtain ⟨outer, opened⟩ := opened.tail outside
      obtain ⟨ps, falls⟩ := ih later opened before
      by_cases literal : token.kind = .stringLiteral
      · exact ⟨_, falls.cons_literal literal (here.literal literal)⟩
      · exact ⟨_, falls.cons_quiet literal (here.quiet literal opener outer)⟩

/-- The characters that stand for the structure of a rule. -/
def Text.operatorChars : List Char := ['(', ')', '[', ']', '\x7b', '\x7d', '?', '*', '+']

/-- What of a text could stand for the structure of a rule. -/
def Text.operators (text : List Char) : List Char := text.filter (operatorChars.contains ·)

/-- Literals for other literals: different ones for different ones, and each with the same characters that
could stand for the structure of a rule. -/
structure Substitution (σ : String → String) (literals : List String) : Prop where
  literal : ∀ s ∈ literals, IsLiteral (σ s).toList
  injective : ∀ s ∈ literals, ∀ t ∈ literals, σ s = σ t → s = t
  operators : ∀ s ∈ literals, Text.operators (σ s).toList = Text.operators s.toList

namespace Phrase.Tree

def literals (tree : Tree) : List String :=
  (tree.tokens.filter (·.kind == .stringLiteral)).map (·.text)

/-- No literal stands behind an argument, an action, a set of characters or a block of options. -/
def LiteralsFirst (tree : Tree) : Prop :=
  tree.tokens.Pairwise fun a b => a.kind ∈ openers → b.kind ≠ .stringLiteral

variable {tree other : Tree}

theorem mem_literals {s : String} : s ∈ tree.literals ↔
    ∃ token ∈ tree.tokens, token.kind = .stringLiteral ∧ token.text = s := by
  simp [literals, and_assoc]

theorem text_literals_toList (f : Position → Position) (σ : String → String) (tree : Tree) :
    (tree.change (.literals f σ)).text.toList =
      tree.tokens.flatMap fun token => (literalText σ token.kind token.text).toList := by
  rw [text_toList, change_tokens, flatMap_map]
  rfl

/-- A tree whose tokens are read as what they are. -/
structure Legible (tree : Tree) : Prop where
  readable : ∀ token ∈ tree.tokens, Readable token.kind token.text.toList
  opened : Opened (tree.tokens.map (·.kind))

section Change

variable {f : Position → Position} {σ : String → String} {literals : List String}
  (substitution : Substitution σ literals)

theorem text_unquoted (none : tree.literals = []) : (tree.change (.literals f σ)).text = tree.text := by
  rw [← String.toList_inj, text_literals_toList, text_toList]
  refine flatMap_congr fun token inside => ?_
  rw [literalText_other]
  intro literal
  have mem := mem_literals.mpr ⟨token, inside, literal, rfl⟩
  rw [none] at mem
  cases mem

include substitution

theorem operators_literals (legible : tree.Legible) (known : tree.literals ⊆ literals) :
    Text.operators (tree.change (.literals f σ)).text.toList = Text.operators tree.text.toList := by
  rw [text_literals_toList, text_toList, Text.operators, Text.operators, filter_flatMap,
    filter_flatMap]
  refine flatMap_congr fun token inside => ?_
  by_cases literal : token.kind = .stringLiteral
  · have quote := ((legible.readable token inside).literal literal).head?
    rw [literalText, if_pos ⟨literal, quote⟩]
    exact substitution.operators _ (known (mem_literals.mpr ⟨token, inside, literal, rfl⟩))
  · rw [literalText_other literal]

omit substitution in
theorem text_literals (legible : tree.Legible) (first : tree.LiteralsFirst)
    (known : tree.literals ⊆ literals) :
    (tree.change (.literals f σ)).text = Text.reword σ tree.text ∧ Text.Worded literals tree.text := by
  obtain ⟨ps, falls⟩ := exists_stretches σ legible.readable legible.opened first
  have chars : tree.text.toList = ps.flatMap Stretch.chars := by rw [← falls.text, ← text_toList]
  constructor
  · rw [← String.ofList_toList (s := tree.text), chars, falls.legible.reword_eq, ← falls.image,
      ← text_literals_toList f, String.ofList_toList]
  · refine ⟨ps, falls.legible, chars, fun literal inside => ?_⟩
    obtain ⟨token, inTree, kind, rfl⟩ := falls.literals literal inside
    exact known (mem_literals.mpr ⟨token, inTree, kind, String.ofList_toList.symm⟩)

end Change

end Phrase.Tree

end GrammarLint
