import GrammarLint.Proofs.TokenChanges

open List

namespace GrammarLint

open Lexical (Kind Token Position)
open Phrase (Category Change Tree)

namespace Phrase

def Change.KeepsTexts (c : Change) : Prop := ∀ kind text, c.text kind text = text

/-- The same tokens at other places. -/
def Change.move (f : Position → Position) : Change where
  place := f
  text _ text := text
  taken := 0
  errors := []
  text_missing _ := rfl

theorem Change.move_keepsTexts (f : Position → Position) : (Change.move f).KeepsTexts := fun _ _ => rfl

theorem Tree.change_text {c : Change} (keeps : c.KeepsTexts) (tree : Tree) :
    (tree.change c).text = tree.text := by
  simp [text, change_tokens, Function.comp_def, Token.change, keeps _ _]

end Phrase

namespace Range

def between (first last : Position) : Range :=
  ⟨first.line, first.column + 1, last.line, last.column + 1⟩

/-- The range between other places. -/
def relocate (f : Position → Position) (range : Range) : Range :=
  between (f ⟨range.startLine.toNat, (range.startColumn - 1).toNat⟩)
    (f ⟨range.endLine.toNat, (range.endColumn - 1).toNat⟩)

theorem relocate_between (f : Position → Position) (first last : Position) :
    (between first last).relocate f = between (f first) (f last) := by
  simp [relocate, between]

end Range

section Parts

variable (h : Range → Range)

def Element.relocate (e : Element) : Element := { e with range := e.range.map h }

def Alternative.relocate (a : Alternative) : Alternative :=
  { a with elements := a.elements.map (Element.relocate h), range := a.range.map h }

def Rule.relocate (r : Rule) : Rule :=
  { r with range := r.range.map h, alternatives := r.alternatives.map (Alternative.relocate h) }

def Grammar.relocate (g : Grammar) : Grammar := { g with rules := g.rules.map (Rule.relocate h) }

end Parts

section Parts

variable (tree : Tree)

namespace Phrase.Tree

variable (c : Change)

theorem change_alternatives (outer inner item : Category) :
    (tree.change c).alternatives outer inner item = (tree.alternatives outer inner item).map (change c) := by
  simp only [alternatives, change_phrase?]
  cases tree.phrase? outer with
  | none => rfl
  | some whole =>
    simp only [Option.map_some, Option.bind_some, change_phrase?]
    cases whole.phrase? inner with
    | none => rfl
    | some list => exact list.change_phrases c item

theorem change_elementsIn (body item : Category) :
    (tree.change c).elementsIn body item = (tree.elementsIn body item).map (change c) := by
  simp only [elementsIn, change_phrase?]
  cases tree.phrase? body with
  | none => rfl
  | some list => exact list.change_phrases c item

theorem change_range : (tree.change c).range = tree.range.map (Range.relocate c.place) := by
  cases tree with
  | leaf | error => rfl
  | phrase cat start stop children =>
    cases stop <;> exact congrArg some (Range.relocate_between c.place _ _).symm

end Phrase.Tree

end Parts

theorem Rule.nameIn_change {c : Change} {kind : Kind} (keeps : ∀ text, c.text kind text = text) (tree : Tree) :
    nameIn kind (tree.change c) = nameIn kind tree := by
  have same : ∀ token ∈ tree.tokensOfKind kind, (token.change c).text = token.text := by
    intro token mem
    obtain ⟨child, -, found⟩ := mem_filterMap.mp mem
    obtain ⟨-, isKind⟩ := Option.filter_eq_some_iff.mp found
    rw [Token.change, eq_of_beq isKind, keeps]
  rw [nameIn, Tree.change_tokensOfKind, head?_map, Option.map_map]
  refine congrArg (Option.getD · _) (Option.map_congr fun token first => ?_)
  exact same token (mem_of_mem_head? first)

section OfTree

variable {c : Change} (keeps : c.KeepsTexts) (tree : Tree) (file : String)

include keeps

theorem Element.ofTree_change :
    Element.ofTree (tree.change c) = (Element.ofTree tree).relocate (Range.relocate c.place) := by
  simp [Element.ofTree, Element.relocate, Tree.change_range, Tree.change_text keeps]

namespace Rule

theorem parserAlternatives_change : parserAlternatives (tree.change c) =
    (parserAlternatives tree).map (Alternative.relocate (Range.relocate c.place)) := by
  simp only [parserAlternatives_eq, Tree.change_alternatives, map_map]
  refine map_congr_left fun alt _ => ?_
  simp [Alternative.relocate, Tree.change_elementsIn, Tree.change_phrase?, Tree.change_text keeps,
    Element.ofTree_change keeps, Function.comp_def]

theorem lexerAlternatives_change : lexerAlternatives (tree.change c) =
    (lexerAlternatives tree).map (Alternative.relocate (Range.relocate c.place)) := by
  simp only [lexerAlternatives_eq, Tree.change_alternatives, map_map]
  refine map_congr_left fun alt _ => ?_
  simp [Alternative.relocate, Tree.change_elementsIn, Element.ofTree_change keeps, Function.comp_def]

theorem ofTree?_change :
    ofTree? (tree.change c) = (ofTree? tree).map (relocate (Range.relocate c.place)) := by
  simp only [ofTree?, Tree.change_phrase?]
  cases tree.phrase? .parserRuleSpec with
  | some spec =>
    simp [ofParserTree, relocate, nameIn_change (keeps _), Tree.change_range,
      parserAlternatives_change keeps]
  | none =>
    cases tree.phrase? .lexerRuleSpec with
    | some spec =>
      simp [ofLexerTree, relocate, nameIn_change (keeps _), Tree.change_range,
        lexerAlternatives_change keeps, Tree.change_tokensOfKind]
    | none => rfl

end Rule

/-- Tokens at other places give the same rules at those places. -/
theorem Grammar.ofTree_change_rules : (Grammar.ofTree file (tree.change c)).rules =
    (Grammar.ofTree file tree).rules.map (Rule.relocate (Range.relocate c.place)) := by
  simp only [Grammar.ofTree, Tree.change_phrase?]
  cases tree.phrase? .rules with
  | none => rfl
  | some rules =>
    simp [Tree.change_phrases, map_filterMap, Rule.ofTree?_change keeps]

/-- Tokens at other places give the same grammar with its rules at those places. -/
theorem Grammar.ofTree_change : Grammar.ofTree file (tree.change c) =
    (Grammar.ofTree file tree).relocate (Range.relocate c.place) := by
  have declared : (tree.change c).phrase? .grammarDecl =
      (tree.phrase? .grammarDecl).map (Tree.change c) := tree.change_phrase? c _
  rw [Grammar.relocate, ← Grammar.ofTree_change_rules keeps]
  simp only [Grammar.ofTree, declared, Grammar.mk.injEq, and_true, true_and]
  cases tree.phrase? .grammarDecl with
  | none => exact ⟨rfl, rfl⟩
  | some declaration =>
    simp only [Option.map_some, Option.bind_some, Tree.change_phrase?]
    constructor
    · cases declaration.phrase? .grammarType <;> simp [Tree.change_text keeps]
    · simp [Tree.change_text keeps, Function.comp_def]

end OfTree

namespace Lexical

def Position.Precedes (p q : Position) : Prop :=
  p.line < q.line ∨ p.line = q.line ∧ p.column < q.column

namespace Position

variable {p q r : Position}

theorem Precedes.trans (first : p.Precedes q) (second : q.Precedes r) : p.Precedes r := by
  unfold Precedes at *
  omega

theorem Precedes.irrefl : ¬ p.Precedes p := by
  unfold Precedes
  omega

theorem precedes_or (p q : Position) : p.Precedes q ∨ p = q ∨ q.Precedes p := by
  unfold Precedes
  rw [mk.injEq]
  omega

theorem precedes_advance (p : Position) (c : Char) : p.Precedes (p.advance c) := by
  unfold Precedes advance
  split <;> simp

theorem precedes_advanceAll {text : List Char} (nonempty : text ≠ []) :
    p.Precedes (p.advanceAll text) := by
  induction text generalizing p with
  | nil => exact absurd rfl nonempty
  | cons c rest ih =>
    cases rest with
    | nil => exact p.precedes_advance c
    | cons d rest => exact (p.precedes_advance c).trans (ih (by simp))

end Position

variable {position : Position} {text : List Char} {tokens : List Token}

theorem precedes_all {places : List Position} (nonempty : text ≠ [])
    (behind : ∀ place ∈ places, position.advanceAll text = place ∨ (position.advanceAll text).Precedes place) :
    ∀ place ∈ places, position.Precedes place := by
  intro place mem
  have ahead := Position.precedes_advanceAll (p := position) nonempty
  rcases behind place mem with rfl | later
  · exact ahead
  · exact ahead.trans later

/-- The places of tokens, and that of the end of the text, come one behind the other. -/
theorem Tiles.precedes {errors : List Position} (tiles : Tiles position text tokens errors) :
    (∀ place ∈ tokens.map (·.position) ++ [position.advanceAll text],
      position = place ∨ position.Precedes place) ∧
    (tokens.map (·.position) ++ [position.advanceAll text]).Pairwise Position.Precedes := by
  induction tiles with
  | done => simp [Position.advanceAll]
  | @token position text rest token tokens errors nonempty _ placed _ ih =>
    obtain ⟨behind, sorted⟩ := ih
    have further := precedes_all nonempty behind
    rw [Position.advanceAll_append, map_cons, cons_append, pairwise_cons,
      forall_mem_cons, placed]
    exact ⟨⟨.inl rfl, fun place mem => .inr (further place mem)⟩, further, sorted⟩
  | @skipped position text rest tokens errors nonempty _ ih =>
    obtain ⟨behind, sorted⟩ := ih
    rw [Position.advanceAll_append]
    exact ⟨fun place mem => .inr (precedes_all nonempty behind place mem), sorted⟩

/-- Tokens that agree but for their places and texts lie at each other's places. -/
theorem exists_relocation {retext : Kind → String → String} {others : List Token}
    (sorted : (tokens.map (·.position)).Pairwise Position.Precedes)
    (sorted' : (others.map (·.position)).Pairwise Position.Precedes)
    (same : others.map (fun token => (token.kind, token.text, token.channel)) =
      tokens.map fun token => (token.kind, retext token.kind token.text, token.channel)) :
    ∃ f : Position → Position, (others = tokens.map fun token =>
        { token with text := retext token.kind token.text, position := f token.position }) ∧
      ∀ a ∈ tokens, ∀ b ∈ tokens, a.position.Precedes b.position →
        (f a.position).Precedes (f b.position) := by
  induction tokens generalizing others with
  | nil => exact ⟨id, by simpa using same, by simp⟩
  | cons token tokens ih =>
    obtain _ | ⟨other, others⟩ := others
    · simp at same
    simp only [map_cons, cons.injEq, Prod.mk.injEq] at same
    obtain ⟨⟨kind, text, channel⟩, same⟩ := same
    obtain ⟨first, sorted⟩ := pairwise_cons.mp sorted
    obtain ⟨first', sorted'⟩ := pairwise_cons.mp sorted'
    obtain ⟨f, rfl, keeps⟩ := ih sorted sorted' same
    -- The first place is none of the later ones, so it can be sent where the first of the others is.
    have apart : ∀ later ∈ tokens, later.position ≠ token.position := by
      intro later mem here
      exact Position.Precedes.irrefl (here ▸ first _ (mem_map_of_mem mem))
    have here : Function.update f token.position other.position token.position = other.position :=
      Function.update_self ..
    have there : ∀ later ∈ tokens,
        Function.update f token.position other.position later.position = f later.position :=
      fun later mem => Function.update_of_ne (apart later mem) ..
    refine ⟨Function.update f token.position other.position, ?_, ?_⟩
    · rw [map_cons]
      congr 1
      · rw [here, ← text, ← channel, ← kind]
      · refine map_congr_left fun later mem => ?_
        simp [there later mem]
    · intro a inA b inB before
      rcases mem_cons.mp inA with rfl | laterA <;> rcases mem_cons.mp inB with rfl | laterB
      · exact absurd before Position.Precedes.irrefl
      · rw [here, there b laterB]
        exact first' _ (mem_map_of_mem (mem_map_of_mem laterB))
      · exact absurd (before.trans (first _ (mem_map_of_mem laterA))) Position.Precedes.irrefl
      · rw [there a laterA, there b laterB]
        exact keeps a laterA b laterB before

/-- Places of tokens are in the same order, and the same or not, where they are relocated to. -/
theorem precedes_iff {f : Position → Position}
    (keeps : ∀ a ∈ tokens, ∀ b ∈ tokens, a.position.Precedes b.position → (f a.position).Precedes (f b.position))
    {a b : Token} (inA : a ∈ tokens) (inB : b ∈ tokens) :
    ((f a.position).Precedes (f b.position) ↔ a.position.Precedes b.position) ∧
      (f a.position = f b.position ↔ a.position = b.position) := by
  rcases a.position.precedes_or b.position with before | same | behind
  · have kept := keeps a inA b inB before
    refine ⟨⟨fun _ => before, fun _ => kept⟩, fun meet => ?_, fun meet => ?_⟩
    · exact absurd (meet ▸ kept) Position.Precedes.irrefl
    · exact absurd (meet ▸ before) Position.Precedes.irrefl
  · simp [same, Position.Precedes.irrefl]
  · have kept := keeps b inB a inA behind
    refine ⟨⟨fun before => ?_, fun before => ?_⟩, fun meet => ?_, fun meet => ?_⟩
    · exact absurd (kept.trans before) Position.Precedes.irrefl
    · exact absurd (behind.trans before) Position.Precedes.irrefl
    · exact absurd (meet ▸ kept) Position.Precedes.irrefl
    · exact absurd (meet ▸ behind) Position.Precedes.irrefl

end Lexical

end GrammarLint
