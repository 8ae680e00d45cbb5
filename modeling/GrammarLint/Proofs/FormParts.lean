import GrammarLint.Phrase.Parts
import GrammarLint.Proofs.Derivation

open List

namespace GrammarLint.Phrase

open Lexical (Kind Token)

theorem Tree.text_toList (tree : Tree) : tree.text.toList = tree.tokens.flatMap (·.text.toList) := by
  rw [text, String.toList_join, flatMap_map]

/-- The part is a token of some kinds or a phrase of some categories. -/
def Part.among (kinds : Kind → Bool) (categories : List Category) : Part → Bool
  | .token kind => kinds kind
  | .phrase cat => categories.contains cat

/-- A form has no other parts than tokens of some kinds and phrases of some categories. -/
def Form.uses (kinds : Kind → Bool) (categories : List Category) (form : Form) : Bool :=
  form.parts.all (Part.among kinds categories)

section Uses

variable {kinds : Kind → Bool} {categories : List Category} {form f g : Form}

@[simp]
theorem uses_call {index : Nat} {cat : Category} :
    (Form.call index cat).uses kinds categories = true ↔ cat ∈ categories := by
  simp [Form.uses, Form.parts, Part.among]

@[simp]
theorem uses_seq : (Form.seq f g).uses kinds categories = true ↔
    f.uses kinds categories = true ∧ g.uses kinds categories = true := by
  simp [Form.uses, Form.parts]

@[simp]
theorem uses_alt : (Form.alt f g).uses kinds categories = true ↔
    f.uses kinds categories = true ∧ g.uses kinds categories = true := by
  simp [Form.uses, Form.parts]

/-- A property of words that holds of the tokens of some kinds and of what some phrases stand for, and gets
from words to one behind the other, is one of all words of a form with no other parts. -/
theorem Derives.of_parts (holds : List Kind → Prop) (nil : holds [])
    (append : ∀ {u v}, holds u → holds v → holds (u ++ v)) (token : ∀ kind, kinds kind = true → holds [kind])
    (call : ∀ cat ∈ categories, ∀ word, Derives cat.form word →
      (cat.form.uses kinds categories = true → holds word) → holds word)
    {word : List Kind} (derives : Derives form word) (own : form.uses kinds categories = true) :
    holds word := by
  induction derives with
  | empty | absent | stop => exact nil
  | token => exact token _ (by simpa [Form.uses, Form.parts, Part.among] using own)
  | @oneOf known kind _ mem =>
    have each : ∀ kind ∈ known, kinds kind = true := by
      simpa [Form.uses, Form.parts, Part.among] using own
    exact token kind (each kind mem)
  | call inside ih => exact call _ (uses_call.mp own) _ inside ih
  | seq _ _ first second => exact append (first (uses_seq.mp own).1) (second (uses_seq.mp own).2)
  | left _ ih => exact ih (uses_alt.mp own).1
  | right _ ih => exact ih (uses_alt.mp own).2
  | choice _ ih | present _ ih | star _ ih => exact ih own
  | plus _ _ first later | round _ _ first later => exact append (first own) (later own)

/-- Where some categories have no other parts than tokens of some kinds and each other, their words are
made of these kinds. -/
theorem Derives.of_uses (closed : ∀ cat ∈ categories, cat.form.uses kinds categories = true)
    {word : List Kind} (derives : Derives form word) (own : form.uses kinds categories = true) :
    ∀ kind ∈ word, kinds kind = true := by
  refine derives.of_parts (fun word => ∀ kind ∈ word, kinds kind = true) (by simp) ?_ (by simp) ?_ own
  · exact fun first second => forall_mem_append.mpr ⟨first, second⟩
  · exact fun cat mem _ _ inside => inside (closed cat mem)

/-- Where some categories have no other phrases as parts than each other, a property of trees that gets from
the parts of such a phrase to the phrase is one of all of them. -/
theorem Fits.forall_of_uses (holds : Tree → Prop)
    (closed : ∀ cat ∈ categories, cat.form.uses kinds categories = true)
    (leaf : ∀ token, holds (.leaf token))
    (phrase : ∀ cat ∈ categories, ∀ start stop children, (∀ child ∈ children, holds child) →
      holds (.phrase cat start stop children))
    {trees : List Tree} (fits : Fits form trees) (own : form.uses kinds categories = true) :
    ∀ tree ∈ trees, holds tree := by
  induction fits with
  | empty | absent | stop => nofun
  | token | oneOf => exact forall_mem_singleton.mpr (leaf _)
  | call _ ih =>
    have among := uses_call.mp own
    exact forall_mem_singleton.mpr (phrase _ among _ _ _ (ih (closed _ among)))
  | seq _ _ first second =>
    exact forall_mem_append.mpr ⟨first (uses_seq.mp own).1, second (uses_seq.mp own).2⟩
  | left _ ih => exact ih (uses_alt.mp own).1
  | right _ ih => exact ih (uses_alt.mp own).2
  | choice _ ih | present _ ih | star _ ih => exact ih own
  | plus _ _ first later | round _ _ first later =>
    exact forall_mem_append.mpr ⟨first own, later own⟩

end Uses

section Loops

variable {back : Nat} {lookahead : Lookahead} {greedy : Bool} {f : Form}

/-- What is left of a loop is any number of rounds. -/
theorem Derives.rounds {word : List Kind} (derives : Derives (.rounds back lookahead greedy f) word) :
    ∃ words : List (List Kind), word = words.flatten ∧ ∀ w ∈ words, Derives f w := by
  generalize whole : Form.rounds back lookahead greedy f = form at derives
  induction derives with
  | stop => exact ⟨[], rfl, by simp⟩
  | round first _ _ ih =>
    cases whole
    obtain ⟨words, rfl, each⟩ := ih rfl
    exact ⟨_ :: words, rfl, forall_mem_cons.mpr ⟨first, each⟩⟩
  | _ => cases whole

end Loops

section Inversion

variable {trees : List Tree} {index : Nat} {cat : Category}

theorem Fits.token_inv {kind : Kind} (fits : Fits (.token index kind) trees) :
    ∃ token : Token, trees = [.leaf token] := by
  cases fits with
  | token => exact ⟨_, rfl⟩

theorem Fits.seq_inv {f g : Form} (fits : Fits (.seq f g) trees) :
    ∃ us vs, trees = us ++ vs ∧ Fits f us ∧ Fits g vs := by
  cases fits with
  | seq first second => exact ⟨_, _, rfl, first, second⟩

/-- A call gives one phrase. -/
theorem Fits.call_inv (fits : Fits (.call index cat) trees) :
    ∃ tree, trees = [tree] ∧ tree.IsDerivation cat := by
  cases fits with
  | call inside => exact ⟨_, rfl, _, _, _, rfl, inside⟩

/-- A loop of calls gives phrases one behind the other. -/
theorem Fits.calls_inv {back place : Nat} {lookahead : Lookahead} {greedy : Bool} (fits : Fits (.star index back lookahead greedy (.call place cat)) trees) :
    ∀ tree ∈ trees, tree.IsDerivation cat := by
  cases fits with
  | star rounds =>
    generalize whole : Form.rounds back lookahead greedy (.call place cat) = form at rounds
    induction rounds with
    | stop => simp
    | round first _ _ ih =>
      cases whole
      obtain ⟨tree, rfl, derivation⟩ := first.call_inv
      exact forall_mem_append.mpr ⟨by simpa using derivation, ih rfl⟩
    | _ => cases whole

end Inversion

end GrammarLint.Phrase
