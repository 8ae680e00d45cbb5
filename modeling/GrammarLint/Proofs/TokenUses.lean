import GrammarLint.Check.Tokens
import GrammarLint.Proofs.RuleSections
import GrammarLint.Proofs.TokenMarks

open List

namespace GrammarLint

open Phrase
open Lexical (Kind Token Marked)

namespace Phrase.Tree

mutual
/-- The names of the tokens that a tree refers to: in atoms and in the elements of sets, at any depth. -/
def tokenAtoms : Tree → List String
  | .phrase cat _ _ children =>
    (if cat = .terminalDef ∨ cat = .setElement then
      children.filterMap fun child => (child.token?.filter (·.kind == .tokenRef)).map (·.text) else []) ++
    tokenAtomsOf children
  | .leaf _ => []
  | .error _ => []

def tokenAtomsOf : List Tree → List String
  | [] => []
  | tree :: rest => tree.tokenAtoms ++ tokenAtomsOf rest
end

/-- The phrases that one comes to by going down through phrases of these categories. -/
def descend (tree : Tree) : List Category → List Tree
  | [] => [tree]
  | cat :: categories => (tree.phrases cat).flatMap (·.descend categories)

/-- The way from a parser rule to its elements that stand in no block. -/
def elementPath : List Category := [.ruleBlock, .ruleAltList, .labeledAlt, .alternative, .element]

def alternativePath : List Category := [.ruleBlock, .ruleAltList, .labeledAlt, .alternative]

def parserSpecs (tree : Tree) : List Tree :=
  ((tree.ruleSpecs none).map (·.2)).filter (·.category? == some .parserRuleSpec)

def tokenUses (tree : Tree) : List String :=
  tree.parserSpecs.flatMap fun spec => (spec.phrases .ruleBlock).flatMap tokenAtoms

/-- The name of a token that is all of the phrase. -/
def bareToken? (tree : Tree) : Option String :=
  match tree.tokens with
  | [token] => if token.kind = .tokenRef then some token.text else none
  | _ => none

/-- The names of the tokens that are elements of parser rules without anything around them. -/
def bareUses (tree : Tree) : List String :=
  tree.parserSpecs.flatMap fun spec => (spec.descend elementPath).filterMap bareToken?

end Phrase.Tree

namespace Phrase

section Parts

variable {cat outer : Category} {form : Form} {trees : List Tree} {tree inner : Tree}

/-- How many phrases of a category there are in what a form stands for, if always the same number. -/
def Form.fixed (cat : Category) : Form → Option Nat
  | .empty | .token _ _ | .oneOf _ _ => some 0
  | .call _ other => some (if other = cat then 1 else 0)
  | .seq f g => (f.fixed cat).bind fun m => (g.fixed cat).map (m + ·)
  | .alt f g => if f.fixed cat = g.fixed cat then f.fixed cat else none
  | .choice _ _ f => f.fixed cat
  | .optional _ _ f | .star _ _ _ _ f | .plus _ _ f | .rounds _ _ _ f =>
    if f.fixed cat = some 0 then some 0 else none

theorem Fits.countP_eq (fits : Fits form trees) {n : Nat} (fixed : form.fixed cat = some n) :
    trees.countP (·.category? == some cat) = n := by
  induction fits generalizing n with
  | empty | token | oneOf => cases fixed; rfl
  | call =>
    cases fixed
    simp [Tree.category?]
  | seq _ _ first second =>
    obtain ⟨k, fixedFirst, rest⟩ := Option.bind_eq_some_iff.mp fixed
    obtain ⟨l, fixedSecond, rfl⟩ := Option.map_eq_some_iff.mp rest
    rw [countP_append, first fixedFirst, second fixedSecond]
  | left _ ih => exact ih (Option.ite_none_right_eq_some.mp fixed).2
  | right _ ih =>
    obtain ⟨same, fixed⟩ := Option.ite_none_right_eq_some.mp fixed
    exact ih (same ▸ fixed)
  | choice _ ih => exact ih fixed
  | absent | stop =>
    cases (Option.ite_none_right_eq_some.mp fixed).2
    rfl
  | present _ ih =>
    obtain ⟨none, ⟨⟩⟩ := Option.ite_none_right_eq_some.mp fixed
    exact ih none
  | star _ ih => exact ih fixed
  | plus _ _ first later | round _ _ first later =>
    obtain ⟨none, ⟨⟩⟩ := Option.ite_none_right_eq_some.mp fixed
    rw [countP_append, first none, later fixed]

/-- Where a phrase always has one phrase of a category in it, it is the first. -/
theorem Fits.phrases_eq (fits : Fits form trees) (one : form.fixed cat = some 1) (outer : Category)
    (start : Token) (stop : Option Token) :
    ∃ inner, (Tree.phrase outer start stop trees).phrases cat = [inner] ∧
      (Tree.phrase outer start stop trees).phrase? cat = some inner := by
  have count := fits.countP_eq one
  rw [countP_eq_length_filter, length_eq_one_iff] at count
  obtain ⟨inner, only⟩ := count
  exact ⟨inner, only, congrArg head? only⟩

theorem Tree.IsDerivation.phrases_eq (derivation : tree.IsDerivation outer)
    (one : outer.form.fixed cat = some 1) :
    ∃ inner, tree.phrases cat = [inner] ∧ tree.phrase? cat = some inner := by
  obtain ⟨start, stop, children, rfl, fits⟩ := derivation
  exact fits.phrases_eq one outer start stop

/-- The parts of a phrase are tokens and phrases that are derived as well. -/
theorem Fits.forall_mem (fits : Fits form trees) :
    ∀ tree ∈ trees, (∃ token, tree = .leaf token) ∨ ∃ cat, tree.IsDerivation cat := by
  induction fits with
  | empty | absent | stop => simp
  | token | oneOf => simp
  | call inside =>
    simp only [mem_singleton, forall_eq]
    exact .inr ⟨_, _, _, _, rfl, inside⟩
  | seq _ _ first second | plus _ _ first second | round _ _ first second =>
    exact forall_mem_append.mpr ⟨first, second⟩
  | left _ ih | right _ ih | choice _ ih | present _ ih | star _ ih => exact ih

theorem Tree.IsDerivation.of_mem_phrases
    (derivation : tree.IsDerivation outer) (member : inner ∈ tree.phrases cat) :
    inner.IsDerivation cat := by
  obtain ⟨start, stop, children, rfl, fits⟩ := derivation
  obtain ⟨child, same⟩ := mem_filter.mp member
  rcases fits.forall_mem inner child with ⟨token, rfl⟩ | ⟨other, derived⟩
  · simp [Tree.category?] at same
  · obtain ⟨_, _, _, rfl, inside⟩ := derived
    cases Option.some.inj (eq_of_beq same)
    exact ⟨_, _, _, rfl, inside⟩

variable (cat) in
theorem Tree.IsDerivation.of_mem_descend (categories : List Category)
    (derivation : tree.IsDerivation outer) (member : inner ∈ tree.descend (categories ++ [cat])) :
    inner.IsDerivation cat := by
  induction categories generalizing tree outer with
  | nil =>
    simp only [nil_append, Tree.descend, mem_flatMap, mem_singleton] at member
    obtain ⟨child, inPhrases, rfl⟩ := member
    exact derivation.of_mem_phrases inPhrases
  | cons first categories ih =>
    obtain ⟨child, inPhrases, inside⟩ := mem_flatMap.mp member
    exact ih (derivation.of_mem_phrases inPhrases) inside

end Parts

section Inside

theorem Tree.tokensOf_eq_flatMap (trees : List Tree) : tokensOf trees = trees.flatMap tokens := by
  induction trees with
  | nil => rfl
  | cons tree rest ih => rw [tokensOf, ih, flatMap_cons]

theorem Tree.tokenAtomsOf_eq_flatMap (trees : List Tree) : tokenAtomsOf trees = trees.flatMap tokenAtoms := by
  induction trees with
  | nil => rfl
  | cons tree rest ih => rw [tokenAtomsOf, ih, flatMap_cons]

variable {tree child : Tree}

theorem Tree.tokens_subset_of_mem (mem : child ∈ tree.children) : child.tokens ⊆ tree.tokens := by
  cases tree with
  | phrase cat start stop children =>
    rw [tokens, tokensOf_eq_flatMap]
    exact fun token inside => mem_flatMap.mpr ⟨child, mem, inside⟩
  | leaf _ | error _ => simp [children] at mem

theorem Tree.tokenAtoms_subset_of_mem (mem : child ∈ tree.children) :
    child.tokenAtoms ⊆ tree.tokenAtoms := by
  cases tree with
  | phrase cat start stop children =>
    rw [show tokenAtoms (.phrase cat start stop children) = _ by rw [tokenAtoms],
      tokenAtomsOf_eq_flatMap]
    exact fun name inside => mem_append_right _ (mem_flatMap.mpr ⟨child, mem, inside⟩)
  | leaf _ | error _ => simp [children] at mem

theorem Tree.descend_append (tree : Tree) (first second : List Category) :
    tree.descend (first ++ second) = (tree.descend first).flatMap (·.descend second) := by
  induction first generalizing tree with
  | nil => simp [descend]
  | cons cat first ih => simp [descend, ih, flatMap_assoc]

/-- What is in a phrase is in all phrases from which one comes down to it. -/
theorem Tree.descend_subset {α : Type} {f : Tree → List α}
    (step : ∀ tree child, child ∈ tree.children → f child ⊆ f tree) {inner : Tree}
    {categories : List Category} (mem : inner ∈ tree.descend categories) : f inner ⊆ f tree := by
  induction categories generalizing tree with
  | nil => rw [mem_singleton.mp mem]; exact List.Subset.refl _
  | cons cat categories ih =>
    obtain ⟨child, inPhrases, inside⟩ := mem_flatMap.mp mem
    exact List.Subset.trans (ih inside) (step tree child (mem_filter.mp inPhrases).1)

mutual
theorem Tree.ruleSpecs_tokens {mode : Option String} {spec : Option String × Tree} : (tree : Tree) →
    spec ∈ tree.ruleSpecs mode → spec.2.tokens ⊆ tree.tokens
  | .phrase cat start stop children, mem => by
    rw [ruleSpecs] at mem
    rcases mem_append.mp mem with here | inside
    · split at here
      · rw [mem_singleton.mp here]
        exact List.Subset.refl _
      · cases here
    · exact ruleSpecsOf_tokens children inside
  | .leaf _, mem | .error _, mem => nomatch mem

theorem Tree.ruleSpecsOf_tokens {mode : Option String} {spec : Option String × Tree} : (trees : List Tree) →
    spec ∈ ruleSpecsOf mode trees → spec.2.tokens ⊆ tokensOf trees
  | [], mem => nomatch mem
  | tree :: rest, mem => by
    rw [ruleSpecsOf] at mem
    rcases mem_append.mp mem with first | later
    · exact List.Subset.trans (ruleSpecs_tokens tree first) (subset_append_left _ _)
    · exact List.Subset.trans (ruleSpecsOf_tokens rest later) (subset_append_right _ _)
end

end Inside

section Marks

variable {categories : List Category} {form : Form} {trees : List Tree}

/-- Each word of the form has a token with a mark, if each word of these categories has one. -/
def Form.marked (categories : List Category) : Form → Bool
  | .token _ kind => kind.mark?.isSome
  | .oneOf _ kinds => kinds.all (·.mark?.isSome)
  | .call _ cat => categories.contains cat
  | .seq f g => f.marked categories || g.marked categories
  | .alt f g => f.marked categories && g.marked categories
  | .choice _ _ f | .plus _ _ f => f.marked categories
  | .empty | .optional _ _ _ | .star _ _ _ _ _ | .rounds _ _ _ _ => false

def Unmarked (trees : List Tree) : Prop := ∀ token ∈ Tree.tokensOf trees, token.kind.mark? = none

theorem unmarked_append {us vs : List Tree} : Unmarked (us ++ vs) ↔ Unmarked us ∧ Unmarked vs := by
  simp [Unmarked, Tree.tokensOf_append, or_imp, forall_and]

theorem unmarked_phrase {cat : Category} {start : Token} {stop : Option Token} :
    Unmarked [.phrase cat start stop trees] ↔ Unmarked trees := by
  simp [Unmarked, Tree.tokensOf, Tree.tokens]

theorem unmarked_leaf {token : Token} : Unmarked [.leaf token] ↔ token.kind.mark? = none := by
  simp [Unmarked, Tree.tokensOf, Tree.tokens]

theorem Fits.not_unmarked (closed : ∀ cat ∈ categories, cat.form.marked categories = true)
    (fits : Fits form trees) (marked : form.marked categories = true) : ¬ Unmarked trees := by
  induction fits with
  | empty | absent | star | stop | round | present => cases marked
  | token =>
    rw [unmarked_leaf, ← Option.not_isSome_iff_eq_none]
    exact fun unmarked => unmarked marked
  | oneOf mem =>
    rw [unmarked_leaf, ← Option.not_isSome_iff_eq_none]
    exact fun unmarked => unmarked (all_eq_true.mp marked _ mem)
  | call _ ih =>
    rw [unmarked_phrase]
    exact ih (closed _ (by simpa [Form.marked] using marked))
  | seq _ _ first second =>
    rw [unmarked_append]
    rw [Form.marked, Bool.or_eq_true] at marked
    exact fun both => marked.elim (fun left => first left both.1) fun right => second right both.2
  | left _ ih => exact ih (Bool.and_eq_true_iff.mp marked).1
  | right _ ih => exact ih (Bool.and_eq_true_iff.mp marked).2
  | choice _ ih => exact ih marked
  | plus _ _ first _ =>
    rw [unmarked_append]
    exact fun both => first marked both.1

/-- Suffixes, options, blocks, labels, sets, wildcards and actions. -/
def markedCategories : List Category :=
  [.ebnfSuffix, .elementOptions, .block, .ebnf, .labeledElement, .notSet, .wildcard, .actionBlock]

theorem markedCategories_closed :
    ∀ cat ∈ markedCategories, cat.form.marked markedCategories = true := by
  decide

end Marks

section Elements

variable {trees : List Tree}

/-- The token that a form asks for. -/
theorem Fits.leaf_inv {index : Nat} {kind : Kind} (fits : Fits (.token index kind) trees) :
    ∃ token : Token, token.kind = kind ∧ trees = [.leaf token] := by
  cases fits with
  | token => exact ⟨_, rfl, rfl⟩

theorem Fits.terminalDef_inv (fits : Fits Category.terminalDef.form trees) (unmarked : Unmarked trees) :
    ∃ token : Token, token.kind = .tokenRef ∧ trees = [.leaf token] := by
  cases fits with
  | choice alternatives =>
    cases alternatives with
    | left named =>
      cases named with
      | seq first options =>
        rw [unmarked_append] at unmarked
        cases options with
        | absent => simpa using first.leaf_inv
        | present options =>
          exact absurd unmarked.2 (options.not_unmarked markedCategories_closed (by decide))
    | right literal => exact absurd unmarked (literal.not_unmarked markedCategories_closed (by decide))

def IsTokenRef (trees : List Tree) : Prop :=
  ∃ token, token.kind = .tokenRef ∧ Tree.tokensOf trees = [token] ∧ token.text ∈ Tree.tokenAtomsOf trees

def StartsWithRuleRef (trees : List Tree) : Prop :=
  ∃ token later, token.kind = .ruleRef ∧ Tree.tokensOf trees = token :: later

theorem IsTokenRef.phrase (isTokenRef : IsTokenRef trees) (cat : Category) (start : Token)
    (stop : Option Token) : IsTokenRef [.phrase cat start stop trees] := by
  obtain ⟨token, kind, tokens, atom⟩ := isTokenRef
  refine ⟨token, kind, by simpa [Tree.tokensOf, Tree.tokens] using tokens, ?_⟩
  simp [Tree.tokenAtomsOf, Tree.tokenAtoms, atom]

theorem StartsWithRuleRef.phrase (starts : StartsWithRuleRef trees) (cat : Category) (start : Token)
    (stop : Option Token) : StartsWithRuleRef [.phrase cat start stop trees] := by
  obtain ⟨token, later, kind, tokens⟩ := starts
  exact ⟨token, later, kind, by simpa [Tree.tokensOf, Tree.tokens] using tokens⟩

/-- Apart from its marks, an atom is a reference to a token or one to a rule. -/
theorem Fits.atom_inv (fits : Fits Category.atom.form trees) (unmarked : Unmarked trees) :
    ∃ inner, trees = [inner] ∧ (inner.IsDerivation .terminalDef ∨ inner.IsDerivation .ruleRef) := by
  cases fits with
  | choice alternatives =>
    cases alternatives with
    | left called =>
      obtain ⟨inner, rfl, terminal⟩ := called.call_inv
      exact ⟨inner, rfl, .inl terminal⟩
    | right others =>
      cases others with
      | left called =>
        obtain ⟨inner, rfl, reference⟩ := called.call_inv
        exact ⟨inner, rfl, .inr reference⟩
      | right others =>
        exact absurd unmarked (others.not_unmarked markedCategories_closed (by decide))

/-- Apart from its marks, an element is an atom. -/
theorem Fits.element_inv (fits : Fits Category.element.form trees) (unmarked : Unmarked trees) :
    ∃ inner, trees = [inner] ∧ inner.IsDerivation .atom := by
  have marked {form : Form} (inside : Fits form trees) (isMarked : form.marked markedCategories = true) :
      ∃ inner, trees = [inner] ∧ inner.IsDerivation .atom :=
    absurd unmarked (inside.not_unmarked markedCategories_closed isMarked)
  cases fits with
  | choice alternatives =>
    cases alternatives with
    | left labeled => exact marked labeled (by decide)
    | right others =>
      cases others with
      | right others => exact marked others (by decide)
      | left bare =>
        obtain ⟨us, vs, rfl, called, suffix⟩ := bare.seq_inv
        rw [unmarked_append] at unmarked
        cases suffix with
        | choice suffix =>
          cases suffix with
          | left suffix => exact absurd unmarked.2 (suffix.not_unmarked markedCategories_closed (by decide))
          | right nothing =>
            cases nothing
            rw [append_nil]
            exact called.call_inv

/-- Apart from its marks, an element is a reference to a token or begins with one to a rule. -/
theorem Fits.element_reference (fits : Fits Category.element.form trees) (unmarked : Unmarked trees) :
    IsTokenRef trees ∨ StartsWithRuleRef trees := by
  obtain ⟨_, rfl, start, stop, children, rfl, inAtom⟩ := fits.element_inv unmarked
  rw [unmarked_phrase] at unmarked
  obtain ⟨_, rfl, terminal | reference⟩ := inAtom.atom_inv unmarked
  · obtain ⟨start, stop, children, rfl, inside⟩ := terminal
    obtain ⟨token, kind, rfl⟩ := inside.terminalDef_inv (unmarked_phrase.mp unmarked)
    have isTokenRef : IsTokenRef [.phrase .terminalDef start stop [.leaf token]] := by
      refine ⟨token, kind, rfl, ?_⟩
      simp [Tree.tokenAtomsOf, Tree.tokenAtoms, Tree.token?, kind]
    exact .inl (isTokenRef.phrase ..)
  · obtain ⟨start, stop, children, rfl, inside⟩ := reference
    obtain ⟨us, vs, rfl, first, -⟩ := inside.seq_inv
    obtain ⟨token, kind, rfl⟩ := first.leaf_inv
    have starts : StartsWithRuleRef [.phrase .ruleRef start stop ([.leaf token] ++ vs)] :=
      ⟨token, Tree.tokensOf vs, kind, by simp [Tree.tokensOf, Tree.tokens]⟩
    exact .inr (starts.phrase ..)

end Elements

section Texts

theorem mark_not_letter {kind : Kind} {c : Char} (isMark : c ∈ kind.mark?) :
    Text.isLetterOrNumber c = false := by
  unfold Kind.mark? at isMark
  split at isMark <;> cases isMark <;> decide +kernel

variable {tree : Tree}

/-- An element of letters and numbers has no marks. -/
theorem Tree.unmarked_of_letters (marked : ∀ token ∈ tree.tokens, Marked token.kind token.text.toList)
    (letters : Text.allLettersOrNumbers tree.text.toList = true) :
    ∀ token ∈ tree.tokens, token.kind.mark? = none := by
  intro token mem
  refine Option.eq_none_iff_forall_ne_some.mpr fun c isMark => ?_
  have inside : c ∈ tree.text.toList := by
    rw [Tree.text_toList]
    exact mem_flatMap.mpr ⟨token, mem, mem_of_head? ((marked token mem).mark c isMark)⟩
  rw [Text.allLettersOrNumbers, Bool.and_eq_true, all_eq_true] at letters
  exact absurd (letters.2 c inside) (by simp [mark_not_letter isMark])

variable {name : String}

theorem Tree.bareToken?_eq_some : tree.bareToken? = some name ↔
    ∃ token, tree.tokens = [token] ∧ token.kind = .tokenRef ∧ token.text = name := by
  unfold bareToken?
  split
  · rename_i token single
    rw [single]
    by_cases kind : token.kind = .tokenRef <;> simp [kind]
  · rename_i several
    constructor
    · exact nofun
    · rintro ⟨token, single, -⟩
      exact absurd single (several token)

theorem nameKind_eq_tokenRef {text : List Char} :
    Lexical.Scanner.nameKind text = .tokenRef ↔ text.head?.any Text.isUpper = true := by
  unfold Lexical.Scanner.nameKind
  split <;> simp_all

/-- The elements whose texts are taken for uses of tokens are the bare ones with plain names. -/
theorem Tree.IsDerivation.element_use (derivation : tree.IsDerivation .element)
    (marked : ∀ token ∈ tree.tokens, Marked token.kind token.text.toList) :
    tree.text = name ∧ tree.text.toList.head?.any Text.isUpper = true ∧
      Text.allLettersOrNumbers tree.text.toList = true ↔
    tree.bareToken? = some name ∧ Text.allLettersOrNumbers name.toList = true := by
  rw [Tree.bareToken?_eq_some]
  constructor
  · rintro ⟨rfl, upper, letters⟩
    refine ⟨?_, letters⟩
    have unmarked := Tree.unmarked_of_letters marked letters
    rw [Tree.text_toList] at upper
    obtain ⟨start, stop, children, rfl, fits⟩ := derivation
    rcases fits.element_reference unmarked with ⟨token, kind, tokens, -⟩ | ⟨token, later, kind, tokens⟩
    · exact ⟨token, tokens, kind, by simp [Tree.text, Tree.tokens, tokens]⟩
    · obtain ⟨some_, named⟩ := (marked token (by simp [Tree.tokens, tokens])).name (by simp [Kind.isName, kind])
      rw [Tree.tokens, tokens, flatMap_cons, head?_append_of_ne_nil _ some_] at upper
      rw [nameKind_eq_tokenRef.mpr upper, kind] at named
      cases named
  · rintro ⟨⟨token, tokens, kind, rfl⟩, letters⟩
    have text : tree.text = token.text := by simp [Tree.text, tokens]
    have isName := (marked token (by simp [tokens])).name (by simp [Kind.isName, kind])
    rw [text]
    exact ⟨rfl, nameKind_eq_tokenRef.mp (isName.2.trans kind), letters⟩

/-- A bare token is one of the atoms of its element. -/
theorem Tree.IsDerivation.bareToken?_mem (derivation : tree.IsDerivation .element)
    (bare : tree.bareToken? = some name) : name ∈ tree.tokenAtoms := by
  obtain ⟨token, tokens, kind, rfl⟩ := Tree.bareToken?_eq_some.mp bare
  obtain ⟨start, stop, children, rfl, fits⟩ := derivation
  have unmarked : Unmarked children := by
    intro other mem
    rw [show Tree.tokensOf children = [token] from tokens, mem_singleton] at mem
    rw [mem, kind]
    rfl
  rcases fits.element_reference unmarked with ⟨other, -, same, atom⟩ | ⟨other, later, isRule, same⟩
  · cases tokens.symm.trans same
    simp [Tree.tokenAtoms, atom]
  · cases tokens.symm.trans same
    rw [kind] at isRule
    cases isRule

end Texts

section Rules

variable {mode : Option String} {form : Form} {trees : List Tree} {tree : Tree}

def modeCategories : List Category := .lexerRuleSpec :: innerCategories

theorem modeCategories_closed :
    ∀ cat ∈ modeCategories, cat.form.uses (fun _ => true) modeCategories = true := by
  decide

/-- There are no parser rules in a mode section. -/
theorem Fits.ruleSpecs_mode (fits : Fits form trees)
    (own : form.uses (fun _ => true) modeCategories = true) :
    ∀ spec ∈ trees.flatMap (Tree.ruleSpecs mode), spec.2.category? ≠ some .parserRuleSpec := by
  intro spec mem
  obtain ⟨tree, isTree, inTree⟩ := mem_flatMap.mp mem
  refine Fits.forall_of_uses (fun tree => ∀ mode, ∀ spec ∈ tree.ruleSpecs mode,
    spec.2.category? ≠ some .parserRuleSpec) modeCategories_closed (fun _ _ => nofun)
    (fun cat inside start stop children parts mode => ?_) fits own tree isTree mode spec inTree
  rw [Tree.ruleSpecs, Tree.ruleSpecsOf_eq_flatMap]
  refine forall_mem_append.mpr ⟨fun spec here same => ?_, fun spec below => ?_⟩
  · rw [mem_singleton.mp (mem_ite_nil_right.mp here).2] at same
    cases same
    revert inside
    decide
  · obtain ⟨child, isChild, inChild⟩ := mem_flatMap.mp below
    exact parts child isChild _ spec inChild

/-- The parser rules of a phrase stand in its own mode, and each rule is derived. -/
theorem Fits.ruleSpecs_derived (fits : Fits form trees) :
    ∀ spec ∈ trees.flatMap (Tree.ruleSpecs mode), ∃ cat, spec.2.IsDerivation cat ∧
      (cat = .parserRuleSpec → spec.1 = mode) := by
  induction fits generalizing mode with
  | empty | token | oneOf | absent | stop => simp [Tree.ruleSpecs]
  | @call children _ start stop cat inside ih =>
    rw [flatMap_singleton, Tree.ruleSpecs, Tree.ruleSpecsOf_eq_flatMap]
    refine forall_mem_append.mpr ⟨?_, fun spec mem => ?_⟩
    · split
      · rintro spec here
        rw [mem_singleton.mp here]
        exact ⟨cat, ⟨_, _, _, rfl, inside⟩, fun _ => rfl⟩
      · simp
    · obtain ⟨other, derived, same⟩ := ih spec mem
      refine ⟨other, derived, ?_⟩
      rintro rfl
      by_cases isMode : cat = .modeSpec
      · subst isMode
        obtain ⟨_, _, _, named, -⟩ := derived
        exact absurd (congrArg Tree.category? named) (inside.ruleSpecs_mode (by decide) spec mem)
      · rw [same rfl, Tree.modeWithin_eq_self isMode]
  | seq _ _ first second | plus _ _ first second | round _ _ first second =>
    rw [flatMap_append]
    exact forall_mem_append.mpr ⟨first, second⟩
  | left _ ih | right _ ih | choice _ ih | present _ ih | star _ ih => exact ih

end Rules

end Phrase

variable {tree : Tree}

/-- The alternatives of a parser rule are those outside all blocks. -/
theorem Rule.alternatives_ofParserTree (derivation : tree.IsDerivation .parserRuleSpec) :
    (ofParserTree tree).alternatives.map (·.elements) =
      (tree.descend Tree.alternativePath).map fun body => (body.phrases .element).map Element.ofTree := by
  obtain ⟨block, blocks, block?⟩ := @Tree.IsDerivation.phrases_eq .ruleBlock _ _ derivation (by decide)
  have isBlock := derivation.of_mem_phrases (blocks ▸ mem_singleton_self block)
  obtain ⟨list, lists, list?⟩ := @Tree.IsDerivation.phrases_eq .ruleAltList _ _ isBlock (by decide)
  have isList := isBlock.of_mem_phrases (lists ▸ mem_singleton_self list)
  have bodies : ∀ alt ∈ list.phrases .labeledAlt,
      ∃ body, alt.phrases .alternative = [body] ∧ alt.phrase? .alternative = some body := fun alt member =>
    @Tree.IsDerivation.phrases_eq .alternative _ _ (isList.of_mem_phrases member) (by decide)
  simp only [ofParserTree, parserAlternatives, block?, Option.bind_some, list?, map_map, Tree.alternativePath,
    Tree.descend, blocks, lists, flatMap_singleton, map_flatMap]
  rw [map_eq_flatMap]
  refine flatMap_congr fun alt member => ?_
  obtain ⟨body, phrases, phrase?⟩ := bodies alt member
  simp [phrases, phrase?]

/-- The elements of a parser rule are those outside all blocks. -/
theorem Rule.elements_ofParserTree (derivation : tree.IsDerivation .parserRuleSpec) :
    (ofParserTree tree).elements = (tree.descend Tree.elementPath).map Element.ofTree := by
  have path : Tree.elementPath = Tree.alternativePath ++ [.element] := rfl
  rw [elements, flatMap_def, alternatives_ofParserTree derivation, path, Tree.descend_append, map_flatMap,
    ← flatMap_def]
  simp [Tree.descend]

namespace Grammar

variable {file : String} {tree : Tree}

theorem ruleSpecs_derived (derivation : tree.IsDerivation .grammarSpec) :
    ∀ spec ∈ tree.ruleSpecs none, ∃ cat, spec.2.IsDerivation cat ∧
      (cat = .parserRuleSpec → spec.1 = none) := by
  obtain ⟨start, stop, children, rfl, fits⟩ := derivation
  have whole := @Fits.ruleSpecs_derived none _ _ (@Fits.call _ 0 start stop _ fits)
  rwa [flatMap_singleton] at whole

variable {spec : Tree} {bare? : Tree → Option String} {name : String}

theorem mem_parserSpecs (derivation : tree.IsDerivation .grammarSpec) :
    spec ∈ tree.parserSpecs ↔ (none, spec) ∈ tree.ruleSpecs none ∧ spec.IsDerivation .parserRuleSpec := by
  simp only [Tree.parserSpecs, mem_filter, mem_map, beq_iff_eq]
  constructor
  · rintro ⟨⟨⟨mode, _⟩, mem, rfl⟩, same⟩
    obtain ⟨cat, derived, outside⟩ := ruleSpecs_derived derivation _ mem
    obtain ⟨start, stop, children, rfl, fits⟩ := derived
    cases same
    cases outside rfl
    exact ⟨mem, _, _, _, rfl, fits⟩
  · rintro ⟨mem, start, stop, children, rfl, -⟩
    exact ⟨⟨_, mem, rfl⟩, rfl⟩

/-- The parser rules of a grammar are read from those of the file. -/
theorem parserRules_ofTree (derivation : tree.IsDerivation .grammarSpec) :
    (ofTree file tree).parserRules = tree.parserSpecs.map Rule.ofParserTree := by
  have kept : ∀ spec ∈ tree.ruleSpecs none, (!(Rule.ofSpec spec).isLexer && spec.1.isNone) =
      (spec.2.category? == some .parserRuleSpec) := by
    intro spec mem
    obtain ⟨cat, ⟨start, stop, children, same, -⟩, outside⟩ := ruleSpecs_derived derivation spec mem
    by_cases parserRule : cat = .parserRuleSpec
    · simp [Rule.ofSpec, same, Tree.category?, parserRule, outside parserRule, Rule.ofParserTree]
    · simp [Rule.ofSpec, same, Tree.category?, parserRule, Rule.ofLexerTree]
  have read : ∀ spec ∈ (tree.ruleSpecs none).filter (·.2.category? == some .parserRuleSpec),
      Rule.ofSpec spec = Rule.ofParserTree spec.2 := by
    intro spec mem
    obtain ⟨inTree, parserRule⟩ := mem_filter.mp mem
    have parserRule := beq_iff_eq.mp parserRule
    obtain ⟨cat, ⟨start, stop, children, same, -⟩, outside⟩ := ruleSpecs_derived derivation spec inTree
    have isParser : cat = .parserRuleSpec := by simpa [same, Tree.category?] using parserRule
    simp [Rule.ofSpec, parserRule, outside isParser, Rule.ofParserTree]
  calc (ofTree file tree).parserRules
      = ((tree.ruleSpecs none).filter fun spec => !(Rule.ofSpec spec).isLexer && spec.1.isNone).map Rule.ofSpec := by
        rw [parserRules, derivation.grammarSpec, filter_map, filter_filter]
        rfl
    _ = ((tree.ruleSpecs none).filter (·.2.category? == some .parserRuleSpec)).map Rule.ofSpec := by
        rw [filter_congr kept]
    _ = ((tree.ruleSpecs none).filter (·.2.category? == some .parserRuleSpec)).map (Rule.ofParserTree ·.2) :=
        map_congr_left read
    _ = tree.parserSpecs.map Rule.ofParserTree := by
        rw [Tree.parserSpecs, filter_map, map_map]
        rfl

variable (derivation : tree.IsDerivation .grammarSpec)

include derivation

/-- The elements of all parser rules of a file. -/
theorem mem_parserElements {element : Element} :
    element ∈ (ofTree file tree).parserRules.flatMap Rule.elements ↔
      ∃ spec ∈ tree.parserSpecs, ∃ inner ∈ spec.descend Tree.elementPath, Element.ofTree inner = element := by
  rw [parserRules_ofTree derivation, flatMap_map, mem_flatMap]
  refine exists_congr fun spec => and_congr_right fun isSpec => ?_
  rw [Rule.elements_ofParserTree ((mem_parserSpecs derivation).mp isSpec).2, mem_map]

/-- What is reached in a parser rule as an element is derived as one, from tokens of the file. -/
theorem element_derived {inner : Tree}
    (isSpec : spec ∈ tree.parserSpecs) (member : inner ∈ spec.descend Tree.elementPath) :
    inner.IsDerivation .element ∧ inner.tokens ⊆ tree.tokens := by
  obtain ⟨inTree, parserRule⟩ := (mem_parserSpecs derivation).mp isSpec
  refine ⟨Tree.IsDerivation.of_mem_descend .element
    [.ruleBlock, .ruleAltList, .labeledAlt, .alternative] parserRule member, ?_⟩
  exact List.Subset.trans (Tree.descend_subset (fun _ _ => Tree.tokens_subset_of_mem) member)
    (Tree.ruleSpecs_tokens tree inTree)

/-- The texts of the elements that a check looks at, given what it looks at in a single element. -/
theorem mem_texts_filter {looksAt : Element → Bool}
    {plain : Bool}
    (each : ∀ inner : Tree, inner.IsDerivation .element → inner.tokens ⊆ tree.tokens →
      (inner.text = name ∧ looksAt (Element.ofTree inner) = true ↔ bare? inner = some name ∧ plain = true)) :
    name ∈ (((ofTree file tree).parserRules.flatMap Rule.elements).filter looksAt).map (·.text) ↔
      name ∈ tree.parserSpecs.flatMap (fun spec => (spec.descend Tree.elementPath).filterMap bare?) ∧
        plain = true := by
  have inElement {spec inner : Tree} (isSpec : spec ∈ tree.parserSpecs)
      (mem : inner ∈ spec.descend Tree.elementPath) :
      inner.text = name ∧ looksAt (Element.ofTree inner) = true ↔ bare? inner = some name ∧ plain = true :=
    each inner (element_derived derivation isSpec mem).1 (element_derived derivation isSpec mem).2
  simp only [mem_map, mem_filter, mem_parserElements derivation, mem_flatMap, mem_filterMap]
  constructor
  · rintro ⟨_, ⟨⟨spec, isSpec, inner, mem, rfl⟩, seen⟩, rfl⟩
    obtain ⟨bare, plain⟩ := (inElement isSpec mem).mp ⟨rfl, seen⟩
    exact ⟨⟨spec, isSpec, inner, mem, bare⟩, plain⟩
  · rintro ⟨⟨spec, isSpec, inner, mem, bare⟩, plain⟩
    obtain ⟨same, seen⟩ := (inElement isSpec mem).mpr ⟨bare, plain⟩
    exact ⟨.ofTree inner, ⟨⟨spec, isSpec, inner, mem, rfl⟩, seen⟩, same⟩

/-- What is picked from elements is in the bodies of the rules, if it is in the elements. -/
theorem picked_subset {names : Tree → List String}
    (step : ∀ tree child, child ∈ tree.children → names child ⊆ names tree)
    (each : ∀ inner : Tree, inner.IsDerivation .element → ∀ name ∈ bare? inner, name ∈ names inner) :
    tree.parserSpecs.flatMap (fun spec => (spec.descend Tree.elementPath).filterMap bare?) ⊆
      tree.parserSpecs.flatMap fun spec => (spec.phrases .ruleBlock).flatMap names := by
  intro name mem
  obtain ⟨spec, isSpec, inside⟩ := mem_flatMap.mp mem
  obtain ⟨inner, reached, bare⟩ := mem_filterMap.mp inside
  have isElement := (element_derived derivation isSpec reached).1
  obtain ⟨block, isBlock, below⟩ := mem_flatMap.mp reached
  refine mem_flatMap.mpr ⟨spec, isSpec, mem_flatMap.mpr ⟨block, isBlock, ?_⟩⟩
  exact Tree.descend_subset step below (each inner isElement name bare)

/-- The uses of tokens that are seen are the bare ones with plain names. -/
theorem mem_usedTokens
    (marked : ∀ token ∈ tree.tokens, Marked token.kind token.text.toList) :
    name ∈ Check.usedTokens (ofTree file tree) ↔
      name ∈ tree.bareUses ∧ Text.allLettersOrNumbers name.toList = true := by
  refine mem_texts_filter derivation fun inner isElement tokens => ?_
  rw [Bool.and_eq_true]
  exact isElement.element_use fun token inside => marked token (tokens inside)

theorem bareUses_subset : tree.bareUses ⊆ tree.tokenUses :=
  picked_subset derivation (fun _ _ => Tree.tokenAtoms_subset_of_mem) fun _ isElement _ => isElement.bareToken?_mem

end Grammar

namespace Check

def unusedMessage (name : String) : String :=
  s!"Token '{name}' is defined but never used in parser rules"

theorem unusedMessage_injective : Function.Injective unusedMessage := by
  intro name other same
  have chars := congrArg String.toList same
  simp only [unusedMessage, String.toList_append] at chars
  exact String.toList_injective (append_cancel_left (append_cancel_right chars))

theorem unusedToken_run {g : Grammar} (config : RuleConfig) (notLexer : g.kind ≠ .lexer) :
    ∃ issues, unusedToken.run g config = .ok issues ∧
      ∀ name, (∃ issue ∈ issues, issue.message = unusedMessage name) ↔
        (∃ rule ∈ g.tokenRules, rule.name = name) ∧ name ∉ specialTokens ∧ name ∉ usedTokens g := by
  refine ⟨_, if_neg (by simpa using notLexer), fun name => ?_⟩
  simp only [mem_map, mem_filter, Bool.and_eq_true, Bool.not_eq_true', contains_eq_mem,
    decide_eq_false_iff_not]
  constructor
  · rintro ⟨_, ⟨rule, ⟨isToken, unused, plain⟩, rfl⟩, same⟩
    obtain rfl := unusedMessage_injective same
    exact ⟨⟨rule, isToken, rfl⟩, plain, unused⟩
  · rintro ⟨⟨rule, isToken, rfl⟩, plain, unused⟩
    exact ⟨_, ⟨rule, ⟨isToken, unused, plain⟩, rfl⟩, rfl⟩

theorem tokens_marked {text : List Char} {children : List Tree} (leaves : Tree.tokensOf children =
    mainTokens text ++ [.endOfFile (Lexical.scan text).finish]) :
    ∀ token ∈ Tree.tokensOf children, Marked token.kind token.text.toList := by
  rw [leaves]
  refine forall_mem_append.mpr ⟨fun token mem => ?_, ?_⟩
  · exact Lexical.scan_marked text token (mem_filter.mp mem).1
  · simpa using Marked.of_isPlain rfl _

/-- In a file without syntax errors, a token is reported as unused unless it stands in a parser rule as
an element of its own and has a name of letters and numbers only. All other uses are overlooked. -/
theorem unusedToken_reports_iff (file : String) (text : List Char) (config : RuleConfig)
    (faultless : (parse .grammarSpec text).errors = [])
    (notLexer : (Grammar.ofText file text).kind ≠ .lexer) :
    ∃ issues, unusedToken.run (Grammar.ofText file text) config = .ok issues ∧
      (∀ name, (∃ issue ∈ issues, issue.message = unusedMessage name) ↔
        (∃ rule ∈ (Grammar.ofText file text).tokenRules, rule.name = name) ∧ name ∉ specialTokens ∧
        ¬ (name ∈ (parse .grammarSpec text).tree.bareUses ∧
          Text.allLettersOrNumbers name.toList = true)) ∧
      (parse .grammarSpec text).tree.bareUses ⊆ (parse .grammarSpec text).tree.tokenUses := by
  obtain ⟨children, stop, same, fits, leaves⟩ := parseTokens_unfailed (start_proper text) faultless
  have derivation : (parse .grammarSpec text).tree.IsDerivation .grammarSpec :=
    ⟨_, stop, children, same, fits⟩
  have marked : ∀ token ∈ (parse .grammarSpec text).tree.tokens, Marked token.kind token.text.toList := by
    rw [show (parse .grammarSpec text).tree.tokens = Tree.tokensOf children from congrArg Tree.tokens same]
    exact tokens_marked leaves
  obtain ⟨issues, run, reported⟩ := unusedToken_run config notLexer
  refine ⟨issues, run, fun name => ?_, Grammar.bareUses_subset derivation⟩
  rw [reported, Grammar.ofText, Grammar.mem_usedTokens derivation marked]

def manyUses : List Char :=
  "grammar G;r:A_B C? x=D (E) ~F H;A_B:'a';C:'c';D:'d';E:'e';F:'f';H:'h';".toList

theorem manyUses_faultless : (parse .grammarSpec manyUses).errors = [] ∧
    (Grammar.ofText "G.g4" manyUses).kind ≠ .lexer := by
  decide +kernel

theorem unusedToken_reports_iff_manyUses : (parse .grammarSpec manyUses).errors = [] ∧
    ∃ issues, unusedToken.run (Grammar.ofText "G.g4" manyUses) {} = .ok issues ∧
      ((∃ issue ∈ issues, issue.message = unusedMessage "A_B") ↔
        (∃ rule ∈ (Grammar.ofText "G.g4" manyUses).tokenRules, rule.name = "A_B") ∧ "A_B" ∉ specialTokens ∧
        ¬ ("A_B" ∈ (parse .grammarSpec manyUses).tree.bareUses ∧
          Text.allLettersOrNumbers "A_B".toList = true)) := by
  obtain ⟨issues, run, reported, -⟩ := unusedToken_reports_iff "G.g4" manyUses {} manyUses_faultless.1
    manyUses_faultless.2
  exact ⟨manyUses_faultless.1, issues, run, reported "A_B"⟩

/-- All but the last of these tokens are reported, though the parser rule refers to each of them. -/
theorem used_tokens_reported :
    (parse .grammarSpec manyUses).errors = [] ∧
    (parse .grammarSpec manyUses).tree.tokenUses = ["A_B", "C", "D", "E", "F", "H"] ∧
    ((unusedToken.run (Grammar.ofText "G.g4" manyUses) {}).toOption.map (·.map (·.message))) =
      some (["A_B", "C", "D", "E", "F"].map unusedMessage) := by
  decide +kernel

end Check

end GrammarLint
