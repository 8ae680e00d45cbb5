import GrammarLint.Phrase.First
import GrammarLint.Phrase.Tree
import Mathlib.Data.List.Basic

open List

namespace GrammarLint.Phrase

open Lexical (Kind Token)

/-- The words of token kinds that a form stands for. This is what the notation of the rules means,
whatever way a parser finds. -/
inductive Derives : Form → List Kind → Prop
  | empty : Derives .empty []
  | token : Derives (.token index kind) [kind]
  | oneOf : kind ∈ kinds → Derives (.oneOf index kinds) [kind]
  | call {cat : Category} : Derives cat.form word → Derives (.call index cat) word
  | seq : Derives f u → Derives g v → Derives (.seq f g) (u ++ v)
  | left : Derives f word → Derives (.alt f g) word
  | right : Derives g word → Derives (.alt f g) word
  | choice : Derives f word → Derives (.choice index lookahead f) word
  | absent : Derives (.optional index lookahead f) []
  | present : Derives f word → Derives (.optional index lookahead f) word
  | star : Derives (.rounds back lookahead greedy f) word →
      Derives (.star index back lookahead greedy f) word
  | plus : Derives f u → Derives (.rounds back .one true f) v → Derives (.plus index back f) (u ++ v)
  | stop : Derives (.rounds back lookahead greedy f) []
  | round : Derives f u → Derives (.rounds back lookahead greedy f) v →
      Derives (.rounds back lookahead greedy f) (u ++ v)

/-- The lists of trees that a form stands for: a leaf for each token and a phrase for each call, with
children that the form of its category stands for. An error is part of none. -/
inductive Fits : Form → List Tree → Prop
  | empty : Fits .empty []
  | token {token : Token} : Fits (.token index token.kind) [.leaf token]
  | oneOf {token : Token} : token.kind ∈ kinds → Fits (.oneOf index kinds) [.leaf token]
  | call {cat : Category} : Fits cat.form children → Fits (.call index cat) [.phrase cat start stop children]
  | seq : Fits f us → Fits g vs → Fits (.seq f g) (us ++ vs)
  | left : Fits f trees → Fits (.alt f g) trees
  | right : Fits g trees → Fits (.alt f g) trees
  | choice : Fits f trees → Fits (.choice index lookahead f) trees
  | absent : Fits (.optional index lookahead f) []
  | present : Fits f trees → Fits (.optional index lookahead f) trees
  | star : Fits (.rounds back lookahead greedy f) trees → Fits (.star index back lookahead greedy f) trees
  | plus : Fits f us → Fits (.rounds back .one true f) vs → Fits (.plus index back f) (us ++ vs)
  | stop : Fits (.rounds back lookahead greedy f) []
  | round : Fits f us → Fits (.rounds back lookahead greedy f) vs →
      Fits (.rounds back lookahead greedy f) (us ++ vs)

/-- A tree that derives a phrase of a category by the rules. -/
def Tree.IsDerivation (cat : Category) (tree : Tree) : Prop :=
  ∃ start stop children, tree = .phrase cat start stop children ∧ Fits cat.form children

theorem Tree.tokensOf_append (us vs : List Tree) : tokensOf (us ++ vs) = tokensOf us ++ tokensOf vs := by
  induction us with
  | nil => rfl
  | cons tree rest ih => simp [tokensOf, ih]

variable {form f g : Form} {cat : Category} {rest : List Form} {lookahead : Lookahead} {index back : Nat}
  {greedy : Bool}

/-- The leaves of a list of trees that a form stands for are one of its words. -/
theorem Fits.derives {trees : List Tree} (fits : Fits form trees) :
    Derives form ((Tree.tokensOf trees).map (·.kind)) := by
  induction fits with
  | empty => exact .empty
  | token => exact .token
  | oneOf mem => exact .oneOf mem
  | call _ ih => exact .call (by simpa [Tree.tokensOf, Tree.tokens] using ih)
  | seq _ _ first second => simpa [Tree.tokensOf_append] using .seq first second
  | left _ ih => exact .left ih
  | right _ ih => exact .right ih
  | choice _ ih => exact .choice ih
  | absent => exact .absent
  | present _ ih => exact .present ih
  | star _ ih => exact .star ih
  | plus _ _ first later => simpa [Tree.tokensOf_append] using .plus first later
  | stop => exact .stop
  | round _ _ first later => simpa [Tree.tokensOf_append] using .round first later

/-- The tokens and calls of a list of forms that follow each other up to the end of a phrase. -/
@[simp] def placesOf : List Form → List (Nat × Option Category × List Form)
  | [] => []
  | form :: rest => form.places rest ++ placesOf rest

/-- The forms end a phrase of the category just as they stand in its form. -/
def Located (cat : Category) (forms : List Form) : Prop :=
  placesOf forms ⊆ cat.form.places []

/-- What follows the token or call at a place, up to the end of the phrase. -/
def Point.following (point : Point) : List Form :=
  (((point.category.form.places []).find? (·.1 == point.index)).map (·.2.2)).getD []

theorem located_form (cat : Category) : Located cat [cat.form] := by
  simp [Located]

theorem located_nil (cat : Category) : Located cat [] := by
  simp [Located]

theorem Located.tail (located : Located cat (form :: rest)) : Located cat rest :=
  fun _ mem => located (mem_append_right _ mem)

theorem Located.of_append {forms : List Form} (located : Located cat (forms ++ rest)) :
    Located cat rest := by
  induction forms with
  | nil => exact located
  | cons form forms ih => exact ih (.tail located)

theorem Located.seq (located : Located cat (.seq f g :: rest)) :
    Located cat (f :: g :: rest) := by
  simpa [Located] using located

theorem Located.left (located : Located cat (.alt f g :: rest)) :
    Located cat (f :: rest) := by
  intro place mem
  refine located ?_
  simp only [placesOf, Form.places, mem_append] at mem ⊢
  tauto

theorem Located.right (located : Located cat (.alt f g :: rest)) : Located cat (g :: rest) := by
  intro place mem
  refine located ?_
  simp only [placesOf, Form.places, mem_append] at mem ⊢
  tauto

theorem Located.choice (located : Located cat (.choice index lookahead f :: rest)) :
    Located cat (f :: rest) :=
  located

theorem Located.alternative {alternatives : Form}
    (located : Located cat (alternatives :: rest)) (mem : f ∈ alternatives.alternatives) :
    Located cat (f :: rest) := by
  induction alternatives with
  | alt g h first second =>
    simp only [Form.alternatives, mem_append] at mem
    exact mem.elim (first located.left) (second located.right)
  | _ =>
    simp only [Form.alternatives, mem_singleton] at mem
    exact mem ▸ located

theorem Located.optional
    (located : Located cat (.optional index lookahead f :: rest)) :
    Located cat (f :: rest) :=
  located

theorem Located.star
    (located : Located cat (.star index back lookahead greedy f :: rest)) :
    Located cat (.rounds back lookahead greedy f :: rest) :=
  located

theorem Located.rounds
    (located : Located cat (.rounds back lookahead greedy f :: rest)) :
    Located cat (f :: .rounds back lookahead greedy f :: rest) := by
  intro place mem
  refine located ?_
  simp only [placesOf, Form.places, mem_append] at mem ⊢
  tauto

theorem Located.plus
    (located : Located cat (.plus index back f :: rest)) :
    Located cat (f :: .rounds back .one true f :: rest) :=
  have rounds : Located cat (.rounds back .one true f :: rest) := located
  rounds.rounds

/-- What follows a place is itself located. -/
theorem placesOf_subset_of_mem_places {place : Nat × Option Category × List Form}
    (mem : place ∈ form.places rest) : placesOf place.2.2 ⊆ form.places rest ++ placesOf rest := by
  induction form generalizing rest with
  | empty => simp at mem
  | token _ _ | oneOf _ _ | call _ _ =>
    simp only [Form.places, mem_singleton] at mem
    subst mem
    exact subset_append_right _ _
  | seq f g first second =>
    simp only [Form.places, mem_append] at mem
    rcases mem with inFirst | inSecond
    · intro other later
      have := first inFirst later
      simpa only [placesOf, Form.places, mem_append, or_assoc] using this
    · intro other later
      have := second inSecond later
      simp only [Form.places, mem_append] at this ⊢
      tauto
  | alt f g first second =>
    simp only [Form.places, mem_append] at mem
    rcases mem with inFirst | inSecond
    · intro other later
      have := first inFirst later
      simp only [Form.places, mem_append] at this ⊢
      tauto
    · intro other later
      have := second inSecond later
      simp only [Form.places, mem_append] at this ⊢
      tauto
  | choice _ _ f ih | optional _ _ f ih => exact ih mem
  | star _ back lookahead greedy f ih | rounds back lookahead greedy f ih =>
    intro other later
    have := ih mem later
    simp only [placesOf, Form.places, mem_append] at this ⊢
    tauto
  | plus _ back f ih =>
    intro other later
    have := ih mem later
    simp only [placesOf, Form.places, mem_append] at this ⊢
    tauto

theorem Point.following_located (point : Point) : Located point.category point.following := by
  unfold Point.following
  cases found : (point.category.form.places []).find? (·.1 == point.index) with
  | none => exact located_nil _
  | some place =>
    have subset := placesOf_subset_of_mem_places (mem_of_find?_eq_some found)
    simpa [Located] using subset

end GrammarLint.Phrase
