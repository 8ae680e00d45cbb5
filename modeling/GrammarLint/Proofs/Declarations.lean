import GrammarLint.Proofs.Depth
import GrammarLint.Proofs.Relocation

open List

namespace GrammarLint

open Lexical (Kind Token Position)

namespace Phrase

def typeWords : List (List Kind) :=
  [[.lexerKeyword, .grammarKeyword], [.parserKeyword, .grammarKeyword], [.grammarKeyword]]

def nameKinds : List Kind := [.tokenRef, .ruleRef]

/-- The phrase of a declaration: `type` is what is found for the kind of grammar, with its last token,
and `dropped` what is in front of the semicolon without belonging there. -/
def declaration (first : Token) (last : Option Token) (type : List Tree) (name : Token)
    (dropped : List Token) (semicolon : Token) : Tree :=
  .phrase .grammarDecl first (some semicolon)
    (.phrase .grammarType first last type :: .phrase .identifier name (some name) [.leaf name] ::
      (dropped.map .error ++ [.leaf semicolon]))

/-- The progress behind a semicolon. -/
def Progress.behind (semicolon : Token) (later : List Token) (finish : Token) (taken : Nat)
    (errors : List Position) : Progress :=
  ⟨later, finish, some semicolon, taken, errors, false, none⟩

/-- From the tokens of a file the parser takes the phrase of a declaration first, and gets to `p`. -/
def Declares (tokens : List Token) (finish : Token) (decl : Tree) (p : Progress) : Prop :=
  ∀ (rest : List Form) (fuel : Nat), parseForm .grammarSpec rest [] (.start tokens finish) (fuel + 9)
    (.call 0 .grammarDecl) = .ok [decl] p

/-- By the rules a declaration is the kind of grammar, a name and a semicolon. -/
theorem derives_grammarDecl {word : List Kind} (derives : Derives Category.grammarDecl.form word) :
    ∃ type ∈ typeWords, ∃ name ∈ nameKinds, word = type ++ [name, .semicolon] := by
  obtain ⟨type, ending, typed, ended, rfl⟩ : ∃ type ending, Derives Category.grammarType.form type ∧
      Derives (.seq (.call 1 .identifier) (.token 2 .semicolon)) ending ∧ word = type ++ ending := by
    cases derives with
    | seq first second =>
      cases first with
      | call first => exact ⟨_, _, first, second, rfl⟩
  refine ⟨type, ?_, ?_⟩
  · cases typed with
    | choice alternatives =>
      cases alternatives with
      | left lexer =>
        cases lexer with
        | seq first second => cases first; cases second; decide
      | right others =>
        cases others with
        | left parser =>
          cases parser with
          | seq first second => cases first; cases second; decide
        | right grammar => cases grammar; decide
  · cases ended with
    | seq first second =>
      cases first with
      | call named =>
        cases named with
        | oneOf mem =>
          cases second
          exact ⟨_, mem_reverse.mp mem, by simp⟩

section Declarations

variable {words later : List Token} {mark name semicolon finish : Token}

theorem typeWords_cases (kinds : words.map (·.kind) ∈ typeWords) :
    (∃ first second, words = [first, second] ∧ first.kind ∈ [Kind.lexerKeyword, .parserKeyword] ∧
      second.kind = .grammarKeyword) ∨ ∃ only, words = [only] ∧ only.kind = .grammarKeyword := by
  rcases words with _ | ⟨first, _ | ⟨second, _ | ⟨third, rest⟩⟩⟩
  · simp [typeWords] at kinds
  · exact .inr ⟨first, rfl, by simpa [typeWords] using kinds⟩
  · refine .inl ⟨first, second, rfl, ?_⟩
    simp [typeWords] at kinds ⊢
    tauto
  · simp [typeWords] at kinds

variable (words finish) in
/-- The kind of grammar. A name in front of it is dropped. -/
theorem parse_type (marks : List Token) (few : marks = [] ∨ ∃ mark, marks = [mark] ∧ mark.kind = .ruleRef)
    (kinds : words.map (·.kind) ∈ typeWords) (fuel : Nat) :
    parseForm .grammarType [] [⟨.grammarDecl, 0⟩, ⟨.grammarSpec, 0⟩]
        (.start (marks ++ (words ++ later)) finish) (fuel + 5) Category.grammarType.form =
      .ok (marks.map .error ++ words.map .leaf)
        ⟨later, finish, words.getLast?, words.length + marks.length, marks.map (·.position), false, none⟩ := by
  rcases typeWords_cases kinds with ⟨⟨_, _, _, _⟩, ⟨_, _, _, _⟩, rfl, first, second⟩ | ⟨⟨_, _, _, _⟩, rfl, only⟩
  · cases second
    simp only [mem_cons, not_mem_nil, or_false] at first
    rcases few with rfl | ⟨⟨_, _, _, _⟩, rfl, ⟨⟩⟩ <;> rcases first with rfl | rfl <;> rfl
  · cases only
    rcases few with rfl | ⟨⟨_, _, _, _⟩, rfl, ⟨⟩⟩ <;> rfl

/-- Names are no kind of grammar. -/
theorem parse_type_failing (letter : mark.kind = .ruleRef) (named : name.kind ∈ nameKinds) (fuel : Nat) :
    parseForm .grammarType [] [⟨.grammarDecl, 0⟩, ⟨.grammarSpec, 0⟩]
        (.start (mark :: name :: later) finish) (fuel + 5) Category.grammarType.form =
      .failed ⟨.grammarType, 0⟩ mark [] (.start (mark :: name :: later) finish) := by
  obtain ⟨_, _, _, _⟩ := mark
  obtain ⟨_, _, _, _⟩ := name
  cases letter
  simp only [mem_cons, not_mem_nil, or_false, nameKinds] at named
  rcases named with rfl | rfl <;> rfl

theorem parse_declaration (tokens : List Token) (finish : Token) (rest : List Form) (fuel : Nat) :
    parseForm .grammarSpec rest [] (.start tokens finish) (fuel + 9) (.call 0 .grammarDecl) =
      entered .grammarSpec [] 0 .grammarDecl (.start tokens finish)
        ((entered .grammarDecl [⟨.grammarSpec, 0⟩] 0 .grammarType (.start tokens finish)
          (parseForm .grammarType [] [⟨.grammarDecl, 0⟩, ⟨.grammarSpec, 0⟩] (.start tokens finish)
            (fuel + 6) Category.grammarType.form)).andThen fun p =>
          parseForm .grammarDecl [] [⟨.grammarSpec, 0⟩] p (fuel + 7)
            (.seq (.call 1 .identifier) (.token 2 .semicolon))) := by
  have form : Category.grammarDecl.form =
      .seq (.call 0 .grammarType) (.seq (.call 1 .identifier) (.token 2 .semicolon)) := by decide
  rw [parseForm_succ, step, Step.run, form, parseForm_succ, step, Step.run, parseAll_pair,
    Parsed.ok_nil_andThen]
  rfl

/-- A name and a semicolon end the declaration. -/
theorem declares_of_type {tokens : List Token} {type : List Tree} {last : Option Token} {taken : Nat}
    {errors : List Position} (named : name.kind ∈ nameKinds) (closed : semicolon.kind = .semicolon)
    (typed : ∀ fuel, parseForm .grammarType [] [⟨.grammarDecl, 0⟩, ⟨.grammarSpec, 0⟩]
      (.start tokens finish) (fuel + 5) Category.grammarType.form =
        .ok type ⟨name :: semicolon :: later, finish, last, taken, errors, false, none⟩) :
    Declares tokens finish
      (declaration (Progress.start tokens finish).current last type name [] semicolon)
      (.behind semicolon later finish (taken + 2) errors) := by
  intro rest fuel
  have ending : parseForm .grammarDecl [] [⟨.grammarSpec, 0⟩]
      ⟨name :: semicolon :: later, finish, last, taken, errors, false, none⟩ (fuel + 7)
      (.seq (.call 1 .identifier) (.token 2 .semicolon)) =
      .ok [.phrase .identifier name (some name) [.leaf name], .leaf semicolon]
        (.behind semicolon later finish (taken + 2) errors) := by
    obtain ⟨_, _, _, _⟩ := name
    obtain ⟨_, _, _, _⟩ := semicolon
    cases closed
    simp only [mem_cons, not_mem_nil, or_false, nameKinds] at named
    rcases named with rfl | rfl <;> rfl
  have found : entered .grammarDecl [⟨.grammarSpec, 0⟩] 0 .grammarType (.start tokens finish)
      (.ok type ⟨name :: semicolon :: later, finish, last, taken, errors, false, none⟩) =
      .ok [.phrase .grammarType (Progress.start tokens finish).current last type]
        ⟨name :: semicolon :: later, finish, last, taken, errors, false, none⟩ := entered_of_none rfl
  rw [parse_declaration, typed (fuel + 1), found, Parsed.andThen_of_none rfl, Parsed.ok, ending]
  exact entered_of_none rfl

variable (words later name semicolon finish) in
/-- A declaration as it should be. -/
theorem declares_plain (kinds : words.map (·.kind) ∈ typeWords) (named : name.kind ∈ nameKinds)
    (closed : semicolon.kind = .semicolon) :
    Declares (words ++ name :: semicolon :: later) finish
      (declaration (Progress.start (words ++ name :: semicolon :: later) finish).current words.getLast?
        (words.map .leaf) name [] semicolon)
      (.behind semicolon later finish (words.length + 2) []) :=
  declares_of_type named closed (parse_type words finish [] (.inl rfl) kinds)

variable (words later mark name semicolon finish) in
/-- A name in front of a declaration is dropped. -/
theorem declares_dropping (letter : mark.kind = .ruleRef) (kinds : words.map (·.kind) ∈ typeWords)
    (named : name.kind ∈ nameKinds) (closed : semicolon.kind = .semicolon) :
    Declares (mark :: (words ++ name :: semicolon :: later)) finish
      (declaration mark words.getLast? (.error mark :: words.map .leaf) name [] semicolon)
      (.behind semicolon later finish (words.length + 3) [mark.position]) :=
  declares_of_type named closed (parse_type words finish [mark] (.inr ⟨mark, rfl, letter⟩) kinds)

variable (later mark name semicolon finish) in
/-- A name in place of the kind of grammar is taken for the name of the grammar, and that is dropped. -/
theorem declares_swallowing (letter : mark.kind = .ruleRef) (named : name.kind ∈ nameKinds)
    (closed : semicolon.kind = .semicolon) :
    Declares (mark :: name :: semicolon :: later) finish
      (declaration mark none [] mark [name] semicolon)
      (.behind semicolon later finish 3 [name.position, mark.position]) := by
  intro rest fuel
  rw [parse_declaration, parse_type_failing letter named]
  obtain ⟨_, _, _, _⟩ := mark
  obtain ⟨_, _, _, _⟩ := name
  obtain ⟨_, _, _, _⟩ := semicolon
  cases closed
  cases letter
  simp only [mem_cons, not_mem_nil, or_false, nameKinds] at named
  rcases named with rfl | rfl <;> rfl

end Declarations

/-- What a file holds behind the declaration. -/
def behindDeclaration : Form :=
  .seq (.star 1 2 .one true (.call 3 .prequelConstruct)) (.seq (.call 4 .rules)
    (.seq (.star 5 6 .one true (.call 7 .modeSpec)) (.token 8 .endOfFile)))

section Files

variable {tokens : List Token} {finish : Token} {decl : Tree} {p : Progress}

/-- A file from which a declaration is taken holds what is found behind it besides. -/
theorem parseTokens_declared (declares : Declares tokens finish decl p) (ending : finish.kind = .endOfFile)
    {fuel : Nat} (enough : (tokens.length + 1) * depthPerToken ≤ fuel + 10) {inner : Parsed}
    (parsed : parseForm .grammarSpec [] [] p (fuel + 9) behindDeclaration = inner) :
    (parseTokens .grammarSpec tokens finish).tree =
      .phrase .grammarSpec (Progress.start tokens finish).current (closing [] inner).2.last
        (decl :: (inner.parts ++ (closing [] inner).1)) := by
  have form : Category.grammarSpec.form = .seq (.call 0 .grammarDecl) behindDeclaration := by decide
  have whole : parseForm .grammarSpec [] [] (.start tokens finish) (fuel + 10) Category.grammarSpec.form =
      inner.behind [decl] := by
    rw [form, parseForm_succ, step, Step.run, parseAll_pair, Parsed.ok_nil_andThen, declares,
      ← parsed]
    rfl
  have tree : (parseTokens .grammarSpec tokens finish).tree =
      phraseOf .grammarSpec (.start tokens finish) [] (parseForm .grammarSpec [] []
        (.start tokens finish) ((tokens.length + 1) * depthPerToken) Category.grammarSpec.form) := rfl
  rw [tree, ← parseForm_start_fuel .grammarSpec tokens ending enough, whole]
  rfl

end Files

end Phrase

open Phrase

/-- The declaration tells the kind and the name of a grammar, and nothing about its rules. -/
theorem Grammar.ofTree_declaration (file : String) (start first name semicolon : Token)
    (stop last : Option Token) (type others : List Tree) (dropped : List Token) :
    Grammar.ofTree file (.phrase .grammarSpec start stop
        (declaration first last type name dropped semicolon :: others)) =
      { Grammar.ofTree file (.phrase .grammarSpec start stop others) with
        kind := GrammarKind.ofText (String.join ((Tree.tokensOf type).map (·.text))).toList
        name := name.text } := by
  simp [Grammar.ofTree, Tree.phrase?, Tree.phrases, Tree.children, declaration, Tree.category?,
    Tree.text, Tree.tokens, Tree.tokensOf]

/-- Two files that are alike behind their declarations have the same rules, at other places. -/
theorem Grammar.ofTree_declared (c : Change) (keeps : c.KeepsTexts) (file : String)
    {tokens tokens' : List Token} {finish first first' name name' semicolon semicolon' : Token}
    {last last' : Option Token} {type type' : List Tree} {dropped dropped' : List Token} {p : Progress}
    (declares : Declares tokens finish (declaration first last type name dropped semicolon) p)
    (declares' : Declares tokens' (finish.change c)
      (declaration first' last' type' name' dropped' semicolon') (p.change c))
    (ending : finish.kind = .endOfFile) :
    (Grammar.ofTree file (parseTokens .grammarSpec tokens finish).tree).kind =
        GrammarKind.ofText (String.join ((Tree.tokensOf type).map (·.text))).toList ∧
      (Grammar.ofTree file (parseTokens .grammarSpec tokens finish).tree).name = name.text ∧
      Grammar.ofTree file (parseTokens .grammarSpec tokens' (finish.change c)).tree =
        { (Grammar.ofTree file (parseTokens .grammarSpec tokens finish).tree).relocate
            (Range.relocate c.place) with
          kind := GrammarKind.ofText (String.join ((Tree.tokensOf type').map (·.text))).toList
          name := name'.text } := by
  have enough : ∀ n ≤ tokens.length + tokens'.length, (n + 1) * depthPerToken ≤
      (tokens.length + tokens'.length + 1) * depthPerToken + 10 := by
    intro n small
    exact Nat.le_trans (Nat.mul_le_mul_right _ (Nat.succ_le_succ small)) (Nat.le_add_right ..)
  have tree := parseTokens_declared declares ending (enough _ (Nat.le_add_right ..)) rfl
  have tree' := parseTokens_declared declares' ending (enough _ (Nat.le_add_left ..))
    (parseForm_change c p)
  rw [tree, tree', Grammar.ofTree_declaration, Grammar.ofTree_declaration, closing_change]
  generalize parseForm .grammarSpec [] [] p _ behindDeclaration = inner
  refine ⟨rfl, rfl, ?_⟩
  have rules := Grammar.ofTree_change_rules keeps (.phrase .grammarSpec
    (Progress.start tokens finish).current (closing [] inner).2.last (inner.parts ++ (closing [] inner).1)) file
  simp only [Grammar.relocate, Grammar.mk.injEq, true_and]
  refine ⟨rfl, rfl, ?_⟩
  rw [← rules, Tree.change, Tree.changeAll_eq_map, map_append]
  rfl

end GrammarLint
