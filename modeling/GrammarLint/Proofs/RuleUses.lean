import GrammarLint.Proofs.EntryRules
import GrammarLint.Proofs.TokenUses

open List

namespace GrammarLint

open Phrase
open Lexical (Kind Token Marked)

namespace Phrase.Tree

mutual
/-- The names of the rules that a tree refers to, at any depth. -/
def ruleAtoms : Tree → List String
  | .phrase cat _ _ children =>
    (if cat = .ruleRef then
      children.filterMap fun child => (child.token?.filter (·.kind == .ruleRef)).map (·.text) else []) ++
    ruleAtomsOf children
  | .leaf _ => []
  | .error _ => []

def ruleAtomsOf : List Tree → List String
  | [] => []
  | tree :: rest => tree.ruleAtoms ++ ruleAtomsOf rest
end

def ruleUses (tree : Tree) : List String :=
  tree.parserSpecs.flatMap fun spec => (spec.phrases .ruleBlock).flatMap ruleAtoms

/-- The name of a rule that is all of the phrase. -/
def bareRule? (tree : Tree) : Option String :=
  match tree.tokens with
  | [token] => if token.kind = .ruleRef then some token.text else none
  | _ => none

/-- The names of the rules that are elements of parser rules without anything around them. -/
def bareRuleUses (tree : Tree) : List String :=
  tree.parserSpecs.flatMap fun spec => (spec.descend elementPath).filterMap bareRule?

theorem bareRule?_eq_some {tree : Tree} {name : String} : tree.bareRule? = some name ↔
    ∃ token, tree.tokens = [token] ∧ token.kind = .ruleRef ∧ token.text = name := by
  unfold bareRule?
  split
  · rename_i token single
    rw [single]
    by_cases kind : token.kind = .ruleRef <;> simp [kind]
  · rename_i several
    constructor
    · exact nofun
    · rintro ⟨token, single, -⟩
      exact absurd single (several token)

theorem ruleAtomsOf_eq_flatMap (trees : List Tree) : ruleAtomsOf trees = trees.flatMap ruleAtoms := by
  induction trees with
  | nil => rfl
  | cons tree rest ih => rw [ruleAtomsOf, ih, flatMap_cons]

theorem ruleAtoms_subset_of_mem {tree child : Tree} (mem : child ∈ tree.children) :
    child.ruleAtoms ⊆ tree.ruleAtoms := by
  cases tree with
  | phrase cat start stop children =>
    rw [show ruleAtoms (.phrase cat start stop children) = _ by rw [ruleAtoms], ruleAtomsOf_eq_flatMap]
    exact fun name inside => mem_append_right _ (mem_flatMap.mpr ⟨child, mem, inside⟩)
  | leaf _ | error _ => simp [children] at mem

end Phrase.Tree

namespace Lexical

/-- Argument blocks begin with a bracket. -/
theorem Origin.beginArgument {content text : List Char} {position : Position} {kind : Kind}
    (origin : Origin content position kind text)
    (opening : kind = .beginArgument) : text = ['['] := by
  have others : ∀ rule ∈ Vocabulary.defaultRules, rule.effect.kind? ≠ some .beginArgument := by decide +kernel
  have plain : Kind.beginArgument ∉ [Kind.argumentContent, .endArgument] ∧
    Kind.beginArgument ∉ [Kind.lexerCharSet, .unterminatedCharSet] := by decide
  cases origin with
  | piece found always =>
    obtain ⟨_, _, -, -, found⟩ := found
    obtain ⟨rule, mem, rfl, -⟩ := default_first found
    exact absurd (opening ▸ always) (others rule mem)
  | name =>
    unfold Scanner.nameKind at opening
    split at opening <;> cases opening
  | opening => rfl
  | argument mem => exact absurd (opening ▸ mem) plain.1
  | charSet mem => exact absurd (opening ▸ mem) plain.2

end Lexical

namespace Phrase

section Elements

variable {trees : List Tree} {tree : Tree} {name : String}

def Unopened (trees : List Tree) : Prop := ∀ token ∈ Tree.tokensOf trees, token.kind ≠ .beginArgument

theorem Fits.argActionBlock_not_unopened (fits : Fits Category.argActionBlock.form trees) : ¬Unopened trees := by
  obtain ⟨us, vs, rfl, first, -⟩ := fits.seq_inv
  obtain ⟨token, kind, rfl⟩ := first.leaf_inv
  exact fun unopened => unopened token (by simp [Tree.tokensOf, Tree.tokens]) kind

/-- Apart from its marks and arguments, a reference to a rule is a name. -/
theorem Fits.ruleRef_inv (fits : Fits Category.ruleRef.form trees) (unmarked : Unmarked trees)
    (unopened : Unopened trees) : ∃ token : Token, token.kind = .ruleRef ∧ trees = [.leaf token] := by
  obtain ⟨us, _, rfl, first, rest⟩ := fits.seq_inv
  obtain ⟨vs, ws, rfl, arguments, options⟩ := rest.seq_inv
  obtain ⟨token, kind, rfl⟩ := first.leaf_inv
  simp only [unmarked_append] at unmarked
  cases arguments with
  | present called =>
    obtain ⟨_, rfl, _, _, children, rfl, inside⟩ := called.call_inv
    refine absurd (fun other mem => unopened other ?_) inside.argActionBlock_not_unopened
    simp [Tree.tokensOf, Tree.tokens, mem]
  | absent =>
    cases options with
    | present options => exact absurd unmarked.2.2 (options.not_unmarked markedCategories_closed (by decide))
    | absent => exact ⟨token, kind, rfl⟩

theorem unopened_phrase {cat : Category} {start : Token} {stop : Option Token} :
    Unopened [.phrase cat start stop trees] ↔ Unopened trees := by
  simp [Unopened, Tree.tokensOf, Tree.tokens]

/-- Apart from its marks and arguments, an element is a single name: that of a token, or that of a rule to
which it refers. -/
theorem Fits.element_name (fits : Fits Category.element.form trees) (unmarked : Unmarked trees)
    (unopened : Unopened trees) : ∃ (token : Token) (start : Token) (stop : Option Token) (inner : Tree),
      trees = [.phrase .atom start stop [inner]] ∧ ∃ start stop,
        inner = .phrase .terminalDef start stop [.leaf token] ∧ token.kind = .tokenRef ∨
        inner = .phrase .ruleRef start stop [.leaf token] ∧ token.kind = .ruleRef := by
  obtain ⟨_, rfl, _, _, _, rfl, inAtom⟩ := fits.element_inv unmarked
  rw [unmarked_phrase] at unmarked
  rw [unopened_phrase] at unopened
  obtain ⟨_, rfl, terminal | reference⟩ := inAtom.atom_inv unmarked
  · obtain ⟨_, _, _, rfl, inside⟩ := terminal
    obtain ⟨token, kind, rfl⟩ := inside.terminalDef_inv (unmarked_phrase.mp unmarked)
    exact ⟨token, _, _, _, rfl, _, _, .inl ⟨rfl, kind⟩⟩
  · obtain ⟨_, _, _, rfl, inside⟩ := reference
    obtain ⟨token, kind, rfl⟩ := inside.ruleRef_inv (unmarked_phrase.mp unmarked) (unopened_phrase.mp unopened)
    exact ⟨token, _, _, _, rfl, _, _, .inr ⟨rfl, kind⟩⟩

/-- An element whose only token is the name of a rule is a reference with nothing around it. -/
theorem Fits.element_ruleName {token : Token} (fits : Fits Category.element.form trees)
    (tokens : Tree.tokensOf trees = [token]) (kind : token.kind = .ruleRef) :
    ∃ start stop start' stop', trees =
      [.phrase .atom start stop [.phrase .ruleRef start' stop' [.leaf token]]] := by
  have unmarked : Unmarked trees := by simp [Unmarked, tokens, kind, Kind.mark?]
  have unopened : Unopened trees := by simp [Unopened, tokens, kind]
  obtain ⟨other, _, _, _, rfl, _, _, ⟨rfl, isToken⟩ | ⟨rfl, -⟩⟩ := fits.element_name unmarked unopened
  · cases tokens
    rw [kind] at isToken
    cases isToken
  · cases tokens
    exact ⟨_, _, _, _, rfl⟩

end Elements

section Texts

variable {tree : Tree} {name : String}

def isPlainName (name : String) : Bool :=
  name.toList.head?.any Text.isLower && Text.allLettersOrNumbers name.toList

/-- Going by its text, an element is taken for a reference to a rule if the text is a plain name and does
not begin like the name of a token. -/
theorem refersToRule_ofTree : Check.refersToRule (Element.ofTree tree) = true ↔
    isPlainName tree.text = true ∧ tree.text.toList.head?.any Text.isUpper = false := by
  have noLetters : Text.isLower '\'' = false ∧ Text.isLower '"' = false ∧ Text.isLower '[' = false := by
    decide +kernel
  simp only [Check.refersToRule, Element.ofTree, isPlainName]
  cases tree.text.toList with
  | nil => simp [ElementType.ofText]
  | cons c rest =>
    simp only [ElementType.ofText]
    split_ifs with quote bracket token rule suffix
    · have small : Text.isLower c = false := by
        rcases (by simpa using quote : c = '\'' ∨ c = '"') with rfl | rfl
        · exact noLetters.1
        · exact noLetters.2.1
      simp [small]
    all_goals simp_all

variable (derivation : tree.IsDerivation .element)

include derivation

/-- Apart from its marks and arguments, an element whose text does not begin like the name of a token is a bare
reference to a rule. -/
theorem Tree.IsDerivation.bareRule?_text
    (marked : ∀ token ∈ tree.tokens, Marked token.kind token.text.toList)
    (unmarked : ∀ token ∈ tree.tokens, token.kind.mark? = none)
    (unopened : ∀ token ∈ tree.tokens, token.kind ≠ .beginArgument)
    (small : tree.text.toList.head?.any Text.isUpper = false) : tree.bareRule? = some tree.text := by
  rw [Tree.bareRule?_eq_some]
  have text := Tree.text_toList tree
  obtain ⟨start, stop, children, rfl, fits⟩ := derivation
  obtain ⟨token, _, _, _, rfl, _, _, ⟨rfl, kind⟩ | ⟨rfl, kind⟩⟩ := fits.element_name unmarked unopened
  · -- the text would begin with a capital letter
    obtain ⟨-, named⟩ := (marked token (by simp [Tree.tokens, Tree.tokensOf])).name (by simp [Kind.isName, kind])
    simp [text, Tree.tokens, Tree.tokensOf, nameKind_eq_tokenRef.mp (named.trans kind)] at small
  · exact ⟨token, rfl, kind, by simp [Tree.text, Tree.tokens, Tree.tokensOf]⟩

/-- The elements whose texts are taken for references to rules are the bare ones with plain names. -/
theorem Tree.IsDerivation.element_ruleUse
    (marked : ∀ token ∈ tree.tokens, Marked token.kind token.text.toList)
    (opened : ∀ token ∈ tree.tokens, token.kind = .beginArgument → token.text.toList = ['[']) :
    tree.text = name ∧ Check.refersToRule (Element.ofTree tree) = true ↔
      tree.bareRule? = some name ∧ isPlainName name = true := by
  rw [refersToRule_ofTree]
  constructor
  · rintro ⟨rfl, plain, small⟩
    have letters := (Bool.and_eq_true_iff.mp plain).2
    have unmarked := Tree.unmarked_of_letters marked letters
    have unopened : ∀ token ∈ tree.tokens, token.kind ≠ .beginArgument := by
      intro token mem opening
      have bracket : '[' ∈ tree.text.toList := by
        rw [Tree.text_toList, mem_flatMap]
        exact ⟨token, mem, by rw [opened token mem opening]; exact mem_singleton_self _⟩
      rw [Text.allLettersOrNumbers, Bool.and_eq_true, all_eq_true] at letters
      exact absurd (letters.2 '[' bracket) (by decide +kernel)
    exact ⟨derivation.bareRule?_text marked unmarked unopened small, plain⟩
  · rw [Tree.bareRule?_eq_some]
    rintro ⟨⟨token, tokens, kind, rfl⟩, plain⟩
    have text : tree.text = token.text := by simp [Tree.text, tokens]
    have named := ((marked token (by simp [tokens])).name (by simp [Kind.isName, kind])).2
    have small : ¬token.text.toList.head?.any Text.isUpper = true := by
      intro upper
      rw [nameKind_eq_tokenRef.mpr upper, kind] at named
      cases named
    rw [text]
    exact ⟨rfl, plain, Bool.eq_false_iff.mpr small⟩

/-- A bare reference to a rule is one of the references in its element. -/
theorem Tree.IsDerivation.bareRule?_mem
    (bare : tree.bareRule? = some name) : name ∈ tree.ruleAtoms := by
  obtain ⟨token, tokens, kind, rfl⟩ := Tree.bareRule?_eq_some.mp bare
  obtain ⟨start, stop, children, rfl, fits⟩ := derivation
  rw [Tree.tokens] at tokens
  obtain ⟨_, _, _, _, rfl⟩ := fits.element_ruleName tokens kind
  simp [Tree.ruleAtoms, Tree.ruleAtomsOf, Tree.token?, kind]

end Texts

end Phrase

namespace Grammar

variable {file : String} {tree : Tree} {name : String}

/-- The references to rules that are seen are the bare ones with plain names. -/
theorem mem_referencedNames (derivation : tree.IsDerivation .grammarSpec)
    (marked : ∀ token ∈ tree.tokens, Marked token.kind token.text.toList)
    (opened : ∀ token ∈ tree.tokens, token.kind = .beginArgument → token.text.toList = ['[']) :
    name ∈ Check.referencedNames (ofTree file tree).parserRules ↔
      name ∈ tree.bareRuleUses ∧ isPlainName name = true := by
  refine mem_texts_filter derivation fun inner isElement tokens => ?_
  exact isElement.element_ruleUse (fun token inside => marked token (tokens inside))
    fun token inside => opened token (tokens inside)

theorem bareRuleUses_subset (derivation : tree.IsDerivation .grammarSpec) : tree.bareRuleUses ⊆ tree.ruleUses :=
  picked_subset derivation (fun _ _ => Tree.ruleAtoms_subset_of_mem) fun _ isElement _ => isElement.bareRule?_mem

/-- Parser rules are told apart by their names. -/
theorem key_of_mem_parserRules (derivation : tree.IsDerivation .grammarSpec) {rule : Rule}
    (mem : rule ∈ (ofTree file tree).parserRules) : rule.key = (rule.name, false, false) := by
  rw [parserRules_ofTree derivation] at mem
  obtain ⟨spec, -, rfl⟩ := mem_map.mp mem
  rfl

end Grammar

namespace Check

theorem entryMessage_inj {name other : String} : entryMessage name = entryMessage other ↔ name = other := by
  refine ⟨fun same => ?_, congrArg entryMessage⟩
  unfold entryMessage at same
  have chars := congrArg String.toList same
  rw [String.toList_append, String.toList_append, String.toList_append, String.toList_append] at chars
  have front := append_cancel_right chars
  have names := append_cancel_left front
  exact String.toList_injective names

theorem findIdx_congr {α : Type} {items : List α} {p q : α → Bool} (same : ∀ a ∈ items, p a = q a) :
    items.findIdx p = items.findIdx q := by
  induction items with
  | nil => rfl
  | cons a items ih =>
    rw [findIdx_cons, findIdx_cons, same a mem_cons_self,
      ih fun b mem => same b (mem_cons_of_mem _ mem)]

/-- The first rule of a name is a main rule by its look. -/
def EntryByName (rules : List Rule) (referenced : Prop) (rule : Rule) : Prop :=
  referenced ∧ lowerName rule ∈ certainEntryNames ∧ rules.findIdx (·.name == rule.name) < 3 ∨
    ¬referenced ∧ (rules.head? = some rule ∨ lowerName rule ∈ commonEntryNames)

section Names

variable {rules : List Rule} {rule : Rule} {name : String}

theorem looksLikeEntry_iff (byName : ∀ r ∈ rules, ∀ s ∈ rules, s.same r = (s.name == r.name))
    (first : rules.find? (·.name == rule.name) = some rule) :
    looksLikeEntry rules rule = true ↔ EntryByName rules (rule.name ∈ referencedNames rules) rule := by
  have mem := mem_of_find?_eq_some first
  have index : rules.findIdx (·.same rule) = rules.findIdx (·.name == rule.name) :=
    findIdx_congr (byName rule mem)
  have front : rules.head?.any (rule.same ·) = true ↔ rules.head? = some rule := by
    cases rules with
    | nil => cases mem
    | cons other rest =>
      rw [head?_cons, Option.any_some, byName other mem_cons_self rule mem, Option.some.injEq,
        beq_iff_eq]
      constructor
      · intro same
        rw [find?_cons_of_pos (by simp [same])] at first
        exact Option.some.inj first
      · rintro rfl
        rfl
  unfold looksLikeEntry EntryByName
  by_cases referenced : rule.name ∈ referencedNames rules
  · simp [referenced, index]
  · simp [referenced, front]

variable (rule name) in
/-- The main rules of a name: the first rule of that name, if it looks like one. -/
theorem mem_entries_iff (byName : ∀ r ∈ rules, ∀ s ∈ rules, s.same r = (s.name == r.name)) :
    rule ∈ Rule.distinct (rules.filter (looksLikeEntry rules)) ∧ rule.name = name ↔
      rules.find? (·.name == name) = some rule ∧ EntryByName rules (name ∈ referencedNames rules) rule := by
  rw [Rule.mem_distinct_filter fun r s same => looksLikeEntry_congr rfl rfl same]
  have named (mem : rule ∈ rules) : rules.find? (·.same rule) = rules.find? (·.name == rule.name) :=
    find?_congr (byName rule mem)
  constructor
  · rintro ⟨⟨looks, first⟩, rfl⟩
    rw [named (mem_of_find?_eq_some first)] at first
    exact ⟨first, (looksLikeEntry_iff byName first).mp looks⟩
  · rintro ⟨first, entry⟩
    obtain rfl : rule.name = name := by simpa using find?_some first
    rw [named (mem_of_find?_eq_some first)]
    exact ⟨⟨(looksLikeEntry_iff byName first).mpr entry, first⟩, rfl⟩

end Names

theorem tokens_opened {text : List Char} {children : List Tree} (leaves : Tree.tokensOf children =
    mainTokens text ++ [.endOfFile (Lexical.scan text).finish]) :
    ∀ token ∈ Tree.tokensOf children, token.kind = .beginArgument → token.text.toList = ['['] := by
  rw [leaves]
  refine forall_mem_append.mpr ⟨fun token mem => ?_, by simp [Token.endOfFile]⟩
  exact (Lexical.scan_origin text token (mem_filter.mp mem).1).beginArgument

/-- In a file without syntax errors, and with no main rules configured, a rule is reported unless its name
is a plain one and stands somewhere in a parser rule as an element of its own: if it does not end with the
end of file and is the first rule or has a common name. All other references are overlooked. -/
theorem endOfFile_reports_iff (file : String) (text : List Char) (config : RuleConfig) (mainRules : Json.Value)
    (faultless : (parse .grammarSpec text).errors = [])
    (notLexer : (Grammar.ofText file text).kind ≠ .lexer)
    (threshold : config.threshold "mainRules" (.arr []) = .ok mainRules) (unset : mainRules.truthy = false) :
    ∃ issues, endOfFile.run (Grammar.ofText file text) config = .ok issues ∧
      (∀ name, (∃ issue ∈ issues, issue.message = entryMessage name) ↔ config.enabled.truthy = true ∧
        ∃ rule, (Grammar.ofText file text).parserRules.find? (·.name == name) = some rule ∧
          endsInEndOfFile rule = false ∧ EntryByName (Grammar.ofText file text).parserRules
            (name ∈ (parse .grammarSpec text).tree.bareRuleUses ∧ isPlainName name = true) rule) ∧
      (parse .grammarSpec text).tree.bareRuleUses ⊆ (parse .grammarSpec text).tree.ruleUses := by
  obtain ⟨children, stop, same, fits, leaves⟩ := parseTokens_unfailed (start_proper text) faultless
  have derivation : (parse .grammarSpec text).tree.IsDerivation .grammarSpec :=
    ⟨_, stop, children, same, fits⟩
  have tokens : (parse .grammarSpec text).tree.tokens = Tree.tokensOf children := congrArg Tree.tokens same
  have referenced (name : String) := @Grammar.mem_referencedNames file _ name derivation
    (tokens ▸ tokens_marked leaves) (tokens ▸ tokens_opened leaves)
  have byName : ∀ r ∈ (Grammar.ofText file text).parserRules, ∀ s ∈ (Grammar.ofText file text).parserRules,
      s.same r = (s.name == r.name) := by
    intro r isRule s isOther
    rw [Rule.same, Grammar.key_of_mem_parserRules derivation isRule,
      Grammar.key_of_mem_parserRules derivation isOther]
    simp
  have found : entryRules (Grammar.ofText file text).parserRules mainRules = .ok _ := if_neg (by simp [unset])
  refine ⟨_, endOfFile_run threshold found, fun name => ?_, Grammar.bareRuleUses_subset derivation⟩
  have entries (rule : Rule) := mem_entries_iff rule name byName
  have lexer : ((Grammar.ofText file text).kind == .lexer) = false := by simpa using notLexer
  rw [lexer, Bool.or_false, ← referenced name]
  cases config.enabled.truthy with
  | false => simp
  | true =>
    simp only [Bool.not_true, Bool.false_eq_true, if_false, true_and, mem_map, mem_filter,
      Bool.not_eq_true']
    constructor
    · rintro ⟨_, ⟨rule, ⟨member, endless⟩, rfl⟩, message⟩
      obtain ⟨first, entry⟩ := (entries rule).mp ⟨member, entryMessage_inj.mp message⟩
      exact ⟨rule, first, endless, entry⟩
    · rintro ⟨rule, first, endless, entry⟩
      obtain ⟨member, rfl⟩ := (entries rule).mpr ⟨first, entry⟩
      exact ⟨_, ⟨rule, ⟨member, endless⟩, rfl⟩, rfl⟩

/-- A rule with an underscore in its name, to which it refers itself, and a rule to which the first refers
with a suffix. -/
def hiddenReferences : List Char := "grammar G;a_:T a_|file?;file:T;".toList

theorem hiddenReferences_read : (parse .grammarSpec hiddenReferences).errors = [] ∧
    (Grammar.ofText "G.g4" hiddenReferences).kind ≠ .lexer ∧
    (parse .grammarSpec hiddenReferences).tree.ruleUses = ["a_", "file"] ∧
    ((endOfFile.run (Grammar.ofText "G.g4" hiddenReferences) {}).toOption.map (·.map (·.message))) =
      some (["a_", "file"].map entryMessage) := by
  decide +kernel

theorem endOfFile_reports_iff_hiddenReferences : (parse .grammarSpec hiddenReferences).errors = [] ∧
    ∃ issues, endOfFile.run (Grammar.ofText "G.g4" hiddenReferences) {} = .ok issues ∧
      ((∃ issue ∈ issues, issue.message = entryMessage "file") ↔ ({} : RuleConfig).enabled.truthy = true ∧
        ∃ rule, (Grammar.ofText "G.g4" hiddenReferences).parserRules.find? (·.name == "file") = some rule ∧
          endsInEndOfFile rule = false ∧ EntryByName (Grammar.ofText "G.g4" hiddenReferences).parserRules
            ("file" ∈ (parse .grammarSpec hiddenReferences).tree.bareRuleUses ∧ isPlainName "file" = true) rule) := by
  obtain ⟨faultless, notLexer, -⟩ := hiddenReferences_read
  obtain ⟨issues, run, reported, -⟩ := endOfFile_reports_iff "G.g4" hiddenReferences {} (.arr []) faultless notLexer
    rfl rfl
  exact ⟨faultless, issues, run, reported "file"⟩

/-- Both rules are reported, though there are references to them and neither has one of the names that are
reported in any case. -/
theorem referenced_rules_reported : (parse .grammarSpec hiddenReferences).errors = [] ∧
    (∀ name ∈ ["a_", "file"], name ∈ (parse .grammarSpec hiddenReferences).tree.ruleUses ∧
      String.ofList (Text.toLower name.toList) ∉ certainEntryNames) ∧
    ((endOfFile.run (Grammar.ofText "G.g4" hiddenReferences) {}).toOption.map (·.map (·.message))) =
      some (["a_", "file"].map entryMessage) := by
  obtain ⟨faultless, -, uses, reported⟩ := hiddenReferences_read
  have uncertain : ∀ name ∈ ["a_", "file"], String.ofList (Text.toLower name.toList) ∉ certainEntryNames := by
    decide +kernel
  exact ⟨faultless, fun name member => ⟨uses ▸ member, uncertain name member⟩, reported⟩

end Check

end GrammarLint
