import GrammarLint.Check.Names
import GrammarLint.Proofs.TokenUses

open List

namespace GrammarLint

open Phrase
open Lexical (Kind Token)

namespace Text

def IsAscii (text : List Char) : Prop := ∀ c ∈ text, c.toNat < 128

instance (text : List Char) : Decidable (IsAscii text) :=
  inferInstanceAs (Decidable (∀ c ∈ text, c.toNat < 128))

theorem of_ascii (p : Char → Bool) (all : ∀ n < 128, p (Char.ofNat n) = true) (c : Char)
    (ascii : c.toNat < 128) : p c = true := by
  simpa using all c.toNat ascii

theorem isTitle_of_ascii {c : Char} (ascii : c.toNat < 128) : isTitle c = false := by
  have none := of_ascii (fun c => !isTitle c) (by decide +kernel) c ascii
  simpa using none

/-- Of a text in ASCII with a capital in front, no letter is small just if all are capitals. -/
theorem allUpper_of_ascii {c : Char} {rest : List Char} (ascii : IsAscii (c :: rest))
    (upper : isUpper c = true) : allUpper (c :: rest) = !(c :: rest).any isLower := by
  have noTitle : ∀ d ∈ c :: rest, (!(isLower d || isTitle d)) = !isLower d := by
    intro d mem
    rw [isTitle_of_ascii (ascii d mem), Bool.or_false]
  have some : (c :: rest).any isUpper = true := by simp [upper]
  rw [allUpper, some, Bool.true_and, not_any_eq_all_not, Bool.eq_iff_iff, all_eq_true,
    all_eq_true]
  exact forall₂_congr fun d mem => by rw [noTitle d mem]

end Text

namespace Lexical

open Vocabulary

variable {content text : List Char} {position : Position} {kind : Kind}

theorem default_name_awaits : (defaultRules.all fun rule => rule.effect != .name ||
    (Racer.after rule []).branches.all fun b => b.awaits.all (· == nameStart)) = true := by
  decide +kernel

/-- Tokens that are names come from pieces that are. -/
theorem Origin.name_inv (origin : Origin content position kind text) (isName : kind.isName = true) :
    ∃ whole rest, nextPiece .default whole = .found .name text rest ∧ kind = Scanner.nameKind text := by
  have noName : (∀ kind ∈ [Kind.argumentContent, .endArgument], kind.isName = false) ∧
    ∀ kind ∈ [Kind.lexerCharSet, .unterminatedCharSet], kind.isName = false := by decide
  cases origin with
  | piece found always =>
    obtain ⟨_, _, -, -, found⟩ := found
    obtain ⟨rule, mem, rfl, -⟩ := default_first found
    have keeps := all_eq_true.mp default_marks rule mem
    simp [((LexicalRule.keepsMark_iff always).mp keeps).1] at isName
  | name found =>
    obtain ⟨_, _, -, -, found⟩ := found
    exact ⟨_, _, found, rfl⟩
  | opening => cases isName
  | argument mem => simp [noName.1 _ mem] at isName
  | charSet mem => simp [noName.2 _ mem] at isName

/-- Where a token is a name, its first character decides of which kind. -/
theorem Origin.name_first (origin : Origin content position kind text)
    (isName : kind.isName = true) : ∃ c rest, text = c :: rest ∧ nameStart.contains c = true ∧
      kind = if Text.isUpper c then .tokenRef else .ruleRef := by
  obtain ⟨_, _, found, rfl⟩ := origin.name_inv isName
  obtain ⟨rule, mem, isRule, c, later, rfl, b, inBranches, s, waits, contains⟩ := default_first found
  have awaits := all_eq_true.mp default_name_awaits rule mem
  simp only [isRule, bne_self_eq_false, Bool.false_or, all_eq_true, Option.all_eq_true,
    beq_iff_eq] at awaits
  rw [awaits b inBranches s waits] at contains
  exact ⟨c, later, rfl, contains, rfl⟩

/-- Letters of ASCII that a name may begin with are small or capital. -/
theorem isLower_of_nameStart {c : Char} (ascii : c.toNat < 128) (starts : nameStart.contains c = true)
    (notUpper : Text.isUpper c = false) : Text.isLower c = true := by
  have letter := Text.of_ascii (fun c => !nameStart.contains c || Text.isUpper c || Text.isLower c)
    (by decide +kernel) c ascii
  simpa [starts, notUpper] using letter

end Lexical

namespace Rule

def nameKind (r : Rule) : Kind := if r.isLexer then .tokenRef else .ruleRef

theorem nameIn_eq {kind : Kind} {tree : Tree} (some : tree.tokensOfKind kind ≠ []) :
    ∃ token ∈ tree.tokens, token.kind = kind ∧ nameIn kind tree = token.text := by
  obtain ⟨token, later, same⟩ := exists_cons_of_ne_nil some
  have mem : token ∈ tree.tokensOfKind kind := by simp [same]
  obtain ⟨child, isChild, isToken⟩ := mem_filterMap.mp mem
  obtain ⟨isToken, isKind⟩ := Option.filter_eq_some_iff.mp isToken
  refine ⟨token, Tree.tokens_subset_of_mem isChild ?_, by simpa using isKind, by simp [nameIn, same]⟩
  cases child with
  | phrase => cases isToken
  | leaf | error =>
    cases isToken
    exact mem_singleton_self token

theorem tokensOfKind_ne_nil {kind : Kind} {cat : Category} {start : Token} {stop : Option Token}
    {children : List Tree} {token : Token} (isKind : token.kind = kind) (mem : .leaf token ∈ children) :
    (Tree.phrase cat start stop children).tokensOfKind kind ≠ [] := by
  have found : token ∈ (Tree.phrase cat start stop children).tokensOfKind kind :=
    mem_filterMap.mpr ⟨.leaf token, mem, by simp [Tree.token?, isKind]⟩
  exact ne_nil_of_mem found

/-- A rule that is derived has its name from one of its tokens, of a kind that tells lexer rules from
parser rules. -/
theorem ofSpec_named (mode : Option String) {tree : Tree} {cat : Category}
    (derivation : tree.IsDerivation cat) (isRule : cat.isRule = true) :
    ∃ token ∈ tree.tokens, token.kind = (ofSpec (mode, tree)).nameKind ∧
      (ofSpec (mode, tree)).name = token.text := by
  obtain ⟨start, stop, children, rfl, fits⟩ := derivation
  obtain rfl | rfl : cat = .parserRuleSpec ∨ cat = .lexerRuleSpec := by
    simpa [Category.isRule] using isRule
  all_goals
    obtain ⟨_, _, rfl, -, afterModifiers⟩ := fits.seq_inv
    obtain ⟨_, _, rfl, named, -⟩ := afterModifiers.seq_inv
    obtain ⟨token, isKind, rfl⟩ := named.leaf_inv
    exact nameIn_eq (tokensOfKind_ne_nil isKind (by simp))

end Rule

namespace Grammar

variable {file : String} {tree : Tree}

/-- The rules of a grammar have their names from tokens of the file. -/
theorem rules_named (derivation : tree.IsDerivation .grammarSpec) :
    ∀ r ∈ (ofTree file tree).rules, ∃ token ∈ tree.tokens, token.kind = r.nameKind ∧
      r.name = token.text := by
  intro r mem
  rw [derivation.grammarSpec] at mem
  obtain ⟨⟨mode, spec⟩, isSpec, rfl⟩ := mem_map.mp mem
  have inTree := (mem_filter.mp isSpec).1
  obtain ⟨cat, derived, -⟩ := ruleSpecs_derived derivation _ inTree
  have isRule : cat.isRule = true := by
    have specs := Tree.map_snd_ruleSpecs none 0 tree ▸ mem_map_of_mem inTree
    obtain ⟨_, _, _, rfl, -⟩ := derived
    simpa [Tree.isRuleSpec, Tree.category?] using (mem_filter.mp specs).2
  obtain ⟨token, inSpec, isKind, named⟩ := Rule.ofSpec_named mode derived isRule
  exact ⟨token, Tree.ruleSpecs_tokens tree inTree inSpec, isKind, named⟩

theorem token_origin {text : List Char} {token : Token}
    (mem : token ∈ mainTokens text ++ [.endOfFile (Lexical.scan text).finish])
    (isName : token.kind.isName = true) : Lexical.Origin text token.position token.kind token.text.toList := by
  rcases mem_append.mp mem with scanned | atEnd
  · exact Lexical.scan_origin text token (mem_filter.mp scanned).1
  · rw [mem_singleton.mp atEnd] at isName
    cases isName

variable (file) in
/-- What a file without syntax errors tells of the names in it. -/
theorem names_ofText (text : List Char) (faultless : (parse .grammarSpec text).errors = []) :
    (∀ token ∈ (parse .grammarSpec text).tree.tokens, token.kind.isName = true →
      ∃ c rest, token.text.toList = c :: rest ∧ Lexical.nameStart.contains c = true ∧
        token.kind = if Text.isUpper c then .tokenRef else .ruleRef) ∧
    ∀ r ∈ (ofText file text).rules, ∃ token ∈ (parse .grammarSpec text).tree.tokens,
      token.kind = r.nameKind ∧ r.name = token.text := by
  obtain ⟨derivation, tokens⟩ := parse_derivation faultless
  exact ⟨tokens ▸ fun token mem isName => (token_origin mem isName).name_first isName, rules_named derivation⟩

theorem rule_name_first {text : List Char} (faultless : (parse .grammarSpec text).errors = []) {r : Rule}
    (mem : r ∈ (ofText file text).rules) :
    ∃ c rest, r.name.toList = c :: rest ∧ Lexical.nameStart.contains c = true ∧
      r.isLexer = Text.isUpper c := by
  obtain ⟨tokens, rules⟩ := names_ofText file text faultless
  obtain ⟨token, inTree, isKind, named⟩ := rules r mem
  have isName : token.kind.isName = true := by
    rw [isKind, Rule.nameKind]
    split <;> rfl
  obtain ⟨c, rest, chars, starts, first⟩ := tokens token inTree isName
  refine ⟨c, rest, named ▸ chars, starts, ?_⟩
  rw [isKind, Rule.nameKind] at first
  cases lexer : r.isLexer <;> cases upper : Text.isUpper c <;> simp [lexer, upper] at first ⊢

end Grammar

namespace Check

/-- The issue says that the lexer rule is not in capitals. -/
def SaysNotCapital (r : Rule) (issue : Issue) : Prop :=
  issue.rule = "N002" ∧ issue.range = r.range ∧
    issue.message = s!"Lexer rule '{r.name}' should be all uppercase"

theorem lexerRuleName_run (g : Grammar) (config : RuleConfig) :
    ∃ issues, lexerRuleName.run g config = .ok issues ∧ List.Forall₂ SaysNotCapital
      (g.lexerRules.filter fun r => !r.name.isEmpty && !Text.allUpper r.name.toList) issues := by
  refine ⟨_, rfl, forall₂_map_right_iff.mpr (forall₂_same.mpr fun r _ => ?_)⟩
  exact ⟨rfl, rfl, rfl⟩

/-- In a file without syntax errors, a rule is a lexer rule just if its name begins with a capital, and
names anywhere in the file are told apart in the same way. If names are in ASCII, no parser rule is
reported for its name, and a lexer rule just if there is a small letter in it. -/
theorem rule_kinds_by_name (file : String) (text : List Char)
    (faultless : (parse .grammarSpec text).errors = []) :
    (∀ r ∈ (Grammar.ofText file text).rules, ∃ c rest, r.name.toList = c :: rest ∧
      r.isLexer = Text.isUpper c) ∧
    (∀ token ∈ (parse .grammarSpec text).tree.tokens, token.kind = .tokenRef ∨ token.kind = .ruleRef →
      ∃ c rest, token.text.toList = c :: rest ∧ (token.kind = .tokenRef ↔ Text.isUpper c = true)) ∧
    ((∀ token ∈ (parse .grammarSpec text).tree.tokens, token.kind = .tokenRef ∨ token.kind = .ruleRef →
        Text.IsAscii token.text.toList) → ∀ config,
      parserRuleName.run (Grammar.ofText file text) config = .ok [] ∧
      ∃ issues, lexerRuleName.run (Grammar.ofText file text) config = .ok issues ∧
        List.Forall₂ SaysNotCapital
          ((Grammar.ofText file text).lexerRules.filter (·.name.toList.any Text.isLower)) issues) := by
  obtain ⟨tokens, rules⟩ := Grammar.names_ofText file text faultless
  have isName {kind : Kind} : kind = .tokenRef ∨ kind = .ruleRef ↔ kind.isName = true := by
    simp [Kind.isName]
  refine ⟨fun r member => ?_, fun token member names => ?_, fun ascii config => ?_⟩
  · obtain ⟨c, rest, chars, -, kind⟩ := Grammar.rule_name_first faultless member
    exact ⟨c, rest, chars, kind⟩
  · obtain ⟨c, rest, chars, -, kind⟩ := tokens token member (isName.mp names)
    refine ⟨c, rest, chars, ?_⟩
    rw [kind]
    cases Text.isUpper c <;> simp
  have asciiRule : ∀ r ∈ (Grammar.ofText file text).rules, Text.IsAscii r.name.toList := by
    intro r member
    obtain ⟨token, inTree, isKind, named⟩ := rules r member
    rw [named]
    refine ascii token inTree (isKind ▸ ?_)
    cases lexer : r.isLexer <;> simp [Rule.nameKind, lexer]
  refine ⟨congrArg Except.ok (map_eq_nil_iff.mpr (filter_eq_nil_iff.mpr fun r member => ?_)), ?_⟩
  · obtain ⟨isRule, isParser⟩ := mem_filter.mp member
    obtain ⟨c, rest, chars, starts, kind⟩ := Grammar.rule_name_first faultless isRule
    have lower := Lexical.isLower_of_nameStart (asciiRule r isRule c (by simp [chars])) starts
      (by simpa [kind] using isParser)
    simp [startsWrongForParser, chars, lower]
  · obtain ⟨issues, run, matching⟩ := lexerRuleName_run (Grammar.ofText file text) config
    refine ⟨issues, run, ?_⟩
    rwa [filter_congr fun r member => ?_] at matching
    obtain ⟨isRule, isLexer⟩ := mem_filter.mp member
    obtain ⟨c, rest, chars, -, kind⟩ := Grammar.rule_name_first faultless isRule
    have notEmpty : r.name.isEmpty = false := by
      rw [← Bool.not_eq_true, String.isEmpty_iff, ← String.toList_eq_nil_iff, chars]
      exact cons_ne_nil c rest
    rw [notEmpty, chars, Text.allUpper_of_ascii (chars ▸ asciiRule r isRule) (kind ▸ isLexer)]
    simp

def mixedCase : List Char := "grammar G;r:Ab s AB;s:'x';Ab:'a';AB:'b';".toList

theorem rule_kinds_by_name_mixedCase : (parse .grammarSpec mixedCase).errors = [] ∧
    parserRuleName.run (Grammar.ofText "G.g4" mixedCase) {} = .ok [] ∧
    ∃ issues, lexerRuleName.run (Grammar.ofText "G.g4" mixedCase) {} = .ok issues ∧
      List.Forall₂ SaysNotCapital ((Grammar.ofText "G.g4" mixedCase).lexerRules.filter
        (·.name.toList.any Text.isLower)) issues ∧
      issues.map (·.message) = ["Lexer rule 'Ab' should be all uppercase"] := by
  obtain ⟨faultless, ascii, shown⟩ : (parse .grammarSpec mixedCase).errors = [] ∧
      (∀ token ∈ (parse .grammarSpec mixedCase).tree.tokens, token.kind = .tokenRef ∨ token.kind = .ruleRef →
        Text.IsAscii token.text.toList) ∧
      (lexerRuleName.run (Grammar.ofText "G.g4" mixedCase) {}).toOption.map (·.map (·.message)) =
        some ["Lexer rule 'Ab' should be all uppercase"] := by
    decide +kernel
  obtain ⟨-, -, reports⟩ := rule_kinds_by_name "G.g4" mixedCase faultless
  obtain ⟨parserRules, issues, run, each⟩ := reports ascii {}
  refine ⟨faultless, parserRules, issues, run, each, ?_⟩
  rw [run] at shown
  exact Option.some.inj shown

end Check

end GrammarLint
