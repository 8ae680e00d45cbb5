import Mathlib
import GrammarLint.Proofs.FormParts
import GrammarLint.Proofs.Modes

open List

namespace GrammarLint.Lexical

open Phrase (Category Derives)

namespace Scope

def afterAll (scope : Scope) (kinds : List Kind) : Scope :=
  kinds.foldl (fun scope kind => scope.after kind) scope

@[simp]
theorem afterAll_nil (scope : Scope) : scope.afterAll [] = scope := rfl

@[simp]
theorem afterAll_cons (scope : Scope) (kind : Kind) (kinds : List Kind) :
    scope.afterAll (kind :: kinds) = (scope.after kind).afterAll kinds := rfl

@[simp]
theorem afterAll_append (scope : Scope) (kinds others : List Kind) :
    scope.afterAll (kinds ++ others) = (scope.afterAll kinds).afterAll others :=
  foldl_append

/-- Tokens that leave a scope alone one by one do so together. -/
theorem afterAll_eq_self {scope : Scope} {kinds : List Kind}
    (each : ∀ kind ∈ kinds, scope.after kind = scope) : scope.afterAll kinds = scope := by
  induction kinds with
  | nil => rfl
  | cons kind kinds ih =>
    obtain ⟨first, later⟩ := forall_mem_cons.mp each
    rw [afterAll_cons, first, ih later]

end Scope

def optionKinds : List Kind :=
  [.ruleRef, .tokenRef, .assign, .dot, .stringLiteral, .action, .integer]

/-- An option starts with a name. -/
structure IsOption (word : List Kind) : Prop where
  named : ∃ name rest, word = name :: rest ∧ (name = .ruleRef ∨ name = .tokenRef)
  kinds : ∀ kind ∈ word, kind ∈ optionKinds

def optionsBlock (options : List (List Kind)) : List Kind :=
  .optionsOpen :: (options.flatMap (· ++ [.semicolon]) ++ [.rightBrace])

variable {word : List Kind}

theorem IsOption.of_derives {index : Nat}
    (derives : Derives (.call index .option) word) : IsOption word := by
  have used := @Derives.of_uses optionKinds.contains [.option, .identifier, .optionValue, .actionBlock]
    _ (by decide) _ derives (by simp)
  refine ⟨?_, fun kind mem => by simpa using used kind mem⟩
  cases derives with
  | call inner =>
    cases inner with
    | seq first _ =>
      cases first with
      | call name =>
        cases name with
        | oneOf mem => exact ⟨_, _, rfl, by simpa using mem⟩

/-- What the rules of the language call an options block is one. -/
theorem optionsBlock_of_derives (derives : Derives Category.optionsSpec.form word) :
    ∃ options, word = optionsBlock options ∧ ∀ option ∈ options, IsOption option := by
  cases derives with
  | seq first rest =>
    cases first
    cases rest with
    | seq loop last =>
      cases last
      cases loop with
      | star rounds =>
        obtain ⟨words, rfl, each⟩ := rounds.rounds
        clear rounds
        have options : ∃ options : List (List Kind), words = options.map (· ++ [.semicolon]) ∧
            ∀ option ∈ options, IsOption option := by
          induction words with
          | nil => exact ⟨[], rfl, by simp⟩
          | cons w words ih =>
            obtain ⟨first, later⟩ := forall_mem_cons.mp each
            obtain ⟨options, rfl, own⟩ := ih later
            cases first with
            | seq option mark =>
              cases mark
              exact ⟨_ :: options, rfl, forall_mem_cons.mpr ⟨.of_derives option, own⟩⟩
        obtain ⟨options, rfl, own⟩ := options
        exact ⟨options, by simp [optionsBlock, flatMap], own⟩

namespace Scope

/-- The scopes that a semicolon ends. -/
def closes : Scope → Bool
  | .outside | .lexerRule | .parserRule | .prequel => true
  | .lexerOptions | .namedAction => false

/-- Inside of a rule or a block the tokens of an option say nothing. -/
theorem after_optionKinds : ∀ scope ∈ [lexerRule, .parserRule, .prequel, .lexerOptions],
    ∀ kind ∈ optionKinds, scope.after kind = scope := by
  decide

variable {scope : Scope} {option : List Kind} {options : List (List Kind)}

/-- An option with its semicolon ends the rule or block in which it stands. Outside of both its name
is taken for that of a rule, which the semicolon ends. -/
theorem afterAll_option (isOption : IsOption option) (closes : scope.closes = true) :
    scope.afterAll (option ++ [.semicolon]) = .outside := by
  obtain ⟨name, rest, rfl, named⟩ := isOption.named
  have still : ∀ {inner : Scope}, inner ∈ [lexerRule, .parserRule, .prequel, .lexerOptions] →
      inner.afterAll rest = inner := fun inside =>
    afterAll_eq_self fun kind mem =>
      after_optionKinds _ inside kind (isOption.kinds kind (mem_cons_of_mem _ mem))
  cases scope with
  | lexerOptions | namedAction => simp [Scope.closes] at closes
  | outside =>
    rcases named with rfl | rfl
    · simp [after, @still .parserRule (by decide)]
    · simp [after, @still .lexerRule (by decide)]
  | lexerRule | parserRule | prequel =>
    rcases named with rfl | rfl <;> simp [after, still]

variable (scope) in
theorem afterAll_options (each : ∀ option ∈ options, IsOption option) (some_ : options ≠ [])
    (closes : scope.closes = true) : scope.afterAll (options.flatMap (· ++ [.semicolon])) = .outside := by
  induction options generalizing scope with
  | nil => exact absurd rfl some_
  | cons option options ih =>
    obtain ⟨first, later⟩ := forall_mem_cons.mp each
    rw [flatMap_cons, afterAll_append, afterAll_option first closes]
    cases options with
    | nil => rfl
    | cons _ _ => exact ih _ later (by simp) rfl

/-- In an options block of a lexer rule semicolons say nothing either. -/
theorem afterAll_lexerOptions (each : ∀ option ∈ options, IsOption option) :
    lexerOptions.afterAll (options.flatMap (· ++ [.semicolon])) = lexerOptions := by
  refine afterAll_eq_self fun kind mem => ?_
  obtain ⟨option, inOptions, inside⟩ := mem_flatMap.mp mem
  rcases mem_append.mp inside with own | mark
  · exact after_optionKinds _ (by decide) kind ((each option inOptions).kinds kind own)
  · cases mem_singleton.mp mark
    rfl

/-- The scopes outside of braces. -/
def isOpen : Scope → Bool
  | .outside | .lexerRule | .parserRule => true
  | .prequel | .lexerOptions | .namedAction => false

/-- The scope behind an options block: the one before it, but that an option ends a parser rule. -/
theorem afterAll_optionsBlock (each : ∀ option ∈ options, IsOption option)
    (isOpen : scope.isOpen = true) :
    scope.afterAll (optionsBlock options) =
      if scope = .parserRule ∧ options ≠ [] then .outside else scope := by
  by_cases none : options = []
  · subst none
    cases scope <;> first | rfl | simp [Scope.isOpen] at isOpen
  · cases scope with
    | outside =>
      have body := afterAll_options .prequel each none rfl
      simp [optionsBlock, after, body]
    | lexerRule => simp [optionsBlock, after, afterAll_lexerOptions each]
    | parserRule =>
      have body := afterAll_options .parserRule each none rfl
      simp [optionsBlock, after, body, none]
    | prequel | lexerOptions | namedAction => simp [Scope.isOpen] at isOpen

end Scope

def asideKinds : List Kind := [.docComment, .blockComment, .lineComment, .whitespace]

theorem Scope.after_asideKinds (scope : Scope) : ∀ kind ∈ asideKinds, scope.after kind = scope := by
  cases scope <;> decide

theorem Scope.after_endOfFile (scope : Scope) : scope.after .endOfFile = scope := by
  cases scope <;> rfl

def mainKinds (tokens : List Token) : List Kind :=
  (tokens.filter (·.channel == .main)).map (·.kind)

theorem mainKinds_cons (token : Token) (tokens : List Token) :
    mainKinds (token :: tokens) =
      if token.channel = .main then token.kind :: mainKinds tokens else mainKinds tokens := by
  by_cases main : token.channel = .main <;> simp [mainKinds, main]

namespace Scanner

/-- The next tokens of a scanner. -/
def upcoming (s : Scanner) : (count : Nat) → List Token
  | 0 => []
  | count + 1 => s.next.token :: s.next.scanner.upcoming count

/-- The scanner behind its next tokens. -/
def past (s : Scanner) : (count : Nat) → Scanner
  | 0 => s
  | count + 1 => s.next.scanner.past count

/-- A bracket that comes next opens a character set and no argument block. -/
def OpensCharSet (s : Scanner) : Prop := (s.apply .openBracket ['[']).2.mode = .charSet

variable (s : Scanner)

theorem opensCharSet_iff : s.OpensCharSet ↔ s.scope = .lexerRule := by
  by_cases inRule : s.scope = .lexerRule <;> simp [OpensCharSet, apply, enter, inRule]

/-- The effect makes no token other than a comment or blanks outside of the main channel. -/
def keepsAside : Effect → Bool
  | .aside kind _ => asideKinds.contains kind
  | _ => true

theorem rules_keepAside (mode : Mode) :
    ∀ rule ∈ Vocabulary.rules mode, keepsAside rule.effect = true := by
  cases mode <;> decide

/-- What one call of a scanner does to the scope is what the token that it gives does. A token outside
of the main channel is a comment or blanks. -/
theorem readOn_scope (begun : Position) (text : List Char) (errors : List Position) :
    (s.readOn begun text errors).scanner.scope =
        s.scope.after (s.readOn begun text errors).token.kind ∧
      ((s.readOn begun text errors).token.channel ≠ .main →
        (s.readOn begun text errors).token.kind ∈ asideKinds) := by
  induction s, begun, text, errors using readOn_cases with
  | nothing lost used =>
    rw [readOn_nothing lost used]
    exact ⟨(Scope.after_endOfFile _).symm, fun aside => absurd rfl aside⟩
  | skip lost more ih =>
    rw [readOn_skip lost more]
    exact ih
  | lost lost something =>
    rw [readOn_lost lost something]
    exact ⟨(Scope.after_endOfFile _).symm, fun aside => absurd rfl aside⟩
  | token found applied =>
    obtain ⟨rule, mem, rfl⟩ := nextPiece_effect found
    rw [readOn_token found applied]
    refine ⟨congrArg (Scope.after _) (frame_of_apply applied).2.2.2, fun aside => ?_⟩
    have keeps := rules_keepAside _ rule mem
    simpa [keepsAside, (apply_channel applied).resolve_left aside] using keeps
  | more found applied ih =>
    rw [readOn_more found applied]
    rwa [(frame_of_apply applied).2.2.2] at ih

theorem next_scope :
    s.next.scanner.scope = s.scope.after s.next.token.kind ∧
      (s.next.token.channel ≠ .main → s.next.token.kind ∈ asideKinds) := by
  unfold next
  split
  · exact ⟨(Scope.after_endOfFile _).symm, fun aside => absurd rfl aside⟩
  · exact readOn_scope ..

/-- The scope behind some tokens goes by those that are parsed. -/
theorem past_scope (count : Nat) :
    (s.past count).scope = s.scope.afterAll (mainKinds (s.upcoming count)) := by
  induction count generalizing s with
  | zero => rfl
  | succ count ih =>
    obtain ⟨after, aside⟩ := s.next_scope
    rw [past, ih, after, upcoming, mainKinds_cons]
    split
    · rfl
    · rename_i hidden
      rw [Scope.after_asideKinds _ _ (aside hidden)]

theorem past_add (count more : Nat) : s.past (count + more) = (s.past count).past more := by
  induction count generalizing s with
  | zero => rw [Nat.zero_add]; rfl
  | succ count ih => rw [Nat.succ_add]; exact ih s.next.scanner

end Scanner

def breakKinds : List Kind := [.semicolon, .optionsOpen, .tokensOpen, .channelsOpen, .atSign]

def isName (kind : Kind) : Bool := kind == .ruleRef || kind == .tokenRef

namespace Scope

/-- Inside of a rule only a break says something. -/
theorem afterAll_rule {scope : Scope} {kinds : List Kind}
    (inside : scope ∈ [lexerRule, .parserRule]) (plain : ∀ kind ∈ kinds, kind ∉ breakKinds) :
    scope.afterAll kinds = scope := by
  refine afterAll_eq_self fun kind mem => ?_
  have own := plain kind mem
  fin_cases inside <;> cases kind <;> first | rfl | exact absurd (by decide) own

/-- Outside of rules the first name tells whether a lexer rule begins. -/
theorem afterAll_outside {kinds : List Kind} (plain : ∀ kind ∈ kinds, kind ∉ breakKinds) :
    outside.afterAll kinds = .lexerRule ↔ kinds.find? isName = some .tokenRef := by
  induction kinds with
  | nil => simp
  | cons kind kinds ih =>
    obtain ⟨own, later⟩ := forall_mem_cons.mp plain
    by_cases named : isName kind = true
    · have kinds : kind = .ruleRef ∨ kind = .tokenRef := by simpa [isName] using named
      rcases kinds with rfl | rfl
      · simp [after, isName, @afterAll_rule .parserRule _ (by decide) later]
      · simp [after, isName, @afterAll_rule .lexerRule _ (by decide) later]
    · have same : outside.after kind = .outside := by
        cases kind <;> first | rfl | exact absurd (by decide) own | exact absurd rfl named
      rw [afterAll_cons, same, find?_cons_of_neg named]
      exact ih later

end Scope

theorem optionsBlock_eq_empty {options : List (List Kind)} :
    optionsBlock options = [.optionsOpen, .rightBrace] ↔ options = [] := by
  constructor
  · intro same
    cases options with
    | nil => rfl
    | cons option options =>
      have mem : Kind.semicolon ∈ optionsBlock (option :: options) := by simp [optionsBlock]
      simp [same] at mem
  · rintro rfl
    rfl

namespace Scanner

/-- An options block leaves the scope as it was, but in a parser rule only if it sets no option: the
first semicolon in it is taken for the end of the rule. Behind it, up to the end of the rule, a
bracket then opens a character set as in a lexer rule if the first name there is that of a token. -/
theorem scope_past_optionsBlock (s : Scanner) (count : Nat) (isOpen : s.scope.isOpen = true)
    (block : Derives Category.optionsSpec.form (mainKinds (s.upcoming count))) :
    ((s.past count).scope = s.scope ↔
      s.scope ≠ .parserRule ∨ mainKinds (s.upcoming count) = [.optionsOpen, .rightBrace]) ∧
    ((s.past count).scope ≠ s.scope → (s.past count).scope = .outside) ∧
    ∀ more, s.scope ≠ .outside →
      (∀ kind ∈ mainKinds ((s.past count).upcoming more), kind ∉ breakKinds) →
      ((s.past (count + more)).OpensCharSet ↔ s.scope = .lexerRule ∨
        s.scope = .parserRule ∧ mainKinds (s.upcoming count) ≠ [.optionsOpen, .rightBrace] ∧
          (mainKinds ((s.past count).upcoming more)).find? isName = some .tokenRef) := by
  have after := s.past_scope count
  obtain ⟨options, same, each⟩ := optionsBlock_of_derives block
  rw [same, Scope.afterAll_optionsBlock each isOpen] at after
  rw [same, optionsBlock_eq_empty]
  refine ⟨?_, ?_, fun more inRule plain => ?_⟩
  · rw [after]
    by_cases lost : s.scope = .parserRule ∧ options ≠ []
    · simp [lost.1, lost.2]
    · rw [if_neg lost]
      tauto
  · rw [after]
    split
    · exact fun _ => rfl
    · exact fun differ => absurd rfl differ
  · rw [opensCharSet_iff, past_add, past_scope, after]
    split
    · rename_i lost
      rw [Scope.afterAll_outside plain]
      simp [lost.1, lost.2, optionsBlock_eq_empty]
    · rename_i kept
      have inside : s.scope ∈ [Scope.lexerRule, .parserRule] := by
        cases found : s.scope <;> simp_all [Scope.isOpen]
      rw [Scope.afterAll_rule inside plain, Ne, optionsBlock_eq_empty]
      tauto

def oneOption : List Kind := [.optionsOpen, .ruleRef, .assign, .ruleRef, .semicolon, .rightBrace]

theorem derives_oneOption : Derives Category.optionsSpec.form oneOption := by
  have name : ∀ index, Derives (.call index .identifier) [.ruleRef] :=
    fun index => .call (.oneOf (by simp))
  have value : Derives Category.optionValue.form ([.ruleRef] ++ []) :=
    .choice (.left (.seq (name _) (.star .stop)))
  have option : Derives Category.option.form ([.ruleRef] ++ ([.assign] ++ [.ruleRef])) :=
    .seq (name _) (.seq .token (.call value))
  exact .seq .token (.seq (.star (.round (.seq (.call option) .token) .stop)) .token)

/-- A block before the first rule. -/
theorem scope_past_optionsBlock_outside :
    mainKinds ((start "options\x7ba=b;\x7d".toList).upcoming 6) = oneOption ∧
    ((start "options\x7ba=b;\x7d".toList).past 6).scope = .outside := by
  have kinds : mainKinds ((start "options\x7ba=b;\x7d".toList).upcoming 6) = oneOption := by cbv
  exact ⟨kinds, (scope_past_optionsBlock _ 6 rfl (kinds ▸ derives_oneOption)).1.mpr
    (Or.inl (by simp [start]))⟩

/-- Behind the name of a parser rule that sets an option, and refers to another rule with an
argument. -/
def optionedRule : Scanner := (start "r options\x7ba=b;\x7d:T s[x];".toList).past 2

/-- The option ends the rule for the scanner, and the argument is read as a character set. -/
theorem optionsBlock_ends_parserRule :
    optionedRule.scope = .parserRule ∧
    Derives Category.optionsSpec.form (mainKinds (optionedRule.upcoming 6)) ∧
    (optionedRule.past 6).scope = .outside ∧
    (optionedRule.upcoming 11).getLast?.map (fun token => (token.kind, token.text)) =
      some (.lexerCharSet, "[x]") := by
  have kinds : mainKinds (optionedRule.upcoming 6) = oneOption := by cbv
  refine ⟨by cbv, ?_, by cbv, by cbv⟩
  rw [kinds]
  exact derives_oneOption

end Scanner

end GrammarLint.Lexical
