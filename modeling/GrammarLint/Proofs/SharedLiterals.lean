import GrammarLint.Proofs.CheckLocality
import GrammarLint.Proofs.CommaLists
import GrammarLint.Proofs.EntryRules

open List

namespace GrammarLint

/-- Items sorted into groups by their keys are the same items. -/
theorem flatMap_filter_perm {α κ : Type} [BEq κ] [LawfulBEq κ] (key : α → κ) {keys : List κ} (apart : keys.Nodup)
    {items : List α} (known : ∀ a ∈ items, key a ∈ keys) :
    (keys.flatMap fun k => items.filter (key · == k)).Perm items := by
  induction keys generalizing items with
  | nil =>
    rw [eq_nil_iff_forall_not_mem.mpr fun a mem => not_mem_nil (known a mem)]
    exact .nil
  | cons k keys ih =>
    obtain ⟨new, apart⟩ := nodup_cons.mp apart
    have others : (keys.flatMap fun l => items.filter (key · == l)) =
        keys.flatMap fun l => (items.filter fun a => !(key a == k)).filter (key · == l) := by
      refine flatMap_congr fun l mem => ?_
      have differs : l ≠ k := fun same => new (same ▸ mem)
      rw [filter_filter]
      refine filter_congr fun a _ => ?_
      by_cases here : key a = l <;> simp [here, differs]
    have later := @ih apart (items.filter fun a => !(key a == k)) fun a mem => by
      obtain ⟨isItem, elsewhere⟩ := mem_filter.mp mem
      exact (mem_cons.mp (known a isItem)).resolve_left (by simpa using elsewhere)
    rw [flatMap_cons, others]
    exact (later.append_left _).trans (filter_append_perm (key · == k) items)

namespace Rule

variable {rules others : List Rule}

theorem nodup_keys_distinct (rules : List Rule) : ((distinct rules).map key).Nodup := by
  induction rules with
  | nil => exact nodup_nil
  | cons r rules ih =>
    rw [distinct, map_cons, nodup_cons]
    refine ⟨fun mem => ?_, ih.sublist (filter_sublist.map key)⟩
    obtain ⟨s, kept, sameKey⟩ := mem_map.mp mem
    have differs := (mem_filter.mp kept).2
    rw [same_iff.mpr sameKey.symm] at differs
    cases differs

theorem mem_keys_distinct {k : String × Bool × Bool} : k ∈ (distinct rules).map key ↔ k ∈ rules.map key := by
  induction rules with
  | nil => rfl
  | cons r rules ih =>
    rw [distinct, map_cons, map_cons, mem_cons, mem_cons, ← ih]
    refine or_congr_right' fun later => ⟨fun mem => ?_, fun mem => ?_⟩
    · obtain ⟨s, kept, rfl⟩ := mem_map.mp mem
      exact mem_map_of_mem (mem_filter.mp kept).1
    · obtain ⟨s, isFirst, rfl⟩ := mem_map.mp mem
      refine mem_map_of_mem (mem_filter.mpr ⟨isFirst, ?_⟩)
      rw [Bool.not_eq_true', Bool.eq_false_iff, ne_eq, same_iff]
      exact fun sameKey => later sameKey.symm

/-- The names of distinct rules depend only on which rules there are. -/
theorem names_distinct_perm (alike : ∀ r, r ∈ rules ↔ r ∈ others) :
    ((distinct rules).map (·.name)).Perm ((distinct others).map (·.name)) := by
  have keys : ((distinct rules).map key).Perm ((distinct others).map key) := by
    refine (perm_ext_iff_of_nodup (nodup_keys_distinct rules) (nodup_keys_distinct others)).mpr fun k => ?_
    rw [mem_keys_distinct, mem_keys_distinct]
    simp [alike]
  have named (rules : List Rule) : rules.map (·.name) = (rules.map key).map (·.1) := by
    rw [map_map]
    rfl
  rw [named, named]
  exact keys.map _

/-- Only one of the rules is distinct if all have the key of one of them. -/
theorem length_distinct_le_one {r : Rule} (mem : r ∈ rules) :
    (distinct rules).length ≤ 1 ↔ ∀ s ∈ rules, s.key = r.key := by
  have known := mem_keys_distinct.mpr (mem_map_of_mem mem)
  rw [← length_map (f := key)]
  constructor
  · intro short s isRule
    have also := mem_keys_distinct.mpr (mem_map_of_mem isRule)
    obtain ⟨k, single⟩ : ∃ k, (distinct rules).map key = [k] :=
      length_eq_one_iff.mp (le_antisymm short (length_pos_of_mem known))
    rw [single, mem_singleton] at known also
    exact also.trans known.symm
  · intro alike
    have single : (distinct rules).map key ⊆ [r.key] := by
      intro k isKey
      obtain ⟨s, isRule, rfl⟩ := mem_map.mp (mem_keys_distinct.mp isKey)
      exact mem_singleton.mpr (alike s isRule)
    exact ((nodup_keys_distinct rules).subperm single).length_le

end Rule

namespace Check

def elementUses (rules : List Rule) : List LiteralUse := rules.flatMap fun r => r.elements.map fun e => ⟨r, e⟩

/-- Another rule of the mode has the element as a terminal too: another by its name or by being a fragment. -/
def Shared (rules : List Rule) (use : LiteralUse) : Prop :=
  ∃ s ∈ rules, s.mode = use.rule.mode ∧ (s.name ≠ use.rule.name ∨ s.isFragment ≠ use.rule.isFragment) ∧
    ∃ e ∈ s.elements, e.type = .terminal ∧ e.text = use.element.text

instance (rules : List Rule) : DecidablePred (Shared rules) := fun use =>
  inferInstanceAs (Decidable (∃ s ∈ rules, s.mode = use.rule.mode ∧
    (s.name ≠ use.rule.name ∨ s.isFragment ≠ use.rule.isFragment) ∧
    ∃ e ∈ s.elements, e.type = .terminal ∧ e.text = use.element.text))

/-- The shared literals in lexer rules. -/
def sharedUses (g : Grammar) : List LiteralUse :=
  (elementUses g.lexerRules).filter fun use => use.element.type = .terminal ∧ use.element.isQuoted = true ∧
    2 ≤ use.element.text.length ∧ Shared g.lexerRules use

/-- The rules of the mode that have the element as a terminal. -/
def holders (rules : List Rule) (use : LiteralUse) : List Rule :=
  rules.filter fun s => s.mode == use.rule.mode && s.elements.any fun e =>
    e.type == .terminal && e.text == use.element.text

/-- How a message says which mode it is about. -/
def modePlace : Option String → String
  | some mode => if mode.isEmpty then "" else s!" in mode '{mode}'"
  | none => ""

/-- The issue on a literal, with the names of the rules that share it. -/
def literalIssue (g : Grammar) (config : RuleConfig) (mode : Option String) (literal : String) (rules : List Rule)
    (use : LiteralUse) : Issue :=
  let names := Text.sortedCommaList ((Rule.distinct rules).map (·.name))
  .of "S003" g config use.element.range
    s!"String literal {literal} is ambiguous{modePlace mode} (used in multiple lexer rules: {names})"
    "Use unique string literals or consolidate rules"
    s!"Consider using a shared token rule for {literal}"

def sharedIssue (g : Grammar) (config : RuleConfig) (use : LiteralUse) : Issue :=
  literalIssue g config use.rule.mode use.element.text (holders g.lexerRules use) use

section Groups

variable {g : Grammar} {config : RuleConfig} {mode : Option String} {literal : String} {use : LiteralUse}

theorem mem_elementUses {rules : List Rule} :
    use ∈ elementUses rules ↔ use.rule ∈ rules ∧ use.element ∈ use.rule.elements := by
  simp only [elementUses, mem_flatMap, mem_map]
  constructor
  · rintro ⟨r, isRule, e, inside, rfl⟩
    exact ⟨isRule, inside⟩
  · rintro ⟨isRule, inside⟩
    exact ⟨use.rule, isRule, use.element, inside, rfl⟩

/-- The literals of a mode are picked from the elements of all rules. -/
theorem literalUses_eq_filter (rules : List Rule) (mode : Option String) :
    literalUses rules mode = (elementUses rules).filter fun use =>
      (use.element.isLiteral && decide (2 ≤ use.element.text.length)) && use.rule.mode == mode := by
  induction rules with
  | nil => rfl
  | cons r rules ih =>
    have first : (r.elements.map (LiteralUse.mk r)).filter (fun use =>
        (use.element.isLiteral && decide (2 ≤ use.element.text.length)) && use.rule.mode == mode) =
          if r.mode == mode then
            (r.elements.filter fun e => e.isLiteral && decide (2 ≤ e.text.length)).map (LiteralUse.mk r)
          else [] := by
      rw [filter_map]
      cases here : r.mode == mode <;> simp [Function.comp_def, here]
    rw [elementUses, flatMap_cons, filter_append, first, ← elementUses, ← ih, literalUses,
      filter_cons]
    split <;> simp [literalUses]

/-- The uses of one literal in a mode. -/
def group (g : Grammar) (mode : Option String) (literal : String) : List LiteralUse :=
  (literalUses g.lexerRules mode).filter (·.element.text == literal)

theorem mem_group : use ∈ group g mode literal ↔ use.rule ∈ g.lexerRules ∧ use.element ∈ use.rule.elements ∧
    use.rule.mode = mode ∧ use.element.text = literal ∧ use.element.type = .terminal ∧
    use.element.isQuoted = true ∧ 2 ≤ use.element.text.length := by
  rw [group, literalUses_eq_filter]
  simp only [mem_filter, mem_elementUses, Element.isLiteral, Bool.and_eq_true, beq_iff_eq, decide_eq_true_iff]
  tauto

theorem mem_holders {rules : List Rule} {r : Rule} : r ∈ holders rules use ↔ r ∈ rules ∧ r.mode = use.rule.mode ∧
    ∃ e ∈ r.elements, e.type = .terminal ∧ e.text = use.element.text := by
  simp [holders]

/-- The rules of a group are those that have the literal as a terminal. -/
theorem mem_rules_group (mem : use ∈ group g mode literal) {r : Rule} :
    r ∈ (group g mode literal).map (·.rule) ↔ r ∈ holders g.lexerRules use := by
  obtain ⟨-, -, rfl, rfl, -, quoted, long⟩ := mem_group.mp mem
  rw [mem_map, mem_holders]
  constructor
  · rintro ⟨other, inGroup, rfl⟩
    obtain ⟨isRule, inside, inMode, text, terminal, -⟩ := mem_group.mp inGroup
    exact ⟨isRule, inMode, other.element, inside, terminal, text⟩
  · rintro ⟨isRule, inMode, e, inside, terminal, text⟩
    refine ⟨⟨r, e⟩, mem_group.mpr ⟨isRule, inside, inMode, text, terminal, ?_, text ▸ long⟩, rfl⟩
    rw [Element.isQuoted, text]
    exact quoted

/-- There are several rules in a group if its literal is shared. -/
theorem length_distinct_group (mem : use ∈ group g mode literal) :
    (Rule.distinct ((group g mode literal).map (·.rule))).length ≤ 1 ↔ ¬ Shared g.lexerRules use := by
  have isRule := (mem_group.mp mem).1
  rw [Rule.length_distinct_le_one (mem_map_of_mem mem), Shared]
  have lexer {r : Rule} (inRules : r ∈ g.lexerRules) : r.isLexer = true := (mem_filter.mp inRules).2
  constructor
  · rintro alike ⟨s, isOther, inMode, differs, e, inside, terminal, text⟩
    have holds : s ∈ holders g.lexerRules use := mem_holders.mpr ⟨isOther, inMode, e, inside, terminal, text⟩
    have key := alike s ((mem_rules_group mem).mpr holds)
    simp only [Rule.key, Prod.mk.injEq] at key
    exact differs.elim (· key.1) (· key.2.2)
  · intro alone s inGroup
    obtain ⟨isOther, inMode, e, inside, terminal, text⟩ := mem_holders.mp ((mem_rules_group mem).mp inGroup)
    by_contra differs
    refine alone ⟨s, isOther, inMode, ?_, e, inside, terminal, text⟩
    by_contra same
    push Not at same
    exact differs (by rw [Rule.key, Rule.key, same.1, same.2, lexer isOther, lexer isRule])

/-- The issues on a group. -/
def groupIssues (g : Grammar) (config : RuleConfig) (mode : Option String) (literal : String) : List Issue :=
  let rules := (group g mode literal).map (·.rule)
  if (Rule.distinct rules).length ≤ 1 then []
  else (group g mode literal).map (literalIssue g config mode literal rules)

theorem sharedLiteral_run_eq (g : Grammar) (config : RuleConfig) : sharedLiteral.run g config =
    .ok ((g.lexerRules.map (·.mode)).eraseDups.flatMap fun mode =>
      ((literalUses g.lexerRules mode).map (·.element.text)).eraseDups.flatMap fun literal =>
        groupIssues g config mode literal) := rfl

/-- The shared literals of a group. -/
theorem filter_group (g : Grammar) (mode : Option String) (literal : String) :
    (group g mode literal).filter (fun use => Shared g.lexerRules use) =
      ((sharedUses g).filter (·.rule.mode == mode)).filter (·.element.text == literal) := by
  rw [group, literalUses_eq_filter, sharedUses]
  simp only [filter_filter]
  refine filter_congr fun use _ => ?_
  rw [Bool.eq_iff_iff]
  simp only [Element.isLiteral, Bool.and_eq_true, beq_iff_eq, decide_eq_true_iff]
  tauto

/-- The literal of a group is shared by all its uses or by none. -/
theorem groupIssues_eq (g : Grammar) (config : RuleConfig) (mode : Option String) (literal : String) :
    groupIssues g config mode literal =
      ((group g mode literal).filter fun use => Shared g.lexerRules use).map (sharedIssue g config) := by
  rw [groupIssues]
  split
  · rename_i single
    have alone : (group g mode literal).filter (fun use => Shared g.lexerRules use) = [] := by
      refine filter_eq_nil_iff.mpr fun use mem => ?_
      simpa using (length_distinct_group mem).mp single
    rw [alone, map_nil]
  · rename_i several
    have every : (group g mode literal).filter (fun use => Shared g.lexerRules use) = group g mode literal := by
      refine filter_eq_self.mpr fun use mem => ?_
      simpa using (not_congr (length_distinct_group mem)).mp several
    rw [every]
    refine map_congr_left fun use mem => ?_
    obtain ⟨-, -, rfl, rfl, -⟩ := mem_group.mp mem
    have names := Text.sortedCommaList_eq_of_perm (Rule.names_distinct_perm fun r =>
      mem_rules_group mem)
    simp [sharedIssue, literalIssue, names]

/-- All shared literals stand in groups. -/
theorem groups_perm (g : Grammar) :
    ((g.lexerRules.map (·.mode)).eraseDups.flatMap fun mode =>
      ((literalUses g.lexerRules mode).map (·.element.text)).eraseDups.flatMap fun literal =>
        ((sharedUses g).filter (·.rule.mode == mode)).filter (·.element.text == literal)).Perm (sharedUses g) := by
  have modes : ∀ use ∈ sharedUses g, use.rule.mode ∈ (g.lexerRules.map (·.mode)).eraseDups := by
    intro use mem
    rw [mem_eraseDups]
    exact mem_map_of_mem (mem_elementUses.mp (mem_filter.mp mem).1).1
  have literals (mode : Option String) : ∀ use ∈ (sharedUses g).filter (·.rule.mode == mode),
      use.element.text ∈ ((literalUses g.lexerRules mode).map (·.element.text)).eraseDups := by
    intro use mem
    have inGroup : use ∈ (group g mode use.element.text).filter (fun use => Shared g.lexerRules use) := by
      rw [filter_group]
      exact mem_filter.mpr ⟨mem, beq_self_eq_true _⟩
    rw [mem_eraseDups]
    exact mem_map_of_mem (mem_filter.mp (mem_filter.mp inGroup).1).1
  refine .trans (.flatMap_left _ fun mode _ => ?_)
    (flatMap_filter_perm (fun use : LiteralUse => use.rule.mode) (Text.nodup_eraseDups _) modes)
  exact flatMap_filter_perm (fun use : LiteralUse => use.element.text) (Text.nodup_eraseDups _) (literals mode)

end Groups

section Order

variable {g : Grammar} {rules : List Rule}

theorem shared_congr {others : List Rule} (alike : ∀ r, r ∈ rules ↔ r ∈ others) {use : LiteralUse} :
    Shared rules use ↔ Shared others use := by
  simp [Shared, alike]

theorem sharedUses_perm (perm : g.rules.Perm rules) : (sharedUses g).Perm (sharedUses (g.withRules rules)) := by
  have lexer : g.lexerRules.Perm (g.withRules rules).lexerRules := perm.filter _
  have decisions : (sharedUses g) = (elementUses g.lexerRules).filter fun use => use.element.type = .terminal ∧
      use.element.isQuoted = true ∧ 2 ≤ use.element.text.length ∧ Shared (g.withRules rules).lexerRules use := by
    simp [sharedUses, shared_congr fun r => lexer.mem_iff (a := r)]
  rw [decisions]
  exact (lexer.flatMap_right _).filter _

theorem sharedIssue_perm (perm : g.rules.Perm rules) (config : RuleConfig) :
    sharedIssue (g.withRules rules) config = sharedIssue g config := by
  funext use
  have held : (holders g.lexerRules use).Perm (holders (g.withRules rules).lexerRules use) := (perm.filter _).filter _
  have names := Text.sortedCommaList_eq_of_perm (Rule.names_distinct_perm fun r => held.mem_iff (a := r))
  simp [sharedIssue, literalIssue, names, Issue.of_withRules]

end Order

/-- There is one issue for each literal that lexer rules share, at the place of its element, and it does not
matter in which order the rules stand. -/
theorem sharedLiteral_reports (g : Grammar) (config : RuleConfig) : ∃ issues, sharedLiteral.run g config = .ok issues ∧
    issues.Perm ((sharedUses g).map (sharedIssue g config)) ∧
    (∀ use, (sharedIssue g config use).range = use.element.range) ∧
    ∀ rules, g.rules.Perm rules → ∃ others, sharedLiteral.run (g.withRules rules) config = .ok others ∧
      issues.Perm others := by
  have found (g : Grammar) : ∃ issues, sharedLiteral.run g config = .ok issues ∧
      issues.Perm ((sharedUses g).map (sharedIssue g config)) := by
    refine ⟨_, sharedLiteral_run_eq g config, ?_⟩
    simp only [groupIssues_eq, filter_group, ← map_flatMap]
    exact (groups_perm g).map _
  obtain ⟨issues, run, same⟩ := found g
  refine ⟨issues, run, same, fun _ => rfl, fun rules perm => ?_⟩
  obtain ⟨others, runOthers, sameOthers⟩ := found (g.withRules rules)
  rw [sharedIssue_perm perm] at sameOthers
  exact ⟨others, runOthers, same.trans (((sharedUses_perm perm).map _).trans sameOthers.symm)⟩

/-- A rule that has a literal twice, a fragment of the same name with that literal, and a rule of another mode
with it. -/
def repeatedLiteral : Grammar where
  file := "L.g4"
  kind := .lexer
  name := "L"
  range := none
  rules := [⟨"A", true, false, none, none,
      [⟨[⟨"'x'", none, none, .terminal⟩, ⟨"'x'", none, none, .terminal⟩], none, none⟩]⟩,
    ⟨"A", true, true, none, none, [⟨[⟨"'x'", none, none, .terminal⟩], none, none⟩]⟩,
    ⟨"B", true, false, some "M", none, [⟨[⟨"'x'", none, none, .terminal⟩], none, none⟩]⟩]

/-- The literal of the other mode is not shared. -/
theorem sharedLiteral_reports_repeatedLiteral : (sharedUses repeatedLiteral).length = 3 ∧
    repeatedLiteral.rules.Perm repeatedLiteral.rules.reverse ∧
    ∃ issues others, sharedLiteral.run repeatedLiteral {} = .ok issues ∧
      issues.Perm ((sharedUses repeatedLiteral).map (sharedIssue repeatedLiteral {})) ∧
      sharedLiteral.run (repeatedLiteral.withRules repeatedLiteral.rules.reverse) {} = .ok others ∧
      issues.Perm others := by
  have perm : repeatedLiteral.rules.Perm repeatedLiteral.rules.reverse := (reverse_perm _).symm
  obtain ⟨issues, run, same, -, reordered⟩ := sharedLiteral_reports repeatedLiteral {}
  obtain ⟨others, runOthers, sameOthers⟩ := reordered _ perm
  exact ⟨by decide, perm, issues, others, run, same, runOthers, sameOthers⟩

end Check

end GrammarLint
