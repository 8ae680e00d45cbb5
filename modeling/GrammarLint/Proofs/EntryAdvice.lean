import GrammarLint.Proofs.EntryRules

open List

namespace GrammarLint

open Text (Loose)

def Element.endOfFile (range : Option Range) : Element := ⟨"EOF", range, none, .tokenRef⟩

/-- The alternatives with the end of file behind the last one, or as the only one. -/
def Alternative.endLast (range : Option Range) : List Alternative → List Alternative
  | [] => [⟨[.endOfFile range], none, range⟩]
  | [last] => [{ last with elements := last.elements ++ [.endOfFile range] }]
  | first :: second :: rest => first :: endLast range (second :: rest)

def Rule.endInput (range : Option Range) (r : Rule) : Rule :=
  { r with alternatives := Alternative.endLast range r.alternatives }

section EndInput

variable (range : Option Range) (r : Rule) (alternatives : List Alternative)

theorem Alternative.elements_endLast :
    (endLast range alternatives).flatMap (·.elements) = alternatives.flatMap (·.elements) ++ [.endOfFile range] := by
  induction alternatives using Alternative.endLast.induct with
  | case1 => rfl
  | case2 last => simp [endLast]
  | case3 first second rest ih => simp [endLast, ih]

/-- The end of file is no reference to a rule. -/
theorem Rule.endInput_references : (r.endInput range).references = r.references := by
  have refers : Check.refersToRule (.endOfFile range) = false := rfl
  simp [references, elements, endInput, Alternative.elements_endLast, refers]

theorem Alternative.getLast?_endLast :
    ∃ last ∈ endLast range alternatives, last.elements.getLast? = some (.endOfFile range) := by
  induction alternatives using Alternative.endLast.induct with
  | case1 => exact ⟨_, mem_singleton_self _, rfl⟩
  | case2 last => exact ⟨_, mem_singleton_self _, getLast?_concat⟩
  | case3 first second rest ih =>
    obtain ⟨last, mem, ends⟩ := ih
    exact ⟨last, mem_cons_of_mem _ mem, ends⟩

theorem Check.endsInEndOfFile_endInput : endsInEndOfFile (r.endInput range) = true := by
  obtain ⟨last, mem, ends⟩ := Alternative.getLast?_endLast range r.alternatives
  have upper : Text.toUpper ['E', 'O', 'F'] = ['E', 'O', 'F'] := by decide +kernel
  exact any_eq_true.mpr ⟨last, mem, by simp [ends, Element.endOfFile, upper]⟩

end EndInput

namespace Check

/-- A rule is a main rule where it stands. Unless main rules are named, of several rules of one key only the
first is one. -/
def isEntryAt (g : Grammar) (names : List Loose) (place : List Rule × Rule) : Bool :=
  !place.2.isLexer &&
    if names.isEmpty then looksLikeEntry g.parserRules place.2 && !place.1.any (·.same place.2)
    else names.any (· == place.2.name)

/-- A rule is reported where it stands. -/
def reportsAt (g : Grammar) (config : RuleConfig) (names : List Loose) (place : List Rule × Rule) : Bool :=
  config.enabled.truthy && g.kind != .lexer && isEntryAt g names place && !endsInEndOfFile place.2

/-- A rule after the advice: with the end of file at its end, if it was reported. -/
def advised (g : Grammar) (config : RuleConfig) (names : List Loose) (range : Option Range)
    (place : List Rule × Rule) : Rule :=
  if reportsAt g config names place then place.2.endInput range else place.2

def followAdvice (g : Grammar) (config : RuleConfig) (names : List Loose) (range : Option Range) : Grammar :=
  { g with rules := changeAt (advised g config names range) g.rules }

variable {g : Grammar} {config : RuleConfig} {names : List Loose}

theorem map_snd_filter_withEarlier {α : Type} (keep : α → Bool) (items : List α) :
    ((withEarlier [] items).filter fun place => keep place.2).map (·.2) = items.filter keep := by
  conv_rhs => rw [← map_snd_withEarlier [] items, filter_map]
  rfl

/-- The main rules, where names are listed or nothing is. -/
theorem entryRules_listed (g : Grammar) (names : List Loose) :
    entryRules g.parserRules (.arr (names.map .str)) =
      .ok (((withEarlier [] g.rules).filter (isEntryAt g names)).map (·.2)) := by
  cases names with
  | nil =>
    have byKey (r s : Rule) (same : r.key = s.key) :
        (looksLikeEntry g.parserRules r && !r.isLexer) = (looksLikeEntry g.parserRules s && !s.isLexer) := by
      have flag : r.isLexer = s.isLexer := congrArg (·.2.1) same
      rw [flag, looksLikeEntry_congr rfl rfl same]
    have first := Rule.distinct_filter byKey [] g.rules
    simp only [any_nil, Bool.not_false, filter_true] at first
    have entry : isEntryAt g [] = fun place =>
        looksLikeEntry g.parserRules place.2 && !place.2.isLexer && !place.1.any (·.same place.2) := by
      funext place
      simp only [isEntryAt, isEmpty_nil, if_true]
      ac_rfl
    rw [entry, first, ← filter_filter]
    rfl
  | cons name names =>
    have named (r : Rule) : isNamedBy r.name (.arr ((name :: names).map .str)) =
        .ok ((name :: names).any (· == r.name)) := by
      simp only [isNamedBy, any_map]
      rfl
    have entry : isEntryAt g (name :: names) = fun place =>
        (name :: names).any (· == place.2.name) && !place.2.isLexer := by
      funext place
      simp [isEntryAt, Bool.and_comm]
    have listing : (Json.Value.arr ((name :: names).map .str)).truthy = true := rfl
    rw [entryRules, filterM_eq_filter named, entry,
      map_snd_filter_withEarlier (fun r : Rule => (name :: names).any (· == r.name) && !r.isLexer), ← filter_filter]
    rfl

/-- The reports are those of the rules that are reported where they stand. -/
theorem endOfFile_run_listed (listed : config.threshold "mainRules" (.arr []) = .ok (.arr (names.map .str))) :
    endOfFile.run g config = .ok (((withEarlier [] g.rules).filter (reportsAt g config names)).map fun place =>
      entryIssue g config place.2) := by
  have reports (place : List Rule × Rule) : reportsAt g config names place =
      (!(!config.enabled.truthy || g.kind == .lexer) && (!endsInEndOfFile place.2 && isEntryAt g names place)) := by
    simp only [reportsAt, Bool.not_or, Bool.not_not, bne]
    ac_rfl
  rw [endOfFile_run listed (entryRules_listed g names), funext reports]
  cases !config.enabled.truthy || g.kind == .lexer with
  | true => simp
  | false =>
    simp only [Bool.false_eq_true, if_false, Bool.not_false, Bool.true_and, filter_map, map_map,
      ← filter_filter]
    rfl

section Followed

variable {range : Option Range} (place : List Rule × Rule)

variable (g config names range) in
theorem advised_key (place : List Rule × Rule) : (advised g config names range place).key = place.2.key := by
  unfold advised
  split <;> rfl

theorem advised_references :
    (advised g config names range place).references = place.2.references := by
  unfold advised
  split
  · exact Rule.endInput_references range place.2
  · rfl

/-- What the advice leaves as it is in each rule, it leaves as it is in all of them. -/
theorem map_changeAt {β : Type} {view : Rule → β}
    (keeps : ∀ place, view (advised g config names range place) = view place.2) (rules : List Rule) :
    (changeAt (advised g config names range) rules).map view = rules.map view := by
  have same : view ∘ advised g config names range = view ∘ (·.2) := funext keeps
  rw [changeAt, map_map, same, ← map_map, map_snd_withEarlier]

theorem looksLikeEntry_followAdvice :
    looksLikeEntry (followAdvice g config names range).parserRules (advised g config names range place) =
      looksLikeEntry g.parserRules place.2 := by
  have key := advised_key g config names range
  refine looksLikeEntry_congr ?_ ?_ (key place)
  · have byKey (rules : List Rule) : (rules.filter (!·.isLexer)).map Rule.key =
        (rules.map Rule.key).filter (!·.2.1) := by
      rw [filter_map]
      rfl
    rw [Grammar.parserRules, Grammar.parserRules, byKey, byKey, followAdvice, map_changeAt key]
  · -- which rules are parser rules is part of what stays as it is
    let view (r : Rule) := (r.isLexer, r.references)
    have byView (rules : List Rule) : (rules.filter (!·.isLexer)).flatMap Rule.references =
        ((rules.map view).filter (!·.1)).flatMap (·.2) := by
      rw [filter_map, flatMap_map]
      rfl
    have views := @map_changeAt g config names range _ view fun place =>
      Prod.ext (congrArg (·.2.1) (key place)) (advised_references place)
    rw [Grammar.parserRules, Grammar.parserRules, byView, byView, followAdvice, views]

theorem isEntryAt_followAdvice :
    isEntryAt (followAdvice g config names range) names
        (changeAt (advised g config names range) place.1, advised g config names range place) =
      isEntryAt g names place := by
  have key := advised_key g config names range
  have byKey (rules : List Rule) (r : Rule) : rules.any (·.same r) = (rules.map Rule.key).any (· == r.key) := by
    rw [any_map]
    rfl
  have earlier : (changeAt (advised g config names range) place.1).any (·.same (advised g config names range place)) =
      place.1.any (·.same place.2) := by
    rw [byKey, byKey, map_changeAt key, key]
  have flag : (advised g config names range place).isLexer = place.2.isLexer := congrArg (·.2.1) (key place)
  have name : (advised g config names range place).name = place.2.name := congrArg (·.1) (key place)
  simp [isEntryAt, looksLikeEntry_followAdvice, earlier, flag, name]

/-- No rule is reported any more where it stands after the advice. -/
theorem reportsAt_followAdvice :
    reportsAt (followAdvice g config names range) config names
      (changeAt (advised g config names range) place.1, advised g config names range place) = false := by
  rw [reportsAt, isEntryAt_followAdvice]
  cases reported : reportsAt g config names place with
  | true => simp [advised, reported, endsInEndOfFile_endInput]
  | false =>
    have unchanged : advised g config names range place = place.2 := by simp [advised, reported]
    rw [unchanged]
    exact reported

/-- The reports are those of the rules that are reported where they stand, and after the end of file is put at
the end of each of these rules, nothing is reported. -/
theorem endOfFile_silenced (g : Grammar) (config : RuleConfig) (names : List Loose) (range : Option Range)
    (listed : config.threshold "mainRules" (.arr []) = .ok (.arr (names.map .str))) :
    endOfFile.run g config = .ok (((withEarlier [] g.rules).filter (reportsAt g config names)).map fun place =>
      entryIssue g config place.2) ∧
    endOfFile.run (followAdvice g config names range) config = .ok [] := by
  refine ⟨endOfFile_run_listed listed, ?_⟩
  have nothing : (withEarlier [] (followAdvice g config names range).rules).filter
      (reportsAt (followAdvice g config names range) config names) = [] := by
    refine filter_eq_nil_iff.mpr fun place member => ?_
    rw [followAdvice, withEarlier_changeAt] at member
    obtain ⟨before, -, rfl⟩ := mem_map.mp member
    rw [reportsAt_followAdvice]
    exact Bool.false_ne_true
  rw [endOfFile_run_listed listed, nothing]
  rfl

end Followed

/-- Two parser rules of one name without alternatives, and a third one that refers to them. -/
def twinRules : Grammar :=
  let rule (name : String) (alternatives : List Alternative) : Rule :=
    ⟨name, false, false, none, none, alternatives⟩
  ⟨"G.g4", .parser, "G", none, [rule "start" [], rule "start" [],
    rule "main" [⟨[⟨"start", none, none, .ruleRef⟩], none, none⟩]]⟩

/-- Of the two rules of one name only the first is reported. -/
theorem endOfFile_silenced_twinRules :
    RuleConfig.threshold {} "mainRules" (.arr []) = .ok (.arr (([] : List Loose).map .str)) ∧
    ((withEarlier [] twinRules.rules).filter (reportsAt twinRules {} [])).map (fun place =>
      (place.1.length, place.2.name)) = [(0, "start"), (2, "main")] ∧
    endOfFile.run (followAdvice twinRules {} [] none) {} = .ok [] := by
  have unset : RuleConfig.threshold {} "mainRules" (.arr []) = .ok (.arr (([] : List Loose).map .str)) := rfl
  exact ⟨unset, by decide +kernel, (endOfFile_silenced twinRules {} [] none unset).2⟩

end Check

end GrammarLint
