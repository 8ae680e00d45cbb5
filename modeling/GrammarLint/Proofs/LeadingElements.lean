import GrammarLint.Proofs.RangeNesting
import GrammarLint.Proofs.RuleShapes

open List

namespace GrammarLint

/-- A message, and the same with other literals in a part of it. -/
def Text.Reworded (σ : String → String) (message other : String) : Prop :=
  ∃ front quoted back, message = front ++ quoted ++ back ∧ other = front ++ reword σ quoted ++ back

namespace Text.Reworded

variable {σ : String → String} {message other : String}

theorem refl (σ : String → String) (message : String) : Reworded σ message message :=
  ⟨message, "", "", by simp, by simp [reword, stretches, stretchesFrom]⟩

theorem behind (reworded : Reworded σ message other) (before : String) :
    Reworded σ (before ++ message) (before ++ other) := by
  obtain ⟨front, quoted, back, rfl, rfl⟩ := reworded
  exact ⟨before ++ front, quoted, back, by simp [String.append_assoc], by simp [String.append_assoc]⟩

end Text.Reworded

/-- An issue, and the same at another place and with other literals in its message. -/
structure Issue.Reworded (σ : String → String) (h : Range → Range) (issue other : Issue) : Prop where
  rule : other.rule = issue.rule
  severity : other.severity = issue.severity
  message : Text.Reworded σ issue.message other.message
  file : other.file = issue.file
  range : other.range = issue.range.map h
  suggestions : other.suggestions = issue.suggestions

/-- Two alternatives side by side: the second begins like the first, but for its literals. -/
structure SameLead (σ : String → String) (literals : List String) (side : Alternative × Alternative) :
    Prop where
  text : side.2.firstText? = side.1.firstText?.map (Text.reword σ)
  worded : ∀ s ∈ side.1.firstText?, Text.Worded literals s

/-- The first elements of alternatives have the same operators, if there are any. -/
theorem operators_firstText? {a b : Alternative} (alike : List.Forall₂ Element.Alike a.elements b.elements) :
    b.firstText?.map (Text.operators ·.toList) = a.firstText?.map (Text.operators ·.toList) := by
  obtain ⟨elements, label, range⟩ := a
  obtain ⟨elements', label', range'⟩ := b
  cases alike with
  | nil => rfl
  | cons here _ => exact congrArg some here.operators

def Distinct (alternatives : List Alternative) : Prop :=
  alternatives.Pairwise fun a b => a.elements ≠ [] → b.elements ≠ [] → a ≠ b

theorem Distinct.ne {α : Type} {items : List α} {f : α → Alternative} (distinct : Distinct (items.map f))
    {x y : α} (inX : x ∈ items) (inY : y ∈ items) (other : x ≠ y) (someX : (f x).elements ≠ [])
    (someY : (f y).elements ≠ []) : f x ≠ f y := by
  have symmetric : Std.Symm fun x y => (f x).elements ≠ [] → (f y).elements ≠ [] → f x ≠ f y :=
    ⟨fun x y apart someY someX same => apart someX someY same.symm⟩
  exact (pairwise_map.mp distinct).forall inX inY other someX someY

/-- In a rule with its ranges nested no element is found twice. -/
theorem Rule.Nested.distinct {r : Rule} (nested : r.Nested) : Distinct r.alternatives := by
  obtain ⟨whole, -, -, each⟩ := nested.inside
  refine (pairwise_flatMap.mp nested.ordered).2.imp_of_mem fun {a b} inA _ apart some _ same => ?_
  obtain ⟨e, mem⟩ := exists_mem_of_ne_nil _ some
  obtain ⟨range, isRange, order, -⟩ := each e (mem_flatMap.mpr ⟨a, inA, mem⟩)
  exact absurd (apart e mem e (same ▸ mem) range isRange range isRange) (not_lt.mpr order)

namespace Check

section Pairs

variable {σ : String → String} {literals : List String} (substitution : Substitution σ literals)
  {x y : Alternative × Alternative} (leadX : SameLead σ literals x) (leadY : SameLead σ literals y)

include substitution leadX

theorem firstText?_eq_some_iff {name : String} (quiet : Text.Quiet name.toList) :
    x.2.firstText? = some name ↔ x.1.firstText? = some name := by
  rw [leadX.text]
  cases first : x.1.firstText? with
  | none => simp
  | some s =>
    have iff := (leadX.worded s first).reword_eq_iff substitution.literal substitution.injective
      (.of_quiet quiet literals)
    rw [Text.reword_quiet quiet] at iff
    simpa using iff

include leadY

theorem startAlike_lead : startAlike x.2 y.2 = startAlike x.1 y.1 := by
  unfold startAlike
  rw [leadX.text, leadY.text]
  cases first : x.1.firstText? with
  | none => rfl
  | some s =>
    cases second : y.1.firstText? with
    | none => rfl
    | some t =>
      have iff := (leadX.worded s first).reword_eq_iff substitution.literal substitution.injective
        (leadY.worded t second)
      rw [Option.map_some, Option.map_some, Bool.eq_iff_iff, beq_iff_eq, beq_iff_eq]
      exact iff

/-- A pair of alternatives is found ambiguous in the same ways. -/
theorem pairAmbiguities_lead (elementsX : List.Forall₂ Element.Alike x.1.elements x.2.elements)
    (elementsY : List.Forall₂ Element.Alike y.1.elements y.2.elements) (i j : Nat) :
    List.Forall₂ (Text.Reworded σ) (pairAmbiguities (x.1, i) (y.1, j)) (pairAmbiguities (x.2, i) (y.2, j)) := by
  have same := startAlike_lead substitution leadX leadY
  have operatorsX := operators_firstText? elementsX
  have operatorsY := operators_firstText? elementsY
  unfold startAlike at same
  unfold pairAmbiguities
  rw [leadX.text] at same operatorsX ⊢
  rw [leadY.text] at same operatorsY ⊢
  cases first : x.1.firstText? with
  | none => exact .nil
  | some s =>
    cases second : y.1.firstText? with
    | none => exact .nil
    | some t =>
      simp only [first, second, Option.map_some, Option.some.injEq] at same operatorsX operatorsY ⊢
      have mark : '?' ∈ Text.operatorChars := by decide
      have optional {s s' : String} (equal : Text.operators s'.toList = Text.operators s.toList) :
          s'.toList.contains '?' = s.toList.contains '?' := by
        rw [← Text.contains_operators mark, equal, Text.contains_operators mark]
      rw [same, optional operatorsX, optional operatorsY]
      refine rel_append ?_ ?_
      · split
        · exact .cons ⟨_, s, "'", rfl, rfl⟩ .nil
        · exact .nil
      · split
        · exact .cons (.refl ..) .nil
        · exact .nil

end Pairs

section Backtracking

def opensOptional (text : String) : Bool :=
  text.toList.contains '?' && (text.toList.contains '(' || text.toList.contains ')')

theorem optionalMeets_eq_false {group : String} (other : String) (closed : opensOptional group = false) :
    optionalMeets group other = false := by
  change (opensOptional group && _) = false
  rw [closed, Bool.false_and]

/-- Where an alternative begins with an optional group, the two of each side begin with the same text. -/
def PlainGroups (sides : List (Alternative × Alternative)) : Prop :=
  (∃ side ∈ sides, side.1.firstText?.any opensOptional = true) →
    ∀ side ∈ sides, side.2.firstText? = side.1.firstText?

variable {sides : List (Alternative × Alternative)} {a b : Alternative} {x : Alternative × Alternative}

theorem optionalConflict_eq_false (closedA : a.firstText?.any opensOptional = false)
    (closedB : b.firstText?.any opensOptional = false) : optionalConflict a b = false := by
  unfold optionalConflict
  cases first : a.firstText? with
  | none => rfl
  | some s =>
    cases second : b.firstText? with
    | none => rfl
    | some t =>
      rw [first] at closedA
      rw [second] at closedB
      simp [optionalMeets_eq_false _ closedA, optionalMeets_eq_false _ closedB]

theorem opensOptional_alike (alike : List.Forall₂ Element.Alike a.elements b.elements) :
    b.firstText?.any opensOptional = a.firstText?.any opensOptional := by
  have same := operators_firstText? alike
  have known : ∀ c ∈ ['?', '(', ')'], c ∈ Text.operatorChars := by decide
  have opens : ∀ s, opensOptional s = ((Text.operators s.toList).contains '?' &&
      ((Text.operators s.toList).contains '(' || (Text.operators s.toList).contains ')')) := by
    intro s
    rw [opensOptional, Text.contains_operators (known _ (by simp)), Text.contains_operators (known _ (by simp)),
      Text.contains_operators (known _ (by simp))]
  cases first : a.firstText? <;> cases second : b.firstText? <;>
    simp_all only [Option.map_none, Option.map_some, reduceCtorEq, Option.some.injEq, Option.any_some]

theorem optionalConflict_alike (plain : PlainGroups sides)
    (elements : ∀ side ∈ sides, List.Forall₂ Element.Alike side.1.elements side.2.elements)
    {y : Alternative × Alternative} (inX : x ∈ sides) (inY : y ∈ sides) :
    optionalConflict x.2 y.2 = optionalConflict x.1 y.1 := by
  by_cases group : ∃ side ∈ sides, side.1.firstText?.any opensOptional = true
  · unfold optionalConflict
    rw [plain group x inX, plain group y inY]
  · have closed : ∀ side ∈ sides, side.1.firstText?.any opensOptional = false := by simpa using group
    have closed' : ∀ side ∈ sides, side.2.firstText?.any opensOptional = false := fun side mem =>
      (opensOptional_alike (elements side mem)).trans (closed side mem)
    rw [optionalConflict_eq_false (closed x inX) (closed y inY),
      optionalConflict_eq_false (closed' x inX) (closed' y inY)]

theorem conflictWithLater_alike {later : List (Alternative × Alternative)}
    (starts : ∀ y ∈ later, startAlike x.2 y.2 = startAlike x.1 y.1)
    (optional : ∀ y ∈ later, optionalConflict x.2 y.2 = optionalConflict x.1 y.1) :
    conflictWithLater x.2 (later.map Prod.snd) = conflictWithLater x.1 (later.map Prod.fst) := by
  induction later with
  | nil => rfl
  | cons y later ih =>
    obtain ⟨start, starts⟩ := forall_mem_cons.mp starts
    obtain ⟨conflict, optional⟩ := forall_mem_cons.mp optional
    rw [map_cons, map_cons, conflictWithLater, conflictWithLater, start, conflict, ih starts optional]

theorem conflicts_alike (starts : ∀ x ∈ sides, ∀ y ∈ sides, startAlike x.2 y.2 = startAlike x.1 y.1)
    (optional : ∀ x ∈ sides, ∀ y ∈ sides, optionalConflict x.2 y.2 = optionalConflict x.1 y.1) :
    conflicts (sides.map Prod.snd) = conflicts (sides.map Prod.fst) := by
  induction sides with
  | nil => rfl
  | cons x later ih =>
    have inside {y : Alternative × Alternative} (mem : y ∈ later) : y ∈ x :: later :=
      mem_cons_of_mem x mem
    rw [map_cons, map_cons, conflicts, conflicts,
      conflictWithLater_alike (fun y mem => starts x mem_cons_self y (inside mem))
        (fun y mem => optional x mem_cons_self y (inside mem)),
      ih (fun y inY z inZ => starts y (inside inY) z (inside inZ))
        (fun y inY z inZ => optional y (inside inY) z (inside inZ))]

theorem elements_ne_nil_of_startAlike (same : startAlike a b = true) :
    a.elements ≠ [] ∧ b.elements ≠ [] := by
  constructor <;> intro none <;> simp [startAlike, Alternative.firstText?, none] at same

/-- Another alternative that begins alike is found on both sides. -/
theorem repetitions_alike (starts : ∀ x ∈ sides, ∀ y ∈ sides, startAlike x.2 y.2 = startAlike x.1 y.1)
    (distinct : Distinct (sides.map Prod.fst)) (distinct' : Distinct (sides.map Prod.snd))
    (inX : x ∈ sides) (elements : List.Forall₂ Element.Alike x.1.elements x.2.elements) :
    repetitions (sides.map Prod.snd) x.2 = repetitions (sides.map Prod.fst) x.1 := by
  have others : ((sides.map Prod.snd).any fun b => x.2 != b && startAlike x.2 b) =
      (sides.map Prod.fst).any fun b => x.1 != b && startAlike x.1 b := by
    rw [any_map, any_map, Bool.eq_iff_iff, any_eq_true, any_eq_true]
    refine exists_congr fun y => and_congr_right fun inY => ?_
    simp only [Function.comp_apply, Bool.and_eq_true, bne_iff_ne, starts x inX y inY]
    refine and_congr_left fun alike => ?_
    obtain ⟨someX, someY⟩ := elements_ne_nil_of_startAlike alike
    obtain ⟨someX', someY'⟩ := elements_ne_nil_of_startAlike ((starts x inX y inY).trans alike)
    by_cases same : x = y
    · simp [same]
    · exact iff_of_true (distinct'.ne inX inY same someX' someY') (distinct.ne inX inY same someX someY)
  rw [repetitions, repetitions, starsInARow_alike elements, forall₂_any elements fun _ _ same => same.mentions, others]

theorem deepOptionals_alike (alike : List.Forall₂ Element.Alike a.elements b.elements) :
    deepOptionals b = deepOptionals a := by
  rw [deepOptionals, deepOptionals, nestedOptionals, nestedOptionals, optionalDepth_alike alike]

end Backtracking

section Rules

variable {σ : String → String} {literals : List String} (substitution : Substitution σ literals)
  {h : Range → Range} {sides : List (Alternative × Alternative)} {r other : Rule}
  (alike : r.Alike h sides other) (leads : ∀ side ∈ sides, SameLead σ literals side)

include substitution alike leads

theorem ambiguities_alike :
    List.Forall₂ (fun a b => Text.Reworded σ a.2 b.2) (ambiguities r) (ambiguities other) := by
  simp only [ambiguities, alternativePairs, alike.left, alike.right, zipIdx_map, pairs_map, flatMap_map]
  refine forall₂_flatMap fun pair mem => ?_
  obtain ⟨⟨x, i⟩, y, j⟩ := pair
  obtain ⟨inX, inY⟩ := mem_of_mem_pairs mem
  have isX := fst_mem_of_mem_zipIdx inX
  have isY := fst_mem_of_mem_zipIdx inY
  have found := pairAmbiguities_lead substitution (leads x isX) (leads y isY) (alike.elements x isX)
    (alike.elements y isY) i j
  simp only [Prod.map_apply, id_eq, forall₂_map_left_iff, forall₂_map_right_iff]
  exact found

theorem isLeftRecursive_alike (quiet : Text.Quiet r.name.toList) : isLeftRecursive other = isLeftRecursive r := by
  rw [isLeftRecursive, isLeftRecursive, alike.left, alike.right, any_map, any_map, alike.name,
    Bool.eq_iff_iff, any_eq_true, any_eq_true]
  refine exists_congr fun side => and_congr_right fun mem => ?_
  simpa using firstText?_eq_some_iff substitution (leads side mem) quiet

end Rules

variable {σ : String → String} {literals : List String} {h : Range → Range} {g other : Grammar}

/-- The check for ambiguity finds the same, but for the literals in its messages. -/
theorem ambiguity_alike (substitution : Substitution σ literals) (config : RuleConfig)
    (file : other.file = g.file)
    (rules : List.Forall₂ (fun r r' => ∃ sides, r.Alike h sides r' ∧ Text.Quiet r.name.toList ∧
      ∀ side ∈ sides, SameLead σ literals side) g.rules other.rules) :
    ∃ issues issues', ambiguity.run g config = .ok issues ∧ ambiguity.run other config = .ok issues' ∧
      List.Forall₂ (Issue.Reworded σ h) issues issues' := by
  have parserRules := rel_filter (p := fun r : Rule => !r.isLexer) (q := fun r : Rule => !r.isLexer)
    (fun r r' ⟨sides, alike, _⟩ => Bool.eq_iff_iff.mp (congrArg not alike.isLexer.symm)) rules
  refine ⟨_, _, rfl, rfl, rel_append (rel_flatMap parserRules fun r r' ⟨sides, alike, _, leads⟩ => ?_)
    (rel_map (fun r r' ⟨sides, alike, _⟩ => ?_)
      (rel_filter (fun r r' ⟨sides, alike, quiet, leads⟩ => ?_) parserRules))⟩
  · refine rel_map (fun a b reworded => ?_) (ambiguities_alike substitution alike leads)
    exact ⟨rfl, rfl, by rw [alike.name]; exact reworded.behind _, file, alike.range, rfl⟩
  · exact ⟨rfl, rfl, by rw [alike.name]; exact .refl .., file, alike.range, rfl⟩
  · exact Bool.eq_iff_iff.mp (isLeftRecursive_alike substitution alike leads quiet).symm

/-- The check for backtracking finds the same. -/
theorem backtracking_alike (substitution : Substitution σ literals) (config : RuleConfig)
    (file : other.file = g.file)
    (rules : List.Forall₂ (fun r r' => ∃ sides, r.Alike h sides r' ∧ r.Nested ∧ r'.Nested ∧
      (∀ side ∈ sides, SameLead σ literals side) ∧ PlainGroups sides) g.rules other.rules) :
    backtracking.run other config = (backtracking.run g config).map (map (Issue.relocate h)) := by
  refine congrArg Except.ok (flatMap_forall₂ rules fun r r' ⟨sides, alike, nested, nested', leads, plain⟩ => ?_)
  have same : backtrackings r' = backtrackings r := by
    have starts : ∀ x ∈ sides, ∀ y ∈ sides, startAlike x.2 y.2 = startAlike x.1 y.1 := fun x inX y inY =>
      startAlike_lead substitution (leads x inX) (leads y inY)
    have distinct := alike.left ▸ nested.distinct
    have distinct' := alike.right ▸ nested'.distinct
    have optional : ∀ x ∈ sides, ∀ y ∈ sides, optionalConflict x.2 y.2 = optionalConflict x.1 y.1 :=
      fun x inX y inY => optionalConflict_alike plain alike.elements inX inY
    rw [backtrackings, backtrackings, alike.left, alike.right, conflicts_alike starts optional]
    simp only [flatMap_map]
    rw [flatMap_congr fun x inX => repetitions_alike starts distinct distinct' inX (alike.elements x inX),
      flatMap_congr fun x inX => deepOptionals_alike (alike.elements x inX)]
  rw [same, map_map]
  refine map_congr_left fun slow _ => ?_
  simp [Issue.of, Issue.relocate, file, alike.name, alike.range]

end Check

end GrammarLint
