import GrammarLint.Command.Lint
import GrammarLint.Proofs.CheckRuns

open List

namespace GrammarLint

open Text (Loose)

namespace Issue

variable {issues others : List Issue}

theorem mem_settle {issue : Issue} : issue ∈ settle issues ↔ issue ∈ issues := by
  simp [settle, ← mem_flatten]

/-- Issues are put in order apart from others where no missing end of file is behind another. -/
theorem settle_append
    (apart : ∀ a ∈ issues, ∀ b ∈ others, ¬ (a.rule = Check.endOfFile.id ∧ b.rule = Check.endOfFile.id)) :
    settle (issues ++ others) = settle issues ++ settle others := by
  rw [settle, splitBy_append, flatMap_append]
  · rfl
  · intro a last b first
    simpa using apart a (mem_of_getLast? last) b (mem_of_head? first)

theorem settle_endOfFile (own : ∀ issue ∈ issues, issue.rule = Check.endOfFile.id) :
    settle issues = issues.mergeSort before := by
  cases issues with
  | nil => simp [settle]
  | cons issue issues =>
    have chain : (issue :: issues).IsChain fun a b =>
        (a.rule == Check.endOfFile.id && b.rule == Check.endOfFile.id) = true :=
      List.Pairwise.isChain (pairwise_of_forall_mem_list fun a inA b inB => by
        simp [own a inA, own b inB])
    rw [settle, splitBy_of_isChain (by simp) chain, flatMap_singleton]

theorem settle_other (other : ∀ issue ∈ issues, issue.rule ≠ Check.endOfFile.id) :
    settle issues = issues := by
  induction issues with
  | nil => rfl
  | cons issue issues ih =>
    obtain ⟨here, later⟩ := forall_mem_cons.mp other
    have single : settle [issue] = [issue] := by simp [settle, splitBy, splitBy.loop]
    rw [← singleton_append, settle_append, single, ih later]
    intro a inside b _
    simp [mem_singleton.mp inside, here]

theorem settle_flatMap {checks : List Check} {block : Check → List Issue}
    (distinct : (checks.map (·.id)).Nodup)
    (own : ∀ check ∈ checks, ∀ issue ∈ block check, issue.rule = check.id) :
    settle (checks.flatMap block) = checks.flatMap fun check => settle (block check) := by
  induction checks with
  | nil => rfl
  | cons check checks ih =>
    obtain ⟨ownFirst, ownLater⟩ := forall_mem_cons.mp own
    obtain ⟨new, distinct⟩ := nodup_cons.mp distinct
    rw [flatMap_cons, settle_append, ih distinct ownLater, flatMap_cons]
    rintro a inFirst b inLater ⟨endFirst, endLater⟩
    obtain ⟨other, mem, inBlock⟩ := mem_flatMap.mp inLater
    have same : other.id = check.id := by
      rw [← ownLater other mem b inBlock, endLater, ← endFirst, ownFirst a inFirst]
    exact new (mem_map.mpr ⟨other, mem, same⟩)

end Issue

namespace Config

theorem rule?_adjust (config : Config) (id other : Loose) (change : RuleConfig → RuleConfig) :
    (config.adjust id change).rule? other =
      if other = id then (config.rule? other).map change else config.rule? other := by
  have sameKey : ((·.1 == other) ∘ fun entry : Loose × RuleConfig =>
      if entry.1 == id then (id, change entry.2) else entry) = (·.1 == other) := by
    funext entry
    by_cases here : entry.1 = id <;> simp [here]
  unfold rule? adjust
  rw [find?_map, sameKey]
  cases found : config.rules.find? (·.1 == other) with
  | none => simp
  | some entry =>
    have key : entry.1 = other := by simpa using find?_some found
    by_cases here : other = id <;> simp [key, here]

def without (config : Config) (id : Loose) : Config :=
  { config with rules := config.rules.filter (·.1 != id) }

theorem rule?_without (config : Config) (id other : Loose) :
    (config.without id).rule? other = if other = id then none else config.rule? other := by
  unfold rule? without
  rw [find?_filter]
  split
  · rename_i here
    simp [here]
  · rename_i apart
    have sameKey : (fun entry : Loose × RuleConfig =>
        decide ((entry.1 != id) = true ∧ (entry.1 == other) = true)) = (·.1 == other) := by
      funext entry
      by_cases key : entry.1 = other <;> simp [key, apart]
    rw [sameKey]

variable {config : Config} {name : String}

/-- Up to one check, which is off in the second, two configurations turn on the same checks with the
same settings. -/
def OffIn (config : Config) (id : Loose) (other : Config) : Prop :=
  ∀ name : String, other.enabled? name = if Loose.ofString name = id then none else config.enabled? name

theorem turn_offIn (config : Config) (id : Loose) : config.OffIn id (Command.turn config id false) := by
  intro name
  unfold enabled? Command.turn
  rw [rule?_adjust]
  split
  · cases config.rule? (Loose.ofString name) <;> simp [Json.Value.truthy]
  · rfl

theorem without_offIn (config : Config) (id : Loose) : config.OffIn id (config.without id) := by
  intro name
  unfold enabled?
  rw [rule?_without]
  split <;> rfl

theorem severityOf_enabled {rule : RuleConfig} (on : config.enabled? name = some rule) :
    config.severityOf (Loose.ofString name) = rule.severity := by
  obtain ⟨known, -⟩ := Option.filter_eq_some_iff.mp on
  simp [severityOf, known]

end Config

theorem flatMap_filter_of_nil {α β : Type} {items : List α} {f : α → List β} {p : α → Bool}
    (nothing : ∀ a ∈ items, p a = false → f a = []) : (items.filter p).flatMap f = items.flatMap f := by
  induction items with
  | nil => rfl
  | cons a items ih =>
    obtain ⟨here, later⟩ := forall_mem_cons.mp nothing
    cases kept : p a with
    | true => rw [filter_cons_of_pos kept, flatMap_cons, flatMap_cons, ih later]
    | false => rw [filter_cons_of_neg (by simp [kept]), flatMap_cons, here kept, ih later]; rfl

theorem Check.all_distinct : (Check.all.map (·.id)).Nodup := by decide

namespace Linter

variable {config : Config} {g : Grammar} {issues : List Issue}

theorem runCheck_own {check : Check} (mem : check ∈ Check.all)
    (ran : runCheck config g check = .ok issues) : ∀ issue ∈ issues, issue.rule = check.id := by
  unfold runCheck at ran
  split at ran
  · exact fun issue inside => (Check.run_attributed mem ran issue inside).rule
  · cases ran
    simp

theorem settle_blocks {block : Check → List Issue}
    (each : ∀ check ∈ Check.all, runCheck config g check = .ok (block check)) :
    Issue.settle (Check.all.map block).flatten =
      Check.all.flatMap fun check => Issue.settle (block check) := by
  rw [← flatMap_def, Issue.settle_flatMap Check.all_distinct]
  exact fun check mem => runCheck_own mem (each check mem)

/-- A run gives what each of the checks finds by itself, in their order. -/
theorem run_iff : run { config } g = .ok issues ↔
    ∃ block : Check → List Issue, (∀ check ∈ Check.all, runCheck config g check = .ok (block check)) ∧
      issues = Check.all.flatMap fun check => Issue.settle (block check) := by
  constructor
  · intro ran
    obtain ⟨found, all, same⟩ := bind_ok ran
    obtain ⟨block, rfl, each⟩ := of_mapM_eq_ok all
    cases same
    exact ⟨block, each, settle_blocks each⟩
  · rintro ⟨block, each, rfl⟩
    rw [run, mapM_eq_ok each, ok_bind, settle_blocks each]
    rfl

theorem run_of_offIn {other : Config} {id : Loose} (off : config.OffIn id other)
    (ran : run { config } g = .ok issues) :
    run { config := other } g =
      .ok (issues.filter fun issue => Loose.ofString issue.rule ≠ id) := by
  obtain ⟨block, each, rfl⟩ := run_iff.mp ran
  refine run_iff.mpr ⟨fun check => if Loose.ofString check.id = id then [] else block check, ?_, ?_⟩
  · intro check mem
    have own := each check mem
    unfold runCheck at own ⊢
    rw [off check.id]
    by_cases here : Loose.ofString check.id = id
    · simp [here]
    · simpa [here] using own
  · rw [filter_flatMap]
    refine flatMap_congr fun check mem => ?_
    have own : ∀ issue ∈ Issue.settle (block check), issue.rule = check.id := fun issue inside =>
      runCheck_own mem (each check mem) issue (Issue.mem_settle.mp inside)
    dsimp only
    by_cases here : Loose.ofString check.id = id
    · rw [if_pos here, filter_eq_nil_iff.mpr]
      · rfl
      · intro issue inside
        simp [own issue inside, here]
    · rw [if_neg here]
      refine filter_eq_self.mpr fun issue inside => ?_
      simp [own issue inside, here]

/-- The issues of a run come in blocks, one for each check that is on, each about its check alone;
and without a check the rest of them stays. -/
theorem run_independent (ran : Linter.run { config } g = .ok issues) :
    (∃ block : Check → List Issue,
      issues = (Check.all.filter fun check => (config.enabled? check.id).isSome).flatMap block ∧
      ∀ check ∈ Check.all, ∀ rule, config.enabled? check.id = some rule →
        check.issues g rule = .ok (block check) ∧
        ∀ issue ∈ block check, issue.rule = check.id ∧
          issue.severity = config.severityOf (Loose.ofString check.id) ∧ issue.file = g.file ∧
          (∃ suggestion, issue.suggestions = [suggestion]) ∧ issue.range ∈ g.ranges) ∧
    ∀ id : Loose, ∀ other ∈ [Command.turn config id false, config.without id],
      Linter.run { config := other } g =
        .ok (issues.filter fun issue => Loose.ofString issue.rule ≠ id) := by
  refine ⟨?_, ?_⟩
  · obtain ⟨block, each, rfl⟩ := run_iff.mp ran
    refine ⟨fun check => Issue.settle (block check), ?_, ?_⟩
    · refine (flatMap_filter_of_nil fun check member off => ?_).symm
      have none : config.enabled? check.id = none := by simpa using off
      have own := each check member
      rw [runCheck, none] at own
      rw [← Except.ok.inj own]
      rfl
    · intro check member rule on
      have own : check.run g rule = .ok (block check) := by simpa [runCheck, on] using each check member
      refine ⟨by rw [Check.issues, own]; rfl, fun issue inside => ?_⟩
      have about := Check.run_attributed member own issue (Issue.mem_settle.mp inside)
      refine ⟨about.rule, ?_, about.file, about.suggestion, about.range⟩
      rw [about.severity, Config.severityOf_enabled on]
  · intro id other either
    rcases mem_pair.mp either with rfl | rfl
    · exact run_of_offIn (config.turn_offIn id) ran
    · exact run_of_offIn (config.without_offIn id) ran

def misnamed : Grammar :=
  ⟨"A.g4", .parser, "A", some ⟨1, 1, 1, 1⟩, [⟨"Start", false, false, none, some ⟨2, 1, 2, 9⟩, []⟩]⟩

def fewChecks : Config :=
  { rules := [("D002", { }), ("N001", { severity := .error }), ("S001", { enabled := .bool false })] }

theorem run_independent_misnamed : ∃ issues, Linter.run { config := fewChecks } misnamed = .ok issues ∧
    issues.map (·.rule) = ["N001", "D002"] ∧
    ∃ others, Linter.run { config := Command.turn fewChecks "N001" false } misnamed = .ok others ∧
      others.map (·.rule) = ["D002"] := by
  have found : (Linter.run { config := fewChecks } misnamed).toOption.map (·.map (·.rule)) =
      some ["N001", "D002"] := by cbv
  cases ran : Linter.run { config := fewChecks } misnamed with
  | error fault => simp [ran, Except.toOption] at found
  | ok issues =>
    rw [ran] at found
    have named : issues.map (·.rule) = ["N001", "D002"] := Option.some.inj found
    refine ⟨issues, rfl, named, _, (run_independent ran).2 "N001" _ mem_cons_self, ?_⟩
    have kept : (issues.filter fun issue => Loose.ofString issue.rule ≠ "N001").map (·.rule) =
        (issues.map (·.rule)).filter fun name => Loose.ofString name ≠ "N001" := by
      rw [filter_map]
      rfl
    rw [kept, named]
    decide

end Linter

end GrammarLint
