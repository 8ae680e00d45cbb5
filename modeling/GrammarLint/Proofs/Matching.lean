import Mathlib.Data.List.Induction
import GrammarLint.Lexical.Scanner

open List

namespace GrammarLint.Lexical

/-- The texts that a pattern takes. `final` tells whether the whole text ends behind them. -/
inductive Pattern.Takes : (final : Bool) → Pattern → List Char → Prop
  | char {final : Bool} {s : CharClass} {c : Char} : s.contains c = true → Takes final (.char s) [c]
  | atEnd : Takes true .atEnd []
  | empty {final : Bool} : Takes final .empty []
  | seq {final : Bool} {p q : Pattern} {u v : List Char} : Takes (final && v.isEmpty) p u →
      Takes final q v → Takes final (.seq p q) (u ++ v)
  | left {final : Bool} {p q : Pattern} {u : List Char} : Takes final p u → Takes final (.alt p q) u
  | right {final : Bool} {p q : Pattern} {u : List Char} : Takes final q u → Takes final (.alt p q) u
  | stop {final greedy : Bool} {p : Pattern} : Takes final (.many greedy p) []
  | round {final greedy : Bool} {p : Pattern} {u v : List Char} : Takes (final && v.isEmpty) p u →
      Takes final (.many greedy p) v → Takes final (.many greedy p) (u ++ v)

/-- The texts that patterns take one behind the other. -/
inductive TakesAll (final : Bool) : List Pattern → List Char → Prop
  | nil : TakesAll final [] []
  | cons {p : Pattern} {todo : List Pattern} {u v : List Char} : p.Takes (final && v.isEmpty) u →
      TakesAll final todo v → TakesAll final (p :: todo) (u ++ v)

variable {others : List Pattern} {greedy final : Bool} {next : List Thread} {thread : Thread}
  {branches : List Branch} {shape : Shape} {pending : Pending} {c : Char} {text : List Char} {p : Pattern}
  {threads : List Thread} {b : Branch}

theorem takesAll_append {todo : List Pattern} : TakesAll final (todo ++ others) text ↔
    ∃ u v, text = u ++ v ∧ TakesAll (final && v.isEmpty) todo u ∧ TakesAll final others v := by
  have flags (v w : List Char) : (final && (v ++ w).isEmpty) = (final && w.isEmpty && v.isEmpty) := by
    cases final <;> cases v <;> simp
  induction todo generalizing text with
  | nil =>
    constructor
    · exact fun all => ⟨[], text, rfl, .nil, all⟩
    · rintro ⟨_, v, rfl, ⟨⟩, all⟩
      exact all
  | cons p todo ih =>
    constructor
    · rintro (_ | @⟨_, _, u, _, one, later⟩)
      obtain ⟨v, w, rfl, first, second⟩ := ih.mp later
      exact ⟨u ++ v, w, (append_assoc ..).symm, .cons (flags v w ▸ one) first, second⟩
    · rintro ⟨_, w, rfl, all, second⟩
      cases all with
      | @cons _ _ u v one first =>
        rw [append_assoc]
        exact .cons (flags v w ▸ one) (ih.mpr ⟨v, w, rfl, first, second⟩)

theorem takesAll_singleton : TakesAll final [p] text ↔ p.Takes final text := by
  constructor
  · intro all
    cases all with
    | cons one nothing =>
      cases nothing
      simpa using one
  · intro one
    rw [← append_nil text]
    exact .cons (by simpa using one) .nil

/-- Loops can leave out rounds that take nothing. -/
theorem Pattern.Takes.many_cases (many : Takes final (.many greedy p) text) : text = [] ∨
    ∃ u v, u ≠ [] ∧ text = u ++ v ∧ p.Takes (final && v.isEmpty) u ∧ Takes final (.many greedy p) v := by
  generalize loop : Pattern.many greedy p = q at many
  induction many with
  | char _ | atEnd | empty | seq _ _ | left _ | right _ => cases loop
  | stop => exact .inl rfl
  | @round _ _ _ u v first later _ ih =>
    cases loop
    by_cases nothing : u = []
    · subst nothing
      exact ih rfl
    · exact .inr ⟨u, v, nothing, rfl, first, later⟩

theorem Pattern.takes_seq {q : Pattern} : (Pattern.seq p q).Takes final text ↔
    ∃ u v, text = u ++ v ∧ p.Takes (final && v.isEmpty) u ∧ q.Takes final v := by
  constructor
  · rintro ⟨⟩
    exact ⟨_, _, rfl, ‹_›, ‹_›⟩
  · rintro ⟨u, v, rfl, first, second⟩
    exact .seq first second

theorem Pattern.takes_alt {q : Pattern} :
    (Pattern.alt p q).Takes final text ↔ p.Takes final text ∨ q.Takes final text := by
  constructor
  · rintro (_ | _ | _)
    · exact .inl ‹_›
    · exact .inr ‹_›
  · rintro (one | two)
    · exact .left one
    · exact .right two

theorem Pattern.holdsAtEnd_iff : p.holdsAtEnd = true ↔ p.Takes true [] := by
  induction p with
  | char s => exact ⟨nofun, nofun⟩
  | atEnd => exact ⟨fun _ => .atEnd, fun _ => rfl⟩
  | empty => exact ⟨fun _ => .empty, fun _ => rfl⟩
  | seq p q first second => simp [holdsAtEnd, takes_seq, first, second]
  | alt p q first second => simp [holdsAtEnd, takes_alt, first, second]
  | many greedy p => exact ⟨fun _ => .stop, fun _ => rfl⟩

theorem takesAll_nil {todo : List Pattern} : TakesAll true todo [] ↔ todo.all Pattern.holdsAtEnd = true := by
  induction todo with
  | nil => exact ⟨fun _ => rfl, fun _ => .nil⟩
  | cons p todo ih =>
    rw [all_cons, Bool.and_eq_true, Pattern.holdsAtEnd_iff, ← ih]
    constructor
    · intro all
      rw [← singleton_append, takesAll_append] at all
      obtain ⟨u, v, nothing, one, all⟩ := all
      obtain ⟨rfl, rfl⟩ := append_eq_nil_iff.mp nothing.symm
      exact ⟨takesAll_singleton.mp one, all⟩
    · rintro ⟨one, all⟩
      exact .cons (u := []) one all

/-- The texts that a waiting thread takes. -/
def Wait.Accepts (final : Bool) : Wait → List Char → Prop
  | .done, text => text = []
  | .char s todo, text => ∃ c rest, text = c :: rest ∧ s.contains c = true ∧ TakesAll final todo rest
  | .atEnd todo, text => final = true ∧ text = [] ∧ TakesAll true todo []

def Opens (final : Bool) (threads : List Thread) (text : List Char) : Prop :=
  ∃ t ∈ threads, t.wait.Accepts final text

theorem opens_append {others : List Thread} :
    Opens final (threads ++ others) text ↔ Opens final threads text ∨ Opens final others text := by
  simp [Opens, or_and_right, exists_or]

theorem opens_flatMap {f : Thread → List Thread} :
    Opens final (threads.flatMap f) text ↔ ∃ t ∈ threads, Opens final (f t) text := by
  constructor
  · rintro ⟨t, mem, accepts⟩
    obtain ⟨origin, inThreads, made⟩ := mem_flatMap.mp mem
    exact ⟨origin, inThreads, t, made, accepts⟩
  · rintro ⟨origin, inThreads, t, made, accepts⟩
    exact ⟨t, mem_flatMap.mpr ⟨origin, inThreads, made⟩, accepts⟩

/-- Whether a thread is lazy does not matter for what it takes. -/
theorem opens_lazy {lazy : Thread → Bool} :
    Opens final (threads.map fun t => { t with lazy := lazy t }) text ↔ Opens final threads text := by
  simp only [Opens, mem_map]
  constructor
  · rintro ⟨_, ⟨t, mem, rfl⟩, accepts⟩
    exact ⟨t, mem, accepts⟩
  · rintro ⟨t, mem, accepts⟩
    exact ⟨_, ⟨t, mem, rfl⟩, accepts⟩

/-- A thread that is followed by further patterns takes what it takes itself and then a text of
theirs. -/
theorem opens_andThen {todo : List Pattern}
    (later : thread.isDone = true → ∀ v, Opens final next v ↔ TakesAll final todo v) :
    Opens final (thread.andThen todo next) text ↔
      ∃ u v, text = u ++ v ∧ thread.wait.Accepts (final && v.isEmpty) u ∧ TakesAll final todo v := by
  unfold Thread.andThen
  cases waits : thread.wait with
  | done =>
    rw [opens_lazy, later (by simp [Thread.isDone, waits])]
    constructor
    · intro all
      exact ⟨[], text, rfl, rfl, all⟩
    · rintro ⟨_, v, rfl, rfl, all⟩
      exact all
  | char s rest =>
    simp only [Opens, mem_singleton, exists_eq_left, Wait.Accepts, takesAll_append]
    constructor
    · rintro ⟨c, _, rfl, inside, u, v, rfl, first, second⟩
      exact ⟨c :: u, v, rfl, ⟨c, u, rfl, inside, first⟩, second⟩
    · rintro ⟨_, v, rfl, ⟨c, u, rfl, inside, first⟩, second⟩
      exact ⟨c, u ++ v, rfl, inside, u, v, rfl, first, second⟩
  | atEnd rest =>
    simp only [Opens, mem_singleton, exists_eq_left, Wait.Accepts, takesAll_nil, all_append, Bool.and_eq_true]
    constructor
    · rintro ⟨rfl, rfl, first, second⟩
      exact ⟨[], [], rfl, ⟨⟨rfl, rfl⟩, rfl, first⟩, takesAll_nil.mpr second⟩
    · rintro ⟨_, v, rfl, ⟨⟨rfl, used⟩, rfl, first⟩, second⟩
      obtain rfl := isEmpty_iff.mp used
      exact ⟨rfl, rfl, first, takesAll_nil.mp second⟩

theorem opens_many (inner : ∀ final u, Opens final p.threads u ↔ p.Takes final u) :
    Pattern.Takes final (.many greedy p) text ↔ text = [] ∨
      Opens final ((p.threads.filter fun t => !t.isDone).flatMap
        (Thread.andThen [.many greedy p] [])) text := by
  have round : ∀ t ∈ p.threads.filter fun t => !t.isDone,
      (Opens final (t.andThen [.many greedy p] []) text ↔ ∃ u v, text = u ++ v ∧
        t.wait.Accepts (final && v.isEmpty) u ∧ Pattern.Takes final (.many greedy p) v) := by
    intro t mem
    rw [opens_andThen fun done => by simp [done] at mem]
    simp [takesAll_singleton]
  rw [opens_flatMap]
  constructor
  · intro many
    rcases many.many_cases with nothing | ⟨u, v, some_, rfl, first, later⟩
    · exact .inl nothing
    · obtain ⟨t, mem, accepts⟩ := (inner _ u).mpr first
      have waits : t.wait ≠ .done := by
        intro done
        rw [done] at accepts
        exact some_ accepts
      have inside : t ∈ p.threads.filter fun t => !t.isDone :=
        mem_filter.mpr ⟨mem, by simpa [Thread.isDone] using waits⟩
      exact .inr ⟨t, inside, (round t inside).mpr ⟨u, v, rfl, accepts, later⟩⟩
  · rintro (rfl | ⟨t, mem, opens⟩)
    · exact .stop
    · obtain ⟨u, v, rfl, accepts, later⟩ := (round t mem).mp opens
      exact .round ((inner _ u).mp ⟨t, (mem_filter.mp mem).1, accepts⟩) later

/-- The threads of a pattern take what it takes. -/
theorem opens_threads : Opens final p.threads text ↔ p.Takes final text := by
  induction p generalizing final text with
  | char s =>
    simp only [Pattern.threads, Opens, mem_singleton, exists_eq_left, Wait.Accepts]
    constructor
    · rintro ⟨c, rest, rfl, inside, ⟨⟩⟩
      exact .char inside
    · rintro ⟨inside⟩
      exact ⟨_, [], rfl, inside, .nil⟩
  | atEnd =>
    simp only [Pattern.threads, Opens, mem_singleton, exists_eq_left, Wait.Accepts]
    constructor
    · rintro ⟨rfl, rfl, -⟩
      exact .atEnd
    · rintro ⟨⟩
      exact ⟨rfl, rfl, .nil⟩
  | empty =>
    simp only [Pattern.threads, Opens, mem_singleton, exists_eq_left, Wait.Accepts]
    constructor
    · rintro rfl
      exact .empty
    · rintro ⟨⟩
      rfl
  | seq p q first second =>
    have step (t : Thread) : Opens final (t.andThen [q] q.threads) text ↔
        ∃ u v, text = u ++ v ∧ t.wait.Accepts (final && v.isEmpty) u ∧ q.Takes final v := by
      rw [opens_andThen fun _ v => second.trans takesAll_singleton.symm]
      simp [takesAll_singleton]
    simp only [Pattern.threads, opens_flatMap, step, Pattern.takes_seq, ← first]
    constructor
    · rintro ⟨t, mem, u, v, rfl, accepts, later⟩
      exact ⟨u, v, rfl, ⟨t, mem, accepts⟩, later⟩
    · rintro ⟨u, v, rfl, ⟨t, mem, accepts⟩, later⟩
      exact ⟨t, mem, u, v, rfl, accepts, later⟩
  | alt p q first second => rw [Pattern.threads, opens_append, first, second, Pattern.takes_alt]
  | many greedy p ih =>
    rw [opens_many fun _ _ => ih]
    cases greedy with
    | true =>
      rw [Pattern.threads, or_comm]
      simp [Opens, Wait.Accepts]
    | false =>
      rw [Pattern.threads, ← singleton_append, opens_append]
      simp [Opens, Wait.Accepts]

theorem opens_threadsOf {todo : List Pattern} :
    Opens final (Pattern.threadsOf todo) text ↔ TakesAll final todo text := by
  induction todo generalizing text with
  | nil =>
    simp only [Pattern.threadsOf, Opens, mem_singleton, exists_eq_left, Wait.Accepts]
    constructor
    · rintro rfl
      exact .nil
    · rintro ⟨⟩
      rfl
  | cons p todo ih =>
    simp only [Pattern.threadsOf, opens_flatMap, opens_andThen fun _ _ => ih]
    constructor
    · rintro ⟨t, mem, u, v, rfl, accepts, later⟩
      exact .cons (opens_threads.mp ⟨t, mem, accepts⟩) later
    · rintro ⟨⟩
      rename_i u v one later
      obtain ⟨t, mem, accepts⟩ := opens_threads.mpr one
      exact ⟨t, mem, u, v, rfl, accepts, later⟩

/-- No loop of the pattern is lazy; and the end of the text matters only if `ends` says so. -/
def Pattern.isGreedy (ends : Bool) : Pattern → Bool
  | .char _ | .empty => true
  | .atEnd => ends
  | .seq p q | .alt p q => p.isGreedy ends && q.isGreedy ends
  | .many greedy p => greedy && p.isGreedy ends

def Wait.todo : Wait → List Pattern
  | .done => []
  | .char _ todo | .atEnd todo => todo

def Wait.isAtEnd : Wait → Bool
  | .atEnd _ => true
  | .done | .char _ _ => false

/-- The thread went through no lazy loop and will not come to one; and it waits for the end of the
text only if `ends` says so. -/
structure Thread.IsGreedy (ends : Bool) (t : Thread) : Prop where
  eager : t.lazy = false
  waits : t.wait.isAtEnd = true → ends = true
  todo : ∀ q ∈ t.wait.todo, q.isGreedy ends = true

variable {ends : Bool}

theorem Thread.IsGreedy.andThen {todo : List Pattern} {t : Thread} (greedy : thread.IsGreedy ends)
    (later : ∀ q ∈ todo, q.isGreedy ends = true) (others : ∀ t ∈ next, t.IsGreedy ends)
    (mem : t ∈ thread.andThen todo next) : t.IsGreedy ends := by
  obtain ⟨eager, atEnd, patterns⟩ := greedy
  have both : ∀ q ∈ thread.wait.todo ++ todo, q.isGreedy ends = true := by
    intro q inside
    rcases mem_append.mp inside with first | second
    · exact patterns q first
    · exact later q second
  unfold Thread.andThen at mem
  cases waits : thread.wait with
  | done =>
    simp only [waits, mem_map] at mem
    obtain ⟨other, inNext, rfl⟩ := mem
    obtain ⟨eager', atEnd', patterns'⟩ := others other inNext
    exact ⟨by simp [eager, eager'], atEnd', patterns'⟩
  | char s rest | atEnd rest =>
    simp only [waits, mem_singleton] at mem
    subst mem
    rw [waits] at atEnd both
    exact ⟨eager, atEnd, both⟩

theorem threads_greedy (greedy : p.isGreedy ends = true) : ∀ t ∈ p.threads, t.IsGreedy ends := by
  induction p with
  | char s | empty =>
    intro t mem
    cases mem_singleton.mp mem
    exact ⟨rfl, by simp [Wait.isAtEnd], by simp [Wait.todo]⟩
  | atEnd =>
    intro t mem
    cases mem_singleton.mp mem
    exact ⟨rfl, fun _ => greedy, by simp [Wait.todo]⟩
  | seq p q first second =>
    obtain ⟨one, two⟩ := Bool.and_eq_true_iff.mp greedy
    intro t mem
    obtain ⟨origin, inThreads, made⟩ := mem_flatMap.mp mem
    exact (first one origin inThreads).andThen (by simpa using two) (second two) made
  | alt p q first second =>
    obtain ⟨one, two⟩ := Bool.and_eq_true_iff.mp greedy
    intro t mem
    rcases mem_append.mp mem with inFirst | inSecond
    · exact first one t inFirst
    · exact second two t inSecond
  | many eager p ih =>
    obtain ⟨rfl, inner⟩ := Bool.and_eq_true_iff.mp greedy
    intro t mem
    rcases mem_append.mp mem with again | stop
    · obtain ⟨origin, inThreads, made⟩ := mem_flatMap.mp again
      exact (ih inner origin (mem_filter.mp inThreads).1).andThen (by simpa using greedy)
        (by simp) made
    · cases mem_singleton.mp stop
      exact ⟨rfl, by simp [Wait.isAtEnd], by simp [Wait.todo]⟩

theorem threadsOf_greedy {todo : List Pattern} (greedy : ∀ q ∈ todo, q.isGreedy ends = true) :
    ∀ t ∈ Pattern.threadsOf todo, t.IsGreedy ends := by
  induction todo with
  | nil =>
    intro t mem
    cases mem_singleton.mp mem
    exact ⟨rfl, by simp [Wait.isAtEnd], by simp [Wait.todo]⟩
  | cons p todo ih =>
    intro t mem
    obtain ⟨origin, inThreads, made⟩ := mem_flatMap.mp mem
    have later : ∀ q ∈ todo, q.isGreedy ends = true :=
      fun q inside => greedy q (mem_cons_of_mem _ inside)
    exact (threads_greedy (greedy p mem_cons_self) origin inThreads).andThen later (ih later) made

/-- A branch outside of blocks with a greedy thread. -/
structure Branch.IsPlain (ends : Bool) (b : Branch) : Prop where
  outside : b.depth = 0
  greedy : b.thread.IsGreedy ends

theorem prune_eq (plain : ∀ b ∈ branches, b.IsPlain ends) : Branch.prune branches = branches := by
  induction branches with
  | nil => rfl
  | cons b rest ih =>
    have others : ∀ r ∈ rest, r.IsPlain ends := fun r mem => plain r (mem_cons_of_mem _ mem)
    have kept : (rest.filter fun r => !r.thread.lazy) = rest :=
      filter_eq_self.mpr fun r mem => by simp [(others r mem).greedy.eager]
    rw [Branch.prune, kept, ih others, ite_self]

theorem mem_resume (outside : pending.depth = 0) (eager : pending.lazy = false) :
    b ∈ shape.resume pending ↔ ∃ t ∈ Pattern.threadsOf pending.todo, b = ⟨0, t⟩ := by
  simp [Shape.resume, outside, eager]

theorem read_eq_some :
    b.read c = some pending ↔ ∃ s todo, b.thread.wait = .char s todo ∧ s.contains c = true ∧
      pending = ⟨b.depth, b.thread.lazy, todo⟩ := by
  unfold Branch.read
  cases waits : b.thread.wait with
  | done | atEnd _ => simp
  | char s todo =>
    simp only [Option.ite_none_right_eq_some, Option.some.injEq]
    constructor
    · rintro ⟨inside, rfl⟩
      exact ⟨s, todo, rfl, inside, rfl⟩
    · rintro ⟨_, _, same, inside, rfl⟩
      cases same
      exact ⟨inside, rfl⟩

/-- One more character: the branches that wait for it go on with what they have to do behind it. -/
theorem mem_step (plain : ∀ b ∈ branches, b.IsPlain ends) :
    b ∈ shape.step c branches ↔ ∃ origin ∈ branches, ∃ s todo, origin.thread.wait = .char s todo ∧
      s.contains c = true ∧ ∃ t ∈ Pattern.threadsOf todo, b = ⟨0, t⟩ := by
  have going : ∀ b, b ∈ (branches.filterMap (Branch.read c)).eraseDups.flatMap shape.resume ↔
      ∃ origin ∈ branches, ∃ s todo, origin.thread.wait = .char s todo ∧ s.contains c = true ∧
        ∃ t ∈ Pattern.threadsOf todo, b = ⟨0, t⟩ := by
    intro b
    simp only [mem_flatMap, mem_eraseDups, mem_filterMap, read_eq_some]
    constructor
    · rintro ⟨_, ⟨origin, mem, s, todo, waits, inside, rfl⟩, resumed⟩
      rw [mem_resume (plain origin mem).outside (plain origin mem).greedy.eager] at resumed
      exact ⟨origin, mem, s, todo, waits, inside, resumed⟩
    · rintro ⟨origin, mem, s, todo, waits, inside, resumed⟩
      refine ⟨_, ⟨origin, mem, s, todo, waits, inside, rfl⟩, ?_⟩
      rwa [mem_resume (plain origin mem).outside (plain origin mem).greedy.eager]
  rw [Shape.step, prune_eq, going]
  intro b mem
  obtain ⟨origin, inBranches, s, todo, waits, -, t, inThreads, rfl⟩ := (going b).mp mem
  have patterns := (plain origin inBranches).greedy.todo
  rw [waits] at patterns
  exact ⟨rfl, threadsOf_greedy patterns t inThreads⟩

namespace Racer

def after (rule : LexicalRule) (text : List Char) : Racer :=
  text.foldl (fun racer c => racer.step c) (start rule)

theorem after_concat (rule : LexicalRule) (text : List Char) (c : Char) :
    after rule (text ++ [c]) = (after rule text).step c := by
  rw [after, foldl_append]
  rfl

theorem after_rule (rule : LexicalRule) (text : List Char) : (after rule text).rule = rule := by
  induction text using reverseRecOn with
  | nil => rfl
  | append_singleton text c ih => rw [after_concat]; exact ih

variable {rule : LexicalRule} {racer : Racer} {p : Pattern} {u : List Char} (rules : List LexicalRule)

/-- What the branches behind a text still take completes it to a text that the pattern matches. -/
theorem after_branches (shape : rule.shape = .plain p) (greedy : p.isGreedy ends = true)
    (text : List Char) :
    (∀ b ∈ (after rule text).branches, b.IsPlain ends) ∧
      ∀ final rest, (∃ b ∈ (after rule text).branches, b.thread.wait.Accepts final rest) ↔
        p.Takes final (text ++ rest) := by
  induction text using reverseRecOn with
  | nil =>
    have plain : ∀ b ∈ (Shape.plain p).branches, b.IsPlain ends := by
      intro b mem
      obtain ⟨t, inThreads, rfl⟩ := mem_map.mp mem
      exact ⟨rfl, threads_greedy greedy t inThreads⟩
    have same : (after rule []).branches = (Shape.plain p).branches := by
      rw [after, foldl_nil, start, shape, prune_eq plain]
    rw [same]
    refine ⟨plain, fun final rest => ?_⟩
    rw [← opens_threads]
    simp only [Opens, Shape.branches, mem_map]
    constructor
    · rintro ⟨_, ⟨t, mem, rfl⟩, accepts⟩
      exact ⟨t, mem, accepts⟩
    · rintro ⟨t, mem, accepts⟩
      exact ⟨_, ⟨t, mem, rfl⟩, accepts⟩
  | append_singleton text c ih =>
    obtain ⟨plain, taken⟩ := ih
    rw [after_concat]
    refine ⟨fun b mem => ?_, fun final rest => ?_⟩
    · obtain ⟨origin, inBranches, s, todo, waits, -, t, inThreads, rfl⟩ := (mem_step plain).mp mem
      have patterns := (plain origin inBranches).greedy.todo
      rw [waits] at patterns
      exact ⟨rfl, threadsOf_greedy patterns t inThreads⟩
    · rw [append_assoc, singleton_append, ← taken final (c :: rest)]
      constructor
      · rintro ⟨b, mem, accepts⟩
        obtain ⟨origin, inBranches, s, todo, waits, inside, t, inThreads, rfl⟩ :=
          (mem_step plain).mp mem
        refine ⟨origin, inBranches, ?_⟩
        rw [waits]
        exact ⟨c, rest, rfl, inside, opens_threadsOf.mp ⟨t, inThreads, accepts⟩⟩
      · rintro ⟨origin, inBranches, accepts⟩
        cases waits : origin.thread.wait with
        | done | atEnd _ => simp [waits, Wait.Accepts] at accepts
        | char s todo =>
          rw [waits] at accepts
          obtain ⟨_, _, same, inside, all⟩ := accepts
          cases same
          obtain ⟨t, inThreads, opens⟩ := opens_threadsOf.mpr all
          exact ⟨⟨0, t⟩, (mem_step plain).mpr
            ⟨origin, inBranches, s, todo, waits, inside, t, inThreads, rfl⟩, opens⟩

/-- A rule with a greedy pattern is complete behind exactly the texts that it takes where the text goes on. -/
theorem after_isDone {rule : LexicalRule} {p : Pattern} (shape : rule.shape = .plain p)
    (greedy : p.isGreedy ends = true) {text : List Char} :
    (after rule text).isDone = true ↔ p.Takes false text := by
  have taken := (after_branches shape greedy text).2 false []
  rw [append_nil] at taken
  rw [isDone, any_eq_true]
  refine (exists_congr fun b => and_congr_right fun _ => ?_).trans taken
  cases waits : b.thread.wait <;> simp [Branch.isDone, Thread.isDone, Wait.Accepts, waits]

/-- A rule whose pattern does not ask for the end of the text never waits for it. -/
theorem after_endsHere (shape : rule.shape = .plain p) (greedy : p.isGreedy false = true)
    (text : List Char) : (after rule text).endsHere = false := by
  rw [endsHere, any_eq_false]
  intro b mem
  have waits := ((after_branches shape greedy text).1 b mem).greedy.waits
  unfold Branch.endsHere
  cases wait : b.thread.wait with
  | done | char _ _ => simp
  | atEnd _ => simp [wait, Wait.isAtEnd] at waits

theorem step_dead (dead : racer.branches = []) (c : Char) : (racer.step c).branches = [] := by
  simp [step, dead, Shape.step, Branch.prune]

/-- A rule that is given up is given up for good. -/
theorem after_dead (dead : (after rule u).branches = []) (v : List Char) :
    (after rule (u ++ v)).branches = [] := by
  induction v using reverseRecOn with
  | nil => rwa [append_nil]
  | append_singleton v c ih =>
    rw [← append_assoc, after_concat]
    exact step_dead ih c

theorem isAlive_iff : racer.isAlive = true ↔ racer.branches ≠ [] := by
  simp [isAlive]

theorem isAlive_of_isDone (done : racer.isDone = true) : racer.isAlive = true := by
  rw [isAlive_iff]
  intro dead
  simp [isDone, dead] at done

theorem isAlive_of_later {v : List Char} (done : (after rule (u ++ v)).isDone = true) :
    (after rule u).isAlive = true := by
  rw [isAlive_iff]
  intro dead
  exact isAlive_iff.mp (isAlive_of_isDone done) (after_dead dead v)

def allAfter (rules : List LexicalRule) (text : List Char) : List Racer :=
  (rules.map fun rule => after rule text).filter isAlive

/-- Rules that are given up play no part. -/
theorem filter_step (racers : List Racer) (c : Char) :
    ((racers.filter isAlive).map (step c)).filter isAlive = (racers.map (step c)).filter isAlive := by
  induction racers with
  | nil => rfl
  | cons racer racers ih =>
    by_cases alive : racer.isAlive = true
    · rw [filter_cons_of_pos alive, map_cons, map_cons, filter_cons,
        filter_cons, ih]
    · have later : ¬ (racer.step c).isAlive = true := by
        rw [isAlive_iff, not_not] at alive ⊢
        exact step_dead alive c
      rw [filter_cons_of_neg alive, map_cons, filter_cons_of_neg later, ih]

theorem step_allAfter (text : List Char) (c : Char) :
    ((allAfter rules text).map (step c)).filter isAlive = allAfter rules (text ++ [c]) := by
  rw [allAfter, filter_step, map_map, allAfter]
  simp only [after_concat]
  rfl

/-- The rules that are given up play no part in a search for others. -/
theorem find?_alive {p : Racer → Bool} (alive : ∀ racer, p racer = true → racer.isAlive = true)
    (racers : List Racer) : (racers.filter isAlive).find? p = racers.find? p := by
  rw [find?_filter]
  congr 1
  funext racer
  cases holds : p racer
  · simp
  · simp [alive racer holds]

theorem find?_allAfter {p : Racer → Bool} (alive : ∀ racer, p racer = true → racer.isAlive = true)
    (rules : List LexicalRule) (text : List Char) : (allAfter rules text).find? p =
      (rules.find? fun rule => p (after rule text)).map fun rule => after rule text := by
  rw [allAfter, find?_alive alive, find?_map]
  rfl

theorem find?_isDone (text : List Char) : (allAfter rules text).find? isDone =
    (rules.find? fun rule => (after rule text).isDone).map fun rule => after rule text :=
  find?_allAfter (fun _ => isAlive_of_isDone) rules text

theorem isAlive_of_endsHere (ends : racer.endsHere = true) : racer.isAlive = true := by
  rw [isAlive_iff]
  intro dead
  simp [endsHere, dead] at ends

theorem find?_endsHere (text : List Char) : (allAfter rules text).find? endsHere =
    (rules.find? fun rule => (after rule text).endsHere).map fun rule => after rule text :=
  find?_allAfter (fun _ => isAlive_of_endsHere) rules text

end Racer

theorem race_alive (best : Option Best) (taken : List Char) (racers : List Racer) (text : List Char) :
    race best taken (racers.filter Racer.isAlive) text = race best taken racers text := by
  cases text with
  | nil => rw [race, race, Racer.find?_alive fun _ => Racer.isAlive_of_endsHere]
  | cons c text => rw [race, race, Racer.filter_step]

section Longest

variable {rules : List LexicalRule} {u rest : List Char} {rule : LexicalRule}

variable (rule) in
theorem race_beyond
    (longest : ∀ v w, v ≠ [] → v ++ w = rest → ∀ r ∈ rules, (Racer.after r (u ++ v)).isDone = false)
    (ends : ∀ r ∈ rules, (Racer.after r (u ++ rest)).endsHere = false) {v w : List Char}
    (split : v ++ w = rest) :
    race (some ⟨rule.effect, u.reverse, rest⟩) (u ++ v).reverse (Racer.allAfter rules (u ++ v)) w =
      .found rule.effect u rest := by
  induction w generalizing v with
  | nil =>
    have none : (Racer.allAfter rules (u ++ v)).find? Racer.endsHere = none := by
      rw [find?_eq_none]
      intro racer mem
      obtain ⟨r, inRules, rfl⟩ := mem_map.mp (mem_filter.mp mem).1
      rw [append_nil] at split
      simp [split, ends r inRules]
    simp [race, none, race.settle]
  | cons c w ih =>
    have later : (v ++ [c]) ++ w = rest := by simpa using split
    have none : (Racer.allAfter rules (u ++ v ++ [c])).find? Racer.isDone = none := by
      rw [Racer.find?_isDone, Option.map_eq_none_iff, find?_eq_none]
      intro r inRules
      simp [longest (v ++ [c]) w (by simp) later r inRules]
    have go := ih later
    rw [← append_assoc] at go
    rw [race, Racer.step_allAfter]
    split
    · simp [race.settle]
    · simp only [none]
      rwa [reverse_append, reverse_singleton] at go

theorem race_upTo (first : rules.find? (fun r => (Racer.after r u).isDone) = some rule)
    (longest : ∀ v w, v ≠ [] → v ++ w = rest → ∀ r ∈ rules, (Racer.after r (u ++ v)).isDone = false)
    (ends : ∀ r ∈ rules, (Racer.after r (u ++ rest)).endsHere = false) {s t : List Char}
    (split : s ++ t = u) (more : t ≠ []) (best : Option Best) :
    race best s.reverse (Racer.allAfter rules s) (t ++ rest) = .found rule.effect u rest := by
  have done := find?_some first
  induction t generalizing s best with
  | nil => exact absurd rfl more
  | cons c t ih =>
    have later : (s ++ [c]) ++ t = u := by simpa using split
    have behind : c :: s.reverse = (s ++ [c]).reverse := by simp
    have alive : Racer.allAfter rules (s ++ [c]) ≠ [] := by
      refine ne_nil_of_mem (mem_filter.mpr
        ⟨mem_map.mpr ⟨rule, mem_of_find?_eq_some first, rfl⟩, ?_⟩)
      exact Racer.isAlive_of_later (v := t) (by rw [later]; exact done)
    rw [cons_append, race, Racer.step_allAfter, behind]
    split
    · exact absurd ‹_› alive
    · cases t with
      | nil =>
        rw [append_nil] at later
        subst later
        have go := race_beyond rule longest ends (nil_append rest)
        rw [append_nil] at go
        simp only [Racer.find?_isDone, first, Option.map_some, nil_append, Racer.effect,
          Racer.after_rule]
        exact go
      | cons d t =>
        split
        · exact ih later (by simp) _
        · exact ih later (by simp) _

/-- The race goes to the longest text that some rule is complete behind, and to the first such rule. -/
theorem race_longest (some_ : u ≠ [])
    (first : rules.find? (fun r => (Racer.after r u).isDone) = some rule)
    (longest : ∀ v w, v ≠ [] → v ++ w = rest → ∀ r ∈ rules, (Racer.after r (u ++ v)).isDone = false)
    (ends : ∀ r ∈ rules, (Racer.after r (u ++ rest)).endsHere = false) :
    race none [] (rules.map Racer.start) (u ++ rest) = .found rule.effect u rest := by
  rw [← race_alive]
  exact race_upTo first longest ends (nil_append u) some_ none

end Longest

end GrammarLint.Lexical
