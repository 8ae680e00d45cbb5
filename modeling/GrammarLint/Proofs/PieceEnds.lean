import GrammarLint.Proofs.Pieces

open List

namespace GrammarLint.Lexical

open Vocabulary

section Race

variable {rules : List LexicalRule} {best : Option Best} {s t : List Char}

/-- Where a rule asks for the end of the text and finds it, the first such rule gets all of it. -/
theorem race_ending {rule : LexicalRule}
    (first : rules.find? (fun r => (Racer.after r (s ++ t)).endsHere) = some rule) :
    race best s.reverse (Racer.allAfter rules s) t = .found rule.effect (s ++ t) [] := by
  induction t generalizing best s with
  | nil =>
    rw [append_nil] at first ⊢
    simp [race, Racer.find?_endsHere, first, Racer.effect, Racer.after_rule]
  | cons c t ih =>
    have behind : c :: s.reverse = (s ++ [c]).reverse := by simp
    have apart : s ++ c :: t = (s ++ [c]) ++ t := by simp
    rw [apart] at first ⊢
    have ends := find?_some first
    have alive : (Racer.after rule (s ++ [c])).isAlive = true := by
      rw [Racer.isAlive_iff]
      intro dead
      have gone := Racer.endsHere_of_dead (Racer.after_dead dead t)
      exact Bool.false_ne_true (gone.symm.trans ends)
    rw [race, Racer.step_allAfter, behind]
    split
    · rename_i gone
      exact absurd gone (ne_nil_of_mem (mem_filter.mpr
        ⟨mem_map.mpr ⟨rule, mem_of_find?_eq_some first, rfl⟩, alive⟩))
    · split <;> exact ih first

end Race

section Modes

variable {mode : Mode} {text piece rest : List Char} {effect : Effect}

theorem nextPiece_ending {rule : LexicalRule}
    (first : (rules mode).find? (fun r => (Racer.after r text).endsHere) = some rule) :
    nextPiece mode text = .found rule.effect text [] := by
  rw [nextPiece_eq]
  exact race_ending first

/-- How a piece comes to be what it is: a rule asks for the end of the text, or none does and the
piece is the longest text that a rule is complete behind. -/
theorem nextPiece_found_cases (found : nextPiece mode text = .found effect piece rest) :
    (∃ rule, (rules mode).find? (fun r => (Racer.after r text).endsHere) = some rule ∧
      rule.effect = effect ∧ piece = text ∧ rest = []) ∨
    (∃ rule, (rules mode).find? (fun r => (Racer.after r piece).isDone) = some rule ∧
      rule.effect = effect) ∧
      (∀ v w, v ≠ [] → v ++ w = rest → ∀ r ∈ rules mode, (Racer.after r (piece ++ v)).isDone = false) ∧
      ∀ r ∈ rules mode, (Racer.after r text).endsHere = false := by
  cases asks : (rules mode).find? (fun r => (Racer.after r text).endsHere) with
  | some rule =>
    rw [nextPiece_ending asks] at found
    cases found
    exact .inl ⟨rule, rfl, rfl, rfl, rfl⟩
  | none =>
    have never : ∀ r ∈ rules mode, (Racer.after r text).endsHere = false := by
      simpa using asks
    refine .inr ⟨?_, fun v w some_ split => ?_, never⟩
    · obtain ⟨rule, wins, same⟩ := nextPiece_wins found
      cases wins with
      | complete first => exact ⟨rule, first, same⟩
      | ending used mem ends =>
        have whole := (Scanner.found_split found).1
        rw [used, append_nil] at whole
        simp [whole, never rule mem] at ends
    · have whole := (Scanner.found_split found).1
      rw [← split, ← append_assoc] at whole
      have positive := length_pos_iff.mpr some_
      exact nextPiece_unfinished found (by simp [some_]) whole (by rw [length_append]; omega)

end Modes

namespace Branch

theorem mem_of_mem_prune {b : Branch} {bs : List Branch} (mem : b ∈ prune bs) : b ∈ bs := by
  induction bs with
  | nil => exact mem
  | cons first bs ih =>
    rcases mem_cons.mp mem with same | later
    · exact mem_cons.mpr (.inl same)
    · split at later
      · exact mem_cons_of_mem _ (mem_filter.mp later).1
      · exact mem_cons_of_mem _ (ih later)

theorem any_isDone_prune (bs : List Branch) : (prune bs).any isDone = bs.any isDone := by
  induction bs with
  | nil => rfl
  | cons first bs ih =>
    rw [prune, any_cons, any_cons]
    cases done : first.isDone with
    | true => rfl
    | false =>
      exact ih

/-- Nothing is given up as long as no branch is complete. -/
theorem prune_of_unfinished {bs : List Branch} (unfinished : bs.any isDone = false) : prune bs = bs := by
  induction bs with
  | nil => rfl
  | cons first bs ih =>
    rw [any_cons, Bool.or_eq_false_iff] at unfinished
    rw [prune, unfinished.1, ih unfinished.2]
    simp

/-- Each of the branches is among the others, but for whether it is lazy. -/
def Among (bs others : List Branch) : Prop :=
  ∀ b ∈ bs, ∃ o ∈ others, o.depth = b.depth ∧ o.thread.wait = b.thread.wait

namespace Among

variable {bs others more : List Branch}

protected theorem refl (bs : List Branch) : Among bs bs := fun b mem => ⟨b, mem, rfl, rfl⟩

theorem trans (first : Among bs others) (second : Among others more) : Among bs more := by
  intro b mem
  obtain ⟨o, inOthers, depth, wait⟩ := first b mem
  obtain ⟨m, inMore, depth', wait'⟩ := second o inOthers
  exact ⟨m, inMore, depth'.trans depth, wait'.trans wait⟩

theorem unfinished (among : Among bs others) (none : others.any isDone = false) :
    bs.any isDone = false := by
  rw [any_eq_false] at none ⊢
  intro b mem
  obtain ⟨o, inOthers, -, wait⟩ := among b mem
  have waits := none o inOthers
  simpa only [isDone, Thread.isDone, wait] using waits

theorem endsHere (among : Among bs others) (none : others.any endsHere = false) :
    bs.any endsHere = false := by
  rw [any_eq_false] at none ⊢
  intro b mem
  obtain ⟨o, inOthers, depth, wait⟩ := among b mem
  have waits := none o inOthers
  simpa only [Branch.endsHere, wait, depth] using waits

end Among

end Branch

namespace Shape

variable {shape : Shape} {bs others : List Branch} {c : Char}

/-- The branches after one more character, before any is given up. -/
def reached (shape : Shape) (c : Char) (bs : List Branch) : List Branch :=
  (bs.filterMap (Branch.read c)).eraseDups.flatMap shape.resume

theorem step_eq : shape.step c bs = Branch.prune (shape.reached c bs) := rfl

theorem mem_reached {b : Branch} : b ∈ shape.reached c bs ↔
    ∃ origin ∈ bs, ∃ pending, origin.read c = some pending ∧ b ∈ shape.resume pending := by
  simp only [reached, mem_flatMap, mem_eraseDups, mem_filterMap]
  constructor
  · rintro ⟨pending, ⟨origin, mem, read⟩, resumed⟩
    exact ⟨origin, mem, pending, read, resumed⟩
  · rintro ⟨origin, mem, pending, read, resumed⟩
    exact ⟨pending, ⟨origin, mem, read⟩, resumed⟩

theorem resume_among {p q : Pending} (depth : p.depth = q.depth) (todo : p.todo = q.todo) :
    Branch.Among (shape.resume p) (shape.resume q) := by
  intro b mem
  obtain ⟨thread, inThreads, made⟩ := mem_flatMap.mp mem
  rw [depth] at made
  rw [todo] at inThreads
  by_cases again : thread.isDone = true ∧ q.depth ≠ 0
  · rw [if_pos again] at made
    exact ⟨b, mem_flatMap.mpr ⟨thread, inThreads, by rwa [if_pos again]⟩, rfl, rfl⟩
  · rw [if_neg again] at made
    cases mem_singleton.mp made
    refine ⟨⟨q.depth, { thread with lazy := q.lazy || thread.lazy }⟩,
      mem_flatMap.mpr ⟨thread, inThreads, ?_⟩, rfl, rfl⟩
    rw [if_neg again]
    exact mem_singleton_self _

theorem reached_among (among : Branch.Among bs others) :
    Branch.Among (shape.reached c bs) (shape.reached c others) := by
  intro b mem
  obtain ⟨origin, inBranches, pending, read, resumed⟩ := mem_reached.mp mem
  obtain ⟨s, todo, waits, inside, rfl⟩ := read_eq_some.mp read
  obtain ⟨o, inOthers, depth, wait⟩ := among origin inBranches
  have read' := read_eq_some.mpr ⟨s, todo, wait.trans waits, inside, rfl⟩
  obtain ⟨b', resumed', same⟩ := resume_among (p := ⟨origin.depth, origin.thread.lazy, todo⟩)
    (q := ⟨o.depth, o.thread.lazy, todo⟩) depth.symm rfl b resumed
  exact ⟨b', mem_reached.mpr ⟨o, inOthers, _, read', resumed'⟩, same⟩

/-- Fewer branches lead to fewer branches as long as none is complete. -/
theorem step_among (among : Branch.Among bs others)
    (unfinished : (shape.step c others).any Branch.isDone = false) :
    shape.step c bs = shape.reached c bs ∧ Branch.Among (shape.step c bs) (shape.step c others) := by
  rw [step_eq, Branch.any_isDone_prune] at unfinished
  have fewer : Branch.Among (shape.reached c bs) (shape.reached c others) := reached_among among
  rw [step_eq, step_eq, Branch.prune_of_unfinished unfinished,
    Branch.prune_of_unfinished (fewer.unfinished unfinished)]
  exact ⟨rfl, fewer⟩

/-- The threads that a shape starts with, and those between two items of a block. -/
def origins (shape : Shape) : List Thread := (shape.branches ++ shape.inside 1).map (·.thread)

theorem mem_origins {depth : Nat} {b : Branch} (mem : b ∈ shape.inside depth) :
    b.thread ∈ shape.origins := by
  cases shape with
  | plain p =>
    cases mem_singleton.mp mem
    simp [origins, inside]
  | block first body last =>
    simp only [inside, mem_cons, mem_map] at mem
    simp only [origins, branches, inside, map_append, map_cons, map_map,
      mem_append, mem_cons, mem_map]
    rcases mem with rfl | rfl | ⟨thread, inBody, rfl⟩
    · exact .inr (.inl rfl)
    · exact .inr (.inr (.inl rfl))
    · exact .inr (.inr (.inr ⟨thread, inBody, rfl⟩))

/-- Collects what can be left to do from the given lists of patterns on. -/
def todosFrom : (fuel : Nat) → (seen ahead : List (List Pattern)) → List (List Pattern)
  | 0, seen, _ => seen
  | _ + 1, seen, [] => seen
  | fuel + 1, seen, todo :: ahead =>
    if todo ∈ seen then todosFrom fuel seen ahead
    else todosFrom fuel (todo :: seen) ((Pattern.threadsOf todo).map (·.wait.todo) ++ ahead)

def todos (shape : Shape) : List (List Pattern) :=
  todosFrom 1000 [] (shape.origins.map (·.wait.todo))

def waits (shape : Shape) : List Wait :=
  (shape.origins ++ shape.todos.flatMap Pattern.threadsOf).map (·.wait)

/-- Nothing is left out in what is collected. -/
theorem waits_closed (mode : Mode) : ∀ r ∈ rules mode, ∀ w ∈ r.shape.waits, w.todo ∈ r.shape.todos := by
  cases mode <;> decide +kernel

theorem wait_of_origin {thread : Thread} (mem : thread ∈ shape.origins) : thread.wait ∈ shape.waits :=
  mem_map_of_mem (mem_append_left _ mem)

theorem resume_waits {pending : Pending} (known : pending.todo ∈ shape.todos) :
    ∀ b ∈ shape.resume pending, b.thread.wait ∈ shape.waits := by
  intro b mem
  obtain ⟨thread, inThreads, made⟩ := mem_flatMap.mp mem
  split at made
  · exact wait_of_origin (mem_origins made)
  · cases mem_singleton.mp made
    exact mem_map.mpr ⟨thread,
      mem_append_right _ (mem_flatMap.mpr ⟨_, known, inThreads⟩), rfl⟩

end Shape

theorem Racer.branches_concat (rule : LexicalRule) (text : List Char) (c : Char) :
    (Racer.after rule (text ++ [c])).branches = rule.shape.step c (Racer.after rule text).branches := by
  rw [Racer.after_concat, Racer.step, Racer.after_rule]

/-- Whatever text a rule has followed, it waits for something that was collected. -/
theorem Racer.after_waits {mode : Mode} {r : LexicalRule} (mem : r ∈ rules mode)
    (text : List Char) : ∀ b ∈ (Racer.after r text).branches, b.thread.wait ∈ r.shape.waits := by
  induction text using reverseRecOn with
  | nil =>
    intro b inBranches
    have start := Branch.mem_of_mem_prune inBranches
    exact Shape.wait_of_origin (mem_map_of_mem (mem_append_left _ start))
  | append_singleton text c ih =>
    intro b inBranches
    rw [Racer.branches_concat] at inBranches
    obtain ⟨origin, before, pending, read, resumed⟩ :=
      Shape.mem_reached.mp (Branch.mem_of_mem_prune inBranches)
    obtain ⟨s, todo, waits, -, rfl⟩ := read_eq_some.mp read
    have known := Shape.waits_closed mode r mem _ (ih origin before)
    rw [waits] at known
    exact Shape.resume_waits known b resumed

end GrammarLint.Lexical
