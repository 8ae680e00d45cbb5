namespace GrammarLint.Lexical

/-- A set of characters: those in one of the ranges, or those in none. -/
structure CharClass where
  negated : Bool
  ranges : List (Char × Char)
deriving DecidableEq, Repr

def CharClass.contains (s : CharClass) (c : Char) : Bool :=
  (s.ranges.any fun range => decide (range.1 ≤ c) && decide (c ≤ range.2)) != s.negated

/-- What a text may look like. A loop is greedy or lazy; a lazy loop prefers to stop. `atEnd`
takes no character and holds only where the text ends. -/
inductive Pattern where
  | char (s : CharClass)
  | atEnd
  | empty
  | seq (p q : Pattern)
  | alt (p q : Pattern)
  | many (greedy : Bool) (p : Pattern)
deriving DecidableEq, Repr

/-- Where a reading of a text stands: its pattern is used up, or it waits for a character of a
class, or for the end of the text, with the patterns that are still to come. -/
inductive Wait where
  | done
  | char (s : CharClass) (todo : List Pattern)
  | atEnd (todo : List Pattern)
deriving DecidableEq, Repr

/-- One way to read a text. `lazy` tells whether it went through a lazy loop. -/
structure Thread where
  lazy : Bool
  wait : Wait
deriving DecidableEq, Repr

namespace Thread

/-- A thread of a pattern followed by further patterns, given the threads of the latter. -/
def andThen (todo : List Pattern) (next : List Thread) (thread : Thread) : List Thread :=
  match thread.wait with
  | .done => next.map fun t => { t with lazy := thread.lazy || t.lazy }
  | .char s rest => [{ thread with wait := .char s (rest ++ todo) }]
  | .atEnd rest => [{ thread with wait := .atEnd (rest ++ todo) }]

def isDone (thread : Thread) : Bool := thread.wait == .done

end Thread

namespace Pattern

/-- The threads of a pattern before it has read anything, the preferred ones first. A round of a
loop that reads nothing is no round. -/
def threads : Pattern → List Thread
  | char s => [⟨false, .char s []⟩]
  | atEnd => [⟨false, .atEnd []⟩]
  | empty => [⟨false, .done⟩]
  | seq p q => p.threads.flatMap (Thread.andThen [q] q.threads)
  | alt p q => p.threads ++ q.threads
  | many true p =>
    (p.threads.filter fun t => !t.isDone).flatMap (Thread.andThen [many true p] []) ++
      [⟨false, .done⟩]
  | many false p =>
    ⟨true, .done⟩ ::
      ((p.threads.filter fun t => !t.isDone).flatMap (Thread.andThen [many false p] [])).map
        fun t => { t with lazy := true }

def threadsOf : List Pattern → List Thread
  | [] => [⟨false, .done⟩]
  | p :: todo => p.threads.flatMap (Thread.andThen todo (threadsOf todo))

/-- The pattern can be passed without a character where the text ends. -/
def holdsAtEnd : Pattern → Bool
  | char _ => false
  | atEnd => true
  | empty => true
  | seq p q => p.holdsAtEnd && q.holdsAtEnd
  | alt p q => p.holdsAtEnd || q.holdsAtEnd
  | many _ _ => true

def one (c : Char) : Pattern := char ⟨false, [(c, c)]⟩

def oneOf (ranges : List (Char × Char)) : Pattern := char ⟨false, ranges⟩

def noneOf (cs : List Char) : Pattern := char ⟨true, cs.map fun c => (c, c)⟩

def any : Pattern := char ⟨true, []⟩

def sequence : List Pattern → Pattern
  | [] => empty
  | [p] => p
  | p :: rest => seq p (sequence rest)

def choice (p : Pattern) : List Pattern → Pattern
  | [] => p
  | q :: rest => alt p (choice q rest)

def literal (text : String) : Pattern := sequence (text.toList.map one)

def star (p : Pattern) : Pattern := many true p

def lazyStar (p : Pattern) : Pattern := many false p

def plus (p : Pattern) : Pattern := seq p (star p)

def opt (p : Pattern) : Pattern := alt p empty

end Pattern

/-- The shape of a token: a plain pattern, or a block between an opening and a closing character
whose inside is a lazy loop over blocks of the same shape and over `body`. -/
inductive Shape where
  | plain (p : Pattern)
  | block (opening : CharClass) (body : Pattern) (closing : CharClass)
deriving DecidableEq, Repr

/-- A thread within a number of open blocks, counted behind the character it waits for. -/
structure Branch where
  depth : Nat
  thread : Thread
deriving DecidableEq, Repr

/-- What a branch has still to read behind a character. -/
structure Pending where
  depth : Nat
  lazy : Bool
  todo : List Pattern
deriving DecidableEq, Repr

namespace Branch

def isDone (branch : Branch) : Bool := branch.thread.isDone

/-- What is left of a branch that reads `c`. -/
def read (c : Char) (branch : Branch) : Option Pending :=
  match branch.thread.wait with
  | .char s todo => if s.contains c then some ⟨branch.depth, branch.thread.lazy, todo⟩ else none
  | _ => none

/-- The branch waits for the end of the text and nothing else is missing there. -/
def endsHere (branch : Branch) : Bool :=
  match branch.thread.wait with
  | .atEnd todo => branch.depth == 0 && todo.all Pattern.holdsAtEnd
  | _ => false

/-- Behind a branch whose shape is complete, those that went through a lazy loop are given up. -/
def prune : List Branch → List Branch
  | [] => []
  | b :: rest => b :: if b.isDone then rest.filter fun r => !r.thread.lazy else prune rest

end Branch

namespace Shape

/-- The branches of a shape before it has read anything, the preferred ones first. -/
def branches : Shape → List Branch
  | plain p => p.threads.map fun thread => ⟨0, thread⟩
  | block opening _ _ => [⟨1, ⟨false, .char opening []⟩⟩]

/-- The branches between two items of a block that lies in `depth` blocks, itself included. -/
def inside (depth : Nat) : Shape → List Branch
  | plain _ => [⟨depth, ⟨true, .done⟩⟩]
  | block opening body closing =>
    ⟨depth - 1, ⟨true, .char closing []⟩⟩ :: ⟨depth + 1, ⟨true, .char opening []⟩⟩ ::
      body.threads.map fun thread => ⟨depth, { thread with lazy := true }⟩

/-- The branches that go on from what is pending. -/
def resume (shape : Shape) (pending : Pending) : List Branch :=
  (Pattern.threadsOf pending.todo).flatMap fun thread =>
    if thread.isDone ∧ pending.depth ≠ 0 then shape.inside pending.depth
    else [⟨pending.depth, { thread with lazy := pending.lazy || thread.lazy }⟩]

def step (shape : Shape) (c : Char) (branches : List Branch) : List Branch :=
  Branch.prune ((branches.filterMap (Branch.read c)).eraseDups.flatMap shape.resume)

end Shape

end GrammarLint.Lexical
