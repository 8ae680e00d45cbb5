namespace GrammarLint.Command

def commonFront : List Char → List Char → Nat
  | a :: as, b :: bs => if a == b then commonFront as bs + 1 else 0
  | _, _ => 0

/-- A stretch that two texts share: where it begins in each, and its length. -/
structure Shared where
  left : Nat
  right : Nat
  size : Nat
deriving DecidableEq, Repr

/-- The longest shared stretch; of several the first in the left text, then in the right one. -/
def longestShared (as bs : List Char) : Shared :=
  (List.range as.length).foldl (fun best i =>
    (List.range bs.length).foldl (fun best j =>
      let size := commonFront (as.drop i) (bs.drop j)
      if best.size < size then ⟨i, j, size⟩ else best) best) ⟨0, 0, 0⟩

/-- The number of characters in shared stretches: the longest one, and so on before and behind it.
Each step takes characters away, so the length of a text is fuel enough. -/
def sharedCount : (fuel : Nat) → List Char → List Char → Nat
  | 0, _, _ => 0
  | fuel + 1, as, bs =>
    let shared := longestShared as bs
    if shared.size == 0 then 0
    else
      shared.size + sharedCount fuel (as.take shared.left) (bs.take shared.right) +
        sharedCount fuel (as.drop (shared.left + shared.size)) (bs.drop (shared.right + shared.size))

/-- The share of the characters of two texts that are in shared stretches, as half a numerator and
a denominator. -/
def likeness (a b : String) : Nat × Nat :=
  (sharedCount a.length a.toList b.toList, a.length + b.length)

def isClose (likeness : Nat × Nat) : Bool := decide (3 * likeness.2 ≤ 10 * likeness.1)

/-- At most three of the names that are like a word, the most like it first. -/
def similar (word : String) (names : List String) : List String :=
  let scored := (names.map fun name => (likeness name word, name)).filter fun (score, _) => isClose score
  let before (a b : (Nat × Nat) × String) : Bool :=
    let left := a.1.1 * b.1.2
    let right := b.1.1 * a.1.2
    decide (right < left) || left == right && decide (b.2 ≤ a.2)
  ((scored.mergeSort before).take 3).map (·.2)

end GrammarLint.Command
