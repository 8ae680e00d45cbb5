namespace GrammarLint.Json

/-- A positive decimal number `0.d₁d₂d₃… · 10 ^ point`, by its digits. -/
structure Decimal where
  digits : List Nat
  point : Int
deriving DecidableEq, Repr

namespace Decimal

/-- A finite positive binary number `mantissa · 2 ^ exponent`. Its neighbour below is nearer where
the mantissa is the least of its binade. -/
structure Binary where
  mantissa : Nat
  exponent : Int
  narrowBelow : Bool

/-- The binary number that the bits of a double without sign stand for. -/
def Binary.ofBits (bits : Nat) : Binary :=
  let fraction : Nat := bits % Nat.pow 2 52
  let biased : Nat := bits / Nat.pow 2 52 % Nat.pow 2 11
  if biased = 0 then ⟨fraction, -1074, false⟩
  else ⟨Nat.pow 2 52 + fraction, (biased : Int) - 1075, fraction = 0 && biased != 1⟩

/-- A number as a quotient: `b · 2 ^ exponent = numerator / denominator`. -/
def scaled (n : Nat) (exponent : Int) : Nat × Nat :=
  if exponent ≥ 0 then (n * Nat.pow 2 exponent.toNat, 1) else (n, Nat.pow 2 (-exponent).toNat)

/-- The least `k` with `numerator / denominator < 10 ^ k`, searched upwards from `k`. -/
def magnitude (numerator denominator : Nat) (k : Int) : Nat → Int
  | 0 => k
  | fuel + 1 =>
    let below := if k ≥ 0 then numerator < denominator * Nat.pow 10 k.toNat
      else numerator * Nat.pow 10 (-k).toNat < denominator
    if below then k else magnitude numerator denominator (k + 1) fuel

/-- The digits of `n`, without zeros at the end. -/
def significant (n : Nat) : List Nat :=
  ((Nat.toDigits 10 n).map fun c => c.toNat - '0'.toNat).reverse.dropWhile (· == 0) |>.reverse

/-- The decimal with `count` digits next to a binary number that reads back as it, if there is
one. `point` is its magnitude. -/
def ofCount (b : Binary) (point : Int) (count : Nat) : Option Decimal :=
  -- Everything is measured in units of a quarter of the last binary place.
  let (value, unit) := scaled (4 * b.mantissa) (b.exponent - 2)
  let (low, _) := scaled (4 * b.mantissa - if b.narrowBelow then 1 else 2) (b.exponent - 2)
  let (high, _) := scaled (4 * b.mantissa + 2) (b.exponent - 2)
  let shift := (count : Int) - point
  let (up, down) := if shift ≥ 0 then (Nat.pow 10 shift.toNat, 1) else (1, Nat.pow 10 (-shift).toNat)
  -- A candidate `c` stands for `c · down / up`.
  let inside (c : Nat) : Bool :=
    let x := c * down * unit
    if b.mantissa % 2 = 0 then decide (low * up ≤ x) && decide (x ≤ high * up)
    else decide (low * up < x) && decide (x < high * up)
  let floor := value * up / (unit * down)
  let distance (c : Nat) : Nat :=
    let x := c * down * unit
    let y := value * up
    if x ≤ y then y - x else x - y
  let nearer := if distance floor < distance (floor + 1) then [floor, floor + 1]
    else if distance (floor + 1) < distance floor then [floor + 1, floor]
    else if floor % 2 = 0 then [floor, floor + 1] else [floor + 1, floor]
  match nearer.find? inside with
  | some c =>
    if c = 0 then none
    else some ⟨significant c, if c = Nat.pow 10 count then point + 1 else point⟩
  | none => none

/-- The shortest decimal that reads back as a binary number, and of several the nearest. -/
def shortest (b : Binary) : Decimal :=
  let (numerator, denominator) := scaled b.mantissa b.exponent
  let point := magnitude numerator denominator (-330) 700
  ((List.range 17).findSome? fun i => ofCount b point (i + 1)).getD ⟨[0], 1⟩

def digitText (digits : List Nat) : String :=
  String.ofList (digits.map fun d => Char.ofNat ('0'.toNat + d))

/-- Positional from `0.0001` up to sixteen digits before the point, and with an exponent of at
least two digits otherwise. -/
def text (d : Decimal) : String :=
  let count := d.digits.length
  if -4 < d.point ∧ d.point ≤ 16 then
    if d.point ≤ 0 then
      "0." ++ digitText (List.replicate (-d.point).toNat 0) ++ digitText d.digits
    else
      let before := d.point.toNat
      if count ≤ before then
        digitText d.digits ++ digitText (List.replicate (before - count) 0) ++ ".0"
      else digitText (d.digits.take before) ++ "." ++ digitText (d.digits.drop before)
  else
    let exponent := d.point - 1
    let mantissa := match d.digits with
      | [] => "0"
      | [digit] => digitText [digit]
      | digit :: rest => digitText [digit] ++ "." ++ digitText rest
    let size := toString exponent.natAbs
    mantissa ++ "e" ++ (if exponent < 0 then "-" else "+") ++
      (if size.length < 2 then "0" ++ size else size)

end Decimal

/-- The most digits of a whole number that is read or written. -/
def mostDigits : Nat := 4300

/-- How the values that are not finite are written. -/
structure NotFinite where
  infinity : String
  notANumber : String

/-- The shortest text that reads back as a floating point number. -/
def floatText (words : NotFinite) (x : Float) : String :=
  if x.isNaN then words.notANumber
  else
    let bits := x.toBits.toNat
    let sign := if bits / Nat.pow 2 63 = 1 then "-" else ""
    if x.isInf then sign ++ words.infinity
    else if x == 0 then sign ++ "0.0"
    else sign ++ (Decimal.shortest (Decimal.Binary.ofBits (bits % Nat.pow 2 63))).text

/-- A floating point number lies below a whole number. They are compared as they are, without
rounding. -/
def floatBelow (x : Float) (n : Int) : Bool :=
  if x.isNaN then false
  else if x.isInf then decide (x < 0)
  else
    let bits := x.toBits.toNat
    let b := Decimal.Binary.ofBits (bits % Nat.pow 2 63)
    let (numerator, denominator) := Decimal.scaled b.mantissa b.exponent
    decide ((if bits / Nat.pow 2 63 = 1 then -(numerator : Int) else numerator) < n * denominator)

end GrammarLint.Json
