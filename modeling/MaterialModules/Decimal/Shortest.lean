/-!
The shortest decimal of a binary floating-point number.

A number `mantissa · 2 ^ exponent` stands for every real that is closer to it than to its neighbours.
`shortest` looks for a decimal among those reals: with one digit, then with two, and so on, each time at
the two grid points around the number itself. The first grid with a hit wins; of two hits the nearer
one, and of two equally near ones the upper one. All of it is arithmetic on natural numbers.
-/

set_option autoImplicit false

namespace MaterialModules.Decimal

/-- A positive number with the reals that read as it, all in units of `2 ^ exponent`: those between
`value - below` and `value + above`, the ends included if `closed`. -/
structure Reals where
  value : Nat
  below : Nat
  above : Nat
  exponent : Int
  closed : Bool
  deriving DecidableEq, Repr

/-- The reals around a finite positive number that is stored as a biased exponent and a fraction of
`width` bits. The step below a power of two is half as wide as the step above it. -/
def Reals.ofFields (width bias biased fraction : Nat) : Reals :=
  if biased = 0 then
    ⟨2 * fraction, 1, 1, 1 - (bias + width : Nat) - 1, fraction % 2 = 0⟩
  else if fraction = 0 then
    ⟨4 * Nat.pow 2 width, 1, 2, (biased : Int) - (bias + width : Nat) - 2, true⟩
  else
    ⟨2 * (Nat.pow 2 width + fraction), 1, 1, (biased : Int) - (bias + width : Nat) - 1, fraction % 2 = 0⟩

structure Digits where
  digits : Nat
  exponent : Int
  deriving DecidableEq, Repr

def stripZeros : Nat → Nat → Nat × Nat
  | 0, n => (n, 0)
  | fuel + 1, n =>
    if n % 10 = 0 ∧ n ≠ 0 then
      let (m, k) := stripZeros fuel (n / 10)
      (m, k + 1)
    else (n, 0)

def Reals.scaled (r : Reals) (e : Int) (n : Nat) : Nat × Nat :=
  (n * Nat.pow 2 r.exponent.toNat * Nat.pow 10 (-e).toNat,
    Nat.pow 2 (-r.exponent).toNat * Nat.pow 10 e.toNat)

def Reals.contains (r : Reals) (d : Nat) (e : Int) : Bool :=
  let (low, den) := r.scaled e (r.value - r.below)
  let (high, _) := r.scaled e (r.value + r.above)
  if r.closed then low ≤ d * den && d * den ≤ high else low < d * den && d * den < high

/-- The decimal with the last digit at `10 ^ e` that reads as the number, if there is one. -/
def Reals.onGrid (r : Reals) (e : Int) : Option Nat :=
  let (num, den) := r.scaled e r.value
  let d := num / den
  let up := if 2 * (num - d * den) < den then d else d + 1
  let near := [up, if up = d then d + 1 else d]
  near.find? fun x => r.contains x e

/-- The number of digits before the point, negative for zeros behind it: the least `k` with the number
below `10 ^ k`. The power of two below the number leaves three candidates. -/
def Reals.magnitude (r : Reals) : Int :=
  let guess := ((r.value.log2 : Int) + r.exponent) * 30103 / 100000
  let under (k : Int) : Bool :=
    let (num, den) := r.scaled k r.value
    num < den
  if under guess then guess else if under (guess + 1) then guess + 1 else guess + 2

def Reals.exact (r : Reals) : Digits :=
  ⟨r.value * Nat.pow 2 r.exponent.toNat * Nat.pow 5 (-r.exponent).toNat, min r.exponent 0⟩

/-- Tries grids of more and more digits below `10 ^ k`, and settles for the number itself if no grid has
a decimal that reads as it. -/
def Reals.search (r : Reals) (k : Int) : Nat → Nat → Digits
  | 0, _ => r.exact
  | tries + 1, n =>
    match r.onGrid (k - n) with
    | some d => ⟨d, k - n⟩
    | none => r.search k tries (n + 1)

def Reals.shortest (r : Reals) : Digits :=
  let found := r.search r.magnitude 20 1
  let (d, zeros) := stripZeros 20 found.digits
  ⟨d, found.exponent + zeros⟩

end MaterialModules.Decimal
