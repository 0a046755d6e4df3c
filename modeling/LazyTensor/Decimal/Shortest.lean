import LazyTensor.Binary

/-!
The fewest decimal digits that read back as a given binary number, and among those the ones
nearest to it; of two equally near ones, the greater.
-/
namespace LazyTensor.Decimal

/-- The reals that round to `m * 2 ^ e`, in quarters of `2 ^ e`. The ends belong to the interval
when `m` is even. -/
structure Interval where
  lo : Nat
  mid : Nat
  hi : Nat
  e : Int
  closed : Bool

/-- Below a power of two the numbers lie twice as dense, unless they are subnormal. -/
def Interval.around (f : Binary.Format) (m : Nat) (e : Int) : Interval where
  lo := if m = Nat.pow 2 f.fraction ∧ f.least < e then 4 * m - 1 else 4 * m - 2
  mid := 4 * m
  hi := 4 * m + 2
  e := e - 2
  closed := m % 2 == 0

def digitCount (n : Nat) : Nat := if n = 0 then 0 else (Nat.toDigits 10 n).length

/-- The exponent of the leading digit of `n * 2 ^ e`, for a positive `n`. -/
def leading (n : Nat) (e : Int) : Int :=
  if 0 ≤ e then digitCount (n * Nat.pow 2 e.toNat) - 1
  else
    let d := Nat.pow 2 (-e).toNat
    if d ≤ n then digitCount (n / d) - 1 else -digitCount ((d + n - 1) / n - 1)

/-- The multiple of `10 ^ g` that stands for the interval: the nearer one of the two around its
middle, if it lies inside. A tie goes up. -/
def Interval.onGrid (i : Interval) (g : Int) : Option Nat :=
  let step := Nat.pow 10 g.toNat * Nat.pow 2 (-i.e).toNat
  let unit := Nat.pow 2 i.e.toNat * Nat.pow 10 (-g).toNat
  let d := i.mid * unit / step
  let inside (k : Nat) : Bool :=
    if i.closed then i.lo * unit ≤ k * step && k * step ≤ i.hi * unit
    else i.lo * unit < k * step && k * step < i.hi * unit
  let below := i.mid * unit - d * step
  let above := (d + 1) * step - i.mid * unit
  match inside d && d != 0, inside (d + 1) with
  | true, true => some (if below < above then d else d + 1)
  | true, false => some d
  | false, true => some (d + 1)
  | false, false => none

def search (i : Interval) (top : Int) : Nat → Nat → Nat × Int
  | _, 0 => (0, 0)
  | digits, n + 1 =>
    let g := top + 1 - digits
    match i.onGrid g with
    | some d => (d, g)
    | none => search i top (digits + 1) n

def strip : Nat → Nat → Int → Nat × Int
  | 0, d, g => (d, g)
  | n + 1, d, g => if d % 10 = 0 ∧ d ≠ 0 then strip n (d / 10) (g + 1) else (d, g)

/-- Digits `d` and exponent `g` of the shortest decimal `d * 10 ^ g` for a positive number. -/
def shortest (f : Binary.Format) (m : Nat) (e : Int) : Nat × Int :=
  let i := Interval.around f m e
  let (d, g) := search i (leading i.mid i.e) 1 17
  strip 18 d g

end LazyTensor.Decimal
