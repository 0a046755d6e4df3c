/-!
Formats of binary floating point numbers, taken apart into exact integers. Bits are decoded once,
the integers are rounded to the nearest representable value with ties going to the even
neighbour, and the result is encoded once.
-/
namespace LazyTensor.Binary

inductive Format where
  | half
  | single
  | double
  deriving DecidableEq, Repr

namespace Format

def fraction : Format → Nat
  | half => 10
  | single => 23
  | double => 52

/-- Weight of the bit above the fraction, which is not stored. -/
def hidden : Format → Nat
  | half => 1024
  | single => 8388608
  | double => 4503599627370496

/-- The greatest value of the exponent field, kept for infinities and what is not a number. -/
def special : Format → Nat
  | half => 31
  | single => 255
  | double => 2047

def least : Format → Int
  | half => -24
  | single => -149
  | double => -1074

def infinity (f : Format) : Nat := f.special * f.hidden

def sign (f : Format) : Nat := (f.special + 1) * f.hidden

end Format

inductive Number where
  /-- `m * 2 ^ e`, negated if so marked. -/
  | finite (negative : Bool) (m : Nat) (e : Int)
  | infinite (negative : Bool)
  /-- Not a number. The payload is the fraction, at the width of the double format. -/
  | nan (negative : Bool) (payload : Nat)
  deriving DecidableEq, Repr

/-- `m / 2 ^ k`, rounded to the nearest integer, a tie to the even one. -/
def roundShift (m k : Nat) : Nat :=
  let unit := Nat.pow 2 k
  let q := m / unit
  let r := m % unit
  if unit < 2 * r ∨ (2 * r = unit ∧ q % 2 = 1) then q + 1 else q

/-- `m * 2 ^ e` in units of `2 ^ unit`, rounded. -/
def roundTo (m : Nat) (e unit : Int) : Nat :=
  if unit ≤ e then m * Nat.pow 2 (e - unit).toNat else roundShift m (unit - e).toNat

/-- Bits of the number nearest to `m * 2 ^ e`. A carry out of the fraction moves on into the
exponent, and one out of the exponent makes an infinity. -/
def encodeMagnitude (f : Format) (m : Nat) (e : Int) : Nat :=
  if m = 0 then 0
  else
    let unit := max (e + m.log2 - f.fraction) f.least
    min ((unit - f.least).toNat * f.hidden + roundTo m e unit) f.infinity

/-- Fraction that holds the leading bits of a payload. Its first bit is always set, which keeps
it apart from an infinity. -/
def quietFraction (f : Format) (payload : Nat) : Nat :=
  f.hidden / 2 + payload / Nat.pow 2 (52 - f.fraction) % (f.hidden / 2)

def signBits (f : Format) (negative : Bool) : Nat := if negative then f.sign else 0

def encode (f : Format) : Number → Nat
  | .finite negative m e => signBits f negative + encodeMagnitude f m e
  | .infinite negative => signBits f negative + f.infinity
  | .nan negative payload => signBits f negative + f.infinity + quietFraction f payload

/-- The number that sign, exponent field and fraction stand for. -/
def Number.ofFields (f : Format) (negative : Bool) (field fraction : Nat) : Number :=
  if field = f.special then
    if fraction = 0 then .infinite negative
    else .nan negative (fraction * Nat.pow 2 (52 - f.fraction))
  else if field = 0 then .finite negative fraction f.least
  else .finite negative (f.hidden + fraction) (f.least + field - 1)

def decode (f : Format) (bits : Nat) : Number :=
  .ofFields f (decide (f.sign ≤ bits)) (bits / f.hidden % (f.special + 1)) (bits % f.hidden)

def round (f : Format) (x : Number) : Number := decode f (encode f x)

def wholePart (m : Nat) (e : Int) : Nat :=
  if 0 ≤ e then m * Nat.pow 2 e.toNat else m / Nat.pow 2 (-e).toNat

def signed (negative : Bool) (n : Nat) : Int := if negative then -n else n

end LazyTensor.Binary
