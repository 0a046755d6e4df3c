import LazyTensor.Binary

/-!
Doubles as their 64 bits. Arithmetic is that of the hardware. What moves a value without
computing keeps all of its bits, also those of a value that is not a number.
-/
namespace LazyTensor

structure Double where
  bits : UInt64
  deriving Repr

namespace Double

def ofFloat (x : Float) : Double := ⟨x.toBits⟩

def toFloat (x : Double) : Float := Float.ofBits x.bits

def number (x : Double) : Binary.Number :=
  Binary.Number.ofFields .double (x.bits >>> 63 != 0) (x.bits >>> 52 &&& 0x7ff).toNat
    (x.bits &&& 0xfffffffffffff).toNat

theorem number_eq_decode (x : Double) : x.number = Binary.decode .double x.bits.toNat := by
  have h1 : (x.bits >>> 63 != 0) = decide (Binary.Format.double.sign ≤ x.bits.toNat) := by
    have hx := x.bits.toNat_lt
    have : (x.bits >>> 63).toNat = x.bits.toNat / 2 ^ 63 := by
      simp [UInt64.toNat_shiftRight, Nat.shiftRight_eq_div_pow]
    have hs : Binary.Format.double.sign = 2 ^ 63 := rfl
    rw [hs, bne, Bool.eq_iff_iff]
    simp only [Bool.not_eq_true', beq_eq_false_iff_ne, ne_eq, decide_eq_true_eq,
      ← UInt64.toNat_inj, this]
    simp only [UInt64.toNat_zero]
    omega
  have h2 : (x.bits >>> 52 &&& 0x7ff).toNat = x.bits.toNat / Binary.Format.double.hidden %
      (Binary.Format.double.special + 1) := by
    rw [UInt64.toNat_and, UInt64.toNat_shiftRight]
    exact Nat.and_two_pow_sub_one_eq_mod _ 11 |>.trans (by
      simp [Nat.shiftRight_eq_div_pow, Binary.Format.hidden, Binary.Format.special])
  have h3 : (x.bits &&& 0xfffffffffffff).toNat = x.bits.toNat % Binary.Format.double.hidden := by
    rw [UInt64.toNat_and]
    exact Nat.and_two_pow_sub_one_eq_mod _ 52
  rw [number, Binary.decode, h1, h2, h3]

def ofNumber (x : Binary.Number) : Double := ⟨(Binary.encode .double x).toUInt64⟩

def ofInt (n : Int) : Double := ofNumber (.finite (decide (n < 0)) n.natAbs 0)

/-- A literal without a fraction is an integer, which needs no arithmetic. -/
instance : OfScientific Double where
  ofScientific m fraction e :=
    if fraction ∧ m % Nat.pow 10 e ≠ 0 then ofFloat (Float.ofScientific m fraction e)
    else ofInt (if fraction then m / Nat.pow 10 e else m * Nat.pow 10 e)

instance : Inhabited Double := ⟨0.0⟩

instance : Add Double := ⟨fun x y => ofFloat (x.toFloat + y.toFloat)⟩

instance : Sub Double := ⟨fun x y => ofFloat (x.toFloat - y.toFloat)⟩

instance : Mul Double := ⟨fun x y => ofFloat (x.toFloat * y.toFloat)⟩

instance : Div Double := ⟨fun x y => ofFloat (x.toFloat / y.toFloat)⟩

/-- Negation changes the sign bit and nothing else. -/
instance : Neg Double := ⟨fun x => ⟨x.bits ^^^ 0x8000000000000000⟩⟩

def isNaN (x : Double) : Bool :=
  match x.number with
  | .nan _ _ => true
  | _ => false

def isZero (x : Double) : Bool := x.bits <<< 1 == 0

/-- At least zero and less than one. -/
def isFraction (x : Double) : Bool :=
  match x.number with
  | .finite false m e => Binary.wholePart m e == 0
  | _ => false

/-- Equality of numbers: the two zeros are equal, and what is not a number equals nothing. -/
instance : BEq Double :=
  ⟨fun x y => !x.isNaN && (x.bits == y.bits || (x.isZero && y.isZero))⟩

instance : LT Double := ⟨fun x y => x.toFloat < y.toFloat⟩

instance : LE Double := ⟨fun x y => x.toFloat ≤ y.toFloat⟩

instance (x y : Double) : Decidable (x < y) := inferInstanceAs (Decidable (x.toFloat < y.toFloat))

instance (x y : Double) : Decidable (x ≤ y) :=
  inferInstanceAs (Decidable (x.toFloat ≤ y.toFloat))

def same (x y : Double) : Bool := x.bits == y.bits

def infinity : Double := ⟨0x7ff0000000000000⟩

def exp2 (x : Double) : Double := ofFloat x.toFloat.exp2

def log2 (x : Double) : Double := ofFloat x.toFloat.log2

/-- A zero is its own sine. -/
def sin (x : Double) : Double := if x.isZero then x else ofFloat x.toFloat.sin

def sqrt (x : Double) : Double := ofFloat x.toFloat.sqrt

/-- The integer part, moved into the range. What is not a number becomes zero. -/
def saturate (lo hi : Int) (x : Double) : Int :=
  match x.number with
  | .finite negative m e => max lo (min hi (Binary.signed negative (Binary.wholePart m e)))
  | .infinite negative => if negative then lo else hi
  | .nan _ _ => 0

def toWord (x : Double) : Int := x.saturate (-9223372036854775808) 9223372036854775807

/-- The integer part as a number. It keeps the sign, also that of a zero. -/
def truncate (x : Double) : Double :=
  match x.number with
  | .finite negative m e => ofNumber (.finite negative (Binary.wholePart m e) 0)
  | _ => x

/-- The greatest integer that is not above. It keeps the sign, also that of a zero. -/
def floor (x : Double) : Double :=
  match x.number with
  | .finite negative m e =>
    let whole := Binary.wholePart m e
    let exact := 0 ≤ e ∨ whole * Nat.pow 2 (-e).toNat = m
    ofNumber (.finite negative (if negative ∧ ¬exact then whole + 1 else whole) 0)
  | _ => x

/-- The greater of two numbers. What is not a number gives way. -/
def maximum (x y : Double) : Double :=
  if x.isNaN then y else if y.isNaN then x else if x < y then y else x

end Double

end LazyTensor
