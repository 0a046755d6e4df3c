import LazyTensor.Abort

/-!
Integer arithmetic whose results must fit a signed 64-bit word. Operands are mathematical
integers; a result outside the word, and a division by zero, stop the computation.
-/
namespace LazyTensor.Checked

def Fits (x : Int) : Prop :=
  -9223372036854775808 ≤ x ∧ x ≤ 9223372036854775807

instance (x : Int) : Decidable (Fits x) :=
  inferInstanceAs (Decidable (_ ∧ _))

def word (x : Int) : Checked Int :=
  if Fits x then .ok x else .error .arithmetic

def add (a b : Int) : Checked Int := word (a + b)

def sub (a b : Int) : Checked Int := word (a - b)

def mul (a b : Int) : Checked Int := word (a * b)

def neg (a : Int) : Checked Int := word (-a)

def abs (a : Int) : Checked Int := word a.natAbs

def sum (xs : List Int) : Checked Int := xs.foldlM add 0

def product (xs : List Int) : Checked Int := xs.foldlM mul 1

def floorDiv (a b : Int) : Checked Int :=
  if b = 0 then .error .arithmetic else word (a.fdiv b)

/-- `a - b * floorDiv a b`. The product is range checked as well. -/
def floorMod (a b : Int) : Checked Int := do
  let q ← floorDiv a b
  let p ← mul b q
  sub a p

def truncDiv (a b : Int) : Checked Int :=
  if b = 0 then .error .arithmetic else word (a.tdiv b)

/-- Remainder with the sign of the dividend. It exists only where the quotient does. -/
def truncMod (a b : Int) : Checked Int := do
  let _ ← truncDiv a b
  pure (a.tmod b)

def euclidDiv (a b : Int) : Checked Int :=
  if b = 0 then .error .arithmetic else word (a.ediv b)

def euclidMod (a b : Int) : Checked Int := do
  let _ ← euclidDiv a b
  pure (a.emod b)

def gcd (a b : Int) : Checked Int := do
  let x ← abs a
  let y ← abs b
  pure (Nat.gcd x.natAbs y.natAbs)

/-- A position or a count, which has to fit an unsigned 64-bit word. -/
def index (n : Nat) : Checked Nat :=
  if n < 18446744073709551616 then .ok n else .error .arithmetic

def addNat (a b : Nat) : Checked Nat := index (a + b)

def mulNat (a b : Nat) : Checked Nat := index (a * b)

/-- Difference of two positions. Positions are never negative. -/
def subNat (a b : Nat) : Checked Nat :=
  if b ≤ a then .ok (a - b) else .error .arithmetic

/-- A list of `n` doubles, which has to fit half the addresses there are. -/
def room (n : Nat) : Checked Unit :=
  if 8 * n < 9223372036854775808 then .ok () else .error .capacity

end LazyTensor.Checked

namespace LazyTensor

def nth {α : Type} (xs : List α) (i : Nat) : Checked α :=
  match xs[i]? with
  | some x => .ok x
  | none => .error .bounds

def slice {α : Type} (xs : List α) (lo hi : Nat) : Checked (List α) :=
  if lo ≤ hi ∧ hi ≤ xs.length then .ok ((xs.take hi).drop lo) else .error .bounds

def intRange (lo hi : Int) : List Int :=
  (List.range (hi + 1 - lo).toNat).map (fun (k : Nat) => lo + k)

/-- All choices of one value from each inclusive range, the first range moving fastest. -/
def choices : List (Int × Int) → List (List Int)
  | [] => [[]]
  | (lo, hi) :: rest => (choices rest).flatMap (fun tail => (intRange lo hi).map (· :: tail))

end LazyTensor
