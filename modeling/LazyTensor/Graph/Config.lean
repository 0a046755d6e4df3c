import LazyTensor.Error

/-!
Which simplifications run while a graph is built and scheduled, and where its random numbers
come from.
-/
namespace LazyTensor

/-- When a large reduce is done in two passes. -/
structure Split where
  /-- Least number of elements that are reduced to one. -/
  minWork : Int := 32768
  /-- The divisor of an axis is the greatest common divisor of its length and this. -/
  gcdBase : Int := 256
  minDivisor : Int := 16
  /-- Least quotient of divisor and stride. -/
  minScore : Double := 0.1

/-- A source of random numbers. Which numbers a seed gives is not part of the model. -/
structure Generator where
  draw : Nat → Nat → List Double
  length_draw : ∀ seed n, (draw seed n).length = n
  isFraction_draw : ∀ seed n, ∀ x ∈ draw seed n, x.isFraction = true

namespace Generator

def congruent : Nat → Nat → List Double
  | _, 0 => []
  | seed, n + 1 =>
    let next := (seed * 6364136223846793005 + 1442695040888963407) % 2 ^ 64
    .ofNumber (.finite false (next / 2 ^ 54) (-10)) :: congruent next n

/-- Multiples of `2 ^ -10` from the high bits of a linear congruence. -/
def linear : Generator where
  draw := congruent
  length_draw seed n := by
    induction n generalizing seed with
    | zero => rfl
    | succ n ih => exact congrArg (· + 1) (ih _)
  isFraction_draw seed n := by
    have hsmall : ∀ k < 1024, (Double.ofNumber (.finite false k (-10))).isFraction = true := by
      decide +kernel
    induction n generalizing seed with
    | zero => exact List.forall_mem_nil _
    | succ n ih => exact List.forall_mem_cons.2 ⟨hsmall _ (by omega), ih _⟩

end Generator

structure Config where
  /-- Movements that cancel become a reshape of what they started from. -/
  dropMovementNops : Bool
  /-- An elementwise source is computed inside the reduce that reads it. -/
  mergeIntoReduce : Bool
  /-- Movements are applied to the sources of elementwise operations. -/
  shuffleMovements : Bool
  /-- Elementwise operations are joined into one tree. -/
  mergeElementwise : Bool
  /-- One reduce is computed inside the elementwise operation that reads it. -/
  mergeReduce : Bool
  /-- Padding counts as a movement that may be shuffled. -/
  shufflePads : Bool
  /-- Permutations are applied before reduces and reshapes. -/
  pushPermutes : Bool
  /-- Copies are taken after elementwise operations. -/
  pushCopies : Bool
  cache : Bool := true
  split : Option Split := some {}
  generator : Generator := .linear

namespace Config

def ofLevel (level : Nat) : Config where
  dropMovementNops := 1 ≤ level
  mergeIntoReduce := 1 ≤ level
  shuffleMovements := 1 ≤ level
  mergeElementwise := 1 ≤ level
  mergeReduce := 2 ≤ level
  shufflePads := 2 ≤ level
  pushPermutes := 3 ≤ level
  pushCopies := 3 ≤ level

def defaultLevel : Nat := 2

def isBlank (c : Char) : Bool :=
  let n := c.toNat
  (9 ≤ n && n ≤ 13) || n == 0x20 || n == 0x85 || n == 0xa0 || n == 0x1680
    || (0x2000 ≤ n && n ≤ 0x200a) || n == 0x2028 || n == 0x2029 || n == 0x202f || n == 0x205f
    || n == 0x3000

def trimmed (s : String) : List Char :=
  ((s.toList.dropWhile isBlank).reverse.dropWhile isBlank).reverse

def digits? : List Char → Option Nat
  | [] => none
  | cs =>
    if cs.all Char.isDigit then some (cs.foldl (fun n c => 10 * n + (c.toNat - '0'.toNat)) 0)
    else none

/-- A whole number below 256, perhaps with a plus sign. -/
def level? (s : String) : Option Nat :=
  let number := match trimmed s with
    | '+' :: cs => digits? cs
    | cs => digits? cs
  number.filter (· < 256)

def readLevel (key : String) : Option String → Fallible (Option Nat)
  | none => .ok none
  | some value =>
    match level? value with
    | some n => .ok (some n)
    | none => fail (.setting key value)

def ofSettings (level cache : Option String) : Fallible Config := do
  let config := ofLevel ((← readLevel "OPT" level).getD defaultLevel)
  match ← readLevel "LAZYCACHE" cache with
  | some n => pure { config with cache := n != 0 }
  | none => pure config

end Config

end LazyTensor
