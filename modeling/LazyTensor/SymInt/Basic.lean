import LazyTensor.SymInt.Variable

/-!
Integer expressions over bounded variables: dimensions, indices and validity conditions.
Every expression has a range that holds for all values of its variables; `collapse` replaces
an expression whose range is a single value by that value.
-/
namespace LazyTensor

inductive SymInt where
  | num (n : Int)
  | var (v : Variable)
  | mul (a : SymInt) (c : Int)
  /-- Quotient by `c`, rounded toward negative infinity. -/
  | div (a : SymInt) (c : Int)
  /-- Remainder by `c`, with the sign of `c`. -/
  | mod (a : SymInt) (c : Int)
  /-- One if `a < c`, otherwise zero. -/
  | lt (a : SymInt) (c : Int)
  | sum (parts : List SymInt)
  /-- One if every part is nonzero, otherwise zero. -/
  | conj (parts : List SymInt)
  deriving Repr, Inhabited

namespace SymInt

def num? : SymInt → Option Int
  | num n => some n
  | _ => none

def isNum (e : SymInt) : Bool := e.num?.isSome

def is (e : SymInt) (n : Int) : Bool := e.num? = some n

def var? : SymInt → Option Variable
  | var v => some v
  | _ => none

/-- A variable with a single value is that value. -/
def ofVariable (v : Variable) : SymInt :=
  if v.lo = v.hi then num v.lo else var v

def counter (name : String) (lo hi : Int) : Checked SymInt :=
  return ofVariable (← Variable.counter name lo hi)

mutual

def range : SymInt → Int × Int
  | num n => (n, n)
  | var v => (v.lo, v.hi)
  | mul a c =>
    let (lo, hi) := a.range
    if 0 ≤ c then (lo * c, hi * c) else (hi * c, lo * c)
  | div a c =>
    let (lo, hi) := a.range
    (lo.fdiv c, hi.fdiv c)
  | mod a c =>
    let (lo, hi) := a.range
    if c ≤ hi - lo ∨ hi.fmod c ≤ lo.fmod c then (0, c - 1) else (lo.fmod c, hi.fmod c)
  | lt a c =>
    let (lo, hi) := a.range
    if hi < c then (1, 1) else if c ≤ lo then (0, 0) else (0, 1)
  | sum parts => rangeSum parts
  | conj parts => rangeConj parts

def rangeSum : List SymInt → Int × Int
  | [] => (0, 0)
  | p :: ps =>
    let (lo, hi) := p.range
    let (lo', hi') := rangeSum ps
    (lo + lo', hi + hi')

def rangeConj : List SymInt → Int × Int
  | [] => (1, 1)
  | [p] => p.range
  | p :: ps =>
    let (lo, hi) := p.range
    let (lo', hi') := rangeConj ps
    (min lo lo', max hi hi')

end

def lo (e : SymInt) : Int := e.range.1

def hi (e : SymInt) : Int := e.range.2

def collapse (e : SymInt) : SymInt :=
  let (lo, hi) := e.range
  if lo = hi then num lo else e

mutual

def occurrences : SymInt → List Variable
  | num _ => []
  | var v => [v]
  | mul a _ | div a _ | mod a _ | lt a _ => a.occurrences
  | sum parts | conj parts => occurrencesAll parts

def occurrencesAll : List SymInt → List Variable
  | [] => []
  | p :: ps => p.occurrences ++ occurrencesAll ps

end

def vars (e : SymInt) : List Variable :=
  e.occurrences.foldl (fun seen v => if seen.contains v then seen else seen ++ [v]) []

mutual

def terms : SymInt → List SymInt
  | sum parts => termsAll parts
  | e => [e]

def termsAll : List SymInt → List SymInt
  | [] => []
  | p :: ps => p.terms ++ termsAll ps

end

def atomCoeff : SymInt → SymInt × Int
  | mul a c => (a, c)
  | e => (e, 1)

def isConj : SymInt → Bool
  | conj _ => true
  | _ => false

end SymInt

end LazyTensor
