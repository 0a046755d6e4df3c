import LazyTensor.SymInt.Linear

/-!
Comparisons with a constant and conjunctions. A comparison is divided by the common factor of
its terms where the remaining terms cannot decide it.
-/
namespace LazyTensor.SymInt

def lessPlain (e : SymInt) (b : Int) : SymInt := (lt e b).collapse

/-- The terms of `e` without opening nested sums. -/
def parts : SymInt → List SymInt
  | sum ps => ps
  | e => [e]

/-- A positive multiple of an atom that can reach `b`. -/
def reaches (b : Int) : SymInt → Bool
  | mul a c => 0 < c && b ≤ (mul a c).hi
  | _ => false

def gcdCoeff (g : Int) : SymInt → Checked Int
  | mul _ c => Checked.gcd g c
  | _ => .ok g

def divideCoeff (g : Int) : SymInt → Checked SymInt
  | mul a c => do a.times (← Checked.floorDiv c g)
  | e => .ok e

/-- `e < b` for a sum `e` without constant term. -/
def lessTerms (e : SymInt) (b : Int) : Checked SymInt := do
  let (multiples, others) := e.parts.partition (reaches b)
  if multiples.isEmpty then pure (e.lessPlain b)
  else
    let g ← multiples.foldlM gcdCoeff b
    let rest ← total others
    if 0 ≤ rest.lo ∧ rest.hi < g then
      let divided ← total (← multiples.mapM (divideCoeff g))
      pure (divided.lessPlain (← Checked.floorDiv b g))
    else pure (e.lessPlain b)

def lessThan (e : SymInt) (b : Int) : Checked SymInt :=
  match e with
  | mul a c =>
    if c = -1 then .ok (e.lessPlain b)
    else do
      let size ← Checked.abs c
      let signed ← a.times c.sign
      let top ← Checked.sub (← Checked.add b size) 1
      pure (signed.lessPlain (← Checked.floorDiv top size))
  | sum ps => do
    let bound ← (ps.filterMap num?).foldlM Checked.sub b
    let left ← total (ps.filter (fun x => !x.isNum))
    left.lessTerms bound
  | e => .ok (e.lessPlain b)

def atMost (e : SymInt) (b : Int) : Checked SymInt := do
  e.lessThan (← Checked.add b 1)

def moreThan (e : SymInt) (b : Int) : Checked SymInt := do
  (← e.negate).lessThan (← Checked.neg b)

def atLeast (e : SymInt) (b : Int) : Checked SymInt := do
  (← e.negate).lessThan (← Checked.add (← Checked.neg b) 1)

def conditions : SymInt → List SymInt
  | conj ps => ps
  | e => [e]

/-- All conditions hold. Conditions with a single value are dropped once none of them is zero. -/
def conjunction (nodes : List SymInt) : SymInt :=
  match nodes with
  | [] => num 1
  | [x] => x
  | nodes =>
    if nodes.any (·.is 0) then num 0
    else match (nodes.flatMap conditions).filter (fun x => x.lo ≠ x.hi) with
      | [] => num 1
      | [x] => x
      | ps => (conj ps).collapse

end LazyTensor.SymInt
