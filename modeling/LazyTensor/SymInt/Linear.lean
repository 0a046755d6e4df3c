import LazyTensor.SymInt.Printer

/-!
Linear arithmetic. Sums are flat, hold at most one number (as their last term) and one term
for each atom; products distribute over sums and never nest.
-/
namespace LazyTensor.SymInt

def scale (a : SymInt) (c : Int) : Checked SymInt :=
  if c = 0 then .ok (num 0)
  else if c = 1 then .ok a
  else do
    let (lo, hi) := a.range
    let _ ← Checked.mul lo c
    let _ ← Checked.mul hi c
    pure (mul a c).collapse

/-- Add a coefficient to the entry of its atom, or open a new entry. -/
def addCoeff : List (SymInt × Int) → SymInt → Int → Checked (List (SymInt × Int))
  | [], a, c => .ok [(a, c)]
  | (b, d) :: groups, a, c =>
    if b == a then return (b, ← Checked.add d c) :: groups
    else return (b, d) :: (← addCoeff groups a c)

/-- Merge the terms that have the same atom, in the order of first appearance. -/
def mergeTerms (terms : List SymInt) : Checked (List SymInt) := do
  let groups ← terms.foldlM (fun groups t => addCoeff groups t.atomCoeff.1 t.atomCoeff.2) []
  (groups.filter (fun g => g.2 ≠ 0)).mapM (fun g => scale g.1 g.2)

/-- Sum of expressions, flattened, with constants folded and like terms merged. -/
def total (nodes : List SymInt) : Checked SymInt := do
  match nodes.filter (fun x => x.range ≠ (0, 0)) with
  | [] => pure (num 0)
  | [x] => pure x
  | nodes =>
    let flat := termsAll nodes
    let constant ← Checked.sum (flat.filterMap num?)
    let symbolic := flat.filter (fun x => !x.isNum)
    let distinct := decide (symbolic.map (fun x => x.atomCoeff.1.key)).Nodup
    let merged ← if distinct then pure symbolic else mergeTerms symbolic
    match if constant = 0 then merged else merged ++ [num constant] with
    | [] => pure (num 0)
    | [x] => pure x
    | terms =>
      let _ ← Checked.sum (terms.map lo)
      let _ ← Checked.sum (terms.map hi)
      pure (sum terms).collapse

def plus (a b : SymInt) : Checked SymInt := total [a, b]

mutual

def times : SymInt → Int → Checked SymInt
  | e, c =>
    if c = 0 then .ok (num 0)
    else if c = 1 then .ok e
    else match e with
      | num n => return num (← Checked.mul n c)
      | mul a d => do a.times (← Checked.mul d c)
      | sum parts => do total (← timesAll parts c)
      | e => scale e c

def timesAll : List SymInt → Int → Checked (List SymInt)
  | [], _ => .ok []
  | p :: ps, c => return (← p.times c) :: (← timesAll ps c)

end

def negate (e : SymInt) : Checked SymInt := e.times (-1)

def minus (a b : SymInt) : Checked SymInt := do a.plus (← b.negate)

def plusInt (e : SymInt) (n : Int) : Checked SymInt := e.plus (num n)

def minusInt (e : SymInt) (n : Int) : Checked SymInt := do e.plusInt (← Checked.neg n)

end LazyTensor.SymInt
