import LazyTensor.View.Basic

/-!
Where an element of a view lies in its buffer: as an expression of one index per axis, as an
expression of a single row-major index, and as a number for a concrete position.
-/
namespace LazyTensor

def SymInt.timesDim (a b : SymInt) : Checked SymInt :=
  match a.num?, b.num? with
  | some x, _ => b.times x
  | none, some y => a.times y
  | none, none => .error (.symbolicProduct a.render b.render)

/-- Row-major index of a position given by one index per axis. The factor of each axis comes
with the terms of the axes behind it. -/
def Shape.flattenTerms : List (SymInt × SymInt) → Checked (List SymInt × Int)
  | [] => .ok ([], 1)
  | (i, d) :: rest => do
    let (terms, factor) ← flattenTerms rest
    let term ← i.times factor
    let next ← Checked.mul factor (d.num?.getD 1)
    pure (terms ++ [term], next)

def Shape.flatten (shape : Shape) (idxs : List SymInt) : Checked SymInt :=
  if idxs.length ≠ shape.length then .error .indexCount
  else do SymInt.total (← flattenTerms (idxs.zip shape)).1

namespace View

/-- Axes that step through memory as one are merged, the last axis of a group giving its
stride. `done` holds the groups so far, the latest first. -/
def mergeAxes : List (SymInt × Int) → List (SymInt × Int) → Checked (List (SymInt × Int))
  | done, [] => .ok done.reverse
  | [], axis :: rest => mergeAxes [axis] rest
  | (d, st) :: done, (d', st') :: rest => do
    let folds ← match d'.num? with
      | some n => do pure (decide (st = (← Checked.mul n st')))
      | none => pure false
    if folds || d.is 1 then mergeAxes ((← d.timesDim d', st') :: done) rest
    else if d'.is 1 then mergeAxes ((d, st) :: done) rest
    else mergeAxes ((d', st') :: (d, st) :: done) rest

def address (v : View) (idxs : List SymInt) : Checked SymInt :=
  if idxs.length ≠ v.shape.length then .error .indexCount
  else do
    let moving := ((idxs.zip v.shape).zip v.strides).filter (fun ((_, d), st) => !d.is 1 && st != 0)
    let terms ← moving.mapM (fun ((i, _), st) => i.times st)
    SymInt.total (.num v.offset :: terms)

/-- Terms of the offset for a single row-major index, the innermost group first, and the
number of elements inside one step of the next group. -/
def addressTerms (idx : SymInt) : List (SymInt × Int) → Checked (List SymInt × Int)
  | [] => .ok ([], 1)
  | (d, st) :: rest => do
    let (terms, inner) ← addressTerms idx rest
    let part ← idx.quotient inner
    let part ← match d.num? with
      | some n => part.remainder n
      | none => .error (.innerSymbolicDim d.render)
    let next ← Checked.mul inner (d.num?.getD 1)
    pure (terms ++ [← part.times st], next)

/-- The outermost group may be symbolic, and nothing is counted beyond it. -/
def addressOuter (idx : SymInt) : List (SymInt × Int) → Checked (List SymInt)
  | [] => .ok []
  | (d, st) :: rest => do
    let (terms, inner) ← addressTerms idx rest
    let part ← idx.quotient inner
    let part ← match d.num? with
      | some n => part.remainder n
      | none => pure part
    pure (terms ++ [← part.times st])

def defaultIndex (shape : Shape) : Checked SymInt := do
  SymInt.counter "idx" 0 (← Checked.sub (← shape.product).hi 1)

def addressFlat (v : View) (idx : SymInt) : Checked SymInt := do
  let merged ← mergeAxes [] (v.shape.zip v.strides)
  let terms ← addressOuter idx merged
  SymInt.total (if v.offset = 0 then terms else .num v.offset :: terms)

/-- Conditions under which a row-major index passes the mask, the innermost axis first. -/
def maskConditions (idx : SymInt) : List (SymInt × (Int × Int)) → Checked (List SymInt × Int)
  | [] => .ok ([], 1)
  | (d, lo, hi) :: rest => do
    let (conditions, inner) ← maskConditions idx rest
    match d.num? with
    | none => .error (.maskedSymbolicDim d.render)
    | some n =>
      let own ←
        if lo ≠ 0 ∨ hi ≠ n then do
          let position ← (← idx.quotient inner).remainder n
          let least ← position.atLeast lo
          pure [least, ← position.lessThan hi]
        else pure []
      pure (conditions ++ own, ← Checked.mul inner n)

/-- Validity of a row-major index, joined to a condition that has to hold anyway. -/
def valid (v : View) (idx : SymInt) (given : Option SymInt) : Checked SymInt := do
  match v.mask with
  | none => pure (SymInt.conjunction given.toList)
  | some mask =>
    let (conditions, _) ← maskConditions idx (v.shape.zip mask)
    pure (SymInt.conjunction (given.toList ++ conditions))

def validAt (v : View) (idxs : List SymInt) : Checked SymInt := do
  v.valid (← v.shape.flatten idxs) none

def allows (v : View) (position : List Int) : Bool :=
  match v.mask with
  | some mask => (position.zip mask).all (fun (i, lo, hi) => lo ≤ i && i < hi)
  | none => true

def offsetAt (v : View) (position : List Int) : Checked Int := do
  let steps ← (position.zip v.strides).mapM (fun (i, st) => Checked.mul i st)
  Checked.add v.offset (← Checked.sum steps)

end View

end LazyTensor
