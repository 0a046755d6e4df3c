import LazyTensor.Layout.Basic

/-!
Where an element of a layout lies in the buffer, and whether it lies there at all: as an
expression together with its validity condition, or as a number for a concrete position.
-/
namespace LazyTensor

structure Access where
  index : SymInt
  valid : SymInt
  deriving Repr

/-- One counter for each axis, `idx0`, `idx1` and so on. -/
def Shape.counters (shape : Shape) : Checked (List SymInt) :=
  shape.zipIdx.mapM (fun (d, i) => do
    SymInt.counter s!"idx{i}" 0 (max (← Checked.sub d.hi 1) 0))

namespace Layout

/-- Carry an access down through the views. Once it cannot be valid the index no longer
matters. -/
def descend : List View → Access → Checked Access
  | [], a => .ok a
  | v :: vs, a =>
    if a.valid.hi = 0 then .ok { a with index := .num (-1) }
    else do
      let valid ← v.valid a.index (some a.valid)
      let index ← v.addressFlat a.index
      descend vs { index, valid }

def access (l : Layout) (idxs : List SymInt) : Checked Access := do
  let index ← l.top.address idxs
  let valid ← l.top.validAt idxs
  descend l.below { index, valid }

def accessAll (l : Layout) : Checked Access := do l.access (← l.shape.counters)

def accessFlat (l : Layout) (idx : SymInt) : Checked Access := do
  let index ← l.top.addressFlat idx
  let valid ← l.top.valid idx none
  descend l.below { index, valid }

/-- Number of elements of the buffer that the layout can touch, counted from its start. -/
def size (l : Layout) : Checked Int := do
  if l.shape.any (·.is 0) then pure 0
  else Checked.add (← l.accessAll).index.hi 1

def axisIsMasked (l : Layout) (axis : Nat) : Checked Bool := do
  let a ← l.accessAll
  pure (a.valid.vars.any (fun v => v.name == s!"idx{axis}"))

/-- A term of an index as one of the counters and its stride. -/
def strideOf (idxs : List SymInt) (term : SymInt) : Option (Nat × Int) :=
  let (atom, stride) := term.atomCoeff
  if atom.var?.isSome then (idxs.findIdx? (· == atom)).map (·, stride) else none

/-- Stride of the counter of axis `i`: a number if the index moves by it alone. -/
def axisStride (a : Access) (found : List (Nat × Int)) (ignoreValid : Bool) (i : Nat)
    (idx : SymInt) : Option Int :=
  match idx.var? with
  | none => some 0
  | some v =>
    if a.valid.vars.contains v && !ignoreValid then none
    else if a.index.vars.contains v then (found.reverse.find? (·.1 == i)).map (·.2)
    else some 0

/-- Stride of each axis in the composed index, `none` where it is not a single stride or,
unless `ignoreValid`, where the axis takes part in the validity condition. -/
def realStrides (l : Layout) (ignoreValid : Bool) : Checked (List (Option Int)) := do
  if l.below.isEmpty && l.top.mask.isNone then pure (l.top.strides.map some)
  else
    let idxs ← l.shape.counters
    let a ← l.access idxs
    let found := a.index.parts.filterMap (strideOf idxs)
    pure (idxs.mapIdx (axisStride a found ignoreValid))

def unitStrideAxes (l : Layout) (ignoreValid : Bool) : Checked (List Nat) := do
  let strides ← l.realStrides ignoreValid
  pure ((List.range strides.length).filter (fun i => strides[i]? == some (some 1)))

/-- The position with row-major index `flat`, and what is left of the index beyond the shape. -/
def digits : List Int → Int → Checked (List Int × Int)
  | [], flat => .ok ([], flat)
  | d :: ds, flat => do
    let (tail, rest) ← digits ds flat
    return ((← Checked.euclidMod rest d) :: tail, ← Checked.euclidDiv rest d)

/-- Carry a number down through the views; `none` if a mask hides it or a shape is symbolic. -/
def descendTo : List View → Int → Checked (Option Int)
  | [], flat => .ok (some flat)
  | v :: vs, flat =>
    match v.shape.ints? with
    | none => .ok none
    | some dims => do
      let (position, _) ← digits dims flat
      if v.allows position then descendTo vs (← v.offsetAt position) else pure none

/-- Place of a concrete position in the buffer, `none` if it lies in padding. -/
def offsetOf (l : Layout) (position : List Int) : Checked (Option Int) := do
  if l.top.allows position then descendTo l.below (← l.top.offsetAt position) else pure none

end Layout

end LazyTensor
