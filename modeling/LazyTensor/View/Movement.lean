import LazyTensor.View.Basic

/-!
Movements of a view. Each one gives the view through which the moved shape reads the same
buffer, or says why the argument does not fit the shape.
-/
namespace LazyTensor.View

def refuse {α : Type} (v : View) (op : String) (fault : MovementFault) : Fallible α :=
  fail (.movement op v.shape fault)

def intShape (v : View) (op : String) : Fallible (List Int) :=
  match v.shape.ints? with
  | some dims => .ok dims
  | none => v.refuse op .symbolicShape

def originShift (strides : List Int) (window : List (Int × Int)) : Checked Int := do
  Checked.sum (← (strides.zip window).mapM (fun (st, b, _) => Checked.mul st b))

def moveMask (mask : Mask) (window : List (Int × Int)) : Checked Mask :=
  (mask.zip window).mapM (fun (m, a) => do
    let lo ← Checked.sub m.1 a.1
    let hi ← Checked.sub m.2 a.1
    let size ← Checked.sub a.2 a.1
    pure (max lo 0, min hi size))

def meetMasks (a b : Mask) : Mask :=
  List.zipWith (fun x y => (max x.1 y.1, min x.2 y.2)) a b

/-- The view of the window `[b, e)` of each axis. The window may leave the shape; then `mask`
has to keep out what lies beyond. -/
def resize (v : View) (window : List (Int × Int)) (mask : Option Mask) : Checked View := do
  let shift ← originShift v.strides window
  let offset ← Checked.add v.offset shift
  let mask ← match v.mask with
    | none => pure mask
    | some old =>
      let moved ← moveMask old window
      pure (some (match mask with
        | some given => meetMasks given moved
        | none => moved))
  let dims ← window.mapM (fun (b, e) => Checked.sub e b)
  make (Shape.ofInts dims) v.strides offset mask

def padWindow : Int × Int × Int → Checked (Int × Int)
  | (d, before, after) => return (← Checked.neg before, ← Checked.add d after)

def padRange : Int × Int × Int → Checked (Int × Int)
  | (d, before, _) => return (before, ← Checked.add d before)

def surround (v : View) (dims : List Int) (pads : List (Int × Int)) : Checked View := do
  let window ← (dims.zip pads).mapM padWindow
  let mask ← (dims.zip pads).mapM padRange
  v.resize window (some mask)

def pad (v : View) (pads : List (Int × Int)) : Fallible View := do
  if pads.length ≠ v.shape.length then v.refuse "pad" (.padCount pads.length v.shape.length)
  else if pads.any (fun (b, e) => b < 0 || e < 0) then v.refuse "pad" (.negativePadding pads)
  else if pads.all (· == (0, 0)) then pure v
  else
    let dims ← v.intShape "pad"
    v.surround dims pads

def shrink (v : View) (ranges : List (Int × Int)) : Fallible View := do
  if ranges.length ≠ v.shape.length then
    v.refuse "shrink" (.rangeCount ranges.length v.shape.length)
  else
    let dims ← v.intShape "shrink"
    if (dims.zip ranges).all (fun (d, b, e) => 0 ≤ b && b ≤ e && e ≤ d) then
      v.resize ranges none
    else v.refuse "shrink" (.outOfBounds ranges)

/-- The mask range of an axis after broadcasting it from `d` to `target`. -/
def expandRange (v : View) (range : Int × Int) (d target : SymInt) : Fallible (Int × Int) :=
  if d == target then .ok range
  else if range = (0, 1) then
    match target.num? with
    | some n => .ok (0, n)
    | none => v.refuse "expand" .maskedSymbolic
  else .ok (0, 0)

def expand (v : View) (target : Shape) : Fallible View := do
  if target.length ≠ v.shape.length then v.refuse "expand" (.cannotExpand target)
  else if v.shape.any (·.is 0) then ofShape target
  else if ((v.shape.zip target).zip v.strides).all
      (fun ((d, t), st) => d == t || (d.is 1 && st == 0)) then
    let mask ← v.mask.mapM (fun m =>
      ((m.zip v.shape).zip target).mapM (fun ((r, d), t) => v.expandRange r d t))
    make target v.strides v.offset mask
  else v.refuse "expand" (.cannotExpand target)

def isPermutation (axes : List Nat) (rank : Nat) : Bool :=
  axes.length == rank && axes.all (· < rank) && decide axes.Nodup

def reorder (v : View) (axes : List Nat) : Checked View := do
  let shape ← axes.mapM (nth v.shape)
  let strides ← axes.mapM (nth v.strides)
  let mask ← v.mask.mapM (fun m => axes.mapM (nth m))
  make shape strides v.offset mask

/-- Reorder the axes: axis `k` of the result is axis `axes[k]`. -/
def permute (v : View) (axes : List Nat) : Fallible View := do
  if isPermutation axes v.shape.length then v.reorder axes
  else v.refuse "permute" (.notPermutation axes)

/-- The offset moves to the last element of each axis that is walked backwards. -/
def flipOffset (v : View) : Int → List ((SymInt × Int) × Int) → Fallible Int
  | offset, [] => .ok offset
  | offset, ((d, st), m) :: rest =>
    if m < 0 then
      match d.num? with
      | some n => do
        let last ← Checked.sub n 1
        let step ← Checked.mul last st
        let moved ← Checked.add offset step
        flipOffset v moved rest
      | none => v.refuse "stride" .negativeSymbolicStride
    else flipOffset v offset rest

/-- How many of `d` positions every `m`-th one visits. -/
def strideDim (d : SymInt) (m : Int) : Checked SymInt := do
  let size ← Checked.abs m
  let rounded ← d.plusInt (← Checked.sub size 1)
  rounded.quotient size

def strideRange (range : Int × Int) (d m : Int) : Checked (Int × Int) := do
  let size ← Checked.abs m
  let lo ← if 0 < m then pure range.1 else Checked.sub d range.2
  let hi ← if 0 < m then pure range.2 else Checked.sub d range.1
  let up (x : Int) : Checked Int := do
    Checked.euclidDiv (← Checked.sub (← Checked.add x size) 1) size
  return (← up lo, ← up hi)

/-- Take every `m`-th element, backwards if `m` is negative. -/
def stride (v : View) (multipliers : List Int) : Fallible View := do
  if multipliers.length ≠ v.shape.length || multipliers.any (· == 0) then
    v.refuse "stride" (.badMultipliers multipliers)
  else
    let offset ← v.flipOffset v.offset ((v.shape.zip v.strides).zip multipliers)
    let strides ← (v.strides.zip multipliers).mapM (fun (st, m) => Checked.mul st m)
    let shape ← (v.shape.zip multipliers).mapM (fun (d, m) => strideDim d m)
    let mask ← match v.mask with
      | none => pure none
      | some mask =>
        let dims ← v.intShape "stride"
        let moved ← (mask.zip (dims.zip multipliers)).mapM (fun (r, d, m) => strideRange r d m)
        pure (some moved)
    make shape strides offset mask

/-- Deal the values out to the non-unit axes, and `unit` to the others. -/
def dealNonUnit {α : Type} (unit filler : α) : Shape → List α → List α
  | [], _ => []
  | d :: ds, xs =>
    if d.is 1 then unit :: dealNonUnit unit filler ds xs
    else match xs with
      | x :: xs => x :: dealNonUnit unit filler ds xs
      | [] => filler :: dealNonUnit unit filler ds []

def keepNonUnit {α : Type} (shape : Shape) (xs : List α) : List α :=
  ((shape.zip xs).filter (fun (d, _) => !d.is 1)).map (·.2)

/-- Insert and remove unit axes. A unit axis masked out hides everything. -/
def moveUnits (v : View) (target : Shape) : Checked View :=
  let strides := dealNonUnit 0 0 target (keepNonUnit v.shape v.strides)
  let mask := v.mask.map (fun (m : Mask) =>
    if (v.shape.zip m).any (fun (d, r) => d.is 1 && r != (0, 1)) then
      target.map (fun _ => ((0, 0) : Int × Int))
    else dealNonUnit (0, 1) (0, 0) target (keepNonUnit v.shape m))
  make target strides v.offset mask

/-- Reshape within one view, `none` if that takes a second view on top. -/
def reshape? (v : View) (target : Shape) : Fallible (Option View) := do
  if v.shape == target then pure (some v)
  else if target.any (fun d => d.lo < 0) then v.refuse "reshape" (.negativeTarget target)
  else if v.shape.any (·.is 0) then
    if target.any (·.is 0) then return some (← ofShape target)
    else v.refuse "reshape" (.emptySource target)
  else
    if v.shape.allInt && target.allInt then
      let old ← v.shape.product
      let new ← target.product
      unless old == new do v.refuse "reshape" (.sizeMismatch target)
    if v.contiguous then return some (← ofShape target)
    else if v.shape.filter (fun d => !d.is 1) == target.filter (fun d => !d.is 1) then
      return some (← v.moveUnits target)
    else pure none

end LazyTensor.View
