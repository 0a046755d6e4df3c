import LazyTensor.Kernel.Basic
import LazyTensor.Layout.Contraction

/-!
Steps that change the axes of a kernel. All of them act on every layout in the same way, so the
layouts keep one rank.
-/
namespace LazyTensor

def Fallible.must {α : Type} (step : String) (x : Fallible α) : Checked α :=
  match x with
  | .ok a => .ok a
  | .error (.error e) => .error (.kernelStep step e.message)
  | .error (.abort a) => .error a

namespace Kernel

def reshapeAll (k : Kernel) (f : Shape → Checked Shape) : Checked Kernel := do
  let layouts ← k.layouts.mapM (fun l => do
    let target ← f l.shape
    (l.reshape target).must "reshape")
  pure { k with layouts }

def permuteAll (k : Kernel) (axes : List Nat) : Checked Kernel := do
  let layouts ← k.layouts.mapM (fun l => (l.permute axes).must "permute")
  pure { k with layouts }

def rearrange (k : Kernel) (f : Shape → Checked Shape) (axes : List Nat) : Checked Kernel := do
  let layouts ← k.layouts.mapM (fun l => do
    let target ← f l.shape
    let l ← (l.reshape target).must "reshape"
    (l.permute axes).must "permute")
  pure { k with layouts }

def upcast (k : Kernel) : Checked Kernel := do
  let axis ← Checked.subNat (← k.upcastStart) 1
  let n ← (← nth (← k.fullShape) axis).concrete
  if n = 1 then .error .unitUpcast else pure { k with upcasted := k.upcasted + 1 }

/-- Split `amount` off an axis, as the outer part if `top`. -/
def splitAxis (axis : Nat) (amount : Int) (top : Bool) (shape : Shape) : Checked Shape := do
  let before ← slice shape 0 axis
  let n ← (← nth shape axis).concrete
  let (a, b) ←
    if 1 < n then do
      let rest ← Checked.truncDiv n amount
      pure (if top then (amount, rest) else (rest, amount))
    else pure (1, 1)
  pure (before ++ [.num a, .num b] ++ shape.drop (axis + 1))

/-- Split `amount` off an axis and move it before another one, by default to the end. -/
def shift (k : Kernel) (axis : Nat) (amount : Int) (top : Bool) (before : Option Nat) :
    Checked Kernel := do
  let rank ← k.rank
  let moved ← if top then pure axis else Checked.addNat axis 1
  let place := before.getD rank
  let place ← if moved < place then Checked.addNat place 1 else pure place
  let left := (List.range place).filter (· != moved)
  let right := (List.range' place (rank + 1 - place)).filter (· != moved)
  k.rearrange (splitAxis axis amount top) (left ++ [moved] ++ right)

def countTrue (flags : List Bool) : Nat := flags.countP id

def dropOnes (k : Kernel) : Checked (Kernel × Bool) := do
  let n ← k.rank
  if n = 0 then pure (k, false)
  else
    let ones := (← k.fullShape).map (·.is 1)
    let fr ← k.firstReduce
    let locals ← slice ones (← Checked.subNat fr k.localDims) fr
    let localDims ← Checked.subNat k.localDims (countTrue locals)
    let lanes ← slice ones (← Checked.subNat n k.upcasted) ones.length
    let upcasted ← Checked.subNat k.upcasted (countTrue lanes)
    let k := { k with localDims, upcasted }
    let k ← k.reshapeAll (fun shape =>
      .ok (((shape.zip ones).filter (fun (_, one) => !one)).map (·.1)))
    pure (k, ones.any id)

def withoutOnes (k : Kernel) : Checked Kernel := return (← k.dropOnes).1

/-- An axis of one layout: its length and its stride, if that is a single number. -/
abbrev Axis := SymInt × Option Int

/-- The next axis of a layout continues the last one. -/
def continues (last : Option Axis) (next : Axis) : Checked Bool := do
  let stride := last.map (·.2)
  match next.2 with
  | none => pure false
  | some 0 => pure (stride == some (some 0))
  | some st =>
    match next.1.num? with
    | some n => return stride == some (some (← Checked.mul n st))
    | none => pure false

/-- Add the next axis of every layout, merged with the last one if all of them continue it.
Each layout's axes stand in reverse. -/
def mergeStep (mayMerge : Bool) (rows : List (List Axis)) (next : List Axis) :
    Checked (List (List Axis)) := do
  let together ←
    if mayMerge then (rows.zip next).allM (fun (row, axis) => continues row.head? axis)
    else pure false
  (rows.zip next).mapM (fun (row, axis) =>
    match row with
    | last :: row =>
      if together then return (← last.1.timesDim axis.1, axis.2) :: row
      else .ok (axis :: last :: row)
    | [] => .ok [axis])

/-- Strides that keep the axes of an image apart. -/
def imageAxes (shape : Shape) (base : List Int) : Checked (Option (List Axis)) := do
  match ← shape.contraction? (Shape.ofInts base) with
  | none => pure none
  | some groups =>
    let strides ← groups.mapM (fun g => do
      let piece ← g.mapM (nth shape)
      return (← Shape.rowMajor? piece).getD (piece.map (fun _ => 0)))
    pure (some (shape.zip (strides.flatten.map some)))

def axisRows (k : Kernel) : Checked (List (List Axis)) := do
  let rows ← k.layouts.mapM (fun l => return l.shape.zip (← l.realStrides false))
  let out ← nth k.slots 0
  match out.element.imageShape? with
  | none => pure rows
  | some base => return rows ++ (← imageAxes (← k.outputShape) base).toList

/-- Merge neighbouring axes that every buffer walks as one, never across the first reduce. -/
def mergeAxes (k : Kernel) : Checked Kernel := do
  let n ← k.rank
  if n = 0 then pure k
  else
    let rows ← k.axisRows
    let fr ← k.firstReduce
    let first ← rows.mapM (fun row => return [← nth row 0])
    let merged ← (List.range' 1 (n - 1)).foldlM (fun acc i => do
      mergeStep (i != fr) acc (← rows.mapM (nth · i))) first
    let layouts ← (k.layouts.zip merged).mapM (fun (l, row) =>
      (l.reshape (row.reverse.map (·.1))).must "merge")
    pure { k with layouts }

def distinct {α : Type} [BEq α] (xs : List α) : List α :=
  xs.foldl (fun seen x => if seen.contains x then seen else seen ++ [x]) []

def reduceLast (k : Kernel) : Checked (List Nat) := do
  let n := min (← k.fullShape).length (← k.outputShape).length
  let flags ← (List.range n).mapM (fun i => return (i, ← k.isKept i))
  pure ((flags.filter (·.2)).map (·.1) ++ (flags.filter (fun f => !f.2)).map (·.1))

def leafLayout : Slot → Checked Layout
  | .mem m => m.layout.simplify
  | .const c => c.layout.simplify
  | .shared _ _ _ => .error .bounds

/-- The kernel of a scheduled tree, with its reduced axes at the end and merged axes. -/
def ofTree (tree : OpTree) (target : Target) : Fallible Kernel := do
  let estimate ← tree.estimate
  let reduces := distinct (tree.trees.filter (fun t => t.op.kind == .reduce))
  if 1 < reduces.length then .error (.abort .manyReduces)
  let reduceOp := reduces.head?
  let outLayout ← Layout.ofShape estimate.shape
  let output := Slot.mem { slot := 0, element := estimate.element, layout := outLayout }
  let slots := distinct (output :: tree.trees.filterMap Slot.ofLeaf?)
  let early := (reduceOp.map (fun r => r.trees.filterMap Slot.ofLeaf?)).getD []
  let fullIndex := (early.head?.bind (fun e => slots.findIdx? (· == e))).getD 0
  let layouts ← (slots.mapM leafLayout : Checked (List Layout))
  if layouts.any (fun l => l.rank != outLayout.rank) then .error (.abort .rankMismatch)
  let k : Kernel := { target, tree, estimate, reduceOp, slots, layouts, early, fullIndex }
  let k ← k.permuteAll (← k.reduceLast)
  let k ← k.withoutOnes
  k.mergeAxes

end Kernel

end LazyTensor
