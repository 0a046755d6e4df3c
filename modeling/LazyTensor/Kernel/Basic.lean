import LazyTensor.OpTree.Estimate
import LazyTensor.Layout.Movement

/-!
A kernel is the iteration space of one scheduled tree. The layouts of all its buffers share one
rank, and their axes stand in a fixed order: global axes, local axes, grouped reduce axes, reduce
loops, and at the end the upcasted axes, which are unrolled into registers.
-/
namespace LazyTensor

structure Target where
  /-- Loads and stores of two or four values side by side. -/
  vectors : Bool := true
  /-- Global and local indices are launch dimensions instead of loops. -/
  locals : Bool := true
  /-- Launch limits; their number is the number of launch dimensions. -/
  globalMax : List Int := [65535, 65535, 65535]
  localMax : List Int := [256, 256, 64]
  deriving DecidableEq, Repr

namespace Target

def loops : Target := { vectors := false, locals := false }

def localLimit (t : Target) : Checked Int := return min (← Checked.product t.localMax) 128

end Target

inductive Slot where
  | mem (m : SlotRef)
  | const (c : ConstRef)
  | shared (name : String) (size : Int) (element : Element)

namespace Slot

def element : Slot → Element
  | mem m => m.element
  | const c => c.element
  | shared _ _ e => e

def same : Slot → Slot → Bool
  | mem a, mem b => OpArg.mem a == OpArg.mem b
  | const a, const b => OpArg.constBuf a == OpArg.constBuf b
  | shared a n e, shared b m f => a == b && n == m && e == f
  | _, _ => false

instance : BEq Slot := ⟨same⟩

def ofLeaf? (t : OpTree) : Option Slot :=
  match t.op, t.arg with
  | .buffer _, .mem m => some (mem m)
  | .buffer _, .constBuf c => some (const c)
  | _, _ => none

def text : Slot → String
  | mem m => s!"Mem {m.slot} " ++ m.element.text
  | const c => "Const " ++ Decimal.plain c.value ++ " " ++ c.element.text
  | shared name size element => s!"Local {name} {size} " ++ element.text

end Slot

structure Kernel where
  target : Target
  tree : OpTree
  estimate : Estimate
  reduceOp : Option OpTree
  /-- Slot 0 is the output. -/
  slots : List Slot
  layouts : List Layout
  /-- Buffers read below the reduce. -/
  early : List Slot
  fullIndex : Nat
  upcasted : Nat := 0
  localDims : Nat := 0
  groups : List Int := []

def grid : List Int → List (List Int)
  | [] => [[]]
  | n :: ns => (List.range n.toNat).flatMap (fun (k : Nat) => (grid ns).map ((k : Int) :: ·))

def SymInt.concrete (d : SymInt) : Checked Int :=
  match d.num? with
  | some n => .ok n
  | none => .error (.symbolicDim d.render)

def SymInt.isConcrete (d : SymInt) (p : Int → Bool) : Bool := d.num?.any p

def Shape.count? (shape : Shape) : Checked (Option Int) := shape.ints?.mapM Checked.product

/-- Both conditions; the second one is looked at only if the first holds. -/
def andThen (a : Checked Bool) (b : Checked Bool) : Checked Bool := do
  if ← a then b else pure false

namespace Kernel

def layout (k : Kernel) (i : Nat) : Checked Layout := nth k.layouts i

def rank (k : Kernel) : Checked Nat := return (← k.layout 0).rank

def outputShape (k : Kernel) : Checked Shape := return (← k.layout 0).shape

def fullShape (k : Kernel) : Checked Shape := return (← k.layout k.fullIndex).shape

def upcastStart (k : Kernel) : Checked Nat := do Checked.subNat (← k.rank) k.upcasted

def loopShape (k : Kernel) : Checked Shape := do slice (← k.fullShape) 0 (← k.upcastStart)

def isKept (k : Kernel) (axis : Nat) : Checked Bool := do
  return (← nth (← k.outputShape) axis) == (← nth (← k.fullShape) axis)

def firstReduce (k : Kernel) : Checked Nat := do
  let n ← k.upcastStart
  match ← (List.range n).findM? (fun i => return !(← k.isKept i)) with
  | some i => pure i
  | none => pure n

def globalDims (k : Kernel) : Checked Nat := do Checked.subNat (← k.firstReduce) k.localDims

def groupAxes (k : Kernel) : Checked (List Nat) := do
  return List.range' (← k.firstReduce) k.groups.length

/-- Grouped axes that are not reduced. They are upcast once the group has been reduced. -/
def middleAxes (k : Kernel) : Checked (List Nat) := do
  (← k.groupAxes).filterM k.isKept

def upcastAxes (k : Kernel) : Checked (List Nat) := do
  return List.range' (← k.upcastStart) k.upcasted

/-- All offsets into the upcasted axes of a buffer, with the last axis first. -/
def lanes (k : Kernel) (i : Nat) : Checked (List (List Int)) := do
  if k.upcasted = 0 then pure [[]]
  else
    let shape := (← k.layout i).shape
    let dims ← slice shape (← k.upcastStart) shape.length
    return grid (← dims.reverse.mapM SymInt.concrete)

/-- Upcasted axes with unit stride and a length divisible by four, counted from the first
upcasted one. -/
def vectorAxes (k : Kernel) (i : Nat) : Checked (List Nat) := do
  let start ← k.upcastStart
  let l ← k.layout i
  let axes ← l.unitStrideAxes false
  let axes ← axes.filterM (fun x => do
    if start ≤ x then return (← nth l.shape x).isConcrete (fun n => n.tmod 4 == 0)
    else pure false)
  pure (axes.map (· - start))

structure Lane where
  size : Int
  stride : Option Int
  reduced : Bool
  deriving DecidableEq, Repr

def upcastLanes (k : Kernel) (i : Nat) : Checked (List Lane) := do
  let axes ← k.upcastAxes
  let l ← k.layout i
  let strides ← l.realStrides false
  axes.mapM (fun x => do
    let size ← (← nth l.shape x).concrete
    let stride ← nth strides x
    pure { size, stride, reduced := !(← k.isKept x) })

/-- The accumulator of every lane. Lanes that differ in reduced axes only share one. -/
def accumulators (k : Kernel) (i : Nat) : Checked (List Nat) := do
  if k.upcasted = 0 then pure [0]
  else
    let lanes := (← k.upcastLanes i).reverse
    let kept := lanes.map (fun l => if l.reduced then 1 else l.size)
    let strides := (← (Shape.ofInts kept).rowMajor?).getD (kept.map (fun _ => 0))
    let strides := List.zipWith (fun st (l : Lane) => if l.reduced then 0 else st) strides lanes
    (grid (lanes.map (·.size))).mapM (fun p => do
      let steps ← (p.zip strides).mapM (fun (x, st) => Checked.mul x st)
      return (← Checked.sum steps).toNat)

def vectorDims (k : Kernel) (i : Nat) : Checked (List Nat) := do
  let e := (← nth k.slots i).element
  if k.target.vectors && (e == .float32 || e.isImage) then
    let start ← k.upcastStart
    let l ← k.layout i
    (← l.unitStrideAxes false).filterM (fun x => do
      if start ≤ x then return (← nth l.shape x).isConcrete (fun n => 1 < n) else pure false)
  else pure []

/-- A color for each axis: blue global, cyan local, green grouped, white grouped but kept, red
reduced, yellow upcasted, magenta upcasted and reduced. -/
def colors (k : Kernel) : Checked (List String) := do
  let fr ← k.firstReduce
  let middle ← k.middleAxes
  let global ← k.globalDims
  let group := (← k.groupAxes).map (fun i => if middle.contains i then "white" else "green")
  let loops := (← k.upcastStart) - (fr + k.groups.length)
  let upcast ← (← k.upcastAxes).mapM (fun i => do
    return if ← k.isKept i then "yellow" else "magenta")
  let colors := List.replicate global "blue" ++ List.replicate k.localDims "cyan" ++ group
    ++ List.replicate loops "red" ++ upcast
  if colors.length = (← k.rank) then pure colors else .error .colorCount

def coloredShape (k : Kernel) : Checked String := do
  let colors ← k.colors
  return " ".intercalate (((← k.fullShape).zip colors).map (fun (d, c) => d.render ++ ":" ++ c))

end Kernel

end LazyTensor
