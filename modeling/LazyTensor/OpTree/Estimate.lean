import LazyTensor.OpTree.Printer
import LazyTensor.Layout.Address

/-!
Cost of a scheduled tree: shape and type of its result, operations, and bytes read from each
slot. A subtree that occurs again costs no operations the second time.
-/
namespace LazyTensor

structure Estimate where
  shape : Shape
  element : Element
  flops : SymInt
  /-- Bytes read from each slot, in the order of the slots. -/
  slots : List (Nat × Int)

namespace Estimate

def putSlot : List (Nat × Int) → Nat × Int → List (Nat × Int)
  | [], x => [x]
  | y :: ys, x =>
    if x.1 = y.1 then x :: ys else if x.1 < y.1 then x :: y :: ys else y :: putSlot ys x

def memory (i : Estimate) : Checked SymInt := do
  let read ← Checked.sum (i.slots.map (·.2))
  let written ← (← i.shape.product).times i.element.itemSize
  written.plusInt read

def charge (i : Estimate) : Checked Estimate := do
  pure { i with flops := ← i.flops.plus (← i.shape.product) }

end Estimate

def MovementOp.shapeOf (op : MovementOp) (shape : Shape) (arg : OpArg) : Checked Shape :=
  match op, arg with
  | .reshape, .shape s | .expand, .shape s => .ok s
  | .permute, .axes axes => axes.mapM (nth shape)
  | .pad, .pairs ps => (shape.zip ps).mapM (fun (d, b, e) => do d.plusInt (← Checked.add b e))
  | .shrink, .pairs ps => ps.mapM (fun (b, e) => return .num (← Checked.sub e b))
  | .stride, .strides ms => (shape.zip ms).mapM (fun (d, m) => do
      let size ← Checked.abs m
      (← d.plusInt (← Checked.sub size 1)).quotient size)
  | op, arg => .error (.badArgument arg.debug op.name)

abbrev Estimated := List (OpTree × Estimate)

def Estimated.find? (seen : Estimated) (t : OpTree) : Option Estimate :=
  (List.find? (fun e => e.1 == t) seen).map (·.2)

def Estimate.combine (op : Op) (infos : List Estimate) : Checked Estimate := do
  let first ← nth infos 0
  let second ← nth infos 1
  let element := match op with
    | .ternary .select => second.element
    | _ => first.element.join second.element
  let flops ← infos.foldlM (fun acc i => acc.plus i.flops) (← first.shape.product)
  let slots := infos.foldl (fun acc i => i.slots.foldl putSlot acc) []
  pure { shape := first.shape, element, flops, slots }

mutual

def Source.estimate (seen : Estimated) : Source → Checked (Estimate × Estimated)
  | .buffer id => .error (.unscheduledLeaf id)
  | .apply op arg srcs =>
    match seen.find? { op, arg, srcs } with
    | some i => .ok ({ i with flops := .num 0 }, seen)
    | none => do
      let (i, seen) ← match op, arg with
        | .buffer .mem, .mem m => do
          let read ← Checked.mul m.element.itemSize (← m.layout.size)
          pure (⟨m.layout.shape, m.element, .num 0, [(m.slot, read)]⟩, seen)
        | .buffer .const, .constBuf c => pure (⟨c.layout.shape, c.element, .num 0, []⟩, seen)
        | .unary .cast, .cast e _ => do
          let (x, seen) ← Source.estimateFirst seen srcs
          pure ({ x with element := e }, seen)
        | .unary _, _ => do
          let (x, seen) ← Source.estimateFirst seen srcs
          pure (← x.charge, seen)
        | .binary _, _ | .ternary _, _ => do
          let (xs, seen) ← Source.estimateAll seen srcs
          pure (← Estimate.combine op xs, seen)
        | .reduce _, .shape target => do
          let (x, seen) ← Source.estimateFirst seen srcs
          pure ({ ← x.charge with shape := target }, seen)
        | .movement m, arg => do
          let (x, seen) ← Source.estimateFirst seen srcs
          pure ({ x with shape := ← m.shapeOf x.shape arg }, seen)
        | op, arg => .error (.noEstimate op.text arg.debug)
      pure (i, ({ op, arg, srcs }, i) :: seen)

def Source.estimateFirst (seen : Estimated) : List Source → Checked (Estimate × Estimated)
  | [] => .error .bounds
  | s :: _ => s.estimate seen

def Source.estimateAll (seen : Estimated) : List Source → Checked (List Estimate × Estimated)
  | [] => .ok ([], seen)
  | s :: ss => do
    let (x, seen) ← s.estimate seen
    let (xs, seen) ← Source.estimateAll seen ss
    pure (x :: xs, seen)

end

def OpTree.estimate (t : OpTree) : Checked Estimate :=
  return (← (Source.ofTree t).estimate []).1

end LazyTensor
