import LazyTensor.Alu
import LazyTensor.OpTree.Printer
import LazyTensor.Layout.Address

/-!
Direct evaluation of a scheduled tree: every node gives the values of all its elements in
row-major order.
-/
namespace LazyTensor

structure Dense where
  shape : List Int
  element : Element
  data : List Double
  deriving Repr

namespace Dense

/-- What an evaluation reads: the contents of slots 1, 2 and so on, and the bindings. -/
structure Env where
  /-- The device in whose name errors are reported. -/
  device : String
  inputs : List (Array Double)
  vals : Bindings

def refuse {α : Type} (env : Env) (fault : DeviceFault) : Fallible α :=
  fail (.device env.device fault)

def count (shape : List Int) : Checked Nat := return (← Checked.product shape).toNat

/-- Elements of a leaf, zero where the layout hides them. -/
def leaf (env : Env) (layout : Layout) (element : Element) (read : Int → Double) :
    Fallible Dense := do
  let layout ← layout.bindVars env.vals
  match layout.shape.ints? with
  | none => refuse env (.unboundLayout layout.render)
  | some shape =>
    Checked.room (← count shape)
    let offsets ← ((Shape.positions shape).mapM layout.offsetOf : Checked (List (Option Int)))
    pure { shape, element, data := offsets.map (fun o => o.elim 0.0 read) }

/-- Beyond the end of the contents everything is zero. -/
def readAt (data : Array Double) (i : Int) : Double :=
  if i < 0 then 0.0 else data.getD i.toNat 0.0

/-- Dimensions under the bindings, `none` from the first one on that is still symbolic. -/
def boundDims (vals : Bindings) : Shape → Checked (Option (List Int))
  | [] => .ok (some [])
  | d :: ds => do
    match (← d.bindVars vals).num? with
    | none => pure none
    | some n => return (← boundDims vals ds).map (n :: ·)

def boundShape (env : Env) (shape : Shape) (fault : DeviceFault) : Fallible (List Int) := do
  match ← (liftM (boundDims env.vals shape) : Fallible (Option (List Int))) with
  | some dims => pure dims
  | none => refuse env fault

def castTo (element : Element) (bitcast : Bool) (x : Dense) : Dense :=
  { x with
    element
    data := if bitcast then element.decode (x.element.encode x.data) else x.data.map element.cast }

def map1 (op : Op) (x : Dense) : Checked Dense := do
  pure { x with data := ← x.data.mapM (fun v => op.exec x.element [v]) }

def map2 (op : Op) (a b : Dense) : Checked Dense := do
  let element := a.element.join b.element
  let data ← (a.data.zip b.data).mapM (fun (x, y) => op.exec element [x, y])
  pure { a with element, data }

/-- Three operands side by side; the first one says how many there have to be. -/
def map3Data (op : Op) (element : Element) :
    List Double → List Double → List Double → Checked (List Double)
  | [], _, _ => .ok []
  | a :: as, b :: bs, c :: cs => do
    let x ← op.exec element [a, b, c]
    return x :: (← map3Data op element as bs cs)
  | _, _, _ => .error .bounds

def map3 (op : TernaryOp) (a b c : Dense) : Checked Dense := do
  let element := match op with
    | .select => b.element.join c.element
    | .mulAcc => (a.element.join b.element).join c.element
  pure { a with element, data := ← map3Data (.ternary op) element a.data b.data c.data }

/-- Row-major place of a position in the reduced shape, whose reduced axes have length one. -/
def reducedPlace (target : List Int) (position : List Int) : Checked Nat := do
  let place ← (position.zip target).foldlM
    (fun acc (d, n) => do Checked.add (← Checked.mul acc n) (if n = 1 then 0 else d)) 0
  pure place.toNat

def start : ReduceOp → Double
  | .sum => 0.0
  | .max => -Double.infinity

def accumulate : ReduceOp → Double → Double → Double
  | .sum, a, x => a + x
  | .max, a, x => a.maximum x

def reduceOnto (op : ReduceOp) (target : List Int) :
    List (List Int) → List Double → Array Double → Checked (Array Double)
  | [], _, acc => .ok acc
  | p :: ps, data, acc => do
    let place ← reducedPlace target p
    match acc[place]?, data with
    | some a, x :: data =>
      reduceOnto op target ps data (acc.setIfInBounds place (accumulate op a x))
    | _, _ => .error .bounds

/-- Sums are kept unrounded until the end. -/
def reduce (op : ReduceOp) (target : List Int) (x : Dense) : Checked Dense := do
  let n ← count target
  Checked.room n
  let acc := Array.replicate n (start op)
  let acc ← reduceOnto op target (Shape.positions x.shape) x.data acc
  pure { shape := target, element := x.element, data := acc.toList.map x.element.cast }

end Dense

mutual

def Source.dense (env : Dense.Env) : Source → Fallible Dense
  | .buffer id => Dense.refuse env (.unscheduledLeaf id)
  | .apply op arg srcs =>
    match op, arg with
    | .buffer .mem, .mem m =>
      match m.slot with
      | 0 => Dense.refuse env (.missingSlot 0)
      | i + 1 =>
        match env.inputs[i]? with
        | some data => Dense.leaf env m.layout m.element (Dense.readAt data)
        | none => Dense.refuse env (.missingSlot (i + 1))
    | .buffer .const, .constBuf c =>
      Dense.leaf env c.layout c.element (fun _ => c.element.cast c.value)
    | .unary .cast, .cast e bitcast => do
      let x ← Source.denseNext env srcs
      pure (x.castTo e bitcast)
    | .unary o, _ => do
      let x ← Source.denseNext env srcs
      x.map1 (.unary o)
    | .binary o, _ => do
      match srcs with
      | [] => .error (.abort .bounds)
      | s :: rest =>
        let a ← s.dense env
        let b ← Source.denseNext env rest
        a.map2 (.binary o) b
    | .ternary o, _ => do
      match srcs with
      | [] => .error (.abort .bounds)
      | [s] =>
        let _ ← s.dense env
        .error (.abort .bounds)
      | s :: t :: rest =>
        let a ← s.dense env
        let b ← t.dense env
        let c ← Source.denseNext env rest
        a.map3 o b c
    | .reduce o, .shape target => do
      let x ← Source.denseNext env srcs
      let target ← Dense.boundShape env target .unboundReduce
      x.reduce o target
    | .movement .reshape, .shape target => do
      let x ← Source.denseNext env srcs
      let target ← Dense.boundShape env target .unboundReshape
      let n ← Dense.count target
      if n = x.data.length then pure { x with shape := target }
      else Dense.refuse env (.cannotReshape x.shape target)
    | op, arg => Dense.refuse env (.cannotInterpret op.text arg.render)

def Source.denseNext (env : Dense.Env) : List Source → Fallible Dense
  | [] => .error (.abort .bounds)
  | s :: _ => s.dense env

end

def OpTree.dense (t : OpTree) (env : Dense.Env) : Fallible Dense := (Source.ofTree t).dense env

end LazyTensor
