import LazyTensor.Device
import LazyTensor.Graph.Config

/-!
The graph of tensors. A tensor is not computed when it is made: it keeps the operation that
gives its values. A tensor that only looks at another one in a different layout is a view, and
its base owns the values.
-/
namespace LazyTensor

/-- A tensor of the graph. The element type, the contents and the bindings count only on a
base. -/
structure Tensor where
  device : String
  layout : Layout
  kind : OpKind
  /-- The operation that computes it, until it is realized. -/
  op : Option OpTree
  element : Element
  realized : Option Buffer := none
  base : Option Nat := none
  /-- Tensors whose operation reads this one, in ascending order. -/
  children : List Nat := []
  /-- Tensors based on this one, in ascending order. -/
  views : List Nat := []
  vals : Bindings := []

namespace Tensor

def shape (t : Tensor) : Shape := t.layout.shape

def render (t : Tensor) : String :=
  let op := match t.realized, t.op with
    | some _, _ => "realized"
    | none, some op => op.op.text
    | none, none => "none"
  "<LB " ++ t.shape.render ++ " " ++ t.element.text ++ " op=" ++ op ++ " st=" ++
    t.layout.render ++ ">"

end Tensor

/-- What decides whether a tensor was made before. The layout follows from the operation and the
base. -/
structure CacheKey where
  device : String
  element : Element
  op : OpTree
  vars : List Variable
  base : Option Nat
  deriving BEq

structure Stats where
  kernels : Nat := 0
  ops : Int := 0
  memory : Int := 0
  deriving DecidableEq, Repr

/-- Count a run; a cost that is not known counts as zero. -/
def Stats.record (s : Stats) (e : Estimate) (vals : Bindings) : Checked Stats := do
  let ops := (← e.flops.eval vals).getD 0
  let memory := (← (← e.memory).eval vals).getD 0
  return {
    kernels := s.kernels + 1
    ops := ← Checked.add s.ops ops
    memory := ← Checked.add s.memory memory }

structure Graph where
  config : Config := Config.ofLevel Config.defaultLevel
  devices : List Device := [{ name := "CPU" }, { name := "VM", engine := .compiler {} }]
  /-- By id. Ids are not used again: a dropped tensor leaves `none`. -/
  tensors : List (Option Tensor) := []
  cache : List (CacheKey × Nat) := []
  stats : Stats := {}
  memory : Memory := {}

/-- A change of the graph. What was changed before a failure stays changed. -/
abbrev GraphM := ExceptT Failure (StateM Graph)

instance : MonadLift Fallible GraphM := ⟨fun x => ExceptT.mk (pure x)⟩

def insertAsc (n : Nat) : List Nat → List Nat
  | [] => [n]
  | m :: ms => if n < m then n :: m :: ms else if n = m then m :: ms else m :: insertAsc n ms

namespace Graph

def size (g : Graph) : Nat := g.tensors.countP Option.isSome

def find? (g : Graph) (id : Nat) : Option Tensor := (g.tensors[id]?).join

def named (g : Graph) (id : Nat) : Fallible Tensor :=
  match g.find? id with
  | some t => .ok t
  | none => fail (.missingBuffer id)

def tensor (g : Graph) (id : Nat) : Checked Tensor :=
  match g.find? id with
  | some t => .ok t
  | none => .error (.notInGraph id)

def baseOf (g : Graph) (id : Nat) : Checked Nat := return (← g.tensor id).base.getD id

def baseTensor (g : Graph) (id : Nat) : Checked Tensor := do g.tensor (← g.baseOf id)

def element (g : Graph) (id : Nat) : Checked Element := return (← g.baseTensor id).element

def realized? (g : Graph) (id : Nat) : Checked (Option Buffer) :=
  return (← g.baseTensor id).realized

def isRealized (g : Graph) (id : Nat) : Checked Bool := return (← g.realized? id).isSome

def vals (g : Graph) (id : Nat) : Checked Bindings := return (← g.baseTensor id).vals

def shape (g : Graph) (id : Nat) : Checked Shape := return (← g.tensor id).shape

def childCount (g : Graph) (id : Nat) : Checked Nat := return (← g.tensor id).children.length

def device? (g : Graph) (name : String) : Option Device := g.devices.find? (fun d => d.name == name)

def device (g : Graph) (name : String) : Fallible Device :=
  match g.device? name with
  | some d => .ok d
  | none => fail (.device name .unknownDevice)

def register (g : Graph) (d : Device) : Graph :=
  { g with devices := g.devices.filter (fun e => e.name != d.name) ++ [d] }

def pending? (g : Graph) (id : Nat) : Checked (Option OpTree) := do
  if ← g.isRealized id then pure none else return (← g.tensor id).op

/-- A constant without contents, on a device that writes constants into its programs. -/
def isPendingConst (g : Graph) (id : Nat) : Checked Bool := do
  let t ← g.tensor id
  let base ← g.baseTensor id
  pure (base.realized.isNone && (base.op.map (·.op)) == some (.load .const)
    && (g.device? t.device).any Device.isCompiled)

/-- More steps than a walk through the graph takes. -/
def limit (g : Graph) : Nat := Nat.pow 2 (g.tensors.length + 64)

def update (g : Graph) (id : Nat) (f : Tensor → Tensor) : Checked Graph := do
  let t ← g.tensor id
  pure { g with tensors := g.tensors.set id (some (f t)) }

end Graph

namespace GraphM

def see {α : Type} (f : Graph → Checked α) : GraphM α := do liftM (f (← get))

def lookup (id : Nat) : GraphM Tensor := do (← get).named id

def change (id : Nat) (f : Tensor → Tensor) : GraphM Unit := do
  let g ← get
  set (← (liftM (g.update id f) : GraphM Graph))

def addChild (parent child : Nat) : GraphM Unit :=
  change parent (fun t => { t with children := insertAsc child t.children })

def removeChild (parent child : Nat) : GraphM Unit :=
  change parent (fun t => { t with children := t.children.filter (· != child) })

def insert (t : Tensor) : GraphM Nat := do
  let id := (← get).tensors.length
  ((t.op.map OpTree.buffers).getD []).forM (addChild · id)
  if t.kind = .movement then
    match t.base with
    | none => throw (.abort .movementBase)
    | some base =>
      if (← see (·.tensor base)).kind = .movement then throw (.abort .movementBase)
  match t.base with
  | some base => change base (fun b => { b with views := insertAsc id b.views })
  | none => if !t.layout.contiguous then throw (.abort .scatteredBase)
  modify (fun g => { g with tensors := g.tensors ++ [some t] })
  pure id

/-- Loads whose results differ each time, or cost nothing to repeat. -/
def isShared (op : Op) : Bool := !(op == .load .empty || op == .load .rand || op == .load .const)

/-- The tensor that an operation gives: one that was made before, or a new one. -/
def create (device : String) (layout : Layout) (op : OpTree) (element : Element) (vals : Bindings)
    (base : Option Nat) : GraphM Nat := do
  let g ← get
  let shared := g.config.cache && isShared op.op
  let key : CacheKey := { device, element, op, vars := vals.map (·.1), base }
  let hit := if shared then g.cache.find? (fun e => e.1 == key) else none
  match hit.filter (fun e => (g.find? e.2).isSome) with
  | some (_, id) =>
    op.buffers.forM (addChild · id)
    pure id
  | none =>
    let id ← insert { device, layout, kind := op.op.kind, op := some op, element, base
                      vals := if base.isSome then [] else vals }
    if shared then modify (fun g => { g with cache := (key, id) :: g.cache })
    pure id

end GraphM

end LazyTensor
