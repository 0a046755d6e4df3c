import LazyTensor.Op
import LazyTensor.Layout.Basic

/-!
Trees of operations. Inside a graph the leaves are buffers of the graph; once scheduled they
are memory slots and constants, each read through a layout.
-/
namespace LazyTensor

/-- What a function of the host is known by: its name, and where it stands. -/
structure HostId where
  name : String
  address : Nat := 0
  deriving DecidableEq

instance : Coe String HostId := ⟨fun name => { name }⟩

/-- A function on the contents of its inputs. -/
structure HostFn where
  id : HostId
  run : List (List Double) → Checked (List Double)

/-- A slot in the list of buffers of a kernel. Slot 0 is the output. -/
structure SlotRef where
  slot : Nat
  element : Element
  layout : Layout

structure ConstRef where
  value : Double
  element : Element
  layout : Layout

inductive OpArg where
  | none
  | shape (s : Shape)
  | axes (axes : List Nat)
  | pairs (pairs : List (Int × Int))
  | strides (strides : List Int)
  /-- Target type, and whether the bits are kept. -/
  | cast (e : Element) (bitcast : Bool)
  | const (x : Double)
  | seed (n : Nat)
  | custom (f : HostFn)
  | mem (slot : SlotRef)
  | constBuf (c : ConstRef)

inductive Source where
  | buffer (id : Nat)
  | apply (op : Op) (arg : OpArg) (srcs : List Source)

structure OpTree where
  op : Op
  arg : OpArg := .none
  srcs : List Source := []

namespace OpArg

/-- Constants are the same when their bits are. -/
def same : OpArg → OpArg → Bool
  | none, none => true
  | shape a, shape b => a == b
  | axes a, axes b => a == b
  | pairs a, pairs b => a == b
  | strides a, strides b => a == b
  | cast a x, cast b y => a == b && x == y
  | const a, const b => a.same b
  | seed a, seed b => a == b
  | custom a, custom b => a.id == b.id
  | mem a, mem b => a.slot == b.slot && a.element == b.element && a.layout == b.layout
  | constBuf a, constBuf b =>
    a.value.same b.value && a.element == b.element && a.layout == b.layout
  | _, _ => false

instance : BEq OpArg := ⟨same⟩

def shape? : OpArg → Option Shape
  | shape s => some s
  | _ => Option.none

def layout? : OpArg → Option Layout
  | mem s => some s.layout
  | constBuf c => some c.layout
  | _ => Option.none

end OpArg

namespace Source

mutual

@[simp] def same : Source → Source → Bool
  | buffer a, buffer b => a == b
  | apply op arg srcs, apply op' arg' srcs' => op == op' && arg == arg' && sameAll srcs srcs'
  | _, _ => false

@[simp] def sameAll : List Source → List Source → Bool
  | [], [] => true
  | s :: ss, t :: ts => s.same t && sameAll ss ts
  | _, _ => false

end

instance : BEq Source := ⟨same⟩

def ofTree (t : OpTree) : Source := apply t.op t.arg t.srcs

def buffer? : Source → Option Nat
  | buffer id => some id
  | apply _ _ _ => none

mutual

/-- Buffers at the leaves from left to right, with repetitions. -/
@[simp] def buffers : Source → List Nat
  | buffer id => [id]
  | apply _ _ srcs => buffersAll srcs

@[simp] def buffersAll : List Source → List Nat
  | [] => []
  | s :: ss => s.buffers ++ buffersAll ss

end

mutual

@[simp] def trees : Source → List OpTree
  | buffer _ => []
  | apply op arg srcs => { op, arg, srcs } :: treesAll srcs

@[simp] def treesAll : List Source → List OpTree
  | [] => []
  | s :: ss => s.trees ++ treesAll ss

end

mutual

/-- Replace leaf buffers; `none` keeps one. -/
def mapBuffers (f : Nat → Option Source) : Source → Source
  | buffer id => (f id).getD (buffer id)
  | apply op arg srcs => apply op arg (mapBuffersAll f srcs)

def mapBuffersAll (f : Nat → Option Source) : List Source → List Source
  | [] => []
  | s :: ss => s.mapBuffers f :: mapBuffersAll f ss

end

end Source

namespace OpTree

instance : BEq OpTree := ⟨fun a b => Source.ofTree a == Source.ofTree b⟩

def buffers (t : OpTree) : List Nat := Source.buffersAll t.srcs

@[simp] theorem buffers_mk (op : Op) (arg : OpArg) (srcs : List Source) :
    (mk op arg srcs).buffers = Source.buffersAll srcs := rfl

def trees (t : OpTree) : List OpTree := t :: Source.treesAll t.srcs

def mapBuffers (t : OpTree) (f : Nat → Option Source) : OpTree :=
  { t with srcs := Source.mapBuffersAll f t.srcs }

def mem (slot : Nat) (element : Element) (layout : Layout) : OpTree :=
  { op := .buffer .mem, arg := .mem { slot, element, layout } }

def const (value : Double) (element : Element) (layout : Layout) : OpTree :=
  { op := .buffer .const, arg := .constBuf { value, element, layout } }

def vars (t : OpTree) : List Variable :=
  let found := t.trees.filterMap (fun t => t.arg.layout?) |>.flatMap Layout.vars
  (VarMap.ofEntries (found.map (·, ()))).map (·.1)

end OpTree

end LazyTensor
