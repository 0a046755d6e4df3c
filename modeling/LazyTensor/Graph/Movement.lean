import LazyTensor.Graph.Basic

/-!
Movements: operations that give the elements of a tensor in another arrangement.
-/
namespace LazyTensor

inductive Movement where
  | reshape (target : Shape)
  | permute (axes : List Nat)
  | expand (target : Shape)
  /-- Zeros before and after each axis. -/
  | pad (pads : List (Int × Int))
  /-- From each axis the positions from the first number up to the second. -/
  | shrink (ranges : List (Int × Int))
  /-- Every so manieth position of each axis, backwards if negative. -/
  | stride (steps : List Int)

namespace Movement

def op : Movement → MovementOp
  | reshape _ => .reshape
  | permute _ => .permute
  | expand _ => .expand
  | pad _ => .pad
  | shrink _ => .shrink
  | stride _ => .stride

def arg : Movement → OpArg
  | reshape s | expand s => .shape s
  | permute axes => .axes axes
  | pad ps | shrink ps => .pairs ps
  | stride ms => .strides ms

def ofOp? : MovementOp → OpArg → Option Movement
  | .reshape, .shape s => some (reshape s)
  | .permute, .axes axes => some (permute axes)
  | .expand, .shape s => some (expand s)
  | .pad, .pairs ps => some (pad ps)
  | .shrink, .pairs ps => some (shrink ps)
  | .stride, .strides ms => some (stride ms)
  | _, _ => none

@[simp] def tree (m : Movement) (x : Nat) : OpTree :=
  { op := .movement m.op, arg := m.arg, srcs := [.buffer x] }

def apply (m : Movement) (l : Layout) : Fallible Layout :=
  match m with
  | reshape s => l.reshape s
  | permute axes => l.permute axes
  | expand s => l.expand s
  | pad ps => l.pad ps
  | shrink ps => l.shrink ps
  | stride ms => l.stride ms

def rank? : Movement → Option Nat
  | reshape _ => none
  | permute axes => some axes.length
  | expand s => some s.length
  | pad ps | shrink ps => some ps.length
  | stride ms => some ms.length

def name : Movement → String
  | reshape _ => "reshape"
  | permute _ => "permute"
  | expand _ => "expand"
  | pad _ => "pad"
  | shrink _ => "shrink"
  | stride _ => "stride"

def checkRank (m : Movement) (shape : Shape) : Fallible Unit :=
  match m.rank? with
  | none => .ok ()
  | some n =>
    if shape.length = n then .ok () else fail (.movement m.name shape (.wrongRank shape.length n))

def keepsLengths : Shape → List (Int × Int) → Checked Bool
  | s :: ss, (b, e) :: ps => do
    if s.is (← Checked.sub e b) then keepsLengths ss ps else pure false
  | _, _ => .ok true

def isTrivial (m : Movement) (shape : Shape) : Checked Bool :=
  match m with
  | reshape s | expand s => .ok (shape == s)
  | permute axes => .ok (axes == List.range axes.length)
  | pad ps => .ok (ps.all (fun p => p.1 == 0 && p.2 == 0))
  | shrink ps => keepsLengths shape ps
  | stride ms => .ok (ms.all (· == 1))

/-- One movement for two of the same kind, the first one done before the second. -/
def merge (first second : Movement) : Checked (Option Movement) :=
  match first, second with
  | reshape _, reshape s => .ok (some (reshape s))
  | expand _, expand s => .ok (some (expand s))
  | permute p, permute q => return some (permute (← q.mapM (nth p)))
  | pad p, pad q => return some (pad (← (p.zip q).mapM (fun ((b1, e1), (b2, e2)) => do
      return (← Checked.add b1 b2, ← Checked.add e1 e2))))
  | shrink p, shrink q => return some (shrink (← (p.zip q).mapM (fun ((b1, _), (b2, e2)) => do
      return (← Checked.add b1 b2, ← Checked.add b1 e2))))
  | stride p, stride q =>
    return some (stride (← (q.zip p).mapM (fun (a, b) => Checked.mul a b)))
  | _, _ => .ok none

end Movement

namespace Graph

/-- The movement that an unrealized tensor does, and the tensor that it moves. -/
def pendingMove? (g : Graph) (id : Nat) : Checked (Option (Nat × Movement)) := do
  match ← g.pending? id with
  | some { op := .movement m, arg, srcs := .buffer src :: _ } =>
    pure ((Movement.ofOp? m arg).map (fun m => (src, m)))
  | _ => pure none

/-- The movement joined with the one before it, if nothing else reads what stands between. -/
def merged? (g : Graph) (x : Nat) (m : Movement) : Checked (Option (Nat × Movement)) := do
  if 1 < (← g.childCount x) then pure none
  else match ← g.pendingMove? x with
    | none => pure none
    | some (src, first) => return (← first.merge m).map (fun m => (src, m))

/-- The tensor from which unrealized movements start, in at most `n` steps. Copies of contiguous
sources count as movements if `copies` is set. -/
def rootWithin (g : Graph) (copies : Bool) : Nat → Nat → Checked Nat
  | 0, _ => .error .unfinished
  | n + 1, x => do
    match ← g.pending? x with
    | some { op := .movement _, srcs := .buffer src :: _, .. } => g.rootWithin copies n src
    | some { op := .load .contiguous, srcs := .buffer src :: _, .. } =>
      if copies && (← g.tensor src).layout.contiguous then g.rootWithin copies n src else pure x
    | _ => pure x

def movementRoot (g : Graph) (x : Nat) (copies : Bool) : Checked Nat :=
  g.rootWithin copies g.limit x

def contiguousRootWithin (g : Graph) : Nat → Nat → Checked Nat
  | 0, _ => .error .unfinished
  | n + 1, x => do
    match ← g.pending? x with
    | some { op := .load .contiguous, srcs := [], .. } => .error .bounds
    | some { op := .load .contiguous, srcs := .buffer src :: _, .. } => g.contiguousRootWithin n src
    | _ =>
      let t ← g.tensor x
      if t.kind = .movement && t.layout.contiguous then g.movementRoot x true else pure x

/-- Where the values of a tensor come from if copies and movements that end contiguous are
looked through. -/
def contiguousRoot (g : Graph) (x : Nat) : Checked Nat := g.contiguousRootWithin g.limit x

def singleRootWithin (g : Graph) : Nat → Nat → Checked Nat
  | 0, _ => .error .unfinished
  | n + 1, x => do
    match (← g.tensor x).op with
    | some { srcs := [.buffer src], .. } => g.singleRootWithin n src
    | _ => pure x

def singleRoot (g : Graph) (x : Nat) : Checked Nat := g.singleRootWithin g.limit x

end Graph

end LazyTensor
