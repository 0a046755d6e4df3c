import LazyTensor.Graph.Build
import LazyTensor.Listing

/-!
Scheduling: the programs that have to run to give a tensor its contents, each one after those
that it depends on.
-/
namespace LazyTensor

/-- One program to run. Slot `i + 1` of the tree is the input at `i`; a load keeps its own tree. -/
structure Item where
  tree : OpTree
  out : Nat
  inputs : List Nat
  vals : Bindings

def OpTree.unreshaped (tree : OpTree) : OpTree :=
  match tree with
  | { op := .movement .reshape, srcs := .apply op arg srcs :: _, .. } => { op, arg, srcs }
  | _ => tree

namespace Graph

open GraphM

/-- A reduce with an elementwise source inside it, if nothing else reads the source. -/
def reduceTree (g : Graph) (op : OpTree) : Checked OpTree := do
  let src ← nth op.srcs 0
  match src with
  | .apply .. => pure { op with srcs := [src] }
  | .buffer b =>
    match ← g.pending? b with
    | none => pure { op with srcs := [src] }
    | some inner =>
      let t ← g.tensor b
      let merges := g.config.mergeIntoReduce && t.kind = .elementwise && t.children.length ≤ 1
      pure { op with srcs := [if merges then .ofTree inner else src] }

/-- The reduce from which a source comes, if it can be computed inside its only reader. -/
def fusable? (g : Graph) (k : Nat) : Checked (Option Nat) := do
  let x ← g.contiguousRoot k
  let t ← g.tensor x
  if t.kind = .reduce && !(← g.isRealized x) then
    let same := (← (← g.shape k).product) == (← t.shape.product)
    return if same && t.children.length ≤ 1 && (← g.childCount k) ≤ 1 then some x else none
  else pure none

def fusedReduce (g : Graph) : List Nat → Checked (Option (Nat × Nat))
  | [] => .ok none
  | k :: ks => do
    match ← g.fusable? k with
    | some x => pure (some (k, x))
    | none => g.fusedReduce ks

/-- An elementwise tree with at most one reduce inside it. The other sources are brought to the
shape of the reduce, and the result back to the shape of the tensor. -/
def elementwiseTree (op : OpTree) (shape : Shape) : GraphM OpTree := do
  let g ← get
  let keys := op.buffers.eraseDups
  let fused ← if g.config.mergeReduce then see (·.fusedReduce keys) else pure none
  let start : List (Nat × Source) × Shape ← match fused with
    | none => pure ([], shape)
    | some (k, x) =>
      match ← see (·.pending? x) with
      | none => pure ([], shape)
      | some reduce =>
        let top ← see (·.reduceTree reduce)
        let own := top.buffers.map (fun b => (b, Source.buffer b))
        let target ← see (·.shape x)
        let inner := if (← see (·.shape k)) == target then shape else target
        pure (own.reverse ++ [(k, .ofTree top)], inner)
  let (fixed, inner) := start
  let srcs ← keys.foldlM (fun (srcs : List (Nat × Source)) k => do
    if (srcs.lookup k).isSome then pure srcs
    else return (k, Source.buffer (← move (.reshape inner) k)) :: srcs) fixed
  let tree := op.mapBuffers (srcs.lookup ·)
  pure (if inner == shape then tree
    else { op := .movement .reshape, arg := .shape shape, srcs := [.ofTree tree] })

def misfitsImage (g : Graph) (x : Nat) : Checked Bool := do
  match (← g.element x).imageShape? with
  | none => pure false
  | some image =>
    let t ← g.tensor x
    if !(← t.shape.product).is (← Checked.product image) then pure true
    else
      let axes ← t.layout.unitStrideAxes false
      return !(← axes.anyM (fun a =>
        return (← nth t.shape a).isConcrete (fun n => n.tmod 4 == 0)))

/-- The tree with a float result. A reshape stays outermost. -/
def floatTree (op : OpTree) : OpTree :=
  let cast (s : Source) : OpTree := { op := .unary .cast, arg := .cast .float32 false, srcs := [s] }
  match op.op, op.srcs with
  | .movement .reshape, src :: _ => { op with srcs := [.ofTree (cast src)] }
  | _, _ => cast (.ofTree op)

def joinVals (a b : Bindings) : Fallible Bindings :=
  b.foldlM (fun vals (v, new) =>
    match VarMap.value? vals v with
    | some was =>
      if was = new then .ok vals else fail (.conflict v.name was new)
    | none => .ok (VarMap.put vals v new)) a

/-- The bases that a tree reads, without constants that are written into the program. -/
def basesOf (g : Graph) (op : OpTree) : Checked (List Nat) := do
  let bases ← op.buffers.mapM (fun b => do
    if ← g.isPendingConst b then pure none else some <$> g.baseOf b)
  pure (bases.filterMap id).eraseDups

def leafOf (g : Graph) (bases : List Nat) (b : Nat) : Fallible Source := do
  let t ← g.tensor b
  let layout ← t.layout.simplify
  let base ← g.baseOf b
  let element ← g.element b
  match bases.idxOf? base with
  | some i => pure (.ofTree (.mem (i + 1) element layout))
  | none =>
    match ← (liftM (g.pending? base) : Fallible (Option OpTree)) with
    | some { op := .load .const, arg := .const x, .. } => pure (.ofTree (.const x element layout))
    | _ => fail (.unknownLeaf b base)

def slotTree (g : Graph) (op : OpTree) : Fallible (OpTree × List Nat) := do
  let bases ← g.basesOf op
  let leaves ← op.buffers.mapM (fun b => return (b, ← g.leafOf bases b))
  pure (op.unreshaped.mapBuffers (leaves.lookup ·), bases)

/-- What a copy copies, if it is laid out like the copy already. -/
def aliased? (g : Graph) (own : OpTree) : Checked (Option Nat) := do
  match own.op, ← nth own.srcs 0 with
  | .load .contiguous, .buffer src =>
    let t ← g.tensor src
    if t.layout.contiguous then
      let base ← g.baseTensor src
      let whole := (← t.layout.size) == (← base.layout.size)
      return if whole && !(← g.isPendingConst src) then some src else none
    else pure none
  | _, _ => pure none

abbrev Scheduler := StateT (List Nat) GraphM

def visitAll (visit : Nat → Scheduler (List Item)) (ids : List Nat) : Scheduler (List Item) := do
  return (← ids.mapM visit).flatten

def pendingTree (x : Nat) (own : OpTree) : GraphM OpTree := do
  let t ← see (·.tensor x)
  let op ← match own.op, t.kind with
    | .load .contiguous, _ => pure { op := .unary .noop, srcs := own.srcs }
    | _, .elementwise => elementwiseTree own t.shape
    | _, .reduce => see (·.reduceTree own)
    | _, _ => pure own
  if ← see (·.misfitsImage x) then
    if t.base.isSome then throw (.abort .basedElement)
    change x (fun t => { t with element := .float32 })
    pure (floatTree op)
  else pure op

def kernelItem (x : Nat) (op : OpTree) : GraphM Item := do
  let own ← see (·.vals x)
  let others ← see (fun g => op.buffers.mapM g.vals)
  let vals ← (others.foldlM joinVals own : Fallible Bindings)
  if (← see (·.tensor x)).base.isSome then throw (.abort .basedBindings)
  change x (fun t => { t with vals })
  let (tree, inputs) ← (← get).slotTree op
  pure { tree, out := x, inputs, vals }

def loadItem (x : Nat) (own : OpTree) (inputs : List Nat) : GraphM Item := do
  return { tree := own, out := x, inputs, vals := ← see (·.vals x) }

def visit (next : Nat → Scheduler (List Item)) (x : Nat) : Scheduler (List Item) := do
  let seen ← get
  let done ← see (fun g => do
    if seen.contains x then pure true
    else if ← g.isRealized x then pure true
    else g.isPendingConst x)
  if done then return []
  set (x :: seen)
  let t ← see (·.tensor x)
  if t.kind = .movement then next (t.base.getD x)
  else match t.op with
    | none => throw (.error (.schedule (.notComputed x)))
    | some own =>
      if own.op.kind = .load && own.op != .load .contiguous then
        let before ← visitAll next own.buffers
        return before ++ [← loadItem x own own.buffers]
      else
        let op ← pendingTree x own
        let copied ← if own.op == .load .contiguous then see (·.aliased? own) else pure none
        match copied with
        | some src =>
          let before ← next src
          return before ++ [← loadItem x own [src]]
        | none =>
          let before ← visitAll next op.buffers
          return before ++ [← kernelItem x op]

def visitWithin : Nat → Nat → Scheduler (List Item)
  | 0, _ => throw (.abort .unfinished)
  | n + 1, x => visit (visitWithin n) x

def schedule (x : Nat) : GraphM (List Item) := do
  discard (lookup x)
  (visitWithin (← get).limit x).run' []

end Graph

def Item.listing (items : List Item) : Checked String := do
  let rows ← items.zipIdx.mapM (fun (item, i) => do
    let e ← item.tree.estimate
    let memory ← e.memory
    let name (id : Nat) := s!"<LB {id}>"
    pure [toString i, name item.out, item.tree.op.text, e.shape.render,
      " ".intercalate (item.inputs.map name), e.flops.render, memory.render])
  pure (table [⟨"#", true⟩, ⟨"out", false⟩, ⟨"op", false⟩, ⟨"shape", false⟩,
    ⟨"inputs", false⟩, ⟨"ops", true⟩, ⟨"mem", true⟩] rows)

end LazyTensor
