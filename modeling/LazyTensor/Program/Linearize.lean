import LazyTensor.Program.Lower

/-!
The program of a kernel: definitions, launch indices or outer loops, the reduce if there is one,
and the value of the tree stored to the output. A grouped reduce stores the parts of each thread
to shared memory, waits for all of them, and folds them once more.
-/
namespace LazyTensor

namespace Program

/-- Instructions that matter, with their old positions, and what they read. -/
def live (code : List Instr) : List (Instr × Nat) × List Nat :=
  code.zipIdx.foldr (fun (u, id) (kept, read) =>
    if u.kind.hasEffect || read.contains id then ((u, id) :: kept, u.inputs ++ read)
    else (kept, read)) ([], [])

/-- Drop the instructions that nothing reads, and number the rest anew. -/
def prune (code : List Instr) : List Instr :=
  let kept := (live code).1
  let ids := kept.map (·.2)
  kept.map (fun (u, _) => { u with inputs := u.inputs.map (fun i => ids.idxOf i) })

def baseName (k : Kernel) : Checked String := do
  let word (d : SymInt) : String :=
    match d.num? with
    | some n => toString n
    | none => d.render.map (fun c => if c.isAlphanum then c else '_')
  let start := if k.reduceOp.isSome then "r_" else "E_"
  return start ++ "_".intercalate ((← k.fullShape).map word)

end Program

namespace Build

structure Indices where
  global : List SymInt
  inner : List SymInt
  upcast : List SymInt

def upcastCounters (k : Kernel) (shape : Shape) : Checked (List SymInt) := do
  let dims ← slice shape (← k.upcastStart) shape.length
  dims.mapM (fun d => do SymInt.counter "" 0 (← Checked.sub (← d.concrete) 1))

def defineSlot (slot : Slot) : Build (Option Nat) :=
  match slot with
  | .mem m => some <$> emit { kind := .defineGlobal, element := some m.element,
                              arg := .global m.slot m.element } true
  | _ => pure none

def defineSlots : Build Unit := do
  let ids ← (← kernel).slots.mapM defineSlot
  modify (fun b => { b with slots := ids })

def defineVars : Build Unit := do
  (← kernel).tree.vars.forM (fun v => do
    let id ← emit { kind := .defineGlobal, element := some .int32, arg := .var v } true
    holdCounter v.name id)

/-- Shape of the shared memory of a grouped reduce: one value for each thread and lane. -/
def sharedShape (k : Kernel) : Checked Shape := do
  let global ← k.globalDims
  let fr ← k.firstReduce
  let threads ← slice (← k.fullShape) global (global + k.localDims + k.groups.length)
  let loops ← Checked.subNat (← Checked.subNat (← k.upcastStart) k.groups.length) fr
  let lanes ← k.upcastLanes 0
  pure (List.replicate global (.num 1) ++ threads ++ List.replicate loops (.num 1)
    ++ lanes.map (fun l => .num l.size))

def sharedLayout (shape : Shape) : Checked Layout :=
  match Layout.ofShape shape with
  | .ok l => .ok l
  | .error (.error e) => .error (.localShape e.message)
  | .error (.abort a) => .error a

def sharedElement (k : Kernel) : Checked Element :=
  match k.reduceOp with
  | some r => return (← r.estimate).element.scalar.element
  | none => .ok .float32

def defineShared : Build Unit := do
  let k ← kernel
  unless k.groups.isEmpty do
    let layout ← sharedLayout (← sharedShape k)
    let element ← sharedElement k
    let size ← layout.size
    modify (fun b => { b with kernel := { k with
      layouts := k.layouts ++ [layout], slots := k.slots ++ [.shared "temp" size element] } })
    let id ← emit { kind := .defineLocal, element := some element, arg := .shared "temp" size }
      false
    modify (fun b => { b with slots := b.slots ++ [some id] })

/-- Sizes of the launch, innermost first, filled up with ones. -/
def launchSize (counters : List Counter) (dims : Nat) : List SymInt :=
  let sizes := (counters.map (·.size)).reverse
  sizes ++ List.replicate (dims - sizes.length) (.num 1)

def launchCounters (counters : List Counter) : Build Unit :=
  counters.zipIdx.forM (fun (c, i) => do
    let arg := InstrArg.special (counters.length - 1 - i) c.var.name c.size
    let id ← emit { kind := .special, element := some .int32, arg } true
    holdCounter c.var.name id)

/-- The outer axes, as indices of the launch or as loops. Gives the loops. -/
def openOuter (locals : Bool) (global inner : List Counter) : Build (List Nat) := do
  if locals then
    launchCounters global
    launchCounters inner
    pure []
  else openLoops (global ++ inner)

def reduceCounters (k : Kernel) : Checked (List Counter) := do
  let first := (← k.firstReduce) + k.groups.length
  let shape ← k.fullShape
  (List.range' first ((← k.upcastStart) - first)).mapM (fun i => do
    Counter.make s!"ridx{i}" (← nth shape i))

def loadSlots (wanted : Kernel → Slot → Bool) (idxs : List SymInt) : Build Loaded := do
  let k ← kernel
  let chosen := (k.slots.zipIdx.drop 1).filter (fun (s, _) => wanted k s)
  chosen.mapM (fun (_, i) => return (i, ← load i idxs none none))

def isEarly (k : Kernel) (s : Slot) : Bool := k.early.contains s

def isLate (k : Kernel) (s : Slot) : Bool :=
  match s with
  | .shared _ _ _ => false
  | s => !k.early.contains s

/-- The reduce within a thread. Gives its accumulators and what was loaded. -/
def reduceThread (op : ReduceOp) (srcs : List Source) (i : Indices) (full : List SymInt)
    (counters : List Counter) : Build (List Nat × Loaded) := do
  let still := counters.map (fun _ => SymInt.num 0)
  let acc ← load 0 (i.global ++ i.inner ++ still ++ i.upcast) (some (identity op)) none
  let loops ← openLoops counters
  let loaded ← loadSlots isEarly (i.global ++ i.inner ++ counters.map Counter.index ++ full)
  let k ← kernel
  let offs ← k.accumulators k.fullIndex
  discard (lowerReduce op srcs acc offs loaded)
  closeLoops loops
  forgetLoads
  pure (acc, loaded)

/-- Counters that run through the threads of a group, for the axes that it reduces. -/
def groupCounters (k : Kernel) (middle : List Nat) : Checked (List Counter) := do
  let fr ← k.firstReduce
  let shape ← k.fullShape
  (List.range (fr + k.groups.length)).mapM (fun i => do
    let size ← if fr ≤ i ∧ ¬middle.contains i then nth shape i else pure (.num 1)
    Counter.make s!"tidx{i}" size)

def upcastMiddle (axis : Nat) : Build Unit := do
  let k ← kernel
  let n ← k.rank
  let k ← k.permuteAll ((List.range n).filter (· != axis) ++ [axis])
  let k ← k.upcast
  modify (fun b => { b with kernel := { k with groups := k.groups.dropLast } })

def groupUpcast (k : Kernel) (middle : List Nat) (upcast : List SymInt) :
    Checked (List SymInt) := do
  if middle.isEmpty then pure upcast else upcastCounters k (← k.outputShape)

/-- The reduce across the threads of a group. Gives its accumulators and the indices that are
left. -/
def reduceGroup (op : ReduceOp) (acc : List Nat) (i : Indices) (still : List SymInt) :
    Build (List Nat × Indices) := do
  let k ← kernel
  let shared := k.slots.length - 1
  let global := i.global.map (fun _ => SymInt.num 0)
  let stores ← store shared (global ++ i.inner ++ still ++ i.upcast) acc
  let barrier ← emit { kind := .barrier, inputs := stores } false
  let middle ← k.middleAxes
  let counters ← groupCounters k middle
  let firstGroup := (← k.globalDims) + k.localDims
  let grouped ← slice counters firstGroup counters.length
  middle.forM upcastMiddle
  let counters := counters.take (counters.length - middle.length)
  let inner := i.inner.take k.localDims ++ grouped.map Counter.index
  let inner := inner.take (inner.length - middle.length)
  let k ← kernel
  let upcast ← groupUpcast k middle i.upcast
  let idxs := global ++ inner ++ still ++ upcast
  let acc ← load shared idxs (some (identity op)) none
  let loops ← openLoops counters
  let late ← load shared idxs none (some barrier)
  let offs ← k.accumulators shared
  discard (accumulate (combiner op) [late] acc offs)
  closeLoops loops
  forgetLoads
  pure (acc, { i with inner, upcast })

/-- The reduce, if there is one: its values, what was loaded, the indices that are left, and one
zero for each reduce loop. -/
def reduce (i : Indices) (full : List SymInt) :
    Build (List Nat × Loaded × Indices × List SymInt) := do
  let k ← kernel
  match k.reduceOp with
  | some { op := .reduce op, srcs, .. } =>
    let counters ← reduceCounters k
    let still := counters.map (fun _ => SymInt.num 0)
    let (acc, loaded) ← reduceThread op srcs i full counters
    if k.groups.isEmpty then pure (acc, loaded, i, still)
    else
      let (acc, i) ← reduceGroup op acc i still
      pure (acc, loaded, i, still)
  | _ => pure ([], [], i, [])

def finish (idxs : List SymInt) (acc : List Nat) (loaded : Loaded) (tree : OpTree) :
    Build Unit := do
  let late ← loadSlots isLate idxs
  let values ← lower acc (late ++ loaded) (.ofTree tree)
  discard (store 0 idxs values)

/-- The body of the program: everything after the definitions. Gives the sizes of the launch. -/
def body : Build (Option (List SymInt) × Option (List SymInt)) := do
  let k ← kernel
  let target := k.target
  let global ← k.globalDims
  let last := (← k.firstReduce) + k.groups.length
  let shape ← k.fullShape
  let limit (dims : List Int) : Nat := if target.locals then dims.length else 0
  let (globalIdxs, globalCounters) ←
    launchIndices "gidx" 0 (← slice shape 0 global) (limit target.globalMax)
  let (innerIdxs, innerCounters) ←
    launchIndices "lidx" global (← slice shape global last) (limit target.localMax)
  let full ← upcastCounters k shape
  let upcast ← upcastCounters k (← k.outputShape)
  let outer ← openOuter target.locals globalCounters innerCounters
  let (acc, loaded, i, still) ← reduce { global := globalIdxs, inner := innerIdxs, upcast } full
  finish (i.global ++ i.inner ++ still ++ i.upcast) acc loaded k.tree
  closeLoops outer
  if target.locals then
    pure (some (launchSize globalCounters target.globalMax.length),
      some (launchSize innerCounters target.localMax.length))
  else pure (none, none)

/-- The whole program. The name is taken once the definitions stand. -/
def program (names : Names) : Build (Program × Names) := do
  let k ← kernel
  if !k.groups.isEmpty && !k.target.locals then throw .groupWithoutLocal
  defineSlots
  defineVars
  defineShared
  let (name, names) := names.next (← Program.baseName (← kernel))
  let (globalSize, localSize) ← body
  pure ({ name, globalSize, localSize, code := Program.prune (← get).code.toList }, names)

end Build

def Kernel.linearize (k : Kernel) (limit : Nat) (names : Names) : Checked (Program × Names) :=
  (Build.program names).run' { kernel := k, limit }

end LazyTensor
