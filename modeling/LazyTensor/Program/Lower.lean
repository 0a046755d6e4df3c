import LazyTensor.Texture
import LazyTensor.Kernel.Axes
import LazyTensor.Program.Builder
import LazyTensor.Program.Launch

/-!
Loads, stores and arithmetic of a kernel. Each of them works on all lanes of the upcasted axes
at once; neighbouring lanes are read and written as vectors where they are aligned.
-/
namespace LazyTensor.Build

def openLoops : List Counter → Build (List Nat)
  | [] => pure []
  | c :: cs => do
    if c.isFixed then openLoops cs
    else
      let start ← constant 0.0 .int32
      let stop ← index c.size
      let id ← emit { kind := .loop, element := some .int32, inputs := [start, stop] } false
      holdCounter c.var.name id
      return id :: (← openLoops cs)

def closeLoops (loops : List Nat) : Build Unit :=
  loops.reverse.forM (fun l => discard (emit { kind := .endLoop, inputs := [l] } false))

def widthElement (slot : Slot) (width : Nat) : Element :=
  if width = 4 then .float4
  else if width = 2 then .float2
  else slot.element.scalar.element

def isAligned (idx : SymInt) (n : Nat) : Checked Bool := do
  return (← (← idx.quotient n).times n) == idx

structure LoadPlan where
  access : Access
  width : Nat
  dim : Option Nat
  /-- The counters that run through the lanes, one for each axis that has lanes. -/
  lanes : List (Option Variable)

def laneCounter (idx : SymInt) (axis : Nat) : Checked (Option Variable) :=
  idx.unrolled?.mapM (fun v => Variable.counter s!"_uidx{axis}" v.lo v.hi)

def nameLanes (idx : SymInt) (lane : Option Variable) : Checked SymInt :=
  match idx.unrolled?, lane with
  | some v, some l => idx.substitute [(v, SymInt.ofVariable l)]
  | _, _ => .ok idx

/-- The axis and number of lanes of a vector, and its first index. -/
def vectorOf (k : Kernel) (i : Nat) (idxs : List SymInt) :
    Checked (Option (Nat × Nat × SymInt)) := do
  match ← k.vectorDims i with
  | [d] =>
    match ← (← nth idxs d).unroll with
    | [a, _, _, _] => pure (some (d, 4, a))
    | [a, _] => pure (some (d, 2, a))
    | _ => pure none
  | _ => pure none

def planLoad (k : Kernel) (i : Nat) (idxs : List SymInt) : Checked LoadPlan := do
  let vector ← vectorOf k i idxs
  let lanes ← idxs.zipIdx.mapM (fun (idx, j) => laneCounter idx j)
  let named ← (idxs.zip lanes).mapM (fun (idx, l) => nameLanes idx l)
  let layout ← k.layout i
  let access ← layout.access named
  match vector with
  | none => pure { access, width := 1, dim := none, lanes }
  | some (d, width, first) =>
    if d < named.length then
      let grouped ← layout.access (named.set d first)
      if ← isAligned grouped.index width then
        pure { access := grouped, width, dim := some d, lanes }
      else pure { access, width := 1, dim := none, lanes }
    else .error .bounds

/-- Address of an element for a load or store, and the condition that is left to check. -/
def address (i : Nat) (a : Access) : Build (Nat × SymInt) := do
  let b ← get
  match (← nth b.kernel.slots i).element.imageShape? with
  | some (h :: w :: _) =>
    let t ← Texture.locate h w a.index a.valid b.limit
    let x ← index t.x
    let y ← index t.y
    let id ← emit { kind := .cast, element := some .int2, inputs := [x, y], arg := .cast false }
      true
    pure (id, t.valid)
  | _ => return (← index a.index, a.valid)

def slotId (i : Nat) : Build Nat := do
  match ← nth (← get).slots i with
  | some id => pure id
  | none => throw (.undefinedSlot i)

structure LaneRead where
  slot : Nat
  /-- Start value of an accumulator, if the lane defines one instead. -/
  acc : Option Double
  barrier : Option Nat
  element : Element
  constant : Option Double
  source : String
  access : Access

/-- A lane that is never valid reads the constant zero. -/
def LaneRead.settle (r : LaneRead) : LaneRead :=
  if r.access.valid.hi = 0 then { r with constant := some 0.0, access := ⟨.num 0, .num 1⟩ }
  else r

/-- Reads with the same key give the same value. -/
def LaneRead.key (r : LaneRead) : String :=
  let source := match r.constant, r.acc with
    | some c, none => Decimal.plain c
    | _, _ => r.source
  Text.optional (r.acc.map Decimal.pointed) ++ r.element.text ++ source ++ r.access.index.render
    ++ r.access.valid.render

def defineAcc (r : LaneRead) : Build Nat := do
  if r.access.valid.lo = 1 then
    emit { kind := .defineAcc, element := some r.element, arg := .value (r.constant.getD 0.0) }
      false
  else throw .maskedAccumulator

def gatedConstant (r : LaneRead) (c : Double) : Build Nat := do
  let id ← constant c r.element
  if r.access.valid.lo = 0 ∧ r.access.valid.hi = 1 then
    let cond ← index r.access.valid
    let other ← constant 0.0 r.element
    alu (.ternary .select) (some r.element) [cond, id, other] true
  else pure id

/-- A read of memory. Where the condition fails it gives zero. -/
def loadMemory (r : LaneRead) : Build Nat := do
  let buffer ← slotId r.slot
  let (place, valid) ← address r.slot r.access
  let gate ←
    if valid.lo = 0 then do
      let cond ← index valid
      pure [cond, ← constant 0.0 r.element]
    else pure []
  emit { kind := .load, element := some r.element,
         inputs := [buffer, place] ++ gate ++ r.barrier.toList } true

def loadLane (r : LaneRead) : Build Nat := do
  let r := r.settle
  match (← get).loads.lookup r.key with
  | some id => pure id
  | none =>
    let id ← match r.acc, r.constant with
      | some _, _ => defineAcc r
      | none, some c => gatedConstant r c
      | none, none => loadMemory r
    modify (fun b => { b with loads := (r.key, id) :: b.loads })
    pure id

def forgetLoads : Build Unit := modify (fun b => { b with loads := [] })

def slotName : Slot → String
  | .mem m => toString m.slot
  | .shared name _ _ => name
  | .const _ => ""

/-- Read every lane of a buffer, or define an accumulator for every lane. -/
def load (i : Nat) (idxs : List SymInt) (acc : Option Double) (barrier : Option Nat) :
    Build (List Nat) := do
  let k ← kernel
  let slot ← nth k.slots i
  let fixed := match slot with
    | .const c => some c.value
    | _ => acc
  let plan ← planLoad k i idxs
  let element := widthElement slot plan.width
  let ranges := plan.lanes.map (fun l => l.elim (0, 0) (fun v => (v.lo, v.hi)))
  (choices ranges).mapM (fun rep => do
    let sub := VarMap.ofEntries ((plan.lanes.zip rep).filterMap (fun (l, r) =>
      l.map (fun v => (v, SymInt.num r))))
    let idx ← plan.access.index.substitute sub
    let valid ← plan.access.valid.substitute sub
    let id ← loadLane { slot := i, acc, barrier, element, constant := fixed,
                        source := slotName slot, access := ⟨idx, valid⟩ }
    match plan.dim with
    | none => pure id
    | some d =>
      let lane ← nth rep d
      emit { kind := .lane, element := some element.scalar.element, inputs := [id],
             arg := .lane lane.toNat } true)

abbrev Place := List SymInt × Nat

/-- Places that differ along axis `d` only, gathered under their first index. -/
def gatherPlaces (d : Nat) (first : SymInt) : List Place → List (List SymInt × List Nat) →
    List (List SymInt × List Nat)
  | [], groups => groups
  | (idxs, id) :: places, groups =>
    let key := idxs.set d first
    let groups :=
      if groups.any (fun g => g.1 == key) then
        groups.map (fun g => if g.1 == key then (g.1, g.2 ++ [id]) else g)
      else groups ++ [(key, [id])]
    gatherPlaces d first places groups

def isVectorStore (layout : Layout) (g : List SymInt × List Nat) : Checked Bool := do
  let a ← layout.access g.1
  andThen (isAligned a.index g.2.length) (pure (a.valid.lo == 1))

/-- Write vectors instead of single values, if all of them are aligned. -/
def vectorPlaces (i : Nat) (expanded : List (List SymInt)) (places : List Place) :
    Build (List Place) := do
  let k ← kernel
  match ← k.vectorDims i with
  | [d] =>
    let lanes ← nth expanded d
    match lanes with
    | first :: _ =>
      if lanes.length = 2 ∨ lanes.length = 4 then
        let groups := gatherPlaces d first places []
        let layout ← k.layout i
        if ← (groups.allM (isVectorStore layout) : Checked Bool) then
          groups.mapM (fun (idxs, ids) => do
            let element : Element := if ids.length = 4 then .float4 else .float2
            let id ← emit
              { kind := .cast, element := some element, inputs := ids, arg := .cast false } true
            pure (idxs, id))
        else pure places
      else pure places
    | [] => pure places
  | _ => pure places

def store (i : Nat) (idxs : List SymInt) (values : List Nat) : Build (List Nat) := do
  let buffer ← slotId i
  let expanded ← (idxs.mapM SymInt.unroll : Checked (List (List SymInt)))
  let ranges := expanded.map (fun e => ((0 : Int), (e.length : Int) - 1))
  let offsets ← ((choices ranges).mapM (fun rep =>
    (rep.zip expanded).mapM (fun (r, e) => nth e r.toNat)) : Checked (List (List SymInt)))
  if offsets.length ≠ values.length then throw .storeCount
  let places ← vectorPlaces i expanded (offsets.zip values)
  let layout ← (← kernel).layout i
  places.mapM (fun (idxs, value) => do
    let a ← layout.access idxs
    let (place, _) ← address i a
    emit { kind := .store, inputs := [buffer, place, value] } false)

def accumulateLane (op : Op) (values : List (List Nat)) (acc : List Nat) (lane off : Nat) :
    Build Nat := do
  let operands ← (values.mapM (nth · lane) : Checked (List Nat))
  let target ← nth acc off
  let element := ((← get).code[target]?).bind (·.element)
  let id ← alu op element (operands ++ [target]) false
  discard (emit { kind := .store, inputs := [target, id] } false)
  pure id

def accumulate (op : Op) (values : List (List Nat)) (acc offs : List Nat) : Build (List Nat) := do
  let first ← nth values 0
  (offs.take first.length).zipIdx.mapM (fun (off, lane) => accumulateLane op values acc lane off)

def aluElement (op : Op) (inputs : List Nat) : Build (Option Element) := do
  let code := (← get).code
  let element (id : Nat) : Option Element := code[id]?.bind (·.element)
  match op with
  | .binary .cmpLt => pure (some .bool)
  | .ternary .select => return element (← nth inputs 1)
  | _ =>
    match inputs.filterMap element with
    | [] => pure none
    | e :: es => pure (some (es.foldl Element.join e))

def aluLanes (op : Op) (values : List (List Nat)) : Build (List Nat) := do
  let first ← nth values 0
  (List.range first.length).mapM (fun lane => do
    let operands ← (values.mapM (nth · lane) : Checked (List Nat))
    alu op (← aluElement op operands) operands true)

def leafSlot (k : Kernel) (op : Op) (arg : OpArg) : Checked Nat := do
  let slot ← match arg with
    | .mem m => pure (Slot.mem m)
    | .constBuf c => pure (Slot.const c)
    | _ => .error (.notBuffer op.text)
  match k.slots.findIdx? (· == slot) with
  | some i => pure i
  | none => .error (.missingBuffer arg.debug)

abbrev Loaded := List (Nat × List Nat)

def loadedSlot (loaded : Loaded) (i : Nat) : Checked (List Nat) :=
  match loaded.lookup i with
  | some ids => .ok ids
  | none => .error (.notLoaded i)

mutual

/-- Values of a tree for every lane. A reduce has been computed before; its values are `acc`. -/
def lower (acc : List Nat) (loaded : Loaded) : Source → Build (List Nat)
  | .buffer id => throw (.unscheduledInput id)
  | .apply op arg srcs =>
    match op, arg with
    | .buffer _, _ => do
      let i ← leafSlot (← kernel) op arg
      loadedSlot loaded i
    | .unary .noop, _ | .movement .reshape, _ => lowerFirst acc loaded srcs
    | .unary .cast, .cast e bitcast => do
      let ids ← lowerFirst acc loaded srcs
      if e.isImage then pure ids
      else ids.mapM (fun id =>
        emit { kind := .cast, element := some e, inputs := [id], arg := .cast bitcast } true)
    | .reduce _, _ => pure acc
    | .unary _, _ | .binary _, _ | .ternary _, _ => do aluLanes op (← lowerAll acc loaded srcs)
    | op, arg => throw (.noLowering op.text arg.render)

def lowerFirst (acc : List Nat) (loaded : Loaded) : List Source → Build (List Nat)
  | [] => throw .bounds
  | s :: _ => lower acc loaded s

def lowerAll (acc : List Nat) (loaded : Loaded) : List Source → Build (List (List Nat))
  | [] => pure []
  | s :: ss => do
    let ids ← lower acc loaded s
    return ids :: (← lowerAll acc loaded ss)

end

def operation : Source → Checked OpTree
  | .buffer id => .error (.unscheduledInput id)
  | .apply op arg srcs => .ok { op, arg, srcs }

def isProduct (t : OpTree) : Bool := t.op == .binary .mul

/-- The factors, if the reduce is a sum of products. A cast around the product is passed over. -/
def factors? (op : ReduceOp) (src : OpTree) : Checked (Option (List Source)) := do
  match op, src.op with
  | .sum, .binary .mul => pure (some src.srcs)
  | .sum, .unary .cast =>
    let inner ← operation (← nth src.srcs 0)
    pure (if isProduct inner then some inner.srcs else none)
  | _, _ => pure none

def combiner : ReduceOp → Op
  | .sum => .binary .add
  | .max => .binary .max

def identity : ReduceOp → Double
  | .sum => 0.0
  | .max => -Double.infinity

def lowerReduce (op : ReduceOp) (srcs : List Source) (acc offs : List Nat) (loaded : Loaded) :
    Build (List Nat) := do
  let src ← operation (← nth srcs 0)
  match ← factors? op src with
  | some parts => do accumulate (.ternary .mulAcc) (← lowerAll acc loaded parts) acc offs
  | none => do accumulate (combiner op) [← lower acc loaded (.ofTree src)] acc offs

end LazyTensor.Build
