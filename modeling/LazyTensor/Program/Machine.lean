import LazyTensor.Alu
import LazyTensor.Memory
import LazyTensor.Program.Instr

/-!
A machine that runs programs instruction by instruction, one work group at a time. The threads of
a group run one after the other up to each barrier.
-/
namespace LazyTensor.Machine

inductive Region where
  | global (slot : Nat)
  | shared (i : Nat)
  deriving DecidableEq, Repr

structure Loaded where
  device : String
  name : String
  code : Array Instr
  ends : List (Nat × Nat) := []
  phases : List (Nat × Nat) := []
  regions : List (Nat × Region) := []
  shared : List Nat := []
  deriving Inhabited

/-- State of the check: open loops and the start of the current phase. -/
structure Check where
  loaded : Loaded
  depth : Nat := 0
  start : Nat := 0

def Check.step (c : Check) (u : Instr) (i : Nat) : Fallible Check :=
  let refuse (fault : DeviceFault) : Fallible Check := fail (.device c.loaded.device fault)
  match u.kind, u.arg with
  | .loop, _ => .ok { c with depth := c.depth + 1 }
  | .endLoop, _ =>
    if c.depth = 0 then refuse (.unmatchedEnd i)
    else do
      let first ← nth u.inputs 0
      pure { c with
        depth := c.depth - 1
        loaded := { c.loaded with ends := (first, i) :: c.loaded.ends } }
  | .barrier, _ =>
    if 0 < c.depth then refuse (.barrierInLoop i)
    else .ok { c with
      start := i + 1
      loaded := { c.loaded with phases := c.loaded.phases ++ [(c.start, i + 1)] } }
  | .matrix, _ => refuse .noMatrixUnit
  | .defineGlobal, .global slot _ =>
    .ok { c with loaded := { c.loaded with regions := (i, .global slot) :: c.loaded.regions } }
  | .defineLocal, .shared _ size =>
    .ok { c with loaded := { c.loaded with
      regions := (i, .shared c.loaded.shared.length) :: c.loaded.regions
      shared := c.loaded.shared ++ [size.toNat] } }
  | _, _ => .ok c

/-- Check a program and find its loops, phases and memories. -/
def load (device : String) (p : Program) : Fallible Loaded := do
  let empty : Loaded := { device, name := p.name, code := p.code.toArray }
  let c ← p.code.zipIdx.foldlM (fun (c : Check) (u, i) => c.step u i) { loaded := empty }
  if c.depth = 0 then
    pure { c.loaded with phases := c.loaded.phases ++ [(c.start, p.code.length)] }
  else fail (.device device (.unclosedLoops c.depth))

abbrev Reg := List Double

structure Store where
  globals : Array (Array Double)
  shared : Array (Array Double)

structure Thread where
  group : List Int
  self : List Int
  vals : Bindings

namespace Loaded

def refuse {α : Type} (p : Loaded) (fault : RunFault) : Fallible α :=
  fail (.device p.device (.running p.name fault))

def instr (p : Loaded) (i : Nat) : Checked Instr :=
  match p.code[i]? with
  | some u => .ok u
  | none => .error .bounds

def reg (regs : Array Reg) (i : Nat) : Checked Reg :=
  match regs[i]? with
  | some r => .ok r
  | none => .error .bounds

/-- The lane of its operand that an instruction stands for. -/
def lane? (u : Instr) : Option Nat :=
  match u.kind, u.arg with
  | .lane, .lane l => some l
  | _, _ => none

/-- Value of an instruction. A lane is read out of its vector, through at most `n` others. -/
def read (p : Loaded) (regs : Array Reg) : Nat → Nat → Checked Reg
  | 0, _ => .error .unfinished
  | n + 1, i => do
    let u ← p.instr i
    match lane? u with
    | some l =>
      let v ← p.read regs n (← nth u.inputs 0)
      pure [v.getD l 0.0]
    | none => reg regs i

def operand (p : Loaded) (regs : Array Reg) (u : Instr) (k : Nat) : Checked Reg := do
  p.read regs (p.code.size + 1) (← nth u.inputs k)

def scalar (p : Loaded) (regs : Array Reg) (u : Instr) (k : Nat) : Checked Double := do
  nth (← p.operand regs u k) 0

def write (p : Loaded) (regs : Array Reg) (i : Nat) (v : Reg) : Checked (Array Reg) := do
  let u ← p.instr i
  match lane? u with
  | some l =>
    let source ← nth u.inputs 0
    let r ← reg regs source
    pure (regs.setIfInBounds source (r.set l (v.headD 0.0)))
  | none => pure (regs.setIfInBounds i v)

/-- Place of an element, `none` for a texel outside its image. -/
def place (buffer : Instr) (idx : Reg) : Checked (Option Int) := do
  let x := (← nth idx 0).toWord
  match buffer.element with
  | some (.image _ height width) =>
    let y := (idx.getD 1 0.0).toWord
    if x < 0 ∨ width ≤ x ∨ y < 0 ∨ height ≤ y then pure none
    else return some (← Checked.mul (← Checked.add (← Checked.mul y width) x) 4)
  | _ => pure (some x)

def region (p : Loaded) (s : Store) (i : Nat) : Fallible (Region × Array Double) :=
  match p.regions.lookup i with
  | some (.global slot) =>
    match s.globals[slot]? with
    | some data => .ok (.global slot, data)
    | none => fail (.device p.device (.missingArgument slot))
  | some (.shared k) =>
    match s.shared[k]? with
    | some data => .ok (.shared k, data)
    | none => .error (.abort .bounds)
  | none => p.refuse (.notBuffer i)

/-- Where an instruction loads or stores: the element in its buffer, and the memory of that. -/
structure Spot where
  element : Element
  place : Option Int
  region : Region
  data : Array Double

def spot (p : Loaded) (s : Store) (u : Instr) (idx : Reg) : Fallible Spot := do
  let target ← nth u.inputs 0
  let buffer ← p.instr target
  let place ← place buffer idx
  let (region, data) ← p.region s target
  pure { element := buffer.elementOr, place, region, data }

def loadMemory (p : Loaded) (s : Store) (u : Instr) (idx : Reg) (lanes : Nat) : Fallible Reg := do
  let { place, data, .. } ← p.spot s u idx
  match place with
  | none => pure (List.replicate lanes 0.0)
  | some a =>
    if a < 0 then p.refuse (.negativeLoad a)
    else
      let start := a.toNat
      if start + lanes ≤ data.size then pure (data.extract start (start + lanes)).toList
      else fail (.device p.device (.loadOutside p.name start))

def overwrite (data : Array Double) (start : Nat) : List Double → Array Double
  | [] => data
  | v :: vs => overwrite (data.setIfInBounds start v) (start + 1) vs

def storeMemory (p : Loaded) (s : Store) (u : Instr) (idx v : Reg) : Fallible Store := do
  let { element, place, region, data } ← p.spot s u idx
  match place with
  | none => pure s
  | some a =>
    if a < 0 then p.refuse (.negativeStore a)
    else
      let start := a.toNat
      if start + v.length ≤ data.size then
        let rounded := v.map element.cast
        match region with
        | .global k => pure { s with globals := s.globals.modify k (overwrite · start rounded) }
        | .shared k => pure { s with shared := s.shared.modify k (overwrite · start rounded) }
      else fail (.device p.device (.storeOutside p.name start))

/-- A cast that keeps the bits, between integers and floats of 32 bits; any other pair of types
rounds. -/
def bitcast (x : Double) (source target : Element) : Double :=
  match source.scalar, target.scalar with
  | .float32, .int32 => Scalar.ofBits .int32 (Scalar.toBits .float32 x)
  | .int32, .float32 => Scalar.ofBits .float32 (Scalar.toBits .int32 x)
  | _, _ => target.cast x

def castValue (p : Loaded) (regs : Array Reg) (u : Instr) (keepBits : Bool) : Checked Reg := do
  if 1 < u.inputs.length then (List.range u.inputs.length).mapM (p.scalar regs u)
  else
    let x ← p.operand regs u 0
    let source ← p.instr (← nth u.inputs 0)
    pure (x.map (fun v =>
      if keepBits then bitcast v source.elementOr u.elementOr else u.elementOr.cast v))

/-- An operation lane by lane. A scalar operand serves every lane. -/
def aluValue (p : Loaded) (regs : Array Reg) (u : Instr) (op : Op) : Checked Reg := do
  let args ← (List.range u.inputs.length).mapM (p.operand regs u)
  let lanes := if args.isEmpty then 1 else args.foldl (fun n a => max n a.length) 0
  (List.range lanes).mapM (fun l => do
    let operands ← args.mapM (fun a => do
      match a[l]? with
      | some x => pure x
      | none => nth a 0)
    op.exec u.elementOr operands)

structure State where
  regs : Array Reg
  store : Store

def setReg (s : State) (i : Nat) (v : Reg) : State := { s with regs := s.regs.setIfInBounds i v }

def isGated (p : Loaded) (regs : Array Reg) (u : Instr) : Checked Bool := do
  if 4 ≤ u.inputs.length then return (← p.scalar regs u 2) == 0.0 else pure false

def loadValue (p : Loaded) (s : State) (u : Instr) (lanes : Nat) : Fallible Reg := do
  let idx ← p.operand s.regs u 1
  if ← p.isGated s.regs u then
    let other ← p.operand s.regs u 3
    let first ← nth other 0
    pure ((List.range lanes).map (fun l => other.getD l first))
  else p.loadMemory s.store u idx lanes

/-- The value of an instruction that neither jumps nor stores, `none` if it has none. -/
def value (p : Loaded) (t : Thread) (u : Instr) (s : State) : Fallible (Option Reg) := do
  let lanes := (u.element.map Element.lanes).getD 1
  match u.kind, u.arg with
  | .special, .special dim name _ =>
    let ids := if name.startsWith "g" then t.group else t.self
    pure (some [Double.ofInt (ids.getD dim 0)])
  | .defineGlobal, .var v =>
    match VarMap.value? t.vals v with
    | some n => pure (some [Double.ofInt n])
    | none => fail (.device p.device (.unboundVariable v.text))
  | .defineGlobal, _ | .defineLocal, _ | .barrier, _ | .lane, _ => pure none
  | .defineAcc, .value x | .const, .value x =>
    pure (some (List.replicate lanes (u.elementOr.cast x)))
  | .load, _ => some <$> p.loadValue s u lanes
  | .cast, .cast keepBits => return some (← p.castValue s.regs u keepBits)
  | .alu, .alu op => return some (← p.aluValue s.regs u op)
  | kind, arg => p.refuse (.cannotExecute kind.text arg.text)

/-- The start of a loop, which is left at once if there is nothing to count. -/
def enterLoop (p : Loaded) (pc : Nat) (u : Instr) (s : State) : Fallible (Nat × State) := do
  let start ← p.scalar s.regs u 0
  let stop ← p.scalar s.regs u 1
  let s := setReg s pc [start]
  if stop ≤ start then
    match p.ends.lookup pc with
    | some e => pure (e + 1, s)
    | none => .error (.abort .missingLoopEnd)
  else pure (pc + 1, s)

def nextRound (p : Loaded) (pc : Nat) (u : Instr) (s : State) : Fallible (Nat × State) := do
  let l ← nth u.inputs 0
  let stop ← p.scalar s.regs (← p.instr l) 1
  let count := (← nth (← reg s.regs l) 0) + 1.0
  let rest := (← reg s.regs l).drop 1
  let s := setReg s l (count :: rest)
  if count < stop then pure (l + 1, s) else pure (pc + 1, s)

def storeValue (p : Loaded) (u : Instr) (s : State) : Fallible State := do
  if u.inputs.length = 2 then
    let v ← p.operand s.regs u 1
    let regs ← p.write s.regs (← nth u.inputs 0) v
    pure { s with regs }
  else
    let idx ← p.operand s.regs u 1
    let v ← p.operand s.regs u 2
    let store ← p.storeMemory s.store u idx v
    pure { s with store }

def exec (p : Loaded) (t : Thread) (pc : Nat) (u : Instr) (s : State) : Fallible (Nat × State) :=
  match u.kind with
  | .loop => p.enterLoop pc u s
  | .endLoop => p.nextRound pc u s
  | .store => return (pc + 1, ← p.storeValue u s)
  | _ => do
    match ← p.value t u s with
    | some v => pure (pc + 1, setReg s pc v)
    | none => pure (pc + 1, s)

def step (p : Loaded) (t : Thread) (pc : Nat) (s : State) : Fallible (Nat × State) := do
  p.exec t pc (← p.instr pc) s

def runSteps (p : Loaded) (t : Thread) (stop : Nat) : Nat → Nat → State → Fallible State
  | 0, _, _ => .error (.abort .unfinished)
  | n + 1, pc, s =>
    if pc < stop then do
      let (pc, s) ← p.step t pc s
      runSteps p t stop n pc s
    else .ok s

/-- More steps than a run takes: positions are words, and every loop counts through words. -/
def stepLimit (p : Loaded) : Nat :=
  Nat.pow 2 (64 * (p.code.countP (fun u => u.kind == .loop) + 2))

def runPhase (p : Loaded) (phase : Nat × Nat) :
    List (Thread × Array Reg) → Store → Fallible (List (Thread × Array Reg) × Store)
  | [], store => .ok ([], store)
  | (t, regs) :: rest, store => do
    let s ← p.runSteps t phase.2 p.stepLimit phase.1 { regs, store }
    let (rest, store) ← runPhase p phase rest s.store
    pure ((t, s.regs) :: rest, store)

/-- A work group: its shared memory and registers start at zero. -/
def runGroup (p : Loaded) (threads : List (List Int)) (vals : Bindings)
    (globals : Array (Array Double)) (group : List Int) : Fallible (Array (Array Double)) := do
  p.shared.forM (fun n => liftM (Checked.room n))
  let shared := (p.shared.map (fun n => Array.replicate n 0.0)).toArray
  let regs : Array Reg := Array.replicate p.code.size [0.0]
  let start := threads.map (fun self => (({ group, self, vals } : Thread), regs))
  let (_, store) ← p.phases.foldlM (fun (ts, store) phase => p.runPhase phase ts store)
    (start, { globals, shared })
  pure store.globals

def launch (dims : Option (List Int)) : Checked (List (List Int)) :=
  match dims with
  | none => .ok [[0]]
  | some dims => return choices (← dims.mapM (fun d => return (0, ← Checked.sub d 1)))

def storedSlot (p : Loaded) (u : Instr) : Option Nat :=
  if u.kind == .store && u.inputs.length == 3 then
    match u.inputs.head?.bind (p.regions.lookup ·) with
    | some (.global slot) => some slot
    | _ => none
  else none

def stored (p : Loaded) : List Nat := p.code.toList.filterMap p.storedSlot

/-- Run a program on buffers. Nothing is written back unless all of it succeeds. -/
def run (p : Loaded) (m : Memory) (buffers : List Buffer) (globalSize localSize : Option (List Int))
    (vals : Bindings) : Fallible Memory := do
  let globals := (buffers.map (fun b => (m.read b).toArray)).toArray
  let groups ← launch globalSize
  let threads ← launch localSize
  let globals ← groups.foldlM (p.runGroup threads vals) globals
  let changed := (buffers.zip globals.toList).zipIdx.filter (fun (_, i) => p.stored.contains i)
  pure (changed.foldl (fun m ((b, data), _) => m.write b data.toList) m)

end Loaded

end LazyTensor.Machine
