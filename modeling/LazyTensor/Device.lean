import LazyTensor.Dense
import LazyTensor.Kernel.Tune
import LazyTensor.Program.Linearize
import LazyTensor.Program.SourceCode
import LazyTensor.Program.Machine

/-!
Devices hold buffers and run scheduled trees. An interpreting device evaluates the tree itself; a
compiling one lowers it to a program, which it keeps for the next time.
-/
namespace LazyTensor

structure Runner where
  program : Program
  source : String
  vars : List Variable
  flops : SymInt
  memory : SymInt
  loaded : Machine.Loaded

structure Compiler where
  target : Target := {}
  tuned : Bool := true
  textureLimit : Nat := Texture.defaultLimit
  names : Names := []
  cache : List (String × Runner) := []

namespace Compiler

def key (t : OpTree) : String := t.key ++ "|" ++ ",".intercalate (t.vars.map Variable.text)

def shape (c : Compiler) (t : OpTree) : Fallible Kernel := do
  let k ← Kernel.ofTree t c.target
  if c.tuned then k.tune else k.require false

/-- Lower a tree and load the program. A name that was given out stays so. -/
def build (c : Compiler) (device : String) (t : OpTree) : Fallible Runner × Compiler :=
  let lowered : Fallible (SymInt × SymInt × Program × Names × String) := do
    let k ← c.shape t
    let memory ← k.estimate.memory
    let (p, names) ← k.linearize c.textureLimit c.names
    return (k.estimate.flops, memory, p, names, ← p.source {})
  match lowered with
  | .error e => (.error e, c)
  | .ok (flops, memory, program, names, source) =>
    let runner := (Machine.load device program).map (fun loaded =>
      { program, source, vars := t.vars, flops, memory, loaded })
    (runner, { c with names })

def fetch (c : Compiler) (device : String) (t : OpTree) : Fallible Runner × Compiler :=
  let key := key t
  match c.cache.lookup key with
  | some r => (.ok r, c)
  | none =>
    match c.build device t with
    | (.ok r, c) => (.ok r, { c with cache := c.cache ++ [(key, r)] })
    | (.error e, c) => (.error e, c)

end Compiler

namespace Runner

def sizes (device : String) (dims : Option (List SymInt)) (vals : Bindings) :
    Fallible (Option (List Int)) :=
  match dims with
  | none => .ok none
  | some dims => do
    let sizes ← dims.mapM (fun d => do
      match ← (liftM (d.eval vals) : Fallible (Option Int)) with
      | some n => pure n
      | none => fail (.device device (.unboundLaunch d.render)))
    pure (some sizes)

/-- The buffers are given by slot. -/
def run (r : Runner) (device : String) (m : Memory) (buffers : List Buffer) (vals : Bindings) :
    Fallible Memory := do
  let globalSize ← sizes device r.program.globalSize vals
  let localSize ← sizes device r.program.localSize vals
  r.loaded.run m buffers globalSize localSize vals

end Runner

inductive Engine where
  | interpreter
  | compiler (c : Compiler)

structure Allocation where
  /-- The element type, where it is not the one asked for. -/
  element : Option Element := none
  owner : Option String

structure Device where
  name : String
  engine : Engine := .interpreter
  allocation : Allocation := { owner := some name }

namespace Device

def isCompiled (d : Device) : Bool :=
  match d.engine with
  | .interpreter => false
  | .compiler _ => true

def kindName (d : Device) : String := if d.isCompiled then "Compiled" else "Interpreted"

def allocate (d : Device) (m : Memory) (size : Nat) (element : Element) :
    Checked (Buffer × Memory) := do
  let (b, m) ← m.zeros size (d.allocation.element.getD element)
  pure ({ b with device := d.allocation.owner }, m)

def upload (d : Device) (m : Memory) (contents : List UInt8) (element : Element) :
    Fallible (Buffer × Memory) := do
  let (b, m) ← m.ofBytes contents element
  pure ({ b with device := some d.name }, m)

def interpret (d : Device) (t : OpTree) (m : Memory) (output : Buffer) (inputs : List Buffer)
    (vals : Bindings) : Fallible Memory := do
  let inputs := inputs.map (fun b => (m.read b).toArray)
  let x ← t.dense { device := d.name, inputs, vals }
  if output.size < x.data.length then
    fail (.device d.name (.overfull x.data.length output.size))
  else pure (m.write output x.data)

/-- Run a tree into the output. Slot `i + 1` is the input at `i`. -/
def exec (d : Device) (t : OpTree) (m : Memory) (output : Buffer) (inputs : List Buffer)
    (vals : Bindings) : Fallible Memory × Device :=
  match d.engine with
  | .interpreter => (d.interpret t m output inputs vals, d)
  | .compiler c =>
    let (r, c) := c.fetch d.name t
    (do (← r).run d.name m (output :: inputs) vals, { d with engine := .compiler c })

end Device

end LazyTensor
