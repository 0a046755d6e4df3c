import LazyTensor.Graph.Schedule

/-!
Running a schedule gives tensors their contents.
-/
namespace LazyTensor

namespace Graph

open GraphM

/-- Number of elements to allocate: symbolic dimensions take their greatest value. -/
def extent (g : Graph) (x : Nat) : Fallible Nat := do
  let n ← Checked.product ((← g.shape x).map SymInt.hi)
  if n < 0 then fail (.realize x (.badSize n)) else pure n.toNat

def inputsOf (g : Graph) (item : Item) : Fallible (List Buffer) :=
  item.inputs.mapM (fun b => do
    match ← (liftM (g.realized? b) : Fallible (Option Buffer)) with
    | some raw => pure raw
    | none => fail (.schedule (.unrealizedInput b item.out)))

def allocate (device : String) (x : Nat) (element : Element) : GraphM Buffer := do
  let g ← get
  let d ← g.device device
  let (raw, memory) ← d.allocate g.memory (← g.extent x) element
  set { g with memory }
  pure raw

def upload (device : String) (element : Element) (contents : List UInt8) : GraphM Buffer := do
  let g ← get
  let d ← g.device device
  let (raw, memory) ← d.upload g.memory contents element
  set { g with memory }
  pure raw

def exec (device : String) (tree : OpTree) (output : Buffer) (inputs : List Buffer)
    (vals : Bindings) : GraphM Unit := do
  let g ← get
  let d ← g.device device
  let (result, d) := d.exec tree g.memory output inputs vals
  set (g.register d)
  let memory ← result
  modify (fun g => { g with memory })

def record (e : Estimate) (vals : Bindings) : GraphM Unit := do
  let stats ← (liftM ((← get).stats.record e vals) : GraphM Stats)
  modify (fun g => { g with stats })

def loadContents (op : LoadOp) (item : Item) : GraphM Buffer := do
  let device := (← see (·.tensor item.out)).device
  let element ← see (·.element item.out)
  let g ← get
  match op, item.tree.arg with
  | .empty, _ => allocate device item.out element
  | .rand, .seed seed =>
    let n ← g.extent item.out
    Checked.room n
    upload device element (element.encode (g.config.generator.draw seed n))
  | .const, .const x => upload device element (element.encode [x])
  | .contiguous, _ =>
    match ← g.inputsOf item with
    | raw :: _ => pure raw
    | [] => throw (.error (.schedule .contiguousWithoutSource))
  | .custom, .custom f =>
    let values ← f.run ((← g.inputsOf item).map g.memory.read)
    if values.length = (← g.extent item.out) then upload device element (element.encode values)
    else throw (.error (.realize item.out (.valueCount f.id.name values.length)))
  | .copy, _ =>
    match ← g.inputsOf item with
    | [] => throw (.error (.schedule .copyWithoutSource))
    | raw :: _ =>
      discard (liftM
        (g.device (← see (fun g => do g.tensor (← nth item.inputs 0))).device) : GraphM Device)
      upload device element (g.memory.bytes raw)
  | op, arg => throw (.error (.schedule (.badArgument arg.render op.name)))

def setContents (x : Nat) (raw : Buffer) : GraphM Unit := do
  if (← see (·.tensor x)).base.isSome then throw (.abort .basedContents)
  change x (fun t => { t with realized := some raw })

def runTree (item : Item) : GraphM Unit := do
  let device := (← see (·.tensor item.out)).device
  let element ← see (·.element item.out)
  let inputs ← (← get).inputsOf item
  let output ← allocate device item.out element
  exec device item.tree output inputs item.vals
  record (← item.tree.estimate) item.vals
  setContents item.out output

/-- A realized tensor and its views need no operation any more. -/
def dropOps (g : Graph) (x : Nat) : Checked Graph := do
  let g ← g.update x (fun t => { t with op := none })
  let views := (← g.tensor x).views
  pure { g with tensors := g.tensors.zipIdx.map (fun (t, id) =>
    if views.contains id then t.map (fun t => { t with op := none }) else t) }

def checkContents (g : Graph) (x : Nat) : Fallible Unit := do
  match ← (liftM (g.realized? x) : Fallible (Option Buffer)) with
  | none => fail (.realize x .noBuffer)
  | some raw =>
    let element ← g.element x
    let device := (← g.tensor x).device
    if raw.element ≠ element then fail (.realize x (.wrongElement raw.element element))
    else if raw.device ≠ some device then fail (.realize x (.wrongDevice raw.device device))
    else pure ()

def runItem (item : Item) : GraphM Unit := do
  match item.tree.op with
  | .load op => setContents item.out (← loadContents op item)
  | _ => runTree item
  set (← see (·.dropOps item.out))
  (← get).checkContents item.out

def run (items : List Item) : GraphM Unit := items.forM runItem

def realize (x : Nat) : GraphM Unit := do
  discard (lookup x)
  if !(← see (·.isRealized x)) then run (← schedule x)

def toHost (x : Nat) : GraphM (List Double) := do
  let shape := (← lookup x).shape
  match shape.ints? with
  | none => throw (.error (.movement "to_host" shape .symbolicRead))
  | some dims =>
    let count ← Checked.product dims
    let y ← if (← see (·.element x)).isImage then cast x .float32 false else pure x
    let c ← contiguous y
    realize c
    match ← see (·.realized? c) with
    | none => throw (.error (.realize c .notRealized))
    | some raw =>
      let g ← get
      discard (liftM (g.device (← see (·.tensor c)).device) : GraphM Device)
      pure ((g.memory.read raw).take count.toNat)

end Graph

end LazyTensor
