import LazyTensor.Graph.Realize

/-!
Recording a run, so that it can be repeated with other contents of the inputs.
-/
namespace LazyTensor

/-- One program of a recorded run. The first buffer is the output. -/
structure Launch where
  device : String
  tree : OpTree
  estimate : Estimate
  buffers : List Buffer
  vals : Bindings

/-- A recorded run. Loads are not repeated: their results are used again. -/
structure Recording where
  launches : List Launch
  /-- The input in each place, where a place is a launch and a position in its buffers. -/
  places : List ((Nat × Nat) × Nat)
  inputs : List Buffer
  output : Buffer

namespace Launch

def cost (launches : List Launch) : Checked (SymInt × SymInt) := do
  let ops ← SymInt.total (launches.map (·.estimate.flops))
  let memory ← launches.mapM (·.estimate.memory)
  return (ops, ← SymInt.total memory)

def placesOf (launches : List Launch) (inputs : List Buffer) : List ((Nat × Nat) × Nat) :=
  launches.zipIdx.flatMap (fun (l, j) => l.buffers.zipIdx.filterMap (fun (b, i) =>
    (inputs.findIdx? (·.shares b)).map (fun k => ((j, i), k))))

def places (launches : List Launch) (inputs : List Buffer) :
    Fallible (List ((Nat × Nat) × Nat)) :=
  let places := placesOf launches inputs
  let found := (places.map (·.2)).eraseDups.length
  if found = inputs.length then .ok places
  else fail (.schedule (.unreadInputs found inputs.length))

def symbolic (launches : List Launch) : List Nat :=
  (launches.zipIdx.filter (fun (l, _) => !l.vals.isEmpty)).map (·.2)

end Launch

namespace Graph

open GraphM

def recordInputs : List Nat → List Buffer → GraphM (List Buffer)
  | [], found => pure found
  | x :: xs, found => do
    realize x
    match ← see (·.realized? x) with
    | none => throw (.error (.realize x .noInput))
    | some raw =>
      if found.any (·.shares raw) then throw (.error (.schedule (.repeatedInput x)))
      else recordInputs xs (found ++ [raw])

def recordItem (item : Item) : GraphM (Option Launch) := do
  let device := (← see (·.tensor item.out)).device
  if item.tree.op.kind = .load then
    runItem item
    pure none
  else
    let inputs ← (← get).inputsOf item
    runItem item
    let out ← see (·.realized? item.out)
    let estimate ← item.tree.estimate
    pure (some { device, tree := item.tree, estimate, buffers := out.toList ++ inputs
                 vals := item.vals })

def capture (root : Nat) (inputs : List Nat) : GraphM Recording := do
  let inputs ← recordInputs inputs []
  let items ← schedule root
  let launches := (← items.mapM recordItem).filterMap id
  match ← see (·.realized? root) with
  | none => throw (.error (.realize root .noOutput))
  | some output =>
    let places ← Launch.places launches inputs
    pure { launches, places, inputs, output }

end Graph

namespace Recording

def checkInputs (r : Recording) (inputs : List Buffer) : Fallible Unit := do
  if inputs.length ≠ r.inputs.length then
    fail (.schedule (.inputCount r.inputs.length inputs.length))
  (inputs.zip r.inputs).zipIdx.forM (fun ((new, old), k) =>
    if new.element = old.element ∧ new.size = old.size then .ok ()
    else fail (.schedule (.inputMismatch k old.size old.element new.size new.element)))

def buffersOf (r : Recording) (inputs : List Buffer) (l : Launch) (j : Nat) :
    Checked (List Buffer) :=
  l.buffers.zipIdx.mapM (fun (b, i) =>
    match r.places.lookup (j, i) with
    | some k => nth inputs k
    | none => .ok b)

/-- Run the recorded programs on other inputs. Variables that are not given keep their values. -/
def replay (r : Recording) (inputs : List Buffer) (vals : Bindings) : GraphM Buffer := do
  r.checkInputs inputs
  r.launches.zipIdx.forM (fun (l, j) => do
    let buffers ← r.buffersOf inputs l j
    let vals := l.vals.map (fun (v, x) => (v, (VarMap.value? vals v).getD x))
    match buffers with
    | [] => throw (.abort .bounds)
    | out :: rest =>
      Graph.exec l.device l.tree out rest vals
      Graph.record l.estimate vals)
  pure r.output

end Recording

end LazyTensor
