import LazyTensor.Shape
import LazyTensor.Element

/-!
Errors a caller can handle. Each one holds its cause; `Error.message` is the only place that
words them.
-/
namespace LazyTensor

inductive VariableFault where
  | notIdentifier
  | negativeLow
  | emptyRange
  | manyNewVariables
  | outOfRange (value : Int)
  deriving DecidableEq, Repr

inductive MovementFault where
  | negativeDimension
  | innerSymbolic
  | padCount (given rank : Nat)
  | negativePadding (pads : List (Int × Int))
  | symbolicShape
  | rangeCount (given rank : Nat)
  | outOfBounds (ranges : List (Int × Int))
  | cannotExpand (target : Shape)
  | maskedSymbolic
  | notPermutation (axes : List Nat)
  | badMultipliers (multipliers : List Int)
  | negativeSymbolicStride
  | negativeTarget (target : Shape)
  | emptySource (target : Shape)
  | sizeMismatch (target : Shape)
  | buriedSymbolic (target : Shape)
  | elementCount (count : Nat)
  | symbolicRead
  | noSources
  | sourceShape (source : Shape)
  | cannotReduce (target : Shape)
  | wrongRank (expected given : Nat)
  | indivisible (total divisor : Int)
  deriving Repr

inductive RunFault where
  | notBuffer (instr : Nat)
  | negativeLoad (address : Int)
  | negativeStore (address : Int)
  | cannotExecute (kind arg : String)
  deriving DecidableEq, Repr

/-- Why a device cannot do what it was asked. Layouts, operations and arguments are given by
their texts. -/
inductive DeviceFault where
  | unknownDevice
  | unboundLayout (layout : String)
  | unscheduledLeaf (id : Nat)
  | missingSlot (slot : Nat)
  | unboundReduce
  | unboundReshape
  | cannotReshape (old new : List Int)
  | cannotInterpret (op arg : String)
  | overfull (count size : Nat)
  | unboundLaunch (size : String)
  | unmatchedEnd (instr : Nat)
  | barrierInLoop (instr : Nat)
  | noMatrixUnit
  | unclosedLoops (count : Nat)
  | missingArgument (slot : Nat)
  | unboundVariable (text : String)
  | loadOutside (program : String) (address : Nat)
  | storeOutside (program : String) (address : Nat)
  | running (program : String) (fault : RunFault)
  deriving DecidableEq, Repr

inductive ScheduleFault where
  | notComputed (id : Nat)
  | unrealizedInput (input out : Nat)
  | contiguousWithoutSource
  | copyWithoutSource
  | badArgument (arg op : String)
  | unreadInputs (found given : Nat)
  | inputCount (expected given : Nat)
  | inputMismatch (index expectedSize : Nat) (expected : Element) (size : Nat) (given : Element)
  | repeatedInput (id : Nat)
  deriving DecidableEq, Repr

inductive RealizeFault where
  | noBuffer
  | wrongElement (actual expected : Element)
  | wrongDevice (actual : Option String) (expected : String)
  | badSize (size : Int)
  | valueCount (function : String) (count : Nat)
  | noInput
  | noOutput
  | notRealized
  deriving DecidableEq, Repr

inductive Error where
  | badVariable (name : String) (lo hi : Int) (fault : VariableFault)
  | movement (op : String) (shape : Shape) (fault : MovementFault)
  | conflict (name : String) (was new : Int)
  | missingBuffer (id : Nat)
  | unknownLeaf (id base : Nat)
  | schedule (fault : ScheduleFault)
  | realize (id : Nat) (fault : RealizeFault)
  | device (name : String) (fault : DeviceFault)
  | partialElement (itemSize count : Nat)
  | wrongElement (expected actual : Element)
  | setting (key value : String)
  deriving Repr

def VariableFault.message : VariableFault → String
  | notIdentifier => "name is not a valid identifier"
  | negativeLow => "min must be non-negative"
  | emptyRange => "min must be less than max"
  | manyNewVariables => "only one variable can be added to an int shape"
  | outOfRange value => s!"value {value} out of range"

def MovementFault.message : MovementFault → String
  | negativeDimension => "negative dimension"
  | innerSymbolic => "a symbolic dimension must be outermost"
  | padCount given rank => s!"{given} pads for {rank} dims"
  | negativePadding pads => "negative padding " ++ Text.pairs pads
  | symbolicShape => "not supported on symbolic shapes"
  | rangeCount given rank => s!"{given} ranges for {rank} dims"
  | outOfBounds ranges => "out of bounds " ++ Text.pairs ranges
  | cannotExpand target => "can't expand to " ++ target.render
  | maskedSymbolic => "masked dim can't become symbolic"
  | notPermutation axes => Text.nats axes ++ " is not a permutation"
  | badMultipliers multipliers => "bad multipliers " ++ Text.ints multipliers
  | negativeSymbolicStride => "negative stride on a symbolic dim"
  | negativeTarget target => "negative dim in " ++ target.render
  | emptySource target => "can't reshape 0 size to " ++ target.render
  | sizeMismatch target => "size mismatch with " ++ target.render
  | buriedSymbolic target => "can't stack a view for " ++ target.render ++ " on a symbolic view"
  | elementCount count => s!"got {count} elements"
  | symbolicRead => "shape is symbolic"
  | noSources => "no sources"
  | sourceShape source => "source shape " ++ source.render
  | cannotReduce target => "can't reduce to " ++ target.render
  | wrongRank expected given => s!"expected {expected} dims, got {given}"
  | indivisible total divisor => s!"{total} elements don't divide by {divisor}"

def RunFault.message : RunFault → String
  | notBuffer instr => s!"uop {instr} isn't a buffer"
  | negativeLoad address => s!"negative load address {address}"
  | negativeStore address => s!"negative store address {address}"
  | cannotExecute kind arg => s!"can't execute {kind} {arg}"

def DeviceFault.message : DeviceFault → String
  | unknownDevice => "unknown device"
  | unboundLayout layout => s!"unbound variables in {layout}"
  | unscheduledLeaf id => s!"unscheduled buffer <LB {id}>"
  | missingSlot slot => s!"no buffer for slot {slot}"
  | unboundReduce => "unbound variables in reduce shape"
  | unboundReshape => "unbound variables in reshape"
  | cannotReshape old new => "can't reshape " ++ Text.ints old ++ " to " ++ Text.ints new
  | cannotInterpret op arg => s!"can't interpret {op} with {arg}"
  | overfull count size => s!"{count} values don't fit an output of {size}"
  | unboundLaunch size => s!"unbound variable in launch size {size}"
  | unmatchedEnd instr => s!"unmatched END at {instr}"
  | barrierInLoop instr => s!"barrier inside a loop at {instr}"
  | noMatrixUnit => "WMMA isn't supported"
  | unclosedLoops count => s!"{count} unclosed loops"
  | missingArgument slot => s!"no buffer for data{slot}"
  | unboundVariable text => s!"no value for {text}"
  | loadOutside program address => s!"{program}: load out of bounds at {address}"
  | storeOutside program address => s!"{program}: store out of bounds at {address}"
  | running program fault => program ++ ": " ++ fault.message

def ScheduleFault.message : ScheduleFault → String
  | notComputed id => s!"<LB {id}> is neither realized nor computed"
  | unrealizedInput input out => s!"input <LB {input}> of <LB {out}> isn't realized"
  | contiguousWithoutSource => "contiguous without a source"
  | copyWithoutSource => "copy without a source"
  | badArgument arg op => s!"bad arg {arg} for {op}"
  | unreadInputs found given => s!"only {found} of {given} jit inputs are read by a kernel"
  | inputCount expected given => s!"jit expects {expected} inputs, got {given}"
  | inputMismatch index expectedSize expected size given =>
    s!"jit input {index} is {size} x " ++ given.text ++ s!", captured as {expectedSize} x " ++
      expected.text
  | repeatedInput id => s!"duplicate jit input <LB {id}>"

def RealizeFault.message : RealizeFault → String
  | noBuffer => "no realized buffer after running"
  | wrongElement actual expected => "realized as " ++ actual.text ++ ", expected " ++ expected.text
  | wrongDevice actual expected =>
    "realized on " ++ actual.getD "no device" ++ ", expected " ++ expected
  | badSize size => s!"bad size {size}"
  | valueCount function count => s!"{function} returned {count} values"
  | noInput => "jit input has no buffer"
  | noOutput => "jit output has no buffer"
  | notRealized => "not realized after realize"

def Error.message : Error → String
  | badVariable name lo hi fault => s!"invalid variable {name}[{lo}-{hi}]: " ++ fault.message
  | movement op shape fault => s!"invalid {op} on shape " ++ shape.render ++ ": " ++ fault.message
  | conflict name was new => s!"value conflicts for {name}, was {was}, set to {new}"
  | missingBuffer id => s!"buffer {id} is not in the graph"
  | unknownLeaf id base => s!"not handled: <LB {id}> with base <LB {base}>"
  | schedule fault => "schedule error: " ++ fault.message
  | realize id fault => s!"realize error on buffer {id}: " ++ fault.message
  | device name fault => s!"{name} backend error: " ++ fault.message
  | partialElement itemSize count =>
    s!"dtype mismatch: expected multiple of {itemSize} bytes, got {count} bytes"
  | wrongElement expected actual =>
    "dtype mismatch: expected " ++ expected.text ++ ", got " ++ actual.text
  | setting key value => s!"bad config value {key}={value}"

inductive Failure where
  | error (e : Error)
  | abort (a : Abort)
  deriving Repr

abbrev Fallible := Except Failure

instance : MonadLift Checked Fallible :=
  ⟨fun x => x.mapError .abort⟩

def fail {α : Type} (e : Error) : Fallible α := .error (.error e)

/-- A variable as a user declares it: not negative, with at least two values. -/
def Variable.declare (name : String) (lo hi : Int) : Fallible Variable :=
  if Variable.isIdentifier name = false then fail (.badVariable name lo hi .notIdentifier)
  else if lo < 0 then fail (.badVariable name lo hi .negativeLow)
  else if hi ≤ lo then fail (.badVariable name lo hi .emptyRange)
  else .ok ⟨name, lo, hi⟩

end LazyTensor
