/-!
Reasons for which a computation stops for good. A violated precondition is not an error a
caller recovers from: it ends the whole run, and `Abort.message` is the text it ends with.
-/
namespace LazyTensor

/-- A violated precondition. Texts held by a constructor are already rendered. -/
inductive Abort where
  | arithmetic
  | bounds
  /-- A list with more bytes than memory can have. -/
  | capacity
  /-- A search that used up the steps it was given. -/
  | unfinished
  | emptyRange (name : String) (lo hi : Int)
  | divisionByZero (dividend : String)
  | badModulus (modulus : Int) (dividend : String)
  | manySymbolicDims (shape : String)
  | symbolicProduct (a b : String)
  | strideCount
  | indexCount
  | innerSymbolicDim (dim : String)
  | maskedSymbolicDim (dim : String)
  | badArgument (arg op : String)
  | unscheduledLeaf (id : Nat)
  | noEstimate (op arg : String)
  | operandCount (op : String) (count : Nat)
  | manyReduces
  | rankMismatch
  | kernelStep (step reason : String)
  | symbolicDim (dim : String)
  | colorCount
  | unitUpcast
  | noUnitStride (slot : Nat)
  | unitStrideCount (axes : String)
  | unscheduledInput (id : Nat)
  | unknownVariable (name : String)
  | undefinedSlot (slot : Nat)
  | storeCount
  | maskedAccumulator
  | notBuffer (op : String)
  | missingBuffer (buffer : String)
  | notLoaded (slot : Nat)
  | missingOffsets
  | noLowering (op arg : String)
  | groupWithoutLocal
  | localShape (reason : String)
  | noCode (op : String) (count : Nat)
  | noRendering (kind arg : String)
  | missingLoopEnd
  | notInGraph (id : Nat)
  | basedElement
  | basedContents
  | basedBindings
  | movementBase
  | scatteredBase
  | notElementwise (op : String)
  | notPushable (op : String)
  deriving DecidableEq, Repr

namespace Abort

def message : Abort → String
  | arithmetic => "arithmetic"
  | bounds => "bounds"
  | capacity => "capacity overflow"
  | unfinished => "unfinished"
  | emptyRange name lo hi => s!"bad range for {name}: [{lo}, {hi}]"
  | divisionByZero dividend => s!"division by zero: {dividend}"
  | badModulus modulus dividend => s!"modulo by non-positive {modulus}: {dividend}"
  | manySymbolicDims shape => s!"more than one symbolic dim in {shape}"
  | symbolicProduct a b => s!"product of two symbolic dims {a} * {b}"
  | strideCount => "strides don't match shape"
  | indexCount => "need an idx for all dimensions"
  | innerSymbolicDim dim => s!"symbolic dim {dim} is not outermost"
  | maskedSymbolicDim dim => s!"masked view with symbolic dim {dim}"
  | badArgument arg op => s!"bad arg {arg} for {op}"
  | unscheduledLeaf id => s!"unscheduled buffer <LB {id}> in AST"
  | noEstimate op arg => s!"can't analyze {op} with {arg}"
  | operandCount op count => s!"{op} can't take {count} arguments"
  | manyReduces => "max one reduce op in an ast"
  | rankMismatch => "all buffers of a kernel have the same rank"
  | kernelStep step reason => s!"kernel {step} failed: {reason}"
  | symbolicDim dim => s!"expected a concrete dimension, got {dim}"
  | colorCount => "colors size mismatch"
  | unitUpcast => "can't upcast a dimension with size 1"
  | noUnitStride slot => s!"needs a unit stride axis in buffer {slot}"
  | unitStrideCount axes => s!"wrong number of stride 1 axis: {axes}"
  | unscheduledInput id => s!"unscheduled buffer <LB {id}> in a kernel"
  | unknownVariable name => s!"no uop for variable {name}"
  | undefinedSlot slot => s!"buffer {slot} has no uop"
  | storeCount => "one value per store"
  | maskedAccumulator => "accumulators are always valid"
  | notBuffer op => s!"{op} is not a buffer"
  | missingBuffer buffer => s!"buffer {buffer} is not in the kernel"
  | notLoaded slot => s!"buffer {slot} wasn't loaded"
  | missingOffsets => "reduce without accumulator offsets"
  | noLowering op arg => s!"can't linearize {op} {arg}"
  | groupWithoutLocal => "a grouped reduce needs local memory"
  | localShape reason => s!"bad local buffer shape: {reason}"
  | noCode op count => s!"no code for {op} with {count} operands"
  | noRendering kind arg => s!"can't render {kind} {arg}"
  | missingLoopEnd => "no entry found for key"
  | notInGraph id => s!"<LB {id}> is not in the graph"
  | basedElement => "no setting dtype of based buffers"
  | basedContents => "no setting realized of based buffers"
  | basedBindings => "no setting var_vals of based buffers"
  | movementBase => "movement ops must be based on a non-movement buffer"
  | scatteredBase => "unbased buffers must be contiguous"
  | notElementwise op => s!"{op} is not elementwise"
  | notPushable op => s!"can't push movement ops through {op}"

end Abort

/-- A computation that gives a value or stops for good. -/
abbrev Checked := Except Abort

end LazyTensor
