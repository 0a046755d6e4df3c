/-!
The operations of the library and their names.
-/
namespace LazyTensor

inductive UnaryOp where
  | noop
  | exp2
  | log2
  | cast
  | sin
  | sqrt
  | recip
  | neg
  deriving DecidableEq, Repr

inductive BinaryOp where
  | add
  | sub
  | mul
  | div
  | max
  | mod
  | cmpLt
  deriving DecidableEq, Repr

inductive TernaryOp where
  /-- `a * b + c` -/
  | mulAcc
  /-- The second operand where the first is nonzero, the third elsewhere. -/
  | select
  deriving DecidableEq, Repr

inductive ReduceOp where
  | sum
  | max
  deriving DecidableEq, Repr

inductive MovementOp where
  | reshape
  | permute
  | expand
  | pad
  | shrink
  | stride
  deriving DecidableEq, Repr

inductive LoadOp where
  | empty
  | rand
  | const
  | copy
  | contiguous
  | custom
  deriving DecidableEq, Repr

inductive BufferOp where
  | mem
  | const
  deriving DecidableEq, Repr

inductive Op where
  | unary (op : UnaryOp)
  | binary (op : BinaryOp)
  | ternary (op : TernaryOp)
  | reduce (op : ReduceOp)
  | movement (op : MovementOp)
  | load (op : LoadOp)
  | buffer (op : BufferOp)
  deriving DecidableEq, Repr

inductive OpKind where
  | elementwise
  | reduce
  | movement
  | load
  | buffer
  deriving DecidableEq, Repr

def UnaryOp.name : UnaryOp → String
  | noop => "NOOP"
  | exp2 => "EXP2"
  | log2 => "LOG2"
  | cast => "CAST"
  | sin => "SIN"
  | sqrt => "SQRT"
  | recip => "RECIP"
  | neg => "NEG"

def BinaryOp.name : BinaryOp → String
  | add => "ADD"
  | sub => "SUB"
  | mul => "MUL"
  | div => "DIV"
  | max => "MAX"
  | mod => "MOD"
  | cmpLt => "CMPLT"

def TernaryOp.name : TernaryOp → String
  | mulAcc => "MULACC"
  | select => "WHERE"

def ReduceOp.name : ReduceOp → String
  | sum => "SUM"
  | max => "MAX"

def MovementOp.name : MovementOp → String
  | reshape => "Reshape"
  | permute => "Permute"
  | expand => "Expand"
  | pad => "Pad"
  | shrink => "Shrink"
  | stride => "Stride"

def LoadOp.name : LoadOp → String
  | empty => "Empty"
  | rand => "Rand"
  | const => "Const"
  | copy => "From"
  | contiguous => "Contiguous"
  | custom => "Custom"

def BufferOp.name : BufferOp → String
  | mem => "MEM"
  | const => "CONST"

namespace Op

def kind : Op → OpKind
  | unary _ | binary _ | ternary _ => .elementwise
  | reduce _ => .reduce
  | movement _ => .movement
  | load _ => .load
  | buffer _ => .buffer

def isElementwise (op : Op) : Bool := op.kind = .elementwise

def text : Op → String
  | unary op => "UnaryOps." ++ op.name
  | binary op => "BinaryOps." ++ op.name
  | ternary op => "TernaryOps." ++ op.name
  | reduce op => "ReduceOps." ++ op.name
  | movement op => "MovementOps." ++ op.name.toUpper
  | load op => "LoadOps." ++ op.name.toUpper
  | buffer op => "BufferOps." ++ op.name

def all : List Op :=
  [UnaryOp.noop, .exp2, .log2, .cast, .sin, .sqrt, .recip, .neg].map unary
    ++ [BinaryOp.add, .sub, .mul, .div, .max, .mod, .cmpLt].map binary
    ++ [TernaryOp.mulAcc, .select].map ternary
    ++ [ReduceOp.sum, .max].map reduce
    ++ [MovementOp.reshape, .permute, .expand, .pad, .shrink, .stride].map movement
    ++ [LoadOp.empty, .rand, .const, .copy, .contiguous, .custom].map load
    ++ [BufferOp.mem, .const].map buffer

def ofText? (s : String) : Option Op := all.find? (fun op => op.text == s)

end Op

def OpKind.name : OpKind → String
  | elementwise => "Elementwise"
  | reduce => "Reduce"
  | movement => "Movement"
  | load => "Load"
  | buffer => "Buffer"

end LazyTensor
