import LazyTensor.OpTree.Basic
import LazyTensor.Decimal.Text

/-!
Texts of arguments and trees. The key of a tree identifies the kernel it compiles to.
-/
namespace LazyTensor

def Element.debug : Element → String
  | bool => "Bool"
  | int8 => "Int8"
  | uint8 => "Uint8"
  | int32 => "Int32"
  | int64 => "Int64"
  | float16 => "Float16"
  | float32 => "Float32"
  | float64 => "Float64"
  | half4 => "Half4"
  | float2 => "Float2"
  | float4 => "Float4"
  | int2 => "Int2"
  | image half height width =>
    Text.braces "Image" ["half: " ++ Text.flag half, s!"height: {height}", s!"width: {width}"]

namespace OpArg

def render : OpArg → String
  | none => ""
  | shape s => s.render
  | axes a => Text.nats a
  | pairs p => Text.pairs p
  | strides s => Text.ints s
  | cast e bitcast => Text.parens [e.text, Text.flag bitcast]
  | const x => Decimal.plain x
  | seed n => s!"seed={n}"
  | custom f => f.id.name
  | mem m => "MemBuffer" ++ Text.parens ["idx=" ++ toString m.slot, "dtype=" ++ m.element.text,
      "st=" ++ m.layout.render]
  | constBuf c => "ConstBuffer" ++ Text.parens ["val=" ++ Decimal.plain c.value,
      "dtype=" ++ c.element.text, "st=" ++ c.layout.render]

def debug : OpArg → String
  | none => "None"
  | shape s => "Shape(" ++ s.debug ++ ")"
  | axes a => "Axes(" ++ Text.nats a ++ ")"
  | pairs p => "Pairs(" ++ Text.pairs p ++ ")"
  | strides s => "Strides(" ++ Text.ints s ++ ")"
  | cast e bitcast => "Cast" ++ Text.parens [e.debug, Text.flag bitcast]
  | const x => "Const(ConstValue(" ++ Decimal.pointed x ++ "))"
  | seed n => s!"Seed({n})"
  | custom f => "Custom(CustomFn(" ++ f.id.name ++ "))"
  | mem m => "Mem(" ++ Text.braces "MemBuffer" [s!"idx: {m.slot}", "dtype: " ++ m.element.debug,
      "st: " ++ m.layout.debug] ++ ")"
  | constBuf c => "ConstBuf(" ++ Text.braces "ConstBuffer"
      ["val: ConstValue(" ++ Decimal.pointed c.value ++ ")", "dtype: " ++ c.element.debug,
        "st: " ++ c.layout.debug] ++ ")"

def key : OpArg → String
  | none => ""
  | mem m => s!" {m.slot} " ++ m.element.text ++ " " ++ m.layout.debug
  | constBuf c => " " ++ Decimal.plain c.value ++ " " ++ c.element.text ++ " " ++ c.layout.debug
  | arg => " " ++ arg.debug

end OpArg

namespace Source

mutual

/-- Leaf buffers have no identity in a key. -/
def key : Source → String
  | buffer _ => "LazyBuffer"
  | apply op arg srcs => "(" ++ op.text ++ keyAll srcs ++ arg.key ++ ")"

def keyAll : List Source → String
  | [] => ""
  | s :: ss => " " ++ s.key ++ keyAll ss

end

def line (op : Op) (arg : OpArg) : String :=
  match arg with
  | .none => op.text
  | arg => op.text ++ " " ++ arg.render

mutual

def render (depth : Nat) : Source → String
  | buffer id => Text.indent depth ++ s!"<LB {id}>\n"
  | apply op arg srcs =>
    Text.indent depth ++ line op arg ++ "\n" ++ renderAll (depth + 1) srcs

def renderAll (depth : Nat) : List Source → String
  | [] => ""
  | s :: ss => s.render depth ++ renderAll depth ss

end

end Source

namespace OpTree

def key (t : OpTree) : String := (Source.ofTree t).key

def render (t : OpTree) : String := (Source.ofTree t).render 0

end OpTree

end LazyTensor
