import LazyTensor.Kernel.Basic

/-!
Instructions of a program. An instruction is known by its position, and its operands are the
positions of the instructions that compute them.
-/
namespace LazyTensor

inductive InstrKind where
  | loop
  | endLoop
  | special
  | defineGlobal
  | defineLocal
  | defineAcc
  | load
  | store
  | const
  | barrier
  | alu
  /-- A matrix product. No device here has a unit for it. -/
  | matrix
  | cast
  | lane
  deriving DecidableEq, Repr

namespace InstrKind

def text : InstrKind → String
  | loop => "LOOP"
  | endLoop => "END"
  | special => "SPECIAL"
  | defineGlobal => "DEFINE_GLOBAL"
  | defineLocal => "DEFINE_LOCAL"
  | defineAcc => "DEFINE_ACC"
  | load => "LOAD"
  | store => "STORE"
  | const => "CONST"
  | barrier => "BARRIER"
  | alu => "ALU"
  | matrix => "WMMA"
  | cast => "CAST"
  | lane => "GEP"

def all : List InstrKind :=
  [loop, endLoop, special, defineGlobal, defineLocal, defineAcc, load, store, const, barrier, alu,
    matrix, cast, lane]

def ofText? (s : String) : Option InstrKind := all.find? (fun k => k.text == s)

/-- The instruction does something besides giving a value. -/
def hasEffect : InstrKind → Bool
  | store | matrix | endLoop | barrier | defineGlobal => true
  | _ => false

end InstrKind

inductive InstrArg where
  | none
  | value (x : Double)
  | alu (op : Op)
  | global (slot : Nat) (element : Element)
  | var (v : Variable)
  | shared (name : String) (size : Int)
  /-- Dimensions count from the innermost one. -/
  | special (dim : Nat) (name : String) (size : SymInt)
  | lane (n : Nat)
  | cast (bitcast : Bool)

namespace InstrArg

def same : InstrArg → InstrArg → Bool
  | none, none => true
  | value x, value y => x.same y
  | alu a, alu b => a == b
  | global a e, global b f => a == b && e == f
  | var a, var b => a == b
  | shared a n, shared b m => a == b && n == m
  | special d a s, special d' a' s' => d == d' && a == a' && s == s'
  | lane a, lane b => a == b
  | cast a, cast b => a == b
  | _, _ => false

instance : BEq InstrArg := ⟨same⟩

def text : InstrArg → String
  | none => ""
  | value x => Decimal.plain x
  | alu op => op.text
  | global slot element => Text.parens [s!"data{slot}", element.text]
  | var v => v.text
  | shared name size => Text.parens [name, toString size]
  | special dim name size => Text.parens [toString dim, name, size.render]
  | lane n => toString n
  | cast bitcast => "bitcast=" ++ Text.flag bitcast

end InstrArg

structure Instr where
  kind : InstrKind
  element : Option Element := none
  inputs : List Nat := []
  arg : InstrArg := .none

namespace Instr

instance : BEq Instr where
  beq a b := a.kind == b.kind && a.element == b.element && a.inputs == b.inputs && a.arg == b.arg

def text (u : Instr) (position : Nat) : String :=
  s!"{position} " ++ u.kind.text ++ " " ++ (u.element.map Element.text).getD "-" ++ " "
    ++ Text.nats u.inputs ++ " " ++ u.arg.text

/-- The type of the value; a float where none is given. -/
def elementOr (u : Instr) : Element := u.element.getD .float32

end Instr

/-- A lowered kernel and the sizes of its launch, the innermost dimension first. -/
structure Program where
  name : String
  globalSize : Option (List SymInt) := none
  localSize : Option (List SymInt) := none
  code : List Instr

abbrev Names := List (String × Nat)

namespace Names

/-- A name that was not given out yet: repetitions are numbered. -/
def next : Names → String → String × Names
  | [], base => (base, [(base, 1)])
  | (name, count) :: names, base =>
    if name = base then (s!"{base}n{count}", (name, count + 1) :: names)
    else
      let (fresh, names) := next names base
      (fresh, (name, count) :: names)

end Names

end LazyTensor
