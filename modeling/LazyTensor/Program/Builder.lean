import LazyTensor.Program.Instr

/-!
Building a program instruction by instruction. Peepholes replace an instruction by a simpler one
or by one that is there already, and an instruction without effect is made only once.
-/
namespace LazyTensor

structure Builder where
  kernel : Kernel
  /-- Limit for the enumeration of image conditions. -/
  limit : Nat
  code : Array Instr := #[]
  saved : List (Instr × Nat) := []
  loads : List (String × Nat) := []
  /-- The instructions that hold loop counters, launch indices and variables. -/
  counters : List (String × Nat) := []
  slots : List (Option Nat) := []

abbrev Build := StateT Builder Checked

namespace Peephole

inductive Outcome where
  | keep
  | use (id : Nat)
  | constant (x : Double) (element : Element)
  | replace (u : Instr)

def constant? (code : Array Instr) (id : Nat) : Option Double :=
  match code[id]? with
  | some u =>
    match u.kind, u.arg with
    | .const, .value x => some x
    | _, _ => none
  | none => none

/-- The instruction is a constant equal to `x`. Zeros of both signs are equal. -/
def isConstant (code : Array Instr) (id : Nat) (x : Double) : Bool :=
  (constant? code id).any (· == x)

def negated? (code : Array Instr) (id : Nat) : Option Nat :=
  match code[id]? with
  | some u => if u.kind == .alu && u.arg == .alu (.unary .neg) then u.inputs.head? else none
  | none => none

def difference (code : Array Instr) (element : Option Element) (a b : Nat) : Outcome :=
  if isConstant code b 0.0 then .use a
  else .replace { kind := .alu, element, inputs := [a, b], arg := .alu (.binary .sub) }

def alu (code : Array Instr) (element : Option Element) (op : Op) (inputs : List Nat) : Outcome :=
  match op, inputs with
  | .binary .add, [a, b] =>
    match negated? code b with
    | some c => difference code element a c
    | none =>
      if isConstant code a 0.0 then .use b else if isConstant code b 0.0 then .use a else .keep
  | .unary .neg, [a] =>
    match constant? code a, element with
    | some x, some e => .constant (-x) e
    | _, _ => .keep
  | .binary .mul, [a, b] =>
    if isConstant code a 1.0 then .use b
    else if isConstant code a 0.0 then .use a
    else if isConstant code b 1.0 then .use a
    else if isConstant code b 0.0 then .use b
    else .keep
  | .binary .sub, [a, b] => if isConstant code b 0.0 then .use a else .keep
  | .binary .div, [a, b] => if isConstant code b 1.0 then .use a else .keep
  | _, _ => .keep

/-- The vector that the operands are the lanes of, in order. -/
def vector? (code : Array Instr) (inputs : List Nat) : Option Nat :=
  let sources := inputs.zipIdx.mapM (fun (x, i) =>
    match code[x]? with
    | some u => if u.kind == .lane && u.arg == .lane i then u.inputs.head? else none
    | none => none)
  match sources with
  | some (v :: vs) => if vs.all (· == v) then some v else none
  | _ => none

/-- Lanes put together again are the vector, and equal constants are a constant vector. -/
def gather (code : Array Instr) (element : Option Element) (inputs : List Nat) : Outcome :=
  let whole := (vector? code inputs).filter (fun v =>
    (code[v]?.bind (·.element)).map Element.lanes == some inputs.length)
  match whole with
  | some v => .use v
  | none =>
    match inputs.head?.bind (constant? code), element with
    | some x, some e => if inputs.all (isConstant code · x) then .constant x e else .keep
    | _, _ => .keep

def outcome (code : Array Instr) (u : Instr) : Outcome :=
  match u.kind, u.inputs with
  | .store, [a, b] => if a = b then .use a else .keep
  | .lane, v :: _ =>
    match constant? code v, u.element with
    | some x, some e => .constant x e
    | _, _ => .keep
  | .cast, inputs => if 1 < inputs.length then gather code u.element inputs else .keep
  | .alu, inputs =>
    match u.arg with
    | .alu op => alu code u.element op inputs
    | _ => .keep
  | _, _ => .keep

end Peephole

namespace Build

/-- Add an instruction, or give the equal one that may be used again. -/
def insert (u : Instr) (reusable : Bool) : Build Nat := do
  let b ← get
  match if reusable then b.saved.find? (fun e => e.1 == u) else none with
  | some (_, id) => pure id
  | none =>
    let id := b.code.size
    set { b with code := b.code.push u, saved := if reusable then (u, id) :: b.saved else b.saved }
    pure id

def constant (x : Double) (element : Element) : Build Nat :=
  insert { kind := .const, element := some element, arg := .value x } true

def emit (u : Instr) (reusable : Bool) : Build Nat := do
  match Peephole.outcome (← get).code u with
  | .keep => insert u reusable
  | .use id => pure id
  | .constant x e => constant x e
  | .replace u => insert u reusable

def alu (op : Op) (element : Option Element) (inputs : List Nat) (reusable : Bool) : Build Nat :=
  emit { kind := .alu, element, inputs, arg := .alu op } reusable

def aluConst (op : BinaryOp) (a : Nat) (c : Int) (element : Element) : Build Nat := do
  let b ← constant (Double.ofInt c) .int32
  alu (.binary op) (some element) [a, b] true

mutual

/-- Instructions that compute an index; conditions are computed as truth values. -/
def index : SymInt → Build Nat
  | .num n => constant (Double.ofInt n) .int32
  | .var v => do
    match (← get).counters.lookup v.name with
    | some id => pure id
    | none => throw (.unknownVariable v.text)
  | .mul a c => do aluConst .mul (← index a) c .int32
  | .div a c => do aluConst .div (← index a) c .int32
  | .mod a c => do aluConst .mod (← index a) c .int32
  | .lt a c => do aluConst .cmpLt (← index a) c .bool
  | .sum [] => throw .bounds
  | .sum (p :: ps) => do indexRest .add .int32 (← index p) ps
  | .conj [] => throw .bounds
  | .conj (p :: ps) => do indexRest .mul .bool (← index p) ps

def indexRest (op : BinaryOp) (element : Element) (acc : Nat) : List SymInt → Build Nat
  | [] => pure acc
  | p :: ps => do
    let b ← index p
    indexRest op element (← alu (.binary op) (some element) [acc, b] true) ps

end

def holdCounter (name : String) (id : Nat) : Build Unit :=
  modify (fun b => { b with counters := (name, id) :: b.counters })

def kernel : Build Kernel := return (← get).kernel

end Build

end LazyTensor
