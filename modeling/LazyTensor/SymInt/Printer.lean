import LazyTensor.SymInt.Basic

/-!
Text of symbolic integers. Terms of a sum and parts of a conjunction stand in the order of
their texts, so the text does not depend on the order in which they were added. The key
writes every variable with its range and decides when two expressions count as equal.
-/
namespace LazyTensor

structure Spelling where
  name : Variable → String := Variable.name
  quotient : String := "//"
  conjunction : String := " and "

namespace SymInt

def joinSorted (separator : String) (parts : List String) : String :=
  "(" ++ separator.intercalate (parts.mergeSort (fun a b => decide (a ≤ b))) ++ ")"

mutual

def renderWith (s : Spelling) : SymInt → String
  | num n => toString n
  | var v => s.name v
  | mul a c => "(" ++ a.renderWith s ++ "*" ++ toString c ++ ")"
  | div a c => "(" ++ a.renderWith s ++ s.quotient ++ toString c ++ ")"
  | mod a c => "(" ++ a.renderWith s ++ "%" ++ toString c ++ ")"
  | lt a c => "(" ++ a.renderWith s ++ "<" ++ toString c ++ ")"
  | sum parts => joinSorted "+" (renderAll s parts)
  | conj parts => joinSorted s.conjunction (renderAll s parts)

def renderAll (s : Spelling) : List SymInt → List String
  | [] => []
  | p :: ps => p.renderWith s :: renderAll s ps

end

def plainSpelling : Spelling where

def keySpelling : Spelling where
  name := Variable.text

def render (e : SymInt) : String := e.renderWith plainSpelling

def key (e : SymInt) : String := e.renderWith keySpelling

/-- Expressions are equal when their keys are. -/
instance : BEq SymInt := ⟨fun a b => a.key == b.key⟩

def debug (e : SymInt) : String := "<" ++ e.key ++ ">"

end SymInt

end LazyTensor
