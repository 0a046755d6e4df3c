import LazyTensor.Checked

/-!
Named integers with an inclusive range, and finite maps from them. Maps are lists of entries
in the order of the variables: by name, then by lower and by upper end.
-/
namespace LazyTensor

structure Variable where
  name : String
  lo : Int
  hi : Int
  deriving DecidableEq, Repr, Inhabited

namespace Variable

def text (v : Variable) : String := s!"{v.name}[{v.lo}-{v.hi}]"

def before (a b : Variable) : Bool :=
  if a.name = b.name then
    if a.lo = b.lo then a.hi < b.hi else a.lo < b.lo
  else a.name < b.name

/-- A variable made by the library itself; its range must not be empty. -/
def counter (name : String) (lo hi : Int) : Checked Variable :=
  if lo ≤ hi then .ok ⟨name, lo, hi⟩ else .error (.emptyRange name lo hi)

/-- Counters without a name are the ones that get unrolled. -/
def isAnonymous (v : Variable) : Bool := v.name.isEmpty

def isIdentifier (name : String) : Bool :=
  match name.toList with
  | [] => false
  | c :: cs => (c.isAlpha || c = '_') && cs.all (fun c => c.isAlphanum || c = '_')

end Variable

/-- Entries in the order of their variables, each variable at most once. -/
abbrev VarMap (α : Type) := List (Variable × α)

namespace VarMap
variable {α : Type}

def value? (m : VarMap α) (v : Variable) : Option α :=
  (List.find? (fun e => decide (e.1 = v)) m).map (·.2)

/-- Add an entry, or replace the value of the variable. -/
def put : VarMap α → Variable → α → VarMap α
  | [], v, x => [(v, x)]
  | e :: m, v, x =>
    if v = e.1 then (v, x) :: m
    else if v.before e.1 then (v, x) :: e :: m
    else e :: put m v x

def ofEntries (entries : List (Variable × α)) : VarMap α :=
  entries.foldl (fun m e => put m e.1 e.2) []

end VarMap

abbrev Bindings := VarMap Int

end LazyTensor
