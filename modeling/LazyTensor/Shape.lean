import LazyTensor.Text
import LazyTensor.SymInt.Substitute

/-!
Shapes are lists of dimensions. At most one dimension of a product may be symbolic.
-/
namespace LazyTensor

abbrev Shape := List SymInt

namespace Shape

def ofInts (dims : List Int) : Shape := dims.map SymInt.num

def allInt (shape : Shape) : Bool := shape.all SymInt.isNum

def ints? (shape : Shape) : Option (List Int) := shape.mapM SymInt.num?

def render (shape : Shape) : String := Text.parens (shape.map SymInt.render)

def debug (shape : Shape) : String := Text.brackets (shape.map SymInt.debug)

/-- Product of the numbers passed so far, and the symbolic dimension if there was one. -/
def productStep (whole : Shape) (acc : Int × Option SymInt) (d : SymInt) :
    Checked (Int × Option SymInt) :=
  match d.num?, acc.2 with
  | some n, _ => return (← Checked.mul acc.1 n, acc.2)
  | none, none => .ok (acc.1, some d)
  | none, some _ => .error (.manySymbolicDims whole.debug)

def product (shape : Shape) : Checked SymInt := do
  let (n, symbolic) ← shape.foldlM (productStep shape) (1, none)
  match symbolic with
  | some d => d.times n
  | none => pure (.num n)

/-- Number of positions along an axis. A negative length counts as a single position. -/
def extent (d : Int) : Nat := if d = 0 then 0 else max d.toNat 1

/-- Positions along axes that all have some, the last axis moving fastest. -/
def grid : List Int → List (List Int)
  | [] => [[]]
  | d :: ds => (List.range (extent d)).flatMap (fun (k : Nat) => (grid ds).map ((k : Int) :: ·))

def positions (dims : List Int) : List (List Int) := if dims.contains 0 then [] else grid dims

def vars (shape : Shape) : List Variable :=
  (shape.flatMap SymInt.vars).foldl (fun seen v => if seen.contains v then seen else seen ++ [v]) []

end Shape

end LazyTensor
