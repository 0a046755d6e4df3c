import LazyTensor.Kernel.Basic

/-!
Counters of loops and launch indices. Axes that the hardware has no dimension for are folded
into the innermost one and taken apart again by quotient and remainder.
-/
namespace LazyTensor

structure Counter where
  var : Variable
  size : SymInt

namespace Counter

def make (name : String) (size : SymInt) : Checked Counter := do
  let hi ← Checked.sub size.hi 1
  return { var := ← Variable.counter name 0 (max hi 0), size }

def index (c : Counter) : SymInt := SymInt.ofVariable c.var

def isFixed (c : Counter) : Bool := c.var.lo == c.var.hi

end Counter

/-- Take an index apart into one index per axis. The axes come innermost first, and the outermost
takes what is left. -/
def splitIndex : SymInt → List SymInt → List SymInt → Checked (List SymInt)
  | _, [], done => .ok done
  | whole, [_], done => .ok (whole :: done)
  | whole, d :: ds, done => do
    let n ← d.concrete
    let r ← whole.remainder n
    let q ← whole.quotient n
    splitIndex q ds (r :: done)

/-- One index per axis, and the counters they are made of. With `limit` dimensions at most, unless
`limit` is zero. -/
def launchIndices (name : String) (start : Nat) (dims : Shape) (limit : Nat) :
    Checked (List SymInt × List Counter) := do
  let grouped := limit ≠ 0 ∧ limit < dims.length
  let rest := dims.drop (limit - 1)
  let sizes ← if grouped then do pure (dims.take (limit - 1) ++ [← Shape.product rest])
    else pure dims
  let counters ← sizes.zipIdx.mapM (fun (d, i) => do
    let n ← Checked.addNat start i
    Counter.make s!"{name}{n}" d)
  let idxs := counters.map Counter.index
  let idxs ←
    if grouped then do
      let whole ← nth idxs (limit - 1)
      pure (idxs.take (limit - 1) ++ (← splitIndex whole rest.reverse []))
    else pure idxs
  pure (idxs, counters.filter (fun c => !c.isFixed))

end LazyTensor
