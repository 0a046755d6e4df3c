import LazyTensor.Error

/-!
A view is one strided window onto a flat buffer: element `i` of a shape sits at
`offset + Σ i_k * stride_k`, and a mask limits each axis to a range of valid positions.
`View.make` normalizes strides and mask; every view is built by it.
-/
namespace LazyTensor

/-- Valid positions `[lo, hi)` of each axis. -/
abbrev Mask := List (Int × Int)

/-- Strides of unit axes never move the index and are zero. -/
def Shape.dropUnitStrides (shape : Shape) (strides : List Int) : List Int :=
  List.zipWith (fun d st => if d.is 1 then 0 else st) shape strides

/-- Strides of the axes, and the number of elements they cover unless it is symbolic. -/
def Shape.strideWalk : Shape → Checked (Option (List Int × Option Int))
  | [] => .ok (some ([], some 1))
  | d :: ds => do
    match ← strideWalk ds with
    | none => pure none
    | some (strides, covered) =>
      if d.is 1 then pure (some (0 :: strides, covered))
      else match covered, d.num? with
        | none, _ => pure none
        | some n, none => pure (some (n :: strides, none))
        | some n, some k => return some (n :: strides, some (← Checked.mul n k))

def Shape.rowMajor? (shape : Shape) : Checked (Option (List Int)) :=
  return (← shape.strideWalk).map (·.1)

structure View where
  shape : Shape
  strides : List Int
  offset : Int
  mask : Option Mask
  contiguous : Bool
  deriving Repr

namespace View

instance : BEq View where
  beq a b := a.shape == b.shape && a.strides == b.strides && a.offset == b.offset
    && a.mask == b.mask && a.contiguous == b.contiguous

def covers (shape : Shape) (mask : Mask) : Bool :=
  (mask.zip shape).all (fun (m, d) => m.1 == 0 && d.is m.2)

def make (shape : Shape) (strides : List Int) (offset : Int) (mask : Option Mask) :
    Checked View :=
  if shape.length ≠ strides.length then .error .strideCount
  else do
    let strides := shape.dropUnitStrides strides
    let mask := mask.filter (fun m => !covers shape m)
    let contiguous ←
      if offset = 0 ∧ mask.isNone then do pure ((← shape.rowMajor?) == some strides)
      else pure false
    pure { shape, strides, offset, mask, contiguous }

def ofShape (shape : Shape) : Fallible View := do
  if shape.all (fun d => 0 ≤ d.lo) then
    match ← shape.rowMajor? with
    | some strides => make shape strides 0 none
    | none => fail (.movement "create" shape .innerSymbolic)
  else fail (.movement "create" shape .negativeDimension)

def vars (v : View) : List Variable := Shape.vars v.shape

def bindVars (v : View) (vals : Bindings) : Checked View := do
  make (← v.shape.mapM (fun d => d.bindVars vals)) v.strides v.offset v.mask

def maskText (mask : Option Mask) : String := Text.optional (mask.map Text.pairs)

def render (v : View) : String :=
  "View" ++ Text.parens ["shape=" ++ v.shape.render, "strides=" ++ Text.ints v.strides,
    "offset=" ++ toString v.offset, "mask=" ++ maskText v.mask,
    "contiguous=" ++ Text.flag v.contiguous]

def debug (v : View) : String :=
  Text.braces "View" ["shape: " ++ v.shape.debug, "strides: " ++ Text.ints v.strides,
    "offset: " ++ toString v.offset, "mask: " ++ maskText v.mask,
    "contiguous: " ++ Text.flag v.contiguous]

end View

end LazyTensor
