import LazyTensor.View.Movement
import LazyTensor.Layout.Address

/-!
Movements of a layout act on its top view. Only a reshape may need a new view on top, and
adjacent views are merged again where their composition is a single strided view.
-/
namespace LazyTensor.Layout

/-- `upper` read through `lower` as a single view. -/
def mergeViews (lower upper : View) : Checked (Option View) := do
  if lower.mask.isSome || upper.offset ≠ 0 then pure none
  else
    let strides ← realStrides { top := upper, below := [lower] } false
    match strides.mapM id with
    | none => pure none
    | some strides => return some (← View.make upper.shape strides lower.offset upper.mask)

/-- Merge the top view with the ones below it for as long as that works. -/
def simplifyOnto : View → List View → Checked Layout
  | top, [] => .ok { top }
  | top, v :: below => do
    match ← mergeViews v top with
    | some merged => simplifyOnto merged below
    | none => pure { top, below := v :: below }

def simplify (l : Layout) : Checked Layout := simplifyOnto l.top l.below

def pad (l : Layout) (pads : List (Int × Int)) : Fallible Layout :=
  return { l with top := ← l.top.pad pads }

def shrink (l : Layout) (ranges : List (Int × Int)) : Fallible Layout :=
  return { l with top := ← l.top.shrink ranges }

def expand (l : Layout) (target : Shape) : Fallible Layout :=
  return { l with top := ← l.top.expand target }

def permute (l : Layout) (axes : List Nat) : Fallible Layout :=
  return { l with top := ← l.top.permute axes }

def stride (l : Layout) (multipliers : List Int) : Fallible Layout :=
  return { l with top := ← l.top.stride multipliers }

/-- Change the shape and keep the row-major order of the elements. -/
def reshape (l : Layout) (target : Shape) : Fallible Layout := do
  match ← l.top.reshape? target with
  | some top => pure { l with top }
  | none =>
    if l.shape.allInt then
      let extra ← View.ofShape target
      match ← mergeViews l.top extra with
      | some top => pure { l with top }
      | none => pure { top := extra, below := l.top :: l.below }
    else fail (.movement "reshape" l.shape (.buriedSymbolic target))

end LazyTensor.Layout
