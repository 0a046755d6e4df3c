import LazyTensor.View.Address

/-!
A layout is a stack of views. An index into the shape of the top view gives an index into the
flattened shape of the view below it, and so on down to the buffer.
-/
namespace LazyTensor

structure Layout where
  top : View
  /-- The views under the top one, the nearest first. -/
  below : List View := []
  deriving Repr

namespace Layout

instance : BEq Layout where
  beq a b := a.top == b.top && a.below == b.below

def views (l : Layout) : List View := l.below.reverse ++ [l.top]

def ofShape (shape : Shape) : Fallible Layout := return { top := ← View.ofShape shape }

def shape (l : Layout) : Shape := l.top.shape

def rank (l : Layout) : Nat := l.shape.length

def contiguous (l : Layout) : Bool := l.below.isEmpty && l.top.contiguous

def vars (l : Layout) : List Variable :=
  (l.views.flatMap View.vars).foldl (fun seen v => if seen.contains v then seen else seen ++ [v]) []

def bindVars (l : Layout) (vals : Bindings) : Checked Layout := do
  let below ← l.below.mapM (fun v => v.bindVars vals)
  let top ← l.top.bindVars vals
  pure { top, below }

def render (l : Layout) : String :=
  "ShapeTracker(views=" ++ Text.parens (l.views.map View.render) ++ ")"

def debug (l : Layout) : String :=
  Text.braces "ShapeTracker" ["views: " ++ Text.brackets (l.views.map View.debug)]

end Layout

end LazyTensor
