import LazyTensor.Shape

/-!
Grouping adjacent axes: which axes of an old shape multiply into each axis of a new one.
-/
namespace LazyTensor.Shape

/-- Take axes for the dimension `n`. Gives the group and the axes left over, or `none` if they
do not multiply into `n`. The last dimension takes everything that is left. -/
def fillGroup (n : SymInt) (last : Bool) :
    List (SymInt × Nat) → Shape → List Nat →
      Checked (Option (List Nat × List (SymInt × Nat)))
  | [], _, group => .ok (some (group, []))
  | (d, i) :: old, dims, group =>
    if n.is 1 && !d.is 1 then .ok (if last then none else some (group, (d, i) :: old))
    else do
      let size ← product (dims ++ [d])
      if size == n then
        if last then fillGroup n last old (dims ++ [d]) (group ++ [i])
        else pure (some (group ++ [i], old))
      else match size.num?, n.num? with
        | some a, some b =>
          if a < b then fillGroup n last old (dims ++ [d]) (group ++ [i]) else pure none
        | _, _ => pure none

def groupAxes : List (SymInt × Nat) → Shape → Checked (Option (List (List Nat)))
  | old, [] => .ok (if old.isEmpty then some [] else none)
  | old, n :: new => do
    match ← fillGroup n new.isEmpty old [] [] with
    | none => pure none
    | some (group, rest) => return (← groupAxes rest new).map (group :: ·)

/-- The groups of old axes that multiply into each new axis, if the new shape only combines
adjacent axes. -/
def contraction? (old new : Shape) : Checked (Option (List (List Nat))) :=
  groupAxes old.zipIdx new

end LazyTensor.Shape
