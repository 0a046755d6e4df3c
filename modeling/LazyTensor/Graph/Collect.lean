import LazyTensor.Graph.Basic

/-!
Dropping the tensors that are not in use any more.
-/
namespace LazyTensor.Graph

def needs (g : Graph) (id : Nat) : List Nat :=
  match g.find? id with
  | none => []
  | some t => t.base.toList ++ (t.op.map OpTree.buffers).getD []

def reach (g : Graph) : Nat → List Nat → List Nat
  | 0, ids => ids
  | n + 1, ids =>
    let found := (ids.flatMap g.needs).filter (fun id => !ids.contains id)
    if found.isEmpty then ids else g.reach n (ids ++ found.eraseDups)

/-- The tensors that the roots need. Roots that are not in the graph count for nothing. -/
def live (g : Graph) (roots : List Nat) : List Nat :=
  g.reach g.tensors.length (roots.filter (fun id => (g.find? id).isSome))

def keepLinks (ids : List Nat) (t : Tensor) : Tensor :=
  { t with children := t.children.filter ids.contains, views := t.views.filter ids.contains }

def collect (g : Graph) (roots : List Nat) : Graph × Nat :=
  let ids := g.live roots
  let kept := g.tensors.zipIdx.map (fun (t, id) =>
    if ids.contains id then t.map (keepLinks ids) else none)
  let after := { g with tensors := kept, cache := g.cache.filter (fun e => ids.contains e.2) }
  (after, g.size - after.size)

end LazyTensor.Graph
