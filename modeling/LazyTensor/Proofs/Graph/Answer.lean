import LazyTensor.Proofs.Graph.Scheduled

/-! What is found again. A tensor that a call gives may have been made long before, by another call.
It has the dimensions that were asked for all the same. -/
namespace LazyTensor
open Checked GraphM LazyTensor.Graph

/-- On every graph that concrete requests lead to, what was computed or collected on the way
included, an elementwise operation, a reduce, a movement, a contiguous copy and a load without
sources give tensors of the dimensions that they ask for. -/
theorem answer_has_dims {g g' : Graph} {id : Nat} (hg : Reached (fun g r => r.Concrete g) g) :
    (∀ {c ds}, c.Typed False g.Dims ds → (perform c).runOn g = (.ok id, g') →
      g'.Dims id ds) ∧
    (∀ {x ds}, g.Dims x ds → (contiguous x).runOn g = (.ok id, g') → g'.Dims id ds) ∧
    ∀ {op shape element device arg vals ds}, isShared (.load op) = false → shape.Sized ds →
      (load op shape element device arg none vals).runOn g = (.ok id, g') → g'.Dims id ds := by
  have hR : (Reading.shapes fun _ _ => True).Lasting := Reading.shapes_lasting fun _ => trivial
  have hsound := hg.sound hR fun g r hr => ⟨hr, .all (fun _ _ => trivial) r⟩
  refine ⟨fun {c ds} hc hrun => ?_, fun {x ds} hx hrun => ?_, fun hop hs hrun => ?_⟩
  · have hgives := Reading.perform_performs g c hsound (fun _ => ⟨ds, hc⟩) fun _ =>
      .all (fun _ _ => trivial) c
    exact (hgives.of_ok hrun).2.dims ds trivial hc
  · obtain ⟨hk, hstands⟩ := (Reading.contiguous_yields (x := x) hsound).of_ok hrun
    exact hstands.dims ds trivial (hk.grows.dims hx)
  · obtain ⟨_, _, t, ht, hshape, _⟩ :=
      (Reading.load_fresh hop hsound fun _ => ⟨_, hs⟩).of_ok hrun
    exact ⟨t, ht, hshape ▸ hs⟩

def customTwice : GraphM Nat := do
  let arg : OpArg := .custom ⟨"double", fun _ => pure []⟩
  let x ← load .empty [.num 2, .num 3] .float32 "CPU"
  discard (load .custom [.num 2, .num 3] .float32 "CPU" arg (some x))
  load .custom [.num 6] .float32 "CPU" arg (some x)

/-- A custom load is found again under another shape. -/
theorem customTwice_lacks_dims : ∃ g', customTwice.runOn {} = (.ok 1, g') ∧
    (g'.find? 1).map (·.shape.ints?) = some (some [2, 3]) := by
  have hrun : (customTwice.runOn {}).1.toOption = some 1 := by decide +kernel
  have hshape : ((customTwice.runOn {}).2.find? 1).map (·.shape.ints?) = some (some [2, 3]) := by
    decide +kernel
  obtain ⟨g', hrun⟩ := runOn_of_toOption hrun
  rw [hrun] at hshape
  exact ⟨g', hrun, hshape⟩

def sixAsFour : GraphM Nat := do
  let x ← load .empty [.num 6] .float32 "CPU"
  let y ← perform (.move (.reshape [.var { name := "v", lo := 1, hi := 10 }]) x)
  perform (.move (.reshape [.num 4]) (← contiguous y))

/-- The copy has six elements, for that is what its variable is bound to. -/
theorem sixAsFour_granted : ∃ g', sixAsFour.runOn {} = (.ok 3, g') ∧
    (g'.find? 3).map (·.shape.ints?) = some (some [4]) ∧
    (g'.find? 2).map (·.vals.map (·.2)) = some [6] := by
  have hrun : (sixAsFour.runOn {}).1.toOption = some 3 := by decide +kernel
  have hshape : ((sixAsFour.runOn {}).2.find? 3).map (·.shape.ints?) = some (some [4]) := by
    decide +kernel
  have hvals : ((sixAsFour.runOn {}).2.find? 2).map (·.vals.map (·.2)) = some [6] := by
    decide +kernel
  obtain ⟨g', hrun⟩ := runOn_of_toOption hrun
  rw [hrun] at hshape hvals
  exact ⟨g', hrun, hshape, hvals⟩

end LazyTensor
