import LazyTensor.Proofs.Table.Programs

/-! Reduces that are split. Where a reduce is cut, and whether it is, does not show in the array
that it gives. -/
namespace LazyTensor
open Checked GraphM Reading

/-- Values do not depend on the configuration. -/
lemma Reading.evalWithin_config {R : Reading} {g : Graph} (trees : Nat → Option OpTree)
    (given : Nat → R.Value) (config : Config) (n : Nat) :
    R.evalWithin { g with config } trees given n = R.evalWithin g trees given n := by
  induction n with
  | zero => rfl
  | succ n ih =>
    funext id
    rw [evalWithin, evalWithin, ih]
    rfl

/-- On a graph that was built by calls, none of them a pad or a stride, a reduce stands for the same
array however it is split: at each position, the product in row-major order of the entries that are
collected there. -/
theorem split_reduce_exact {X : Type} [Inhabited X] (S : Scalars X) {g whole cut : Graph}
    (hg : Built g) {op : ReduceOp} {x id id' : Nat} {s : Shape} {ds dt : List Int}
    (hx : g.Dims x ds) (hs : s.Sized dt) (hr : Reduces ds dt) {config : Config}
    {split : Option Split}
    (hwhole : (Graph.perform (.reduce op x s)).runOn
      { g with config := { config with split := none } } =
      (.ok id, whole))
    (hcut : (Graph.perform (.reduce op x s)).runOn { g with config := { config with split } } =
      (.ok id', cut)) (data : Nat → List Int → X) :
    cut.denote S data id' = whole.denote S data id ∧ (whole.denote S data id).Fits dt ∧
      ∀ p, Shape.Inside dt p → (whole.denote S data id).entry p =
        letI := S.monoid op
        (((Shape.positions ds).filter (Shape.squash dt · = p)).map
          (g.denote S data x).entry).prod := by
  obtain ⟨hsound, hu⟩ : (tables S (g.contents data)).Sound g ∧ g.Uncomputed := hg.sound
  have hcall : (Call.reduce op x s).Typed True g.Dims dt := ⟨ds, hx, hs, hr⟩
  have hvalue {config : Config} {id : Nat} {g' : Graph}
      (hrun : (Graph.perform (.reduce op x s)).runOn { g with config } = (.ok id, g')) :
      g'.denote S data id = (g.denote S data x).reduce S op s := by
    have hsame : (tables S (g.contents data)).Sound { g with config } := hsound.same rfl rfl
    have hval : ({ g with config } : Graph).denote S data x = g.denote S data x :=
      congrFun
        (evalWithin_config (R := tables S (g.contents data)) (fun id => (g.find? id).bind Tensor.op)
        (g.contents data) config (x + 1)) x
    rw [(perform_denotes hsame hu hcall hrun).2.2 data, Call.value, hval]
  let _ := S.monoid op
  rw [hvalue hcut, hvalue hwhole]
  refine ⟨rfl, Table.reduce_fits S hs, fun p hp => ?_⟩
  obtain ⟨t, ht, htx⟩ := hx
  have hvals : (tables S (g.contents data)).Denotes g (g.denote S data) := denotes hsound hu
  have hdims := (hvals.fits trivial ht htx).1
  rw [Table.reduce, hs.dims, Table.fold, Table.collect, Table.tabulate_entry hp, hdims]

def eight : Graph := ((Graph.ofBytes "CPU" [8] .float32 (List.replicate 32 0)).runOn {}).2

/-- A sum of eight entries, and the same sum cut into sums of two. -/
theorem eight_split_reduce : ∃ whole cut, (Graph.perform (.reduce .sum 0 [.num 1])).runOn
      { eight with config := { eight.config with split := none } } = (.ok 1, whole) ∧
    (Graph.perform (.reduce .sum 0 [.num 1])).runOn
      { eight with config := { eight.config with split := some ⟨1, 2, 1, 0.0⟩ } } =
        (.ok 4, cut) ∧
    ∀ data, cut.denote .sums data 4 = whole.denote .sums data 1 := by
  have hload : ((Graph.ofBytes "CPU" [8] .float32 (List.replicate 32 0)).runOn {}).1.toOption =
      some 0 := by decide +kernel
  have hwhole : ((Graph.perform (.reduce .sum 0 [.num 1])).runOn
      { eight with config := { eight.config with split := none } }).1.toOption = some 1 := by
      decide +kernel
  have hcut : ((Graph.perform (.reduce .sum 0 [.num 1])).runOn { eight with
      config := { eight.config with split := some ⟨1, 2, 1, 0.0⟩ } }).1.toOption = some 4 := by
      decide +kernel
  obtain ⟨g, hload⟩ := runOn_of_toOption hload
  obtain ⟨whole, hwhole⟩ := runOn_of_toOption hwhole
  obtain ⟨cut, hcut⟩ := runOn_of_toOption hcut
  have hextents : Extents [8] := by decide
  have hbuilt : Built eight := .bytes (.start _) "CPU" [8] .float32 _ hextents
  have hstart : (tables Scalars.sums fun _ => ⟨[], default⟩).Sound {} ∧ Graph.Uncomputed {} :=
    (Built.start _).sound
  have hdims : eight.Dims 0 [8] := by
    rw [eight, hload]
    exact (ofBytes_denotes hextents hstart.1 hstart.2 hload).2.1
  refine ⟨whole, cut, hwhole, hcut, fun data => ?_⟩
  exact (split_reduce_exact .sums hbuilt hdims ⟨rfl, by decide⟩
    (.cons (.inr rfl) .nil) hwhole hcut data).1

end LazyTensor
