import LazyTensor.Proofs.Graph.Recompute

/-! What a schedule ends with: the contents of the tensor are in a new block. -/
namespace LazyTensor
open Checked GraphM LazyTensor.Graph Reading

namespace Graph
variable {g g' start : Graph} {x b : Nat} {raw : Buffer} {items : List Item} {item : Item}

lemma baseOf_congr (h : g'.tensors = g.tensors) : g'.baseOf x = g.baseOf x := by
  unfold baseOf tensor find?
  rw [h]

lemma run_bases (hrun : (run items).runOn g = (.ok (), g')) (h : g'.baseOf x = .ok b) :
    g.baseOf x = .ok b := by
  induction items generalizing g with
  | nil =>
    obtain ⟨_, rfl⟩ := runOn_pure_eq_ok.1 hrun
    exact h
  | cons _ items ih =>
    obtain ⟨_, g1, hitem, hrun⟩ := runOn_bind_eq_ok.1 hrun
    obtain ⟨g2, raw, haround, ⟨t, ht, _, rfl, _⟩, _⟩ := runItem_settled hitem
    exact (baseOf_congr haround.tensors).symm.trans (baseOf_fill ht (ih hrun))

lemma Settles.fresh (h : start.Settles items x) (hg : depth.Sound g) (hh : g.Handled)
    (hbases : ∀ {x b}, g.baseOf x = .ok b → start.baseOf x = .ok b)
    (hrun : (run items).runOn g = (.ok (), g')) (hr : g'.realized? x = .ok (some raw)) :
    g.memory.blocks.length ≤ raw.block ∨ ∀ item ∈ items, item.tree.op.kind = .load := by
  have hsplit {items : List Item} {item : Item} {g' : Graph}
      (hrun : (run (items ++ [item])).runOn g = (.ok (), g')) :
      ∃ g₁, (run items).runOn g = (.ok (), g₁) ∧ Tracks g.memory.blocks.length g g₁ ∧
        (runItem item).runOn g₁ = (.ok (), g') := by
    rw [show run (items ++ [item]) = (do run items; run [item]) from List.forM_append] at hrun
    obtain ⟨_, g1, hrun1, hrest⟩ := runOn_bind_eq_ok.1 hrun
    obtain ⟨_, _, hitem, hpure⟩ := runOn_bind_eq_ok.1 hrest
    obtain ⟨_, rfl⟩ := runOn_pure_eq_ok.1 hpure
    exact ⟨g1, hrun1, ((run_steps parts_tracks.toRuns (.refl hg hh le_rfl)).of_ok hrun1).1,
      hitem⟩
  induction h generalizing g' with
  | nothing x => exact .inr (by simp)
  | @view items x b hb _ ih =>
    refine ih hrun ?_
    have hsound := ((run_steps parts_tracks.toRuns (.refl hg hh le_rfl)).of_ok hrun).1.sound
    obtain ⟨t', _, ht', _⟩ := realized?_eq_ok.1 hr
    have hbase' := baseOf_eq_ok.2 ⟨t', ht', rfl⟩
    cases hb.symm.trans (hbases (run_bases hrun hbase'))
    exact (hsound.realized? hbase').trans hr
  | @made item items hop =>
    obtain ⟨g1, hrun1, hk, hitem⟩ := hsplit hrun
    obtain ⟨g2, raw', _, hset, hraw⟩ := runItem_settled hitem
    cases hr.symm.trans hset.realized?
    rw [if_neg hop] at hraw
    exact .inl (hk.count.trans hraw)
  | @copied items item src hop hin _ ih =>
    obtain ⟨g1, hrun1, hk, hitem⟩ := hsplit hrun
    obtain ⟨g2, raw', _, hset, hraw⟩ := runItem_settled hitem
    cases hr.symm.trans hset.realized?
    rw [if_pos hop, hin] at hraw
    obtain ⟨y, hy, hraw⟩ := hraw
    cases hy
    refine (ih hrun1 hraw).imp_right fun hall i hi => ?_
    rcases List.mem_append.1 hi with hi | hi
    · exact hall i hi
    · cases List.mem_singleton.1 hi
      rw [hop]
      rfl

end Graph

end LazyTensor
