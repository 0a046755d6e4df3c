import LazyTensor.Proofs.Graph.Replay
import LazyTensor.Proofs.Graph.Sources

/-! A tensor that is realized has contents of its element type on its device, and is not computed
again. -/
namespace LazyTensor
open Checked GraphM LazyTensor.Graph Reading List

namespace Graph
variable {g g' : Graph} {x y b : Nat} {t : Tensor} {raw : Buffer} {items : List Item}

/-- The base has contents as the tensor asks for them, and no operation. -/
def Complete (g : Graph) (x : Nat) : Prop :=
  ∃ t tb raw, g.find? x = some t ∧ g.find? (t.base.getD x) = some tb ∧ tb.op = none ∧
    tb.realized = some raw ∧ raw.element = tb.element ∧ raw.device = some t.device

lemma Complete.isRealized (h : g.Complete x) : g.isRealized x = .ok true := by
  obtain ⟨t, tb, raw, ht, htb, _, hraw, _⟩ := h
  exact isRealized_eq_ok.2 ⟨t, tb, ht, htb, by rw [hraw]; rfl⟩

lemma complete_of_check (hg : depth.Sound g) (h : g.checkContents x = .ok ()) : g.Complete x := by
  obtain ⟨t, tb, raw, ht, htb, hraw, hrest⟩ := checkContents_eq_ok h
  exact ⟨t, tb, raw, ht, htb, hg.op_of_realized htb hraw, hraw, hrest⟩

lemma Complete.of_base (hg : depth.Sound g) (hb : g.baseOf x = .ok b) (h : g.Complete b) :
    g.Complete x := by
  obtain ⟨t, ht, rfl⟩ := baseOf_eq_ok.1 hb
  obtain ⟨tb, htb, hnone, hdevice⟩ := hg.base ht
  obtain ⟨t', tb', raw, ht', htb', hop, hraw, he, hd⟩ := h
  cases htb.symm.trans ht'
  rw [hnone] at htb'
  cases htb.symm.trans htb'
  exact ⟨t, tb, raw, ht, htb, hop, hraw, he, hdevice ▸ hd⟩

lemma find?_fill_of_ne {t0 : Tensor} (raw : Buffer) (ht : g.find? x = some t) (hne : y ≠ x)
    (h : g.find? y = some t0) :
    ∃ op, (fill g x t raw).find? y = some { t0 with op } ∧ (t0.op = none → op = none) := by
  rw [find?_fill ht, if_neg hne, h, Option.bind_some, forget]
  split
  · exact ⟨none, rfl, fun _ => rfl⟩
  · exact ⟨t0.op, rfl, id⟩

lemma Complete.fill (h : g.Complete x) (ht : g.find? y = some t) (hb : t.base = none)
    (hne : g.baseOf x ≠ .ok y) : (fill g y t raw).Complete x := by
  obtain ⟨tx, tb, raw', htx, htb, hop, hrest⟩ := h
  have hbase : tx.base.getD x ≠ y := fun h => hne (baseOf_eq_ok.2 ⟨tx, htx, h⟩)
  have hx : x ≠ y := by
    rintro rfl
    cases ht.symm.trans htx
    exact hbase (by rw [hb]; rfl)
  obtain ⟨_, htx', _⟩ := find?_fill_of_ne raw ht hx htx
  obtain ⟨_, htb', hnone⟩ := find?_fill_of_ne raw ht hbase htb
  exact ⟨_, _, raw', htx', htb', hnone hop, hrest⟩

/-- One of the items completes the tensor, and no later one fills its base. -/
lemma run_completes (hg : depth.Sound g) (hb : g.baseOf x = .ok b) (hn : (items.map Item.out).Nodup)
    (hx : b ∈ items.map Item.out ∨ g.Complete x ∧ b ∉ items.map Item.out)
    (hrun : (run items).runOn g = (.ok (), g')) : g'.Complete x := by
  induction items generalizing g with
  | nil =>
    obtain ⟨_, rfl⟩ := runOn_pure_eq_ok.1 hrun
    exact (hx.resolve_left (by simp)).1
  | cons _ items ih =>
    obtain ⟨_, g1, hitem, hrun⟩ := runOn_bind_eq_ok.1 hrun
    obtain ⟨g2, raw, haround, ⟨t, ht, hbase, rfl, hcheck⟩, _⟩ := runItem_settled hitem
    have hstays := (runItem_fills hg hitem).1
    have hb1 := hstays.base hb
    rw [map_cons, nodup_cons] at hn
    rw [map_cons, mem_cons, not_or] at hx
    refine ih hstays.sound hb1 hn.2 ?_ hrun
    rcases hx with (rfl | hx) | ⟨hx, hne, hnot⟩
    · exact .inr ⟨.of_base hstays.sound hb1 (complete_of_check hstays.sound hcheck), hn.1⟩
    · exact .inl hx
    · have hsame : g2.Complete x := by simpa only [Complete, find?, haround.tensors] using hx
      refine .inr ⟨hsame.fill ht hbase fun h => hne ?_, hnot⟩
      rw [baseOf_congr haround.tensors] at h
      exact Except.ok.inj (hb.symm.trans h)

end Graph

/-- Realizing completes a tensor and is then idle, or the tensor is a constant that programs contain
and nothing is done. Contents that a failed run left behind are not looked at again. -/
theorem realize_completes {g g' : Graph} {x : Nat} (hg : Reachable g)
    (hchecked : g.isRealized x = .ok true → g.checkContents x = .ok ())
    (h : (realize x).runOn g = (.ok (), g')) :
    (g'.isRealized x = .ok true ∧ g'.Complete x ∨ g.isPendingConst x = .ok true ∧ g' = g) ∧
      (realize x).runOn g' = (.ok (), g') := by
  have hsound := hg.sound
  suffices hdone : g'.Complete x ∨ g.isPendingConst x = .ok true ∧ g' = g by
    refine ⟨hdone.imp_left fun hc => ⟨hc.isRealized, hc⟩, ?_⟩
    rcases hdone with hc | ⟨_, rfl⟩
    · exact realize_run hc.isRealized
    · exact h
  obtain ⟨filled, hfilled⟩ : ∃ filled, g.isRealized x = .ok filled := by
    obtain ⟨_, _, hlookup, hsee⟩ := runOn_bind_eq_ok.1 h
    obtain ⟨_, rfl⟩ := discard_lookup.1 hlookup
    obtain ⟨filled, hfilled, _⟩ := bind_see_eq_ok.1 hsee
    exact ⟨filled, hfilled⟩
  rw [realize_run hfilled] at h
  cases filled with
  | true =>
    obtain ⟨_, rfl⟩ := Prod.mk.inj h
    exact .inl (complete_of_check hsound (hchecked hfilled))
  | false =>
    obtain ⟨items, g1, hitems, hrun⟩ := runOn_bind_eq_ok.1 h
    obtain ⟨hk, hx, seen, hv⟩ := (schedule_visits hsound).of_ok hitems
    obtain ⟨t, ht, hr | hc | hmem⟩ := avail_back hsound hk.grows hx (hv.avail x (by simp))
    · cases hfilled.symm.trans hr
    · obtain ⟨_, _, hnothing⟩ := schedule_realized hitems
      obtain ⟨rfl, rfl⟩ := hnothing (.inr hc)
      exact .inr ⟨hc, (runOn_pure_eq_ok.1 hrun).2.symm⟩
    · have hbase := hk.grows.baseOf (baseOf_eq_ok.2 ⟨t, ht, rfl⟩)
      exact .inl (run_completes hk.sound hbase hv.nodup (.inl (by simpa using hmem)) hrun)

theorem transposed_completes : ∃ g', (realize 3).runOn transposed = (.ok (), g') ∧
    g'.Complete 3 ∧ (realize 3).runOn g' = (.ok (), g') := by
  have hreach : Reachable transposed :=
    (((((Reachable.start _).request _).request _).request _).request _).request _
  obtain ⟨g', hg'⟩ := runOn_of_toOption
    (show ((realize 3).runOn transposed).1.toOption = some () by decide +kernel)
  have hpending : transposed.isRealized 3 = .ok false := by decide +kernel
  obtain ⟨hdone, hagain⟩ := realize_completes hreach (fun h => by simp [hpending] at h) hg'
  refine ⟨g', hg', (hdone.resolve_right fun h => ?_).2, hagain⟩
  exact absurd h.1 (by decide +kernel)

def constant : Graph := ((Request.full "VM" [.num 4] .float32 2.0).perform.runOn {}).2

/-- A copy that asks for another element type than its source has, after it was refused. -/
def refused : Graph :=
  [.bytes "CPU" [4] .int8 [1, 2, 3, 4],
   .load .contiguous [.num 4] .uint8 "CPU" .none (some 0) [],
   .realize 1].foldl (fun g (r : Request) => (r.perform.runOn g).2) {}

theorem realize_incomplete : ((realize 0).runOn constant).1.toOption = some () ∧
    ((realize 0).runOn constant).2.isRealized 0 = .ok false ∧
    ((realize 1).runOn refused).1.toOption = some () ∧ refused.element 1 = .ok .uint8 ∧
    (refused.realized? 1).toOption.join.map Buffer.element = some .int8 := by decide +kernel

end LazyTensor
