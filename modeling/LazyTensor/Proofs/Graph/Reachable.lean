import LazyTensor.Proofs.Graph.Requests

/-! The graphs that any history of requests leads to are sound, and their schedules are in order. -/
namespace LazyTensor
open Checked GraphM LazyTensor.Graph Item

/-- The graphs that requests lead to, whether they are granted or fail. Between requests tensors
may be dropped, and devices, statistics and memory change as they like. -/
inductive Reachable : Graph → Prop
  | start (config : Config) : Reachable { config }
  | request {g : Graph} (h : Reachable g) (r : Request) : Reachable (r.perform.runOn g).2
  | collect {g : Graph} (h : Reachable g) (roots : List Nat) : Reachable (g.collect roots).1
  | surroundings {g : Graph} (h : Reachable g) (devices : List Device) (stats : Stats)
      (memory : Memory) : Reachable { g with devices, stats, memory }

namespace Reading

lemma depth_lasting : depth.Lasting where
  call hg _ _ := stays_of_keeps (perform_performs _ _ hg (fun hty => hty.elim) fun hty => hty.elim)
  schedule hg := stays_of_keeps (schedule_visits hg)
  casts hty := hty.elim

end Reading

open Reading

lemma Reachable.sound {g : Graph} (h : Reachable g) : depth.Sound g := by
  induction h with
  | start config => exact .empty depth config
  | request _ r ih =>
    exact (request_stays depth_lasting ih r (fun hty => hty.elim) fun hty => hty.elim).sound
  | collect _ roots ih => exact ih.trim (ih.trims_collect roots)
  | surroundings _ _ _ _ ih => exact ih.same rfl rfl

namespace Reading
variable {g g' : Graph} {outs : List Nat} {x : Nat}

lemma filled_back (hk : depth.Keeps g g') (h : g'.Filled x) : g.isRealized x = .ok true := by
  obtain ⟨t', ht', hb, hr⟩ := h
  by_cases hx : x < g.tensors.length
  · obtain ⟨t, ht, ha⟩ := hk.grows.back hx ht'
    rw [ha.base] at hb
    rw [ha.realized] at hr
    exact isRealized_eq_ok.2 ⟨t, t, ht, by rw [hb]; exact ht, hr⟩
  · rw [hk.pending (not_lt.1 hx) ht'] at hr
    cases hr

lemma pending_back (hk : g.Extends g') (h : g'.isRealized x = .ok false) :
    g.isRealized x ≠ .ok true := by
  intro hr
  cases h.symm.trans (hk.isRealized hr)

lemma avail_back (hg : depth.Sound g) (hk : g.Extends g') (hx : g.Has x) (h : g'.Avail outs x) :
    g.Avail outs x := by
  obtain ⟨t, ht⟩ := hx
  obtain ⟨t', ht', h⟩ := h
  obtain ⟨t1, ht1, ha⟩ := hk.keeps ht
  cases ht'.symm.trans ht1
  rw [ha.base] at h
  obtain ⟨tb, htb, _⟩ := hg.base ht
  have hreal := isRealized_eq_ok.2 ⟨t, tb, ht, htb, rfl⟩
  have hconst := isPendingConst_eq_ok.2 ⟨t, tb, ht, htb, rfl⟩
  refine ⟨t, ht, h.imp (fun hr => ?_) (Or.imp_left fun hc => ?_)⟩
  · rwa [Except.ok.inj ((hk.isRealized hreal).symm.trans hr)] at hreal
  · rwa [Except.ok.inj ((hk.isPendingConst hconst).symm.trans hc)] at hconst

end Reading

/-- A schedule of any graph that requests lead to. No tensor is scheduled twice, none that has
contents is scheduled, what a program reads has contents or is computed by an earlier program, and
in the end the tensor that was asked for has contents, or is a constant that programs contain. -/
theorem schedule_in_order {g g' : Graph} {x : Nat} {items : List Item} (hg : Reachable g)
    (h : (schedule x).runOn g = (.ok items, g')) : (items.map out).Nodup ∧
    (∀ item ∈ items, g.isRealized item.out ≠ .ok true) ∧
    (∀ before item after, items = before ++ item :: after → item.tree.op.kind ≠ .load →
      ∀ i ∈ item.inputs, g.isRealized i = .ok true ∨
      ∃ earlier ∈ before, earlier.out = i) ∧
    (g.isRealized x = .ok true ∨ g.isPendingConst x = .ok true ∨
      ∃ item ∈ items, g.baseOf x = .ok item.out) := by
  have hsound := hg.sound
  have hyields := schedule_visits (x := x) hsound
  have hk : depth.Keeps g g' := by simpa only [h] using hyields.step
  obtain ⟨hx, seen, hv⟩ : g.Has x ∧ ∃ seen, Visits [] [] [x] items seen g' := by
    simpa only [h] using hyields.gives items (by rw [h])
  refine ⟨hv.nodup, fun item hitem => ?_, fun before item after heq hkind i hi => ?_, ?_⟩
  · exact pending_back hk.grows (hv.pending item.out (List.mem_map_of_mem hitem))
  · have horder := hv.order
    rw [heq, inOrder_append] at horder
    obtain ⟨ha, hc, hb⟩ := horder.2.1 i hi
    have hconst : g'.isPendingConst i ≠ .ok true := by simp [hc.resolve_right fun h => hkind h.1]
    refine (base_of_avail hk.1 ha hconst (hb hkind)).imp (filled_back hk) fun hmem => ?_
    simpa using hmem
  · obtain ⟨t, ht, havail⟩ := avail_back hsound hk.grows hx (hv.avail x (by simp))
    refine havail.imp_right (Or.imp_right fun hmem => ?_)
    obtain ⟨item, hitem, heq⟩ := List.mem_map.1 (by simpa using hmem)
    exact ⟨item, hitem, baseOf_eq_ok.2 ⟨t, ht, heq.symm⟩⟩

def sharedSum : Graph :=
  [.load .empty [.num 2, .num 3] .float32 "CPU" .none none [],
   .call (.reduce .sum 0 [.num 2, .num 1]),
   .call (.elementwise (.unary .neg) [1] .none),
   .call (.elementwise (.unary .sqrt) [1] .none),
   .call (.elementwise (.binary .add) [2, 3] .none)].foldl
    (fun g (r : Request) => (r.perform.runOn g).2) {}

/-- The sum is scheduled once, between what it reads and what reads it. -/
theorem sharedSum_in_order : ∃ items g', (schedule 4).runOn sharedSum = (.ok items, g') ∧
    items.map out = [0, 1, 4] ∧ items.map inputs = [[], [0], [1]] ∧
    (items.map out).Nodup ∧ ∀ item ∈ items, sharedSum.isRealized item.out ≠ .ok true := by
  have hreach : Reachable sharedSum :=
    (((((Reachable.start _).request _).request _).request _).request _).request _
  have hrun : ((schedule 4).runOn sharedSum).1.toOption.map
      (fun items => (items.map out, items.map inputs)) =
        some ([0, 1, 4], [[], [0], [1]]) := by decide +kernel
  obtain ⟨items, hitems, hrun⟩ := Option.map_eq_some_iff.1 hrun
  obtain ⟨g', hres⟩ := runOn_of_toOption hitems
  obtain ⟨hout, hin⟩ := Prod.mk.inj hrun
  have horder := schedule_in_order hreach hres
  exact ⟨items, g', hres, hout, hin, horder.1, horder.2.1⟩

end LazyTensor
