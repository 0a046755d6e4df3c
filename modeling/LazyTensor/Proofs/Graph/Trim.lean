import LazyTensor.Graph.Collect
import LazyTensor.Graph.Realize
import LazyTensor.Proofs.Graph.Perform
import Mathlib.Data.Finset.Card
import Mathlib.Data.Finset.Range

/-! What a graph loses: a realized tensor forgets its operation and so do its views, and tensors
that nothing needs are dropped. The graph stays sound. -/
namespace LazyTensor
open Checked GraphM List Option LazyTensor.Graph Finset

namespace Graph
variable {g g' : Graph} {id x : Nat}

/-- A graph lost operations of realized tensors and tensors that nothing needs. -/
structure Trims (g g' : Graph) : Prop where
  length : g'.tensors.length = g.tensors.length
  back : ∀ {id t'}, g'.find? id = some t' → ∃ t, g.find? id = some t ∧ t.Trimmed t' ∧
    (t'.op = t.op ∨ t'.op = none ∧ g'.isRealized id = .ok true) ∧
    (t'.op.isSome → t'.realized = none)
  needs : ∀ {id t'}, g'.find? id = some t' → (∀ b, t'.base = some b → g'.Has b) ∧
    ∀ tree, t'.op = some tree → ∀ b ∈ tree.buffers, g'.Has b
  /-- The links are those between tensors that are left. -/
  links : ∀ {id t t'}, g.find? id = some t → g'.find? id = some t' →
    (∀ c ∈ t'.children, c ∈ t.children ∧ g'.Has c) ∧ ∀ v, v ∈ t'.views ↔
    v ∈ t.views ∧ g'.Has v
  realized : ∀ {id}, g'.Has id → g.isRealized id = .ok true → g'.isRealized id = .ok true
  cache : ∀ e ∈ g'.cache, e ∈ g.cache

lemma Trims.ages (h : g.Trims g') : g.Ages g' := by
  refine ⟨h.length.ge, fun _ ⟨t', ht'⟩ => ?_⟩
  obtain ⟨t, ht, _⟩ := h.back ht'
  exact ⟨t, ht⟩

lemma Trims.linked (h : g.Trims g') (hg : g.Linked) : g'.Linked := by
  refine ⟨fun {id t'} ht' c hc => ?_, fun {id t'} ht' v hv => ?_, fun {id t' b} ht' hb => ?_⟩
  · obtain ⟨t, ht, _⟩ := h.back ht'
    exact ((h.links ht ht').1 c hc).2
  · obtain ⟨t, ht, _⟩ := h.back ht'
    obtain ⟨hv, tv', htv'⟩ := ((h.links ht ht').2 v).1 hv
    obtain ⟨tv, htv, htr, _⟩ := h.back htv'
    obtain ⟨tv0, htv0, hbase⟩ := hg.views ht v hv
    cases htv.symm.trans htv0
    exact ⟨tv', htv', htr.base.trans hbase⟩
  · obtain ⟨t, ht, htr, _⟩ := h.back ht'
    obtain ⟨tb', htb'⟩ := (h.needs ht').1 b hb
    obtain ⟨tb, htb, _⟩ := h.back htb'
    obtain ⟨tb0, htb0, hmem⟩ := hg.listed ht (htr.base ▸ hb)
    cases htb.symm.trans htb0
    exact ⟨tb', htb', ((h.links htb htb').2 id).2 ⟨hmem, t', ht'⟩⟩

lemma find?_zipIdx {f : Option Tensor × Nat → Option Tensor} (hf : ∀ id, f (none, id) = none) :
    ({ g with tensors := g.tensors.zipIdx.map f } : Graph).find? id
      = (g.find? id).bind (fun t => f (some t, id)) := by
  unfold find?
  rw [getElem?_map, getElem?_zipIdx, Option.map_map]
  cases hi : g.tensors[id]? with
  | none => rfl
  | some o =>
    cases o with
    | none => simp [hf]
    | some t => simp

end Graph

namespace Reading
variable {R : Reading} {g g' : Graph} {x : Nat} {t t' : Tensor} {tree : OpTree}
variable {raw : Buffer} {roots : List Nat}
variable {id : Nat}

lemma Sound.trim (hg : R.Sound g) (h : g.Trims g') : R.Sound g' := by
  have hback : ∀ {b tb'}, g'.find? b = some tb' → ∃ tb, g.find? b = some tb ∧
      tb.Trimmed tb' := by
    intro b tb' htb'
    obtain ⟨tb, htb, htr, _⟩ := h.back htb'
    exact ⟨tb, htb, htr⟩
  refine ⟨fun {id t'} ht' => ?_, h.linked hg.linked, fun {key id t'} hk ht' => ?_,
    fun hk => h.length ▸ hg.fresh (h.cache _ hk), fun hk hk' =>
    hg.once (h.cache _ hk) (h.cache _ hk')⟩
  · obtain ⟨t, ht, htr, hop, hpend⟩ := h.back ht'
    have hat := hg.at_id ht
    have hsame : ∀ tree, t'.op = some tree → t.op = some tree := by
      intro tree htree
      obtain heq | ⟨hnone, _⟩ := hop
      · exact heq ▸ htree
      · rw [hnone] at htree
        cases htree
    refine ⟨fun tree htree => (hat.made tree (hsame tree htree)).trim htr fun _ => hback,
      fun tree htree => htr.kind.trans (hat.kind tree (hsame tree htree)),
      fun tree htree b hb => ?_,
      by rw [htr.kind, htr.base]; exact hat.movement, fun b hb => ?_, fun hnone => ?_, hpend,
      fun hb => by rw [htr.shape, htr.layout]; exact hat.whole (htr.base ▸ hb),
      fun hty => by rw [htr.layout]; exact hat.plain hty⟩
    · exact ⟨(hat.sources tree (hsame tree htree) b hb).1, (h.needs ht').2 tree htree b hb⟩
    · obtain ⟨hlt, tb, htb, hnone, hdev⟩ := hat.base b (htr.base ▸ hb)
      obtain ⟨tb', htb'⟩ := (h.needs ht').1 b hb
      obtain ⟨tb0, htb0, htrb⟩ := hback htb'
      cases htb.symm.trans htb0
      exact ⟨hlt, tb', htb', htrb.base.trans hnone, by rw [htrb.device, htr.device, hdev]⟩
    · obtain heq | ⟨_, hr⟩ := hop
      · exact h.realized ⟨t', ht'⟩ (hat.dropped (heq ▸ hnone))
      · exact hr
  · obtain ⟨t, ht, htr, hop, _⟩ := h.back ht'
    have hkeyed := hg.keyed (h.cache _ hk) ht
    refine ⟨hkeyed.made.trim htr fun _ => hback, htr.kind.trans hkeyed.kind, hkeyed.sources,
      fun tree htree => hkeyed.op tree ?_⟩
    obtain heq | ⟨hnone, _⟩ := hop
    · exact heq ▸ htree
    · rw [hnone] at htree
      cases htree

section
variable (hg : R.Sound g) (ht : g'.tensors = g.tensors) (hc : g'.cache = g.cache)
include hg ht hc

lemma Sound.trims_same : g.Trims g' := by
  have hfind : ∀ id, g'.find? id = g.find? id := fun id => by rw [Graph.find?, Graph.find?, ht]
  have hreal : ∀ id r, g.isRealized id = .ok r → g'.isRealized id = .ok r := by
    intro id r hr
    rw [isRealized_eq_ok] at hr ⊢
    simpa only [hfind] using hr
  have hhas : ∀ {id}, g.Has id → g'.Has id := by
    rintro id ⟨t, ht⟩
    exact ⟨t, (hfind id).trans ht⟩
  refine ⟨by rw [ht], fun {id t'} ht' => ?_, fun {id t'} ht' => ?_, fun {id t t'} ht ht' => ?_,
    fun _ hr => hreal _ _ hr, fun e he => hc ▸ he⟩
  · rw [hfind] at ht'
    exact ⟨t', ht', .refl t', .inl rfl, (hg.at_id ht').pending⟩
  · rw [hfind] at ht'
    refine ⟨fun b hb => ?_, fun tree htree b hb => ?_⟩
    · exact hhas (hg.has_base ht' hb)
    · exact hhas ((hg.at_id ht').sources tree htree b hb).2
  · rw [hfind, ht] at ht'
    cases ht'
    refine ⟨fun c hc => ⟨hc, hhas (hg.linked.children ht c hc)⟩, fun v =>
      ⟨fun hv => ⟨hv, ?_⟩, And.left⟩⟩
    obtain ⟨tv, htv, _⟩ := hg.linked.views ht v hv
    exact hhas ⟨tv, htv⟩

lemma Sound.same : R.Sound g' := hg.trim (hg.trims_same ht hc)

end

def forget (views : List Nat) (e : Option Tensor × Nat) : Option Tensor :=
  if views.contains e.2 then e.1.map (fun t => { t with op := none }) else e.1

def fill (g : Graph) (x : Nat) (t : Tensor) (raw : Buffer) : Graph :=
  let filled : Tensor := { t with op := none, realized := some raw }
  { g with tensors := (g.tensors.set x (some filled)).zipIdx.map (forget t.views) }

lemma dropOps_eq (ht : g.find? x = some t) :
    ({ g with tensors := g.tensors.set x (some { t with realized := some raw }) } : Graph).dropOps x
      = .ok (fill g x t raw) := by
  have hlt := lt_of_find? ht
  have hfind (t' : Tensor) : ({ g with tensors := g.tensors.set x (some t') } : Graph).find? x
      = some t' := by rw [find?_set hlt, if_pos rfl]
  refine bind_eq_ok.2 ⟨_, update_eq_ok.2 ⟨_, hfind _, rfl⟩, ?_⟩
  rw [set_set]
  refine bind_eq_ok.2 ⟨_, tensor_eq_ok.2 (hfind _), ?_⟩
  rfl

lemma find?_fill (ht : g.find? x = some t) :
    (fill g x t raw).find? id = ((if id = x then some { t with op := none, realized := some raw }
      else g.find? id).bind fun t' => forget t.views (some t', id)) := by
  refine (find?_zipIdx (g := { g with tensors := g.tensors.set x _ })
    (fun id => by simp [forget])).trans ?_
  rw [find?_set (lt_of_find? ht)]

lemma find?_fill_back (ht : g.find? x = some t) (h : (fill g x t raw).find? id = some t') :
    ∃ t0, g.find? id = some t0 ∧ t0.Trimmed t' ∧
      t'.children = t0.children ∧ t'.views = t0.views ∧
      t'.realized = (if id = x then some raw else t0.realized) ∧
      (t'.op = t0.op ∧ id ≠ x ∨ t'.op = none ∧ (id = x ∨ id ∈ t.views)) := by
  rw [find?_fill ht] at h
  obtain ⟨t1, ht1, h⟩ := bind_eq_some_iff.1 h
  by_cases hx : id = x
  · subst hx
    rw [if_pos rfl] at ht1
    cases ht1
    refine ⟨t, ht, ?_⟩
    unfold forget at h
    split at h <;> cases h <;>
      exact ⟨⟨rfl, rfl, rfl, rfl⟩, rfl, rfl, by simp, .inr ⟨rfl, .inl rfl⟩⟩
  · rw [if_neg hx] at ht1
    refine ⟨t1, ht1, ?_⟩
    unfold forget at h
    split at h
    · rename_i hv
      cases h
      exact ⟨⟨rfl, rfl, rfl, rfl⟩, rfl, rfl, by simp [hx],
        .inr ⟨rfl, .inr (by simpa using hv)⟩⟩
    · cases h
      exact ⟨.refl _, rfl, rfl, by simp [hx], .inl ⟨rfl, hx⟩⟩

lemma has_fill (raw : Buffer) (ht : g.find? x = some t) (h : g.Has id) :
    (fill g x t raw).Has id := by
  obtain ⟨t0, ht0⟩ := h
  unfold Has
  rw [find?_fill ht]
  by_cases hx : id = x
  · rw [if_pos hx]
    unfold forget
    dsimp only [bind_some]
    split <;> exact ⟨_, rfl⟩
  · rw [if_neg hx, ht0]
    unfold forget
    dsimp only [bind_some]
    split <;> exact ⟨_, rfl⟩

lemma Sound.trims_fill (hg : R.Sound g) (ht : g.find? x = some t) (hb : t.base = none) :
    g.Trims (fill g x t raw) := by
  have hreal : ∀ {id t0}, g.find? id = some t0 → t0.base.getD id = x ∨
      g.isRealized id = .ok true →
      (fill g x t raw).isRealized id = .ok true := by
    intro id t0 ht0 hr
    obtain ⟨t', ht'⟩ := has_fill raw ht ⟨t0, ht0⟩
    obtain ⟨t1, ht1, htr, _⟩ := find?_fill_back ht ht'
    cases ht0.symm.trans ht1
    obtain ⟨tb0, htb0, _⟩ := hg.base ht0
    obtain ⟨tb', htb'⟩ := has_fill raw ht ⟨tb0, htb0⟩
    refine isRealized_eq_ok.2 ⟨t', tb', ht', by rw [htr.base]; exact htb', ?_⟩
    obtain ⟨tb, htb, _, _, _, hrb, _⟩ := find?_fill_back ht htb'
    rw [hrb]
    split
    · rfl
    · rename_i hne
      obtain hx | hr := hr
      · exact (hne hx).elim
      · obtain ⟨t2, tb2, ht2, htb2, hr⟩ := isRealized_eq_ok.1 hr
        cases ht0.symm.trans ht2
        cases htb.symm.trans htb2
        exact hr
  refine ⟨by simp [fill], fun {id t'} ht' => ?_, fun {id t'} ht' =>
    ?_, fun {id t0 t'} ht0 ht' => ?_,
    fun {id} hid hr => ?_, fun e he => he⟩
  · obtain ⟨t0, ht0, htr, _, _, hrb, hop⟩ := find?_fill_back ht ht'
    refine ⟨t0, ht0, htr, ?_, fun hsome => ?_⟩
    · obtain ⟨hop, _⟩ | ⟨hop, rfl | hv⟩ := hop
      · exact .inl hop
      · cases ht.symm.trans ht0
        exact .inr ⟨hop, hreal ht0 (.inl (by rw [hb]; rfl))⟩
      · obtain ⟨tv, htv, hbase⟩ := hg.linked.views ht id hv
        cases ht0.symm.trans htv
        exact .inr ⟨hop, hreal ht0 (.inl (by rw [hbase]; rfl))⟩
    · obtain ⟨hop, hne⟩ | ⟨hop, _⟩ := hop
      · rw [hrb, if_neg hne]
        exact (hg.at_id ht0).pending (hop ▸ hsome)
      · rw [hop] at hsome
        cases hsome
  · obtain ⟨t0, ht0, htr, _, _, _, hop⟩ := find?_fill_back ht ht'
    refine ⟨fun b hb => ?_, fun tree htree b hb => ?_⟩
    · exact has_fill raw ht (hg.has_base ht0 (htr.base ▸ hb))
    · obtain ⟨hop, _⟩ | ⟨hop, _⟩ := hop
      · exact has_fill raw ht ((hg.at_id ht0).sources tree (hop ▸ htree) b hb).2
      · rw [hop] at htree
        cases htree
  · obtain ⟨t1, ht1, _, hchildren, hviews, _⟩ := find?_fill_back ht ht'
    cases ht0.symm.trans ht1
    rw [hchildren, hviews]
    refine ⟨fun c hc => ⟨hc, has_fill raw ht (hg.linked.children ht0 c hc)⟩,
      fun v => ⟨fun hv => ⟨hv, ?_⟩, And.left⟩⟩
    obtain ⟨tv, htv, _⟩ := hg.linked.views ht0 v hv
    exact has_fill raw ht ⟨tv, htv⟩
  · obtain ⟨t', ht'⟩ := hid
    obtain ⟨t0, ht0, _⟩ := find?_fill_back ht ht'
    exact hreal ht0 (.inr hr)

lemma Sound.needs_has {b : Nat} (hg : R.Sound g) (h : b ∈ g.needs id) : g.Has b := by
  unfold needs at h
  split at h
  · cases h
  · rename_i t ht
    obtain hb | hb := mem_append.1 h
    · exact hg.has_base ht (by simpa using hb)
    · cases hop : t.op with
      | none => simp [hop] at hb
      | some tree =>
        rw [hop] at hb
        exact ((hg.at_id ht).sources tree hop b hb).2

def missing (g : Graph) (ids : List Nat) : Finset Nat :=
  (Finset.range g.tensors.length).filter (fun id => id ∉ ids)

lemma reach_subset (g : Graph) (n : Nat) (ids : List Nat) :
    ∀ id ∈ ids, id ∈ g.reach n ids := by
  induction n generalizing ids with
  | zero => exact fun id h => h
  | succ n ih =>
    intro id h
    rw [reach]
    split
    · exact h
    · exact ih _ id (mem_append_left _ h)

lemma Sound.reach_closed (hg : R.Sound g) {n : Nat} {ids : List Nat}
    (hn : (missing g ids).card ≤ n) :
    ∀ id ∈ g.reach n ids, ∀ b ∈ g.needs id, b ∈ g.reach n ids := by
  have hlt : ∀ {id b}, b ∈ g.needs id → b ∈ Finset.range g.tensors.length := by
    intro id b hb
    obtain ⟨tb, htb⟩ := hg.needs_has hb
    exact Finset.mem_range.2 (lt_of_find? htb)
  induction n generalizing ids with
  | zero =>
    intro id _ b hb
    have hnone : missing g ids = ∅ := card_eq_zero.1 (by omega)
    by_contra hno
    have hmem : b ∈ missing g ids := Finset.mem_filter.2 ⟨hlt hb, hno⟩
    rw [hnone] at hmem
    cases hmem
  | succ n ih =>
    rw [reach]
    split
    · rename_i hempty
      intro id hid b hb
      by_contra hno
      have hmem : b ∈ (ids.flatMap g.needs).filter (fun id => !ids.contains id) :=
        mem_filter.2 ⟨mem_flatMap.2 ⟨id, hid, hb⟩, by simpa using hno⟩
      rw [isEmpty_iff.1 hempty] at hmem
      cases hmem
    · rename_i hfound
      obtain ⟨b, hb⟩ := exists_mem_of_ne_nil _ (fun h => hfound (isEmpty_iff.2 h))
      obtain ⟨hneed, hnew⟩ := mem_filter.1 hb
      obtain ⟨id, _, hneed⟩ := mem_flatMap.1 hneed
      -- what was found is not missing any more
      have hless : (missing g (ids ++ ((ids.flatMap g.needs).filter
          (fun id => !ids.contains id)).eraseDups)).card < (missing g ids).card := by
        refine card_lt_card (Finset.ssubset_iff_subset_ne.2 ⟨fun c hc => ?_, fun heq => ?_⟩)
        · obtain ⟨hr, hc⟩ := Finset.mem_filter.1 hc
          exact Finset.mem_filter.2 ⟨hr, fun h => hc (mem_append_left _ h)⟩
        · have hmem : b ∈ missing g ids :=
            Finset.mem_filter.2 ⟨hlt hneed, by simpa using hnew⟩
          rw [← heq] at hmem
          exact (Finset.mem_filter.1 hmem).2 (mem_append_right _ (mem_eraseDups.2 hb))
      exact ih (by omega)

lemma Sound.live_closed (hg : R.Sound g) (roots : List Nat) :
    ∀ id ∈ g.live roots, ∀ b ∈ g.needs id, b ∈ g.live roots := by
  refine hg.reach_closed ?_
  calc (missing g _).card ≤ (Finset.range g.tensors.length).card := card_filter_le _ _
    _ = g.tensors.length := card_range _

lemma find?_collect : (g.collect roots).1.find? id
    = if (g.live roots).contains id then (g.find? id).map (keepLinks (g.live roots)) else none := by
  refine (find?_zipIdx (g := g) (fun id => ?_)).trans ?_
  · dsimp only
    split <;> rfl
  · dsimp only
    split
    · rw [map_eq_bind]
      rfl
    · cases g.find? id <;> rfl

lemma has_collect : (g.collect roots).1.Has id ↔ g.Has id ∧ id ∈ g.live roots := by
  unfold Has
  rw [find?_collect]
  by_cases hid : id ∈ g.live roots <;> simp [hid]

lemma Sound.trims_collect (hg : R.Sound g) (roots : List Nat) : g.Trims (g.collect roots).1 := by
  have hlive : ∀ {id t0}, g.find? id = some t0 → id ∈ g.live roots → ∀ b ∈ g.needs id,
      (g.collect roots).1.Has b := by
    intro id t0 _ hid b hb
    obtain ⟨tb, htb⟩ := hg.needs_has hb
    refine ⟨keepLinks (g.live roots) tb, ?_⟩
    rw [find?_collect, if_pos (by simpa using hg.live_closed roots id hid b hb), htb]
    rfl
  have hback : ∀ {id t'}, (g.collect roots).1.find? id = some t' →
      ∃ t0, g.find? id = some t0 ∧
      id ∈ g.live roots ∧ t' = keepLinks (g.live roots) t0 := by
    intro id t' ht'
    rw [find?_collect] at ht'
    split at ht'
    · rename_i hmem
      obtain ⟨t0, ht0, rfl⟩ := map_eq_some_iff.1 ht'
      exact ⟨t0, ht0, by simpa using hmem, rfl⟩
    · cases ht'
  refine ⟨by simp [collect], fun {id t'} ht' => ?_, fun {id t'} ht' => ?_,
    fun {id t t'} ht ht' => ?_, fun {id} hid hr => ?_, fun e he => (mem_filter.1 he).1⟩
  · obtain ⟨t0, ht0, _, rfl⟩ := hback ht'
    exact ⟨t0, ht0, ⟨rfl, rfl, rfl, rfl⟩, .inl rfl, (hg.at_id ht0).pending⟩
  · obtain ⟨t0, ht0, hmem, rfl⟩ := hback ht'
    refine ⟨fun b hb => hlive ht0 hmem b ?_, fun tree htree b hb => hlive ht0 hmem b ?_⟩
    · have hb : t0.base = some b := hb
      simp [needs, ht0, hb]
    · have htree : t0.op = some tree := htree
      simp [needs, ht0, htree, hb]
  · obtain ⟨t0, ht0, _, rfl⟩ := hback ht'
    cases ht.symm.trans ht0
    refine ⟨fun c hc => ?_, fun v => ?_⟩
    · obtain ⟨hc, hlive⟩ := mem_filter.1 hc
      exact ⟨hc, has_collect.2 ⟨hg.linked.children ht c hc, by simpa using hlive⟩⟩
    · rw [keepLinks, mem_filter, has_collect, contains_iff_mem]
      refine and_congr_right fun hv => ⟨fun hlive => ⟨?_, hlive⟩, And.right⟩
      obtain ⟨tv, htv, _⟩ := hg.linked.views ht v hv
      exact ⟨tv, htv⟩
  · obtain ⟨t', ht'⟩ := hid
    obtain ⟨t0, ht0, hmem, rfl⟩ := hback ht'
    obtain ⟨t1, tb, ht1, htb, hr⟩ := isRealized_eq_ok.1 hr
    cases ht0.symm.trans ht1
    have hbase : t0.base.getD id ∈ g.live roots := by
      cases hb : t0.base with
      | none => exact hmem
      | some b => exact hg.live_closed roots id hmem b (by simp [needs, ht0, hb])
    refine isRealized_eq_ok.2 ⟨_, keepLinks (g.live roots) tb, ht', ?_, hr⟩
    change (g.collect roots).1.find? (t0.base.getD id) = _
    rw [find?_collect, if_pos (by simpa using hbase), htb]
    rfl

end Reading

end LazyTensor
