import LazyTensor.Proofs.Graph.Reachable
import Mathlib.Data.Set.Card
import Mathlib.Logic.Relation

/-! Graphs stay well-formed through all requests, and dropping tensors keeps exactly what the roots
need. -/
namespace LazyTensor
open Checked GraphM Reading List Option LazyTensor.Graph Finset

namespace Graph
variable {g g' g'' : Graph} {id a b : Nat} {t : Tensor}

/-- The first tensor is based on the second, or its operation reads it. -/
def Edge (g : Graph) (a b : Nat) : Prop :=
  ∃ t, g.find? a = some t ∧
    (t.base = some b ∨ ∃ tree, t.op = some tree ∧ b ∈ tree.buffers)

lemma mem_needs : b ∈ g.needs a ↔ g.Edge a b := by
  unfold needs Edge
  cases g.find? a with
  | none => simp
  | some t =>
    obtain ⟨_, _, _, op, _⟩ := t
    cases op <;> simp

/-- Everything that a tensor refers to is there. -/
structure WellFormed (g : Graph) : Prop where
  edges : ∀ {a b}, g.Edge a b → g.Has b
  children : ∀ {id t}, g.find? id = some t → ∀ c ∈ t.children, g.Has c
  views : ∀ {id t}, g.find? id = some t → ∀ v ∈ t.views, g.Has v
  whole : ∀ {id t}, g.find? id = some t → t.base = none → t.layout.contiguous = true
  movement : ∀ {id t}, g.find? id = some t → t.kind = .movement →
    ∃ b tb, t.base = some b ∧
    g.find? b = some tb ∧ tb.kind ≠ .movement ∧ tb.base = none ∧ id ∈ tb.views

lemma size_eq (g : Graph) : g.size = { id | g.Has id }.ncard := by
  have hcount : ∀ l : List (Option Tensor), l.countP isSome =
      ((Finset.range l.length).filter fun i => (l[i]?).join.isSome).card := by
    intro l
    induction l using reverseRecOn with
    | nil => rfl
    | append_singleton l o ih =>
      have hsame : (Finset.range l.length).filter (fun i => ((l ++ [o])[i]?).join.isSome) =
          (Finset.range l.length).filter fun i => (l[i]?).join.isSome := by
        refine Finset.filter_congr fun i hi => ?_
        rw [getElem?_append_left (Finset.mem_range.1 hi)]
      rw [countP_append, ih, length_append, length_singleton, range_add_one, filter_insert, hsame]
      cases o <;> simp
  rw [size, hcount, ← Set.ncard_coe_finset]
  congr 1
  ext id
  simp only [coe_filter, Finset.mem_range, Set.mem_ofPred_eq]
  refine ⟨fun h => isSome_iff_exists.1 h.2, fun ⟨t, ht⟩ => ⟨lt_of_find? ht, ?_⟩⟩
  exact isSome_iff_exists.2 ⟨t, ht⟩

lemma finite_has (g : Graph) : { id | g.Has id }.Finite :=
  (Finset.range g.tensors.length).finite_toSet.subset fun _ ⟨_, ht⟩ =>
    mem_coe.2 (Finset.mem_range.2 (lt_of_find? ht))

lemma path_of_reach {n : Nat} {ids : List Nat} (h : id ∈ g.reach n ids) :
    ∃ r ∈ ids, Relation.ReflTransGen g.Edge r id := by
  induction n generalizing ids with
  | zero => exact ⟨id, h, .refl⟩
  | succ n ih =>
    rw [reach] at h
    split at h
    · exact ⟨id, h, .refl⟩
    · obtain ⟨r, hr, hpath⟩ := ih h
      obtain hr | hr := mem_append.1 hr
      · exact ⟨r, hr, hpath⟩
      · obtain ⟨hr, _⟩ := mem_filter.1 (mem_eraseDups.1 hr)
        obtain ⟨a, ha, hr⟩ := mem_flatMap.1 hr
        exact ⟨a, ha, .head (mem_needs.1 hr) hpath⟩

end Graph

namespace Reading
variable {R : Reading} {g : Graph} {id : Nat} {roots : List Nat}

/-- The live tensors are those that the roots need, directly or through others. -/
lemma Sound.mem_live (hg : R.Sound g) :
    id ∈ g.live roots ↔ ∃ r ∈ roots, g.Has r ∧ Relation.ReflTransGen g.Edge r id := by
  constructor
  · intro h
    obtain ⟨r, hr, hpath⟩ := path_of_reach h
    obtain ⟨hr, hlive⟩ := mem_filter.1 hr
    exact ⟨r, hr, isSome_iff_exists.1 hlive, hpath⟩
  · rintro ⟨r, hr, ⟨t, ht⟩, hpath⟩
    induction hpath with
    | refl => exact reach_subset g _ _ r (mem_filter.2 ⟨hr, by rw [ht]; rfl⟩)
    | tail _ hedge ih => exact hg.live_closed roots _ ih _ (mem_needs.2 hedge)

lemma Sound.wellFormed (hg : R.Sound g) : g.WellFormed where
  edges h := hg.needs_has (mem_needs.2 h)
  children := hg.linked.children
  views ht v hv := by
    obtain ⟨tv, htv, _⟩ := hg.linked.views ht v hv
    exact ⟨tv, htv⟩
  whole ht hb := Layout.ofShape_contiguous ((hg.at_id ht).whole hb)
  movement {id t} ht hm := by
    obtain ⟨b, hb⟩ := isSome_iff_exists.1 ((hg.at_id ht).movement.1 hm)
    obtain ⟨_, tb, htb, hnone, _⟩ := (hg.at_id ht).base b hb
    obtain ⟨tb', htb', hmem⟩ := hg.linked.listed ht hb
    cases htb.symm.trans htb'
    refine ⟨b, tb, hb, htb, fun hkind => ?_, hnone, hmem⟩
    simpa [hnone] using (hg.at_id htb).movement.1 hkind

lemma collect_count (g : Graph) (roots : List Nat) :
    (g.collect roots).2 = { id | g.Has id ∧ ¬(g.collect roots).1.Has id }.ncard := by
  have hsub : { id | (g.collect roots).1.Has id } ⊆ { id | g.Has id } :=
    fun _ h => (has_collect.1 h).1
  rw [show { id | g.Has id ∧ ¬(g.collect roots).1.Has id } =
      { id | g.Has id } \ { id | (g.collect roots).1.Has id } from rfl,
    Set.ncard_sdiff hsub (finite_has _), ← size_eq, ← size_eq]
  rfl

end Reading

/-- The second graph comes from the first by requests, and by what may happen between them. -/
inductive Later : Graph → Graph → Prop
  | now (g : Graph) : Later g g
  | request {g g' : Graph} (h : Later g g') (r : Request) : Later g (r.perform.runOn g').2
  | collect {g g' : Graph} (h : Later g g') (roots : List Nat) : Later g (g'.collect roots).1
  | surroundings {g g' : Graph} (h : Later g g') (devices : List Device) (stats : Stats)
      (memory : Memory) : Later g { g' with devices, stats, memory }

lemma Later.ages {g g' : Graph} (h : Later g g') (hg : Reachable g) :
    Reachable g' ∧ g.Ages g' := by
  induction h with
  | now => exact ⟨hg, .refl _⟩
  | request _ r ih =>
    exact ⟨ih.1.request r, ih.2.trans
      (request_stays depth_lasting ih.1.sound r (fun hty => hty.elim) fun hty => hty.elim).ages⟩
  | collect _ roots ih =>
    exact ⟨ih.1.collect roots, ih.2.trans (ih.1.sound.trims_collect roots).ages⟩
  | surroundings _ devices stats memory ih =>
    exact ⟨ih.1.surroundings devices stats memory, ih.2.trans ⟨le_rfl, fun _ h => h⟩⟩

lemma Graph.Dropped.named {g : Graph} {id : Nat} (h : g.Dropped id) :
    g.named id = fail (.missingBuffer id) := by
  rw [Graph.named, h.2]

/-- Every graph that requests lead to is well-formed. Collecting it keeps exactly what the roots
need, tells how many tensors it dropped, and an id that was dropped is missing ever after. -/
theorem reachable_wellFormed {g : Graph} (hg : Reachable g) : g.WellFormed ∧ ∀ roots,
    (∀ id, (g.collect roots).1.Has id ↔ ∃ r ∈ roots, g.Has r ∧
      Relation.ReflTransGen g.Edge r id) ∧
    (∀ id t, g.find? id = some t → (g.collect roots).1.Has id →
      ∃ t', (g.collect roots).1.find? id = some t' ∧ t.Alike t') ∧
    (g.collect roots).2 = { id | g.Has id ∧ ¬(g.collect roots).1.Has id }.ncard ∧
    ∀ id, g.Has id → ¬(g.collect roots).1.Has id → ∀ g', Later (g.collect roots).1 g' →
      g'.named id = fail (.missingBuffer id) := by
  have hs := hg.sound
  refine ⟨hs.wellFormed, fun roots =>
    ⟨fun id => ?_, fun id t ht hkept => ?_, collect_count g roots,
    fun id hid hgone g' hlater => ?_⟩⟩
  · rw [has_collect, hs.mem_live]
    refine ⟨And.right, fun h => ⟨?_, h⟩⟩
    obtain ⟨r, _, hr, hpath⟩ := h
    cases hpath with
    | refl => exact hr
    | tail _ hedge => exact hs.wellFormed.edges hedge
  · refine ⟨Graph.keepLinks (g.live roots) t, ?_, ⟨rfl, rfl, rfl, rfl, rfl, rfl⟩⟩
    rw [find?_collect, if_pos (by simpa using (has_collect.1 hkept).2), ht]
    rfl
  · obtain ⟨t, ht⟩ := hid
    have hdropped : (g.collect roots).1.Dropped id :=
      ⟨by rw [(hs.trims_collect roots).length]; exact Graph.lt_of_find? ht,
        Option.eq_none_iff_forall_not_mem.2 fun t' ht' => hgone ⟨t', ht'⟩⟩
    exact ((hlater.ages (hg.collect roots)).2.dropped hdropped).named

def strays : Graph :=
  [.load .empty [.num 4] .float32 "CPU" .none none [],
   .load .empty [.num 2] .float32 "CPU" .none none [],
   .call (.elementwise (.unary .neg) [0] .none),
   .call (.move (.reshape [.num 2, .num 2]) 0)].foldl
    (fun g (r : Request) => (r.perform.runOn g).2) {}

theorem strays_collected : (strays.collect [3]).1.tensors.map Option.isSome =
    [true, false, false, true] ∧
    (strays.collect [3]).2 = 2 ∧ strays.WellFormed ∧
    ∀ g', Later (strays.collect [3]).1 g' → g'.named 1 = fail (.missingBuffer 1) := by
  have hreach : Reachable strays :=
    ((((Reachable.start _).request _).request _).request _).request _
  obtain ⟨hwell, h⟩ := reachable_wellFormed hreach
  have hkept : (strays.collect [3]).1.tensors.map Option.isSome = [true, false, false, true] := by
    decide +kernel
  have hgone : ((strays.collect [3]).1.find? 1).isSome = false := by decide +kernel
  refine ⟨hkept, by decide +kernel, hwell, (h [3]).2.2.2 1 ?_ ?_⟩
  · exact Option.isSome_iff_exists.1 (by decide +kernel)
  · rintro ⟨t, ht⟩
    rw [ht] at hgone
    cases hgone

end LazyTensor
