import LazyTensor.Proofs.SymInt.Flat
import LazyTensor.Proofs.SymInt.Key

/-! Linear arithmetic keeps the meaning. -/
namespace LazyTensor.SymInt
open List
variable {e a r t b : SymInt} {x n c y : Int} {scope : Variable → Prop}
  {es : List SymInt} {α : Type}
variable {xs : List α} {g : α → Int}

open Checked

/-- The index is built over the scope of the assignment and stands for `x`. -/
structure Means (A : Assignment) (e : SymInt) (x : Int) : Prop where
  regular : e.Regular A.scope
  value : e.value A.value = x

variable {A : Assignment}

lemma Regular.means (h : e.Regular A.scope) : Means A e (e.value A.value) := ⟨h, rfl⟩

lemma Means.between (h : Means A e x) : e.lo ≤ x ∧ x ≤ e.hi :=
  h.value ▸ h.regular.value_between

lemma means_num (h : Fits n) : Means A (num n) n := ⟨.num h, value_num _ n⟩

lemma Regular.lo_lt_hi_of_atom (h : e.Regular scope) (ha : e.isAtom = true) : e.lo < e.hi := by
  cases h with
  | var _ hl _ => simpa using hl
  | div _ _ _ _ hr => exact hr
  | mod _ _ hc _ _ => exact lo_lt_hi_mod hc
  | num _ | mul _ _ _ _ _ _ _ | sum _ _ _ _ _ _ => simp [isAtom] at ha

lemma atomic_of_isAtom (h : a.isAtom = true) : a.Atomic := by
  cases a with
  | var _ | div _ _ | mod _ _ | lt _ _ | conj _ => trivial
  | num _ | mul _ _ | sum _ => cases h

def IndexAtom (scope : Variable → Prop) (a : SymInt) : Prop := a.Regular scope ∧ a.isAtom = true

lemma kind_index (scope : Variable → Prop) : Kind (IndexAtom scope) Fits :=
  ⟨fun h => atomic_of_isAtom h.2, fun h => h.1.lo_lt_hi_of_atom h.2, id⟩

lemma Regular.multiple (h : t.Regular scope) (hs : t.isSum = false) (hn : t.isNum = false) :
    Multiple (IndexAtom scope) Fits t := by
  cases h with
  | num _ => cases hn
  | sum _ _ _ _ _ _ => cases hs
  | mul hr ha h0 h1 hc hl hh => exact .mul ⟨hr, ha⟩ h0 h1 hc hl hh
  | var hp hl hv => exact .one ⟨.var hp hl hv, rfl⟩
  | div hr h0 hc hf hl => exact .one ⟨.div hr h0 hc hf hl, rfl⟩
  | mod hr h0 hc hf hl => exact .one ⟨.mod hr h0 hc hf hl, rfl⟩

lemma Multiple.regular (h : Multiple (IndexAtom scope) Fits t) : t.Regular scope := by
  cases h with
  | one ha => exact ha.1
  | mul ha h0 h1 hc hl hh => exact .mul ha.1 ha.2 h0 h1 hc hl hh

lemma Flat.regular (h : Flat (IndexAtom scope) Fits e) : e.Regular scope := by
  cases h with
  | num hn => exact .num hn
  | term ht => exact ht.regular
  | sum hts hd hk h2 hl hh =>
    refine .sum (fun p hp => ?_) (fun p hp => ?_) h2 ?_ hl hh
    · obtain hp | rfl := mem_withConstant hp
      · exact (hts p hp).regular
      · exact .num hk
    · obtain hp | rfl := mem_withConstant hp
      · exact ((hts p hp).flat (kind_index scope)).1
      · rfl
    · rwa [(withConstant_split (fun t ht => ((hts t ht).flat (kind_index scope)).2) _).1]

lemma Regular.mem_terms (h : e.Regular scope) (ht : t ∈ e.terms) : t.Regular scope := by
  obtain hs | ⟨ps, rfl⟩ := e.isSum_or
  · rw [terms_of_not_sum hs, mem_singleton] at ht
    exact ht ▸ h
  · cases h with
    | sum hps hns _ _ _ _ =>
      rw [terms_sum hns] at ht
      exact hps t ht

lemma Regular.terms (h : e.Regular A.scope) :
    (∀ t ∈ e.terms, t.Regular A.scope ∧ t.isSum = false) ∧
      (e.terms.map (SymInt.value A.value)).sum = e.value A.value :=
  ⟨fun t ht => ⟨h.mem_terms ht, isSum_terms e t ht⟩, sum_terms (value_sum _) e⟩

lemma Regular.loose (h : e.Regular scope) : Loose (IndexAtom scope) Fits e := by
  intro t ht
  obtain ⟨ht, hn⟩ := mem_filter.1 ht
  exact (h.mem_terms ht).multiple (isSum_terms e t ht) (by simpa using hn)

lemma agree_atoms (ha : IndexAtom scope a) (hb : IndexAtom scope b) (h : a.key = b.key) :
    Agree a b :=
  agree_of_beq ha.1.readable hb.1.readable (decide_eq_true h)

lemma respects_value : ByKey (IndexAtom A.scope) (value A.value) :=
  fun ha hb h => (agree_atoms ha hb h).value A.value

lemma total_means (h : ∀ e ∈ es, e.Regular A.scope) (hr : total es = .ok r) :
    Means A r (es.map (value A.value)).sum := by
  have hloose : ∀ e ∈ es, Loose (IndexAtom A.scope) Fits e := fun e he => (h e he).loose
  refine ⟨(total_flat (kind_index _) hloose hr).1.elim (h r) Flat.regular, ?_⟩
  rw [← gauge_value, total_gauge_of (kind_index _) respects_value hloose hr]
  exact congrArg List.sum (List.map_congr_left fun e _ => gauge_value _ e)

lemma means_all (h : List.Forall₂ (fun x e => Means A e (g x)) xs es) :
    (∀ e ∈ es, e.Regular A.scope) ∧ (es.map (value A.value)).sum = (xs.map g).sum := by
  induction h with
  | nil => simp
  | cons he _ ih =>
    exact ⟨forall_mem_cons.mpr ⟨he.regular, ih.1⟩, by
      rw [map_cons, map_cons, sum_cons, sum_cons, he.value, ih.2]⟩

lemma plus_means (ha : Means A a x) (hb : Means A b y) (h : a.plus b = .ok r) :
    Means A r (x + y) := by
  have hm := total_means (A := A) (by simp [ha.regular, hb.regular]) h
  simpa [ha.value, hb.value] using hm

lemma plusInt_means (ha : Means A a x) (hn : Fits n) (h : a.plusInt n = .ok r) :
    Means A r (x + n) := plus_means ha (means_num hn) h

/-! Multiples. -/

lemma times_eq_scale (h : a.isAtom = true) : a.times c = scale a c :=
  times_atomic (atomic_of_isAtom h)

lemma times_means (he : Means A e x) (hc : Fits c) (h : e.times c = .ok r) : Means A r (x * c) := by
  obtain ⟨hshape, _, hgauge⟩ := times_multiplies (kind_index _) e he.regular.loose hc h
  refine ⟨?_, ?_⟩
  · obtain ⟨_, rfl⟩ | hflat := hshape
    · exact he.regular
    · exact hflat.regular
  · rw [← gauge_value, hgauge _ respects_value, gauge_value, he.value]

lemma negate_means (he : Means A e x) (h : e.negate = .ok r) : Means A r (-x) := by
  have hm := times_means he (by decide : Fits (-1)) h
  simpa using hm

lemma minus_means (ha : Means A a x) (hb : Means A b y) (h : a.minus b = .ok r) :
    Means A r (x - y) := by
  simp only [minus, bind_eq_ok] at h
  obtain ⟨n, hn, h⟩ := h
  have hm := plus_means ha (negate_means hb hn) h
  rwa [← sub_eq_add_neg] at hm

end LazyTensor.SymInt
