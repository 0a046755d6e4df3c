import Mathlib.Algebra.BigOperators.Group.Finset.Piecewise
import LazyTensor.Proofs.Layout.Movement

/-! The strides read off a composed index. They account for its linear terms, one for each
counter; quotients and remainders are left out. -/
namespace LazyTensor
open List Option Finset

open Checked SymInt

namespace Layout
variable {d e t : SymInt} {k : Nat} {p : List Int} {v : Variable} {scope : Variable → Prop}
  {found : List (Nat × Int)} {a : Access} {A : Assignment}
variable {shape : Shape} {idxs : List SymInt}

/-! Each axis has a counter of its own. -/

lemma Counts.eq_zero (h : Counts d e) (hn : e.var? = none) : e = num 0 := by
  obtain ⟨v, _, hlo, _, rfl⟩ := h
  unfold ofVariable at hn ⊢
  split at hn
  · rename_i hsame
    rw [if_pos hsame, hlo]
  · cases hn

lemma counter_name_inj {i j : Nat} (h : s!"idx{i}" = s!"idx{j}") : i = j := by
  have hl := congrArg String.toList h
  exact Text.toDigits_inj (by simpa using hl)

lemma distinct_of_mapM_counter (h : (shape.zipIdx k).mapM (fun (d, i) => do
      counter s!"idx{i}" 0 (max (← sub d.hi 1) 0)) = .ok idxs) :
    (idxs.filterMap var?).Nodup ∧ ∀ v ∈ idxs.filterMap var?, ∃ j, k ≤ j ∧
      v.name = s!"idx{j}" := by
  induction shape generalizing k idxs with
  | nil =>
    cases h
    simp
  | cons d ds ih =>
    rw [zipIdx_cons] at h
    simp only [mapM_cons, bind_eq_ok, pure_eq_ok, counter] at h
    obtain ⟨e, ⟨_, _, v, hv, rfl⟩, es, hes, rfl⟩ := h
    obtain ⟨hnodup, hnames⟩ := ih hes
    have hname : v.name = s!"idx{k}" := by
      unfold Variable.counter at hv
      split at hv
      · cases hv
        rfl
      · cases hv
    have hlater : ∀ u ∈ es.filterMap var?, ∃ j, k ≤ j ∧ u.name = s!"idx{j}" := by
      intro u hu
      obtain ⟨j, hj, hn⟩ := hnames u hu
      exact ⟨j, by omega, hn⟩
    unfold ofVariable
    split
    · rw [filterMap_cons_none (show (num v.lo).var? = none from rfl)]
      exact ⟨hnodup, hlater⟩
    · rw [filterMap_cons_some (show (var v).var? = some v from rfl)]
      refine ⟨nodup_cons.2 ⟨fun hmem => ?_, hnodup⟩, ?_⟩
      · obtain ⟨j, hj, hn⟩ := hnames v hmem
        have := counter_name_inj (hname.symm.trans hn)
        omega
      · exact forall_mem_cons.2 ⟨⟨k, le_rfl, hname⟩, hlater⟩

lemma counters_distinct (h : shape.counters = .ok idxs) : (idxs.filterMap var?).Nodup :=
  (distinct_of_mapM_counter h).1

def valueAt (idxs : List SymInt) (p : List Int) (v : Variable) : Int :=
  match idxs, p with
  | e :: idxs, i :: p => if e.var? = some v then i else valueAt idxs p v
  | _, _ => 0

def position (idxs : List SymInt) (p : List Int) : Assignment where
  scope v := var v ∈ idxs ∧ v.lo ≤ valueAt idxs p v ∧ valueAt idxs p v ≤ v.hi
  value := valueAt idxs p
  lo_le _ h := h.2.1
  le_hi _ h := h.2.2

lemma valueAt_get (hlen : idxs.length = p.length)
    (hn : (idxs.filterMap var?).Nodup) (h : idxs[k]? = some (var v)) :
    valueAt idxs p v = p.getD k 0 := by
  induction idxs generalizing p k with
  | nil => simp at h
  | cons e idxs ih =>
    cases p with
    | nil => cases hlen
    | cons i p =>
      have hlen : idxs.length = p.length := by simpa using hlen
      rw [valueAt]
      cases k with
      | zero =>
        simp only [getElem?_cons_zero, some.injEq] at h
        rw [if_pos (by rw [h]; rfl)]
        rfl
      | succ k =>
        rw [getElem?_cons_succ] at h
        have hmem : v ∈ idxs.filterMap var? := mem_filterMap.2 ⟨var v, mem_of_getElem? h, rfl⟩
        have hne : e.var? ≠ some v := by
          intro he
          rw [filterMap_cons_some he] at hn
          exact (nodup_cons.1 hn).1 hmem
        have htail : (idxs.filterMap var?).Nodup :=
          hn.sublist ((sublist_cons_self e idxs).filterMap var?)
        rw [if_neg hne, ih hlen htail h]
        rfl

lemma counters_at (hidxs : shape.counters = .ok idxs)
    (hp : Forall₂ (fun d i => 0 ≤ i ∧ i ≤ max (d.hi - 1) 0) shape p) :
    Forall₂ (Means (position idxs p)) idxs p := by
  have hc := counters_count hidxs
  have hlen : idxs.length = p.length := hc.length_eq.symm.trans hp.length_eq
  refine counters_mean hc hp (forall₂_iff_get.2 ⟨hlen, fun k h1 h2 v hv => ?_⟩)
  have hget : idxs[k]? = some (var v) := by
    rw [getElem?_eq_getElem h1]
    exact congrArg some hv
  have hval : valueAt idxs p v = p.get ⟨k, h2⟩ := by
    rw [valueAt_get hlen (counters_distinct hidxs) hget]
    simp [h2]
  have hk : k < shape.length := by rw [hc.length_eq]; exact h1
  obtain ⟨u, _, hlo, hhi, hu⟩ := hc.get hk h1
  have huv : u = v := ofVariable_eq_var (hu ▸ hv)
  subst huv
  have hb := hp.get hk h2
  refine ⟨⟨mem_of_getElem? hget, ?_, ?_⟩, hval⟩
  · rw [hval, hlo]
    exact hb.1
  · rw [hval, hhi]
    exact hb.2

/-! Terms that are multiples of a counter. -/

lemma eq_var_of_beq (he : Counts d e) (hv : v.Proper) (h : (e == var v) = true) : e = var v := by
  obtain ⟨u, hu, _, _, rfl⟩ := he
  unfold ofVariable at h ⊢
  split at h
  · have hagree := (agree_of_beq (.num _) (.var hv) h).value
    have h0 := hagree (fun _ => 0)
    have h1 := hagree (fun _ => 1)
    simp only [value] at h0 h1
    omega
  · rename_i hdiff
    rw [if_neg hdiff]
    have hagree := (agree_of_beq (.var hu) (.var hv) h).value (fun x => if x = u then 1 else 0)
    simp only [value] at hagree
    have huv : v = u := by
      by_contra hne
      simp [hne] at hagree
    rw [huv]

lemma findIdx_counter (hc : Forall₂ Counts shape idxs)
    (hv : v.Proper) (h : idxs.findIdx? (· == var v) = some k) : idxs[k]? = some (var v) := by
  obtain ⟨hk, heq, _⟩ := findIdx?_eq_some_iff_getElem.1 h
  have hks : k < shape.length := by rw [hc.length_eq]; exact hk
  rw [getElem?_eq_getElem hk]
  exact congrArg some (eq_var_of_beq (hc.get hks hk) hv heq)

def linear (t : SymInt) : Bool := t.atomCoeff.1.var?.isSome

lemma linear_term (ht : t.Regular scope) (h : linear t = true) :
    ∃ v, v.Proper ∧ scope v ∧ t.atomCoeff.1 = var v ∧ v ∈ t.occurrences ∧
      ∀ σ, t.value σ = σ v * t.atomCoeff.2 := by
  cases ht with
  | var hp _ hs =>
    exact ⟨_, hp, hs, rfl, by simp, fun σ => by simp [value, atomCoeff]⟩
  | mul ha _ _ _ _ _ _ =>
    cases ha with
    | var hp _ hs =>
      exact ⟨_, hp, hs, rfl, by simp, fun σ => by simp [value, atomCoeff]⟩
    | num _ | mul _ _ _ _ _ _ _ | div _ _ _ _ _ | mod _ _ _ _ _ | sum _ _ _ _ _ _ => cases h
  | num _ | div _ _ _ _ _ | mod _ _ _ _ _ | sum _ _ _ _ _ _ => cases h

section
variable (hidxs : shape.counters = .ok idxs)
include hidxs

lemma strideOf_linear (ht : t.Regular scope) (hs : ∀ v, scope v → var v ∈ idxs)
    (h : linear t = true) : ∃ k v, strideOf idxs t = some (k, t.atomCoeff.2) ∧
      idxs[k]? = some (var v) ∧
      ∀ σ, t.value σ = σ v * t.atomCoeff.2 := by
  obtain ⟨v, hp, hv, hatom, _, hval⟩ := linear_term ht h
  have hfind : (idxs.findIdx? (· == var v)).isSome = true := by
    rw [findIdx?_isSome, List.any_eq_true]
    exact ⟨var v, hs v hv, by simp [BEq.beq]⟩
  obtain ⟨k, hk⟩ := isSome_iff_exists.1 hfind
  refine ⟨k, v, ?_, findIdx_counter (counters_count hidxs) hp hk, hval⟩
  unfold strideOf
  dsimp only
  rw [hatom, hk]
  rfl

lemma found_sum (hlen : idxs.length = p.length) {ts : List SymInt}
    (hts : ∀ t ∈ ts, t.Regular (position idxs p).scope) :
    ((ts.filter linear).map (value (valueAt idxs p))).sum =
      ((ts.filterMap (strideOf idxs)).map (fun g => p.getD g.1 0 * g.2)).sum := by
  induction ts with
  | nil => rfl
  | cons t ts ih =>
    obtain ⟨ht, hts⟩ := List.forall_mem_cons.1 hts
    by_cases h : linear t = true
    · obtain ⟨k, v, hk, hget, hval⟩ := strideOf_linear hidxs ht (fun v hv => hv.1) h
      rw [List.filter_cons_of_pos h, filterMap_cons_some hk, List.map_cons, List.map_cons,
        List.sum_cons, List.sum_cons, ih hts, hval,
        valueAt_get hlen (counters_distinct hidxs) hget]
    · have hnone : strideOf idxs t = none := by
        exact if_neg h
      rw [List.filter_cons_of_neg h, filterMap_cons_none hnone, ih hts]

end

/-! Strides by axis. -/

def strideAt (found : List (Nat × Int)) (k : Nat) : Int :=
  ((found.reverse.find? (·.1 == k)).map (·.2)).getD 0

lemma strideAt_cons {g : Nat × Int} (hg : g.1 ∉ found.map Prod.fst) (k : Nat) :
    strideAt (g :: found) k = strideAt found k + if k = g.1 then g.2 else 0 := by
  unfold strideAt
  rw [reverse_cons, find?_append]
  cases hf : found.reverse.find? (·.1 == k) with
  | some x =>
    have hx : x.1 = k := by simpa using find?_some hf
    have hmem : x ∈ found := mem_reverse.1 (mem_of_find?_eq_some hf)
    have hne : k ≠ g.1 := by
      intro he
      exact hg (mem_map.2 ⟨x, hmem, hx.trans he⟩)
    simp [hne]
  | none =>
    by_cases he : k = g.1
    · simp [he]
    · have hne : (g.1 == k) = false := by simpa using fun h => he h.symm
      simp [hne, he]

lemma found_sum_axes (hn : (found.map Prod.fst).Nodup) (hk : ∀ g ∈ found, g.1 < p.length) :
    (found.map (fun g => p.getD g.1 0 * g.2)).sum =
      ∑ k ∈ Finset.range p.length, p.getD k 0 * strideAt found k := by
  induction found with
  | nil => simp [strideAt]
  | cons g found ih =>
    obtain ⟨hg, hfound⟩ := nodup_cons.1 hn
    obtain ⟨hlt, hks⟩ := List.forall_mem_cons.1 hk
    rw [List.map_cons, List.sum_cons, ih hfound hks]
    simp only [strideAt_cons hg, mul_add, sum_add_distrib, mul_ite, mul_zero,
      sum_ite_eq', Finset.mem_range, hlt, if_true]
    ring

lemma sum_zipWith_range (p strides : List Int) (h : p.length = strides.length) :
    (zipWith (· * ·) p strides).sum =
      ∑ k ∈ Finset.range p.length, p.getD k 0 * strides.getD k 0 := by
  induction p generalizing strides with
  | nil => simp
  | cons i p ih =>
    cases strides with
    | nil => cases h
    | cons st strides =>
      rw [zipWith_cons_cons, List.sum_cons, ih strides (by simpa using h), length_cons,
        Finset.sum_range_succ']
      simp [add_comm]

/-! The strides of a composed index. -/

/-- Terms of an index that are no multiples of a counter. No stride accounts for them. -/
def dropped (e : SymInt) : List SymInt := e.parts.filter (fun t => !t.isNum && !linear t)

lemma linear_not_isNum (h : linear t = true) : t.isNum = false := by
  cases t with
  | num _ => cases h
  | var _ | mul _ _ | div _ _ | mod _ _ | lt _ _ | sum _ | conj _ => rfl

lemma parts_distinct (he : e.Regular scope) :
    (e.parts.filter (fun t => !t.isNum)).Pairwise
      (fun s t => s.atomCoeff.1.key ≠ t.atomCoeff.1.key) := by
  cases he with
  | sum _ _ _ hkeys _ _ => exact pairwise_map.1 hkeys
  | num _ | var _ _ _ | mul _ _ _ _ _ _ _ | div _ _ _ _ _ | mod _ _ _ _ _ =>
    exact (pairwise_singleton _ _).sublist filter_sublist

lemma found_nodup (idxs : List SymInt) (he : e.Regular scope) :
    ((e.parts.filterMap (strideOf idxs)).map Prod.fst).Nodup := by
  have hsymbolic : e.parts.filterMap (strideOf idxs) =
      (e.parts.filter (fun t => !t.isNum)).filterMap (strideOf idxs) := by
    rw [filterMap_filter]
    refine filterMap_congr (fun t _ => ?_)
    by_cases hn : t.isNum = true
    · rw [if_neg (by simp [hn])]
      by_contra hsome
      obtain ⟨g, hg⟩ := ne_none_iff_exists'.mp hsome
      have := linear_not_isNum (strideOf_some hg).2.1
      simp [hn] at this
    · rw [if_pos (by simp [hn])]
  rw [hsymbolic]
  refine pairwise_map.2 ((parts_distinct he).filterMap (strideOf idxs) ?_)
  intro s t hne g hg g' hg' heq
  obtain ⟨hk, hs, _⟩ := findIdx?_eq_some_iff_getElem.1 (strideOf_some hg).2.2
  obtain ⟨hk', ht, _⟩ := findIdx?_eq_some_iff_getElem.1 (strideOf_some hg').2.2
  simp only [heq, BEq.beq, decide_eq_true_eq] at hs ht
  exact hne (hs.symm.trans ht)

lemma found_lt {ts : List SymInt} : ∀ g ∈ ts.filterMap (strideOf idxs), g.1 < idxs.length := by
  intro g hg
  obtain ⟨t, _, ht⟩ := mem_filterMap.1 hg
  obtain ⟨_, _, hk⟩ := strideOf_some ht
  exact (findIdx?_eq_some_iff_getElem.1 hk).1

/-- The value of an index: its number, the found strides times the indices, and what they drop. -/
lemma value_by_strides (hidxs : shape.counters = .ok idxs)
    (hlen : idxs.length = p.length) (he : e.Regular (position idxs p).scope) :
    e.value (valueAt idxs p) = (e.parts.filterMap num?).sum +
      ∑ k ∈ Finset.range p.length, p.getD k 0 * strideAt (e.parts.filterMap (strideOf idxs)) k +
      ((dropped e).map (value (valueAt idxs p))).sum := by
  obtain ⟨hterms, hsum⟩ := he.terms
  rw [← parts_eq_terms he] at hterms hsum
  have hlinear : (e.parts.filter (fun t => !t.isNum)).filter linear = e.parts.filter linear := by
    rw [List.filter_filter]
    refine List.filter_congr (fun t _ => ?_)
    by_cases h : linear t = true
    · simp [h, linear_not_isNum h]
    · simp [h]
  have hrest : (e.parts.filter (fun t => !t.isNum)).filter (fun t => !linear t) = dropped e := by
    rw [List.filter_filter]
    exact List.filter_congr (fun t _ => Bool.and_comm _ _)
  have hfound : ∀ g ∈ e.parts.filterMap (strideOf idxs), g.1 < p.length := by
    rw [← hlen]
    exact found_lt
  rw [← found_sum_axes (found_nodup idxs he) hfound,
    ← found_sum hidxs hlen (fun t ht => (hterms t ht).1), ← hlinear, ← hrest]
  have hsplit := sum_partition (valueAt idxs p) linear (e.parts.filter (fun t => !t.isNum))
  have hnums := sum_split_nums _ (value_num (valueAt idxs p)) e.parts
  rw [partition_eq_filter_filter] at hsplit
  change (e.parts.map (value (valueAt idxs p))).sum = e.value (valueAt idxs p) at hsum
  simp only [Function.comp_def] at hsplit
  omega

lemma strideAt_zero (h : ∀ g ∈ found, g.1 ≠ k) : strideAt found k = 0 := by
  have hnone : found.reverse.find? (·.1 == k) = none := by
    rw [find?_eq_none]
    intro g hg
    simpa using h g (mem_reverse.1 hg)
  rw [strideAt, hnone]
  rfl

lemma occurrences_part (ht : t ∈ e.parts) (hv : v ∈ t.occurrences) : v ∈ e.vars := by
  rw [SymInt.mem_vars]
  cases e with
  | sum ps => exact mem_occurrencesAll.2 ⟨t, ht, hv⟩
  | num _ | var _ | mul _ _ | div _ _ | mod _ _ | lt _ _ | conj _ =>
    cases List.mem_singleton.1 ht
    exact hv

/-- An axis without a counter has one element. Every other axis takes the stride found for it. -/
lemma axisStride_eq {idx : SymInt} {st : Int}
    (hc : Forall₂ Counts shape idxs) (ha : a.index.Regular A.scope) (hget : idxs[k]? = some idx)
    (h : axisStride a (a.index.parts.filterMap (strideOf idxs)) false k idx = some st) :
    idx.var? = none ∨ st = strideAt (a.index.parts.filterMap (strideOf idxs)) k := by
  unfold axisStride at h
  split at h
  · rename_i hnone
    exact .inl hnone
  rename_i v hv
  refine .inr ?_
  split at h
  · cases h
  split at h
  · rw [strideAt, h]
    rfl
  · -- a stride for this axis would come from a term in which its counter occurs
    rename_i hfree
    cases h
    refine (strideAt_zero (fun g hg hk => hfree ?_)).symm
    obtain ⟨t, ht, hs⟩ := mem_filterMap.1 hg
    obtain ⟨_, hlin, hfind⟩ := strideOf_some hs
    have hreg : t.Regular A.scope := (ha.terms.1 t (parts_eq_terms ha ▸ ht)).1
    obtain ⟨u, hu, _, hatom, hocc, _⟩ := linear_term hreg hlin
    rw [hatom, hk] at hfind
    have hidx : idx = var u := some.inj (hget.symm.trans (findIdx_counter hc hu hfind))
    have huv : u = v := some.inj ((congrArg var? hidx).symm.trans hv)
    exact contains_iff_mem.2 (occurrences_part ht (huv ▸ hocc))

lemma strides_sum {strides : List Int}
    (hidxs : shape.counters = .ok idxs) (hp : Forall₂ (Means A) idxs p)
    (ha : a.index.Regular A.scope)
    (hs : (idxs.mapIdx (axisStride a (a.index.parts.filterMap (strideOf idxs)) false)).mapM id =
      some strides) : (zipWith (· * ·) p strides).sum =
      ∑ k ∈ Finset.range p.length, p.getD k 0 * strideAt
        (a.index.parts.filterMap (strideOf idxs)) k := by
  have hmap := eq_map_some hs
  have hlen : p.length = strides.length := by
    have := congrArg length hmap
    rw [length_mapIdx, length_map] at this
    rw [← hp.length_eq, this]
  rw [sum_zipWith_range p strides hlen]
  refine sum_congr rfl (fun k hk => ?_)
  have hk : k < p.length := Finset.mem_range.1 hk
  have hki : k < idxs.length := by rw [hp.length_eq]; exact hk
  have haxis : axisStride a (a.index.parts.filterMap (strideOf idxs)) false k
      (idxs.get ⟨k, hki⟩) = some (strides.getD k 0) := by
    have := congrArg (·[k]?) hmap
    simpa [hki, hlen ▸ hk] using this
  cases axisStride_eq (counters_count hidxs) ha (getElem?_eq_getElem hki) haxis with
  | inr heq => rw [heq]
  | inl hnone =>
    have hks : k < shape.length := by rw [(counters_count hidxs).length_eq]; exact hki
    have hzero := (counters_count hidxs).get hks hki |>.eq_zero hnone
    have hvalue := (hp.get hki hk).value
    rw [hzero, value_num] at hvalue
    have hpk : p.getD k 0 = 0 := by simpa [hk] using hvalue.symm
    rw [hpk, zero_mul, zero_mul]

end Layout

end LazyTensor
