import LazyTensor.Proofs.SymInt.Expand
import LazyTensor.Proofs.Table.Groups

/-! The indices of a launch run through every position of the axes once. -/
namespace LazyTensor
open Checked List Shape SymInt Counter
variable {c : Counter} {vals : Bindings}

def Counter.bindings (loops : List Counter) (values : List Int) : Bindings :=
  VarMap.ofEntries ((loops.map var).zip values)

def Counter.ranges (loops : List Counter) : List (Int × Int) :=
  loops.map fun c => (c.var.lo, c.var.hi)

/-- Counters from zero to their size less one, whose values lead to positions of the axes, and to
each position once. -/
structure Counter.Covers (idxs : List SymInt) (loops : List Counter) (dims : List Int) : Prop where
  sized : ∀ c ∈ loops, c.var.lo = 0 ∧ c.size = .num (c.var.hi + 1)
  inside : ∀ values ∈ choices (ranges loops), ∃ p, Shape.Inside dims p ∧
    idxs.mapM (SymInt.eval (bindings loops values)) = .ok (p.map some)
  once : ∀ p, Shape.Inside dims p → ∃! values, values ∈ choices (ranges loops) ∧
    idxs.mapM (SymInt.eval (bindings loops values)) = .ok (p.map some)

lemma Shape.Inside.exists_append {front back p : List Int} (h : Inside (front ++ back) p) :
    ∃ a b, p = a ++ b ∧ Inside front a ∧ Inside back b :=
  ⟨_, _, (take_append_drop front.length p).symm, forall₂_take_append _ _ _ h,
    forall₂_drop_append _ _ _ h⟩

lemma exists_map_eq {vs : List Variable} (hn : vs.Nodup) (us : List Int)
    (hl : us.length = vs.length) :
    ∃ σ : Variable → Int, vs.map σ = us := by
  refine ⟨fun v => us.getD (vs.idxOf v) 0, ext_getElem (by simp [hl]) fun i h _ => ?_⟩
  rw [getElem_map, hn.idxOf_getElem, getD_eq_getElem]

/-- The variable has a value in its range, which is bound unless it is the only one. -/
structure Counter.Holds (vals : Bindings) (v : Variable) (u : Int) : Prop where
  nonneg : 0 ≤ u
  le_hi : u ≤ v.hi
  bound : v.hi ≠ 0 → VarMap.value? vals v = some u

namespace Counter
variable {counters : List Counter} {dims : List Int} {idxs : List SymInt} {σ : Variable → Int}

def sizes (counters : List Counter) : List Int := counters.map fun c => c.var.hi + 1

def moving (counters : List Counter) : List Counter := counters.filter fun c => !c.isFixed

section
variable (hc : ∀ c ∈ counters, c.var.lo = 0 ∧ c.size = .num (c.var.hi + 1))
include hc

lemma mem_moving : c ∈ moving counters ↔ c ∈ counters ∧ c.var.hi ≠ 0 := by
  rw [moving, mem_filter]
  refine and_congr_right fun hmem => ?_
  rw [isFixed, (hc c hmem).1, Bool.not_eq_true', beq_eq_false_iff_ne, ne_comm]

omit hc in
lemma inside_sizes : Inside (sizes counters) (counters.map fun c => σ c.var) ↔
    ∀ c ∈ counters, 0 ≤ σ c.var ∧ σ c.var ≤ c.var.hi := by
  rw [Inside, sizes, forall₂_map_left_iff, forall₂_map_right_iff, forall₂_same]
  exact forall₂_congr fun c _ => by omega

lemma holds (h : ∀ c ∈ counters, 0 ≤ σ c.var ∧ σ c.var ≤ c.var.hi) : ∀ c ∈ counters,
    Holds (bindings (moving counters) ((moving counters).map fun c => σ c.var)) c.var
      (σ c.var) := by
  refine fun c hmem => ⟨(h c hmem).1, (h c hmem).2, fun hne => ?_⟩
  have hzip : ((moving counters).map var).zip ((moving counters).map fun c => σ c.var) =
      ((moving counters).map var).map fun v => (v, σ v) := by
    rw [map_map, zip_map', Function.comp_def]
  have hv : c.var ∈ (((moving counters).map var).map fun v => (v, σ v)).map (·.1) := by
    simpa using ⟨c, (mem_moving hc).2 ⟨hmem, hne⟩, rfl⟩
  obtain ⟨x, hx, _⟩ := VarMap.exists_value? hv
  obtain ⟨v, _, he⟩ := mem_map.1 hx
  cases he
  rwa [bindings, hzip]

/-- Values of the counters that move are those of values of all of them. -/
lemma exists_values (hn : (counters.map var).Nodup) {values : List Int}
    (h : values ∈ choices (ranges (moving counters))) : ∃ σ : Variable → Int,
      values = (moving counters).map (fun c => σ c.var) ∧ ∀ c ∈ counters, 0 ≤ σ c.var ∧
      σ c.var ≤ c.var.hi := by
  have hb := choices_between h
  have hsub : ((moving counters).map var).Sublist (counters.map var) := filter_sublist.map _
  obtain ⟨σ, rfl⟩ := exists_map_eq (hn.sublist hsub) values
    (by simpa [ranges] using hb.length_eq.symm)
  rw [ranges, map_map, forall₂_map_left_iff, forall₂_map_right_iff, forall₂_same] at hb
  refine ⟨fun v => if v.hi = 0 then 0 else σ v, ?_, fun c hmem => ?_⟩
  · rw [map_map]
    exact map_congr_left fun c hmem => (if_neg ((mem_moving hc).1 hmem).2).symm
  · by_cases h0 : c.var.hi = 0
    · simp [h0]
    · have hin := hb c ((mem_moving hc).2 ⟨hmem, h0⟩)
      rw [(hc c hmem).1] at hin
      simpa only [if_neg h0, Function.comp_apply] using hin

/-- Indices that come to `f` of the values cover the axes if `f` leads from the positions of the
counters to those of the axes and back. -/
lemma covers_of (hn : (counters.map var).Nodup) {f g : List Int → List Int}
    (heval : ∀ vals (σ : Variable → Int), (∀ c ∈ counters, Holds vals c.var (σ c.var)) →
      idxs.mapM (eval vals) = .ok ((f (counters.map fun c => σ c.var)).map some))
    (hf : ∀ u, Inside (sizes counters) u → Inside dims (f u) ∧ g (f u) = u)
    (hg : ∀ p, Inside dims p → Inside (sizes counters) (g p) ∧ f (g p) = p) :
    Covers idxs (moving counters) dims := by
  refine ⟨fun c hmem => hc c (mem_of_mem_filter hmem), fun values hvalues => ?_, fun p hp => ?_⟩
  · obtain ⟨σ, rfl, hσ⟩ := exists_values hc hn hvalues
    exact ⟨_, (hf _ (inside_sizes.2 hσ)).1, heval _ σ (holds hc hσ)⟩
  · obtain ⟨hin, hfg⟩ := hg p hp
    obtain ⟨σ, hu⟩ := exists_map_eq hn (g p) (by simpa [sizes] using hin.length_eq)
    rw [map_map] at hu
    rw [← hu] at hin hfg
    have hσ := inside_sizes.1 hin
    refine ⟨(moving counters).map fun c => σ c.var,
      ⟨?_, hfg ▸ heval _ σ (holds hc hσ)⟩, ?_⟩
    · have hmem := mem_choices (σ := σ) fun v (hv : v ∈ (moving counters).map var) => by
        obtain ⟨c, hmem, rfl⟩ := mem_map.1 hv
        have hmem := mem_of_mem_filter hmem
        exact (hc c hmem).1 ▸ hσ c hmem
      simpa only [ranges, map_map, Function.comp_def] using hmem
    · rintro values ⟨hvalues, hp'⟩
      obtain ⟨σ', rfl, hσ'⟩ := exists_values hc hn hvalues
      rw [heval _ σ' (holds hc hσ')] at hp'
      have hsame : f (counters.map fun c => σ' c.var) = p :=
        map_injective_iff.2 (Option.some_injective _) (ok_eq_ok.1 hp')
      have hu' := (hf _ (inside_sizes.2 hσ')).2
      rw [hsame, ← hu] at hu'
      exact map_congr_left fun c hmem => (map_inj_left.1 hu' c (mem_of_mem_filter hmem)).symm

end

/-! A counter taken apart. -/

/-- The counter divided by `k`. -/
def part (v : Variable) (k : Int) : SymInt :=
  if v.hi / k = 0 then .num 0 else if k = 1 then .var v else .div (.var v) k

section
variable {v : Variable} {k n u : Int} {vals : Bindings} (hlo : v.lo = 0) (hhi : 0 ≤ v.hi)
  (hfit : Fits v.hi)
include hlo

lemma index_eq_part : ofVariable v = part v 1 := by
  rw [ofVariable, part, Int.ediv_one, if_pos rfl, hlo]
  exact if_congr eq_comm rfl rfl

lemma range_part (hk : 0 < k) : (part v k).lo = 0 ∧ (part v k).hi = v.hi / k := by
  unfold part
  split
  · next h => simp [h]
  split
  · next h1 => simp [hlo, h1]
  · simp [lo_div hk, hi_div hk, hlo]

lemma part_quotient (hk : 0 < k) (hn : 0 < n) (hf : Fits (k * n)) :
    (part v k).quotient n = .ok (part v (k * n)) := by
  obtain ⟨m, hm⟩ := steps_succ (part v k) n
  have hzero : floorDiv 0 n = .ok 0 := by simpa using floorDiv_of_nonneg le_rfl hn fits_zero
  have plain (m : Nat) (d : Int) (hd : 0 < d) (h0 : ¬v.hi / 1 = 0) :
      quotientIn (m + 2) (.var v) d true = .ok (part v d) := by
    rw [quotientIn, if_neg hd.ne', quotientPlain, if_neg (by omega), part]
    split
    · next h1 => rw [h1, if_neg h0]
    · next h1 =>
      rw [if_neg (by simpa using hlo.ge), collapse]
      have hl : (div (.var v) d).lo = 0 := by rw [lo_div hd, lo_var, hlo, Int.zero_ediv]
      have hh : (div (.var v) d).hi = v.hi / d := by rw [hi_div hd, hi_var]
      rw [show (div (.var v) d).range = (0, v.hi / d) from Prod.ext hl hh]
      simp only [eq_comm]
  rw [quotient, hm]
  by_cases h0 : v.hi / k = 0
  · have h0' : v.hi / (k * n) = 0 := by rw [← Int.ediv_ediv_of_nonneg hk.le, h0, Int.zero_ediv]
    rw [part, part, if_pos h0, if_pos h0', quotientIn, if_neg hn.ne', hzero]
    rfl
  by_cases h1 : k = 1
  · subst h1
    rw [part, if_neg h0, if_pos rfl, one_mul]
    exact plain _ n hn h0
  · have h0' : ¬v.hi / 1 = 0 := fun h => h0 (by rw [Int.ediv_one] at h; rw [h, Int.zero_ediv])
    rw [part, if_neg h0, if_neg h1, quotientIn, if_neg hn.ne', mul_eq_ok.2 ⟨hf, rfl⟩]
    exact plain _ _ (mul_pos hk hn) h0'

include hfit

omit hlo in
lemma part_eval (hk : 0 < k) (hu : Holds vals v u) : (part v k).eval vals = .ok (some (u / k)) := by
  have hq : u / k ≤ v.hi / k := Int.ediv_le_ediv hk hu.le_hi
  have h0 : 0 ≤ u / k := Int.ediv_nonneg hu.nonneg hk.le
  unfold part
  split
  · rw [eval, show u / k = 0 by omega]
  · next hne =>
    have hvar : (SymInt.var v).eval vals = .ok (some u) := by
      rw [eval, hu.bound fun h => hne (by rw [h, Int.zero_ediv])]
    split
    · next h1 => rw [hvar, h1, Int.ediv_one]
    · have hd := floorDiv_of_nonneg hu.nonneg hk (fits_zero.between hfit hu.nonneg hu.le_hi)
      rw [eval, hvar]
      simp [bind, Except.bind, hd, Functor.map, Except.map]

include hhi

lemma part_remainder (hk : 0 < k) (hn : 0 < n) : ∃ r, (part v k).remainder n = .ok r ∧
    ∀ vals u, Holds vals v u → r.eval vals = .ok (some (u / k % n)) := by
  obtain ⟨m, hm⟩ := steps_succ (part v k) n
  obtain ⟨hl, hh⟩ := range_part hlo hk
  have hplain : (part v k).remainder n = remainderPlain (m + 2) (part v k) n := by
    rw [remainder, hm, remainderIn.eq_def]
    dsimp only
    rw [if_neg (by omega)]
    unfold part
    split_ifs <;> rfl
  have hquot : 0 ≤ v.hi / k := Int.ediv_nonneg hhi hk.le
  have hfitq : Fits (v.hi / k) := fits_zero.between hfit hquot (Int.ediv_le_self k hhi)
  have heval (vals : Bindings) (u : Int) (hu : Holds vals v u) := part_eval hfit hk hu
  rw [hplain, remainderPlain, hl, hh]
  by_cases h1 : n = 1
  · exact ⟨_, if_pos h1, fun vals u _ => by rw [eval, h1, Int.emod_one]⟩
  rw [if_neg h1]
  by_cases hlt : v.hi / k < n
  · refine ⟨_, if_pos ⟨le_rfl, hlt⟩, fun vals u hu => ?_⟩
    have := Int.ediv_le_ediv hk hu.le_hi
    rw [heval vals u hu, Int.emod_eq_of_lt (Int.ediv_nonneg hu.nonneg hk.le) (by omega)]
  · have hpos : 0 < v.hi / k / n := Int.le_ediv_of_mul_le hn (by omega)
    refine ⟨mod (part v k) n, ?_, fun vals u hu => ?_⟩
    · have hwide := lo_lt_hi_mod (a := part v k) (c := n) (by omega)
      rw [if_neg (by omega), floorDiv_of_nonneg le_rfl hn fits_zero,
        floorDiv_of_nonneg hquot hn hfitq, ok_bind, ok_bind,
        if_neg (by simpa using hpos.ne), if_neg (by omega),
        sub_eq_ok.2 ⟨by simpa using hfitq, rfl⟩,
        collapse_of_ne hwide.ne]
      rfl
    · have h0 := Int.ediv_nonneg hu.nonneg hk.le
      have hm :=
        floorMod_of_nonneg h0 hn (fits_zero.between hfitq h0 (Int.ediv_le_ediv hk hu.le_hi))
      rw [eval, heval vals u hu]
      simp [bind, Except.bind, hm, Functor.map, Except.map]

/-- Taking a counter apart gives its digits. -/
lemma splitIndex_places {ds : List Int} (hne : ds ≠ []) (hd : ∀ d ∈ ds, 0 < d) (hk : 0 < k)
    (hsize : v.hi + 1 = k * ds.prod) (hword : Fits (v.hi + 1)) (done : List SymInt) :
    ∃ idxs, splitIndex (part v k) (ofInts ds).reverse done = .ok (idxs ++ done) ∧
      ∀ vals u, Holds vals v u → idxs.mapM (eval vals) = .ok ((place ds (u / k)).map some) := by
  induction ds using reverseRecOn generalizing k done with
  | nil => exact (hne rfl).elim
  | append_singleton ds d ih =>
    obtain ⟨hds, hd⟩ := forall_mem_append.1 hd
    have hd := forall_mem_singleton.1 hd
    have hrev : (ofInts (ds ++ [d])).reverse = .num d :: (ofInts ds).reverse := by simp [ofInts]
    rw [prod_append, prod_singleton] at hsize
    rw [hrev]
    obtain rfl | hne := eq_or_ne ds []
    · refine ⟨[part v k], rfl, fun vals u hu => ?_⟩
      have hlt : u / k < d :=
        Int.ediv_lt_of_lt_mul hk (by have := hu.le_hi; rw [prod_nil, one_mul] at hsize; linarith)
      rw [mapM_cons, part_eval hfit hk hu]
      simp [place, Int.emod_eq_of_lt (Int.ediv_nonneg hu.nonneg hk.le) hlt, bind, Except.bind, pure,
        Except.pure]
    · have hprod := prod_pos hds
      have hkd : Fits (k * d) := fits_zero.between hword (mul_pos hk hd).le
        (by nlinarith [mul_pos hk hd])
      obtain ⟨r, hr, hval⟩ := part_remainder hlo hhi hfit hk hd
      obtain ⟨idxs, hsplit, hall⟩ := ih hne hds (mul_pos hk hd)
        (by rw [hsize]; ring) (r :: done)
      refine ⟨idxs ++ [r], ?_, fun vals u hu => ?_⟩
      · obtain ⟨x, xs, hx⟩ := exists_cons_of_ne_nil
          (show (ofInts ds).reverse ≠ [] by simpa [ofInts] using hne)
        rw [hx] at hsplit ⊢
        rw [splitIndex]
        · exact bind_eq_ok.2
            ⟨d, rfl, bind_eq_ok.2 ⟨r, hr, bind_eq_ok.2 ⟨_, part_quotient hlo hk hd hkd,
            by simpa using hsplit⟩⟩⟩
        · simp
      · rw [mapM_append, hall vals u hu, mapM_cons, hval vals u hu,
          place_append (by simpa using hd), ← Int.ediv_ediv_of_nonneg hk.le]
        simp [place, bind, Except.bind, pure, Except.pure]

end

/-- The counter of an axis of size `s`. -/
def axis (name : String) (i : Nat) (s : Int) : Counter :=
  { var := ⟨s!"{name}{i}", 0, s - 1⟩, size := .num s }

def listed (name : String) (start : Nat) (ss : List Int) : List Counter :=
  ss.zipIdx.map fun x => axis name (start + x.2) x.1

section
variable {name : String} {start : Nat} {ss : List Int}

lemma listed_concat (s : Int) :
    listed name start (ss ++ [s]) = listed name start ss ++ [axis name (start + ss.length) s] := by
  simp [listed, zipIdx_append]

lemma listed_sized : ∀ c ∈ listed name start ss, c.var.lo = 0 ∧
    c.size = .num (c.var.hi + 1) := by
  intro c hc
  obtain ⟨x, _, rfl⟩ := mem_map.1 hc
  simp [axis]

lemma sizes_listed : sizes (listed name start ss) = ss := by
  simp [sizes, listed, axis, Function.comp_def]

lemma listed_nodup : ((listed name start ss).map var).Nodup := by
  refine Nodup.of_map Variable.name ?_
  have hnames : ((listed name start ss).map var).map Variable.name =
      (ss.zipIdx.map Prod.snd).map fun i => s!"{name}{start + i}" := by
    rw [listed, map_map, map_map, map_map]
    rfl
  rw [hnames, zipIdx_map_snd]
  refine Nodup.map (fun i j h => ?_) (nodup_range' ..)
  have hl := congrArg String.toList h
  have := Text.toDigits_inj (by simpa using hl)
  omega

lemma make_listed (name : String) (start : Nat) (ss : List Int)
    (hs : ∀ s ∈ ss, 0 < s ∧ Fits s) (hstart : start + ss.length ≤ 2 ^ 64) :
    (ofInts ss).zipIdx.mapM (fun x => do
      let n ← addNat start x.2
      make s!"{name}{n}" x.1) = .ok (listed name start ss) := by
  rw [ofInts, zipIdx_map, mapM_eq_ok, listed, forall₂_map_left_iff, forall₂_map_right_iff,
    forall₂_same]
  intro x hx
  obtain ⟨_, hfit⟩ := hs x.1 (fst_mem_of_mem_zipIdx hx)
  have hlt := snd_lt_of_mem_zipIdx hx
  have hadd : addNat start x.2 = .ok (start + x.2) := if_pos (by omega)
  have hsub : sub x.1 1 = .ok (x.1 - 1) :=
    sub_eq_ok.2 ⟨fits_zero.between hfit (by omega) (by omega), rfl⟩
  have hvar (n : String) : Variable.counter n 0 (max (x.1 - 1) 0) = .ok ⟨n, 0, x.1 - 1⟩ := by
    rw [max_eq_left (by omega)]
    exact if_pos (by omega)
  simp [hadd, make, axis, hsub, hvar, bind, Except.bind, pure, Except.pure]

end

lemma index_eval {u : Int} (hlo : c.var.lo = 0) (hu : Holds vals c.var u) :
    c.index.eval vals = .ok (some u) := by
  rw [index, index_eq_part hlo, part, Int.ediv_one, if_pos rfl]
  split
  · next h =>
    have hle := hu.le_hi
    rw [eval, show u = 0 by have := hu.nonneg; omega]
  · next h => rw [eval, hu.bound h]

lemma indices_eval (hlo : ∀ c ∈ counters, c.var.lo = 0)
    (hu : ∀ c ∈ counters, Holds vals c.var (σ c.var)) :
    (counters.map index).mapM (eval vals) = .ok ((counters.map fun c => σ c.var).map some) := by
  rw [mapM_eq_ok, map_map, forall₂_map_left_iff, forall₂_map_right_iff, forall₂_same]
  exact fun c hc => index_eval (hlo c hc) (hu c hc)

lemma covers_listed (name : String) (start : Nat) :
    Covers ((listed name start dims).map index) (moving (listed name start dims)) dims := by
  refine covers_of (f := id) (g := id) listed_sized listed_nodup (fun vals σ hu => ?_)
    (fun u hin => ?_) fun p hin => ?_
  · exact indices_eval (fun c hc => (listed_sized c hc).1) hu
  · rw [sizes_listed] at hin
    exact ⟨hin, rfl⟩
  · rw [sizes_listed]
    exact ⟨hin, rfl⟩

lemma covers_folded (name : String) (start : Nat) (front : List Int) {rest : List Int}
    (hrest : ∀ d ∈ rest, 0 < d) (hne : rest ≠ []) (hfit : Fits rest.prod) : ∃ idxs,
      splitIndex (axis name (start + front.length) rest.prod).index (ofInts rest).reverse [] =
        .ok idxs ∧
      Covers ((listed name start front).map index ++ idxs)
        (moving (listed name start (front ++ [rest.prod])))
        (front ++ rest) := by
  have hprod := prod_pos hrest
  obtain ⟨idxs, hsplit, hall⟩ := splitIndex_places
    (v := (axis name (start + front.length) rest.prod).var)
    (k := 1) rfl (Int.sub_nonneg_of_le hprod)
      (fits_zero.between hfit (Int.sub_nonneg_of_le hprod) (Int.sub_le_self _ one_pos.le))
    hne hrest one_pos (by simp [axis]) (by simpa [axis] using hfit) []
  rw [append_nil] at hsplit
  refine ⟨idxs, by rw [index, index_eq_part rfl, hsplit], covers_of
    (f := fun u => u.dropLast ++ place rest (u.getLastD 0))
    (g := fun p => p.take front.length ++ [rank rest (p.drop front.length)])
    listed_sized listed_nodup (fun vals σ hu => ?_) (fun u hin => ?_) fun p hin => ?_⟩
  · rw [listed_concat, forall_mem_append, forall_mem_singleton] at hu
    rw [mapM_append, indices_eval (fun c hc => (listed_sized c hc).1) hu.1, hall vals _ hu.2,
      listed_concat]
    simp [bind, Except.bind, pure, Except.pure]
  · rw [sizes_listed] at hin
    obtain ⟨a, b, rfl, ha, hb⟩ := hin.exists_append
    obtain ⟨x, rfl⟩ := length_eq_one_iff.1 hb.length_eq
    obtain ⟨hx, _⟩ := forall₂_cons.1 hb
    simp only [dropLast_concat, getLastD_concat]
    refine ⟨rel_append ha (place_inside hrest x), ?_⟩
    rw [take_left' ha.length_eq, drop_left' ha.length_eq, rank_place hrest,
      Int.emod_eq_of_lt hx.1 hx.2]
  · obtain ⟨a, b, rfl, ha, hb⟩ := hin.exists_append
    rw [take_left' ha.length_eq, drop_left' ha.length_eq, sizes_listed]
    refine ⟨rel_append ha (.cons hb.rank_bounds .nil), ?_⟩
    rw [dropLast_concat, getLastD_concat, place_rank hb]

end Counter

/-- The indices of a launch pass every position of the axes once. The counters, as many as are left
after folding, are numbered by a word. -/
theorem launchIndices_covers (name : String) (start limit : Nat) (dims : List Int)
    (hd : ∀ d ∈ dims, 0 < d ∧ Fits d)
    (hfit : limit ≠ 0 → limit < dims.length → Fits (dims.drop (limit - 1)).prod)
    (hstart : start + (if limit = 0 then dims.length else min limit dims.length) ≤ 2 ^ 64) :
    ∃ idxs loops, launchIndices name start (Shape.ofInts dims) limit = .ok (idxs, loops) ∧
      (limit ≠ 0 → loops.length ≤ limit) ∧ Counter.Covers idxs loops dims := by
  have hlen : (ofInts dims).length = dims.length := length_map _
  by_cases hg : limit ≠ 0 ∧ limit < dims.length
  · obtain ⟨n, rfl⟩ := Nat.exists_eq_add_one_of_ne_zero hg.1
    have hfit : Fits (dims.drop n).prod := hfit hg.1 hg.2
    have hfront : (dims.take n).length = n := length_take_of_le (by omega)
    rw [if_neg hg.1, min_eq_left hg.2.le] at hstart
    have hrest : ∀ d ∈ dims.drop n, 0 < d := fun d h => (hd d (mem_of_mem_drop h)).1
    obtain ⟨idxs, hsplit, hcover⟩ := covers_folded name start (dims.take n) hrest
      (by rw [Ne, drop_eq_nil_iff]; omega) hfit
    rw [take_append_drop] at hcover
    refine ⟨_, _, ?_, fun _ => ?_, hcover⟩
    · have hmake := make_listed name start (dims.take n ++ [(dims.drop n).prod])
        (forall_mem_append.2 ⟨fun d h => hd d (mem_of_mem_take h),
          by simpa using ⟨prod_pos hrest, hfit⟩⟩)
        (by simp; omega)
      have hnth : nth
          ((Counter.listed name start (dims.take n ++ [(dims.drop n).prod])).map Counter.index) n =
          .ok (Counter.axis name (start + (dims.take n).length) (dims.drop n).prod).index := by
        simp [nth, Counter.listed, hfront]
      rw [launchIndices]
      simp only [hlen, if_pos hg, Nat.add_sub_cancel]
      simp only [ofInts, ← map_drop, ← map_take]
      refine bind_eq_ok.2 ⟨_, product_of_fits hrest hfit,
        bind_eq_ok.2 ⟨_, rfl, bind_eq_ok.2 ⟨_, ?_,
        bind_eq_ok.2 ⟨_, hnth, bind_eq_ok.2 ⟨_, hsplit, ?_⟩⟩⟩⟩⟩
      · simpa [ofInts] using hmake
      · rw [listed_concat, take_left' (by simp [listed]; omega)]
        rfl
    · refine (length_filter_le _ _).trans ?_
      simp [listed, hfront]
  · have hall : (if limit = 0 then dims.length else min limit dims.length) = dims.length := by
      split <;> omega
    rw [hall] at hstart
    refine ⟨_, _, ?_, fun h => ?_, covers_listed name start⟩
    · rw [launchIndices]
      simp only [hlen, if_neg hg]
      exact bind_eq_ok.2
        ⟨_, rfl, bind_eq_ok.2 ⟨_, make_listed name start dims hd hstart, rfl⟩⟩
    · refine (length_filter_le _ _).trans ?_
      simp only [listed, length_map, length_zipIdx]
      omega

/-- Two axes folded into one counter of six. -/
theorem two_by_three_covers : ∃ idxs loops, launchIndices "gidx" 0 (Shape.ofInts [2, 3]) 1 =
    .ok (idxs, loops) ∧
    loops.length ≤ 1 ∧ Counter.Covers idxs loops [2, 3] := by
  obtain ⟨idxs, loops, hlaunch, hlen, hcover⟩ :=
    launchIndices_covers "gidx" 0 1 [2, 3] (by decide) (fun _ _ => by decide) (by decide)
  exact ⟨idxs, loops, hlaunch, hlen one_ne_zero, hcover⟩

/-- Folded axes with more positions than a word counts. -/
theorem long_axes_overflow : launchIndices "gidx" 0 (Shape.ofInts [2 ^ 40, 2 ^ 40]) 1 =
    .error .arithmetic := rfl

end LazyTensor
