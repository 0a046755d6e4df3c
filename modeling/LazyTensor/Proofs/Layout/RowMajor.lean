import LazyTensor.Proofs.View.Digits
import LazyTensor.Proofs.Layout.Merge
import LazyTensor.Proofs.Layout.Plain
import LazyTensor.Proofs.SymInt.Gauge

/-! Merging under a row-major view. The index of such a view uses each counter once. If a merge
finds a stride for a counter, one digit of the index is linear in it, so the others do not depend on
it, and neither does what the merge drops. -/
namespace LazyTensor
open Checked SymInt List Shape View Layout Option

namespace View
variable {gs : List (Int × Int)} {a : Digit} {idx e : SymInt} {v : Variable} {fi bi : List SymInt}
  {j : Int} {dims : List Int}

/-- The first digit turns over within one step of the second. -/
def Digit.Below (a b : Digit) : Prop := a.base * a.place ∣ b.place

lemma digitsOf_place : ∀ a ∈ digitsOf gs, a.base * a.place ∣ (gs.map Prod.fst).prod := by
  induction gs with
  | nil => simp [digitsOf]
  | cons g gs ih =>
    rw [digitsOf, map_cons, prod_cons]
    refine forall_mem_cons.2 ⟨dvd_rfl, fun a ha => ?_⟩
    exact (ih a ha).mul_left g.1

lemma digitsOf_below (gs : List (Int × Int)) : (digitsOf gs).Pairwise (fun a b => b.Below a) := by
  induction gs with
  | nil => exact .nil
  | cons g gs ih => exact .cons (fun a ha => digitsOf_place a ha) ih

lemma digitsOf_related {b : Digit} (ha : a ∈ digitsOf gs)
    (hb : b ∈ digitsOf gs) (hne : a ≠ b) : a.Below b ∨ b.Below a := by
  have : Std.Symm fun a b : Digit => a.Below b ∨ b.Below a := ⟨fun _ _ => Or.symm⟩
  exact ((digitsOf_below gs).imp fun h => Or.inr h).forall ha hb hne

lemma Digit.Reads.unique {f : SymInt} (he : a.Reads idx e) (hf : a.Reads idx f) : e = f := by
  obtain ⟨q, hq, he⟩ := he
  obtain ⟨q', hq', hf⟩ := hf
  obtain rfl := Except.ok.inj (hq.symm.trans hq')
  exact Except.ok.inj (he.symm.trans hf)

variable {A : Assignment} {fp bp : List Int}

section
variable {idx e : SymInt} {a : Digit} (hp : 0 < a.place) (hfp : Fits a.place) (hb : 0 < a.base)
  (hfb : Fits a.base) (h : a.Reads idx e)
include hp hfp hb hfb h

lemma Digit.Reads.count_le (hi : idx.Regular A.scope) (w : Variable → Nat) :
    e.count w ≤ idx.count w := by
  obtain ⟨q, hq, hr⟩ := h
  have hquot := (divides w A _).quotientIn (hi.measured ⟨le_rfl, le_rfl, le_rfl⟩) hp hfp hq
  exact ((divides w A _).remainderIn hquot hb hfb hr).leaves

end

end View

/-! What a variable that is used once contributes. -/

namespace SymInt
variable {A : Assignment}

lemma Regular.coeff_ne_zero {t : SymInt} {scope : Variable → Prop} (h : t.Regular scope) :
    t.atomCoeff.2 ≠ 0 := by
  cases h with
  | mul _ _ h0 _ _ _ _ => exact h0
  | num _ | var _ _ _ | div _ _ _ _ _ | mod _ _ _ _ _ | sum _ _ _ _ _ _ => simp [atomCoeff]

lemma value_along {e : SymInt} {v : Variable} (he : e.Regular A.scope)
    (hone : e.count (only v) ≤ 1) (hv : var v ∈ e.atoms) :
    ∃ r, r ≠ 0 ∧ ∀ σ τ : Variable → Int, (∀ u, u ≠ v → σ u = τ u) →
      e.value σ = e.value τ + r * (σ v - τ v) := by
  obtain ⟨t, ht, hatom⟩ := mem_map.1 hv
  obtain ⟨ht, hn⟩ := mem_filter.1 ht
  obtain ⟨hterms, _⟩ := he.terms
  have hlinear : linear t = true := by rw [linear, hatom]; rfl
  obtain ⟨u, _, _, hu, hin, hval⟩ := linear_term (hterms t ht).1 hlinear
  obtain rfl : u = v := var.inj (hu.symm.trans hatom)
  refine ⟨t.atomCoeff.2, (hterms t ht).1.coeff_ne_zero, fun σ τ hoff => ?_⟩
  rw [← sum_terms (value_sum σ) e, ← sum_terms (value_sum τ) e]
  have hcount := terms_count (w := only u) e
  obtain ⟨front, back, heq⟩ := append_of_mem ht
  rw [heq] at hcount ⊢
  have h1 := count_only_pos hin
  simp only [map_append, sum_append, map_cons, sum_cons] at hcount ⊢
  -- the other terms do not use the variable
  have hrest : ∀ s ∈ front ++ back, s.value σ = s.value τ := by
    intro s hs
    have hmem : s ∈ e.terms := by
      rw [heq]
      simp only [mem_append, mem_cons] at hs ⊢
      tauto
    refine (hterms s hmem).1.value_congr fun w hw => hoff w ?_
    rintro rfl
    have h2 := single_le_sum (fun _ _ => Nat.zero_le _) _ (mem_map_of_mem (f := count (only w)) hs)
    have h3 := count_only_pos hw
    rw [map_append, sum_append] at h2
    omega
  obtain ⟨hfront, hback⟩ := forall_mem_append.1 hrest
  rw [map_congr_left hfront, map_congr_left hback, hval σ, hval τ]
  ring

end SymInt


namespace Layout
variable {u : Variable} {p : List Int} {idxs : List SymInt}
variable {A : Assignment}

/-! One axis of a shape. -/

section
variable {front back fp bp : List Int} {c j : Int}

lemma inside_axis (hf : Inside front fp) (hj : 0 ≤ j ∧ j < c) (hb : Inside back bp) :
    Inside (front ++ c :: back) (fp ++ j :: bp) := rel_append hf (.cons hj hb)

lemma rank_axis (h : front.length = fp.length) : Shape.rank (front ++ c :: back) (fp ++ j :: bp) =
      Shape.rank back bp + back.prod * j + c * back.prod * Shape.rank front fp := by
  rw [rank_append h, Shape.rank, prod_cons]
  ring

end

lemma valueAt_axis
    (hlen : fi.length = fp.length) (hu : e.var? ≠ some u) (j k : Int) :
    valueAt (fi ++ e :: bi) (fp ++ j :: bp) u = valueAt (fi ++ e :: bi) (fp ++ k :: bp) u := by
  induction fi generalizing fp with
  | nil =>
    cases fp with
    | nil => rw [nil_append, nil_append, valueAt, if_neg hu, nil_append, valueAt, if_neg hu]
    | cons i fp => cases hlen
  | cons i fi ih =>
    cases fp with
    | nil => cases hlen
    | cons x fp => simp only [cons_append, valueAt, ih (by simpa using hlen)]

/-- An axis of a shape with its counter, for a row-major index that uses the counter once. -/
structure Axis (front : List Int) (c : Int) (back : List Int) (fi : List SymInt) (v : Variable)
    (bi : List SymInt) (idx : SymInt) : Prop where
  front_length : fi.length = front.length
  back_length : bi.length = back.length
  distinct : ((fi ++ var v :: bi).filterMap var?).Nodup
  flat : ∀ q, Shape.Inside (front ++ c :: back) q →
    Means (position (fi ++ var v :: bi) q) idx (Shape.rank (front ++ c :: back) q)
  once : idx.count (only v) ≤ 1
  two_le : 2 ≤ c
  front_pos : ∀ d ∈ front, 0 < d
  back_pos : ∀ d ∈ back, 0 < d

namespace Axis
variable {front back : List Int} {c : Int} {fi bi : List SymInt} {v : Variable} {idx e : SymInt}
  (hx : Axis front c back fi v bi idx) {fp bp : List Int} (hf : Shape.Inside front fp)
  (hb : Shape.Inside back bp)
include hx hf hb

lemma valueAt_self (j : Int) : valueAt (fi ++ var v :: bi) (fp ++ j :: bp) v = j := by
  have hget : (fi ++ var v :: bi)[fi.length]? = some (var v) := by simp
  have hfl := hf.length_eq
  have hbl := hb.length_eq
  have hfi := hx.front_length
  have hbi := hx.back_length
  rw [valueAt_get (by simp only [length_append, length_cons]; omega) hx.distinct hget, hfi, ← hfl]
  simp

omit hb in
lemma valueAt_other (hu : u ≠ v) (j k : Int) :
    valueAt (fi ++ var v :: bi) (fp ++ j :: bp) u = valueAt (fi ++ var v :: bi) (fp ++ k :: bp) u :=
  valueAt_axis (hx.front_length.trans hf.length_eq.symm)
    (by simpa [var?] using fun h => hu h.symm) j k

lemma start_inside : Inside (front ++ c :: back) (fp ++ 0 :: bp) :=
  inside_axis hf ⟨le_rfl, by have := hx.two_le; omega⟩ hb

end Axis

/-- A digit of known base and place. -/
structure Axis.Read (front : List Int) (c : Int) (back : List Int) (fi : List SymInt) (v : Variable)
    (bi : List SymInt) (a : View.Digit) (e : SymInt) : Prop where
  place : 0 < a.place
  base : 0 < a.base
  once : e.count (only v) ≤ 1
  value : ∀ q, Shape.Inside (front ++ c :: back) q → Means (position (fi ++ var v :: bi) q) e
    (Shape.rank (front ++ c :: back) q / a.place % a.base)

namespace Axis
variable {front back : List Int} {c : Int} {fi bi : List SymInt} {v : Variable} {idx e : SymInt}
  {a : View.Digit} (hx : Axis front c back fi v bi idx)
variable {b : View.Digit} {f : SymInt}
include hx

lemma origin : Inside (front ++ c :: back) (place front 0 ++ 0 :: place back 0) :=
  hx.start_inside (place_inside hx.front_pos 0) (place_inside hx.back_pos 0)

lemma read (hp : 0 < a.place) (hfp : Fits a.place) (hb : 0 < a.base) (hfb : Fits a.base)
    (h : a.Reads idx e) : Read front c back fi v bi a e where
  place := hp
  base := hb
  once := (h.count_le hp hfp hb hfb (hx.flat _ hx.origin).regular (only v)).trans hx.once
  value q hq := h.means hp hfp hb hfb (hx.flat q hq)

section
variable (h : Read front c back fi v bi a e) (hv : var v ∈ e.atoms)
include h hv

lemma even : ∃ r, r ≠ 0 ∧ Shape.Even a.place a.base back.prod c front.prod r := by
  obtain ⟨r, hr, hstep⟩ := value_along (h.value _ hx.origin).regular h.once hv
  refine ⟨r, hr, fun y j k hy hye hj hjc hk hkm => ?_⟩
  have hf := place_inside hx.front_pos k
  have hb := place_inside hx.back_pos y
  have hrank (i : Int) : Shape.rank (front ++ c :: back) (place front k ++ i :: place back y) =
      y + back.prod * i + c * back.prod * k := by
    rw [rank_axis hf.length_eq.symm, rank_place hx.back_pos, Int.emod_eq_of_lt hy hye,
      rank_place hx.front_pos, Int.emod_eq_of_lt hk hkm]
  have hat := (h.value _ (inside_axis hf ⟨hj, hjc⟩ hb)).value
  have hstart := (h.value _ (hx.start_inside hf hb)).value
  have hoff (u : Variable) (hu : u ≠ v) : valueAt (fi ++ var v :: bi)
      (place front k ++ j :: place back y) u =
      valueAt (fi ++ var v :: bi) (place front k ++ 0 :: place back y) u :=
      hx.valueAt_other hf hu j 0
  have hdiff := hstep _ _ hoff
  rw [hx.valueAt_self hf hb, hx.valueAt_self hf hb, sub_zero] at hdiff
  rw [hrank, mul_zero, add_zero] at hstart
  rw [hrank] at hat
  rw [← hat, ← hstart]
  exact hdiff

lemma still (h' : Read front c back fi v bi b f) (hab : a.Below b ∨ b.Below a)
    (hf : Inside front fp) (hj : 0 ≤ j ∧ j < c) (hb : Inside back bp) :
    f.value (valueAt (fi ++ var v :: bi) (fp ++ j :: bp)) =
      f.value (valueAt (fi ++ var v :: bi) (fp ++ 0 :: bp)) := by
  obtain ⟨r, hr, heven⟩ := hx.even h hv
  have hE := prod_pos hx.back_pos
  have hM := prod_pos hx.front_pos
  have hc := hx.two_le
  obtain ⟨hdvd, hfill⟩ := heven.fits h.place h.base hE hc hM hr
  have hat := (h'.value _ (inside_axis hf hj hb)).value
  have hstart := (h'.value _ (hx.start_inside hf hb)).value
  rw [rank_axis hf.length_eq.symm] at hat hstart
  rw [mul_zero, add_zero] at hstart
  refine hat.trans (Eq.trans ?_ hstart.symm)
  have hy := hb.rank_bounds
  have hk := hf.rank_bounds
  obtain hab | hba := hab
  · exact digit_above (mul_pos h.base h.place) hab hE
      (by omega) hfill hy.1 hy.2 hj.1 hj.2 hk.1 hk.2
  · rw [add_right_comm]
    exact digit_below h'.place (hba.trans hdvd)


/-- If some digit is linear in the counter, a digit counts the same with the axis at its start
inside quotients and remainders. -/
lemma read_mixed (h' : Read front c back fi v bi b f) (hab : a.Below b ∨ b.Below a ∨ e = f)
    (hf : Inside front fp) (hj : 0 ≤ j ∧ j < c) (hb : Inside back bp) :
    f.gauge (mixed (valueAt (fi ++ var v :: bi) (fp ++ j :: bp))
      (valueAt (fi ++ var v :: bi) (fp ++ 0 :: bp))) =
      f.gauge (value (valueAt (fi ++ var v :: bi) (fp ++ j :: bp))) := by
  have hat := h'.value _ (inside_axis hf hj hb)
  have hstart := h'.value _ (hx.start_inside hf hb)
  have hoff (u : Variable) (hu : u ≠ v) : valueAt (fi ++ var v :: bi) (fp ++ j :: bp) u =
      valueAt (fi ++ var v :: bi) (fp ++ 0 :: bp) u := hx.valueAt_other hf hu j 0
  by_cases hlin : var v ∈ f.atoms
  · exact mixed_of_linear hat.regular hoff h'.once hlin
  · have hab : a.Below b ∨ b.Below a := by
      obtain h | h | rfl := hab
      · exact .inl h
      · exact .inr h
      · exact (hlin hv).elim
    have hvalue := hx.still h hv h' hab hf hj hb
    rw [mixed_of_absent hat.regular hoff hlin]
    exact ((gauge_value _ _).trans hvalue.symm).trans (gauge_value _ _).symm

end

end Axis

/-- What taking the second assignment inside quotients and remainders changes. -/
lemma mixed_dropped (he : e.Regular A.scope) (σ τ : Variable → Int) :
    e.gauge (mixed σ τ) + ((dropped e).map (value σ)).sum =
      e.gauge (value σ) + ((dropped e).map (value τ)).sum := by
  rw [dropped, parts_eq_terms he, SymInt.gauge, SymInt.gauge]
  induction e.terms with
  | nil => rfl
  | cons t ts ih =>
    have hcoeff (ρ : Variable → Int) : t.value ρ = t.atomCoeff.1.value ρ * t.atomCoeff.2 := by
      cases t <;> simp [atomCoeff, value]
    have hone (φ : SymInt → Int) : tally φ (t :: ts) = tally φ [t] + tally φ ts :=
      tally_append [t] ts
    rw [hone, hone]
    by_cases hn : t.isNum = true
    · obtain ⟨n, hn'⟩ := isSome_iff_exists.1 hn
      rw [eq_num_of_num? hn'] at hn ⊢
      rw [filter_cons_of_neg (by simp [hn])]
      have hnum (φ : SymInt → Int) : tally φ [num n] = n := gauge_num n
      rw [hnum, hnum]
      omega
    · have hnone : t.num? = none := by simpa [isNum] using hn
      have htally (φ : SymInt → Int) : tally φ [t] = φ t.atomCoeff.1 * t.atomCoeff.2 := by
        simp [tally, weigh, hn, hnone]
      rw [htally, htally]
      by_cases hl : linear t = true
      · rw [filter_cons_of_neg (by simp [hl])]
        have hmix : mixed σ τ t.atomCoeff.1 = t.atomCoeff.1.value σ := by
          rw [mixed, if_pos (show t.atomCoeff.1.var?.isSome = true from hl)]
        rw [hmix]
        omega
      · rw [filter_cons_of_pos (by simp [hn, hl])]
        have hmix : mixed σ τ t.atomCoeff.1 = t.atomCoeff.1.value τ := by
          rw [mixed, if_neg (show ¬t.atomCoeff.1.var?.isSome = true from hl)]
        rw [hmix, map_cons, map_cons, sum_cons, sum_cons, hcoeff σ, hcoeff τ]
        omega

/-- If the index of a view is linear in a counter, what a merge drops does not follow its axis. -/
lemma Axis.dropped_eq {front back : List Int} {c : Int}
    {T : SymInt} (hx : Axis front c back fi v bi idx) {lower : View}
    (hl : lower.Groups gs) (h : lower.addressFlat idx = .ok T) (hv : var v ∈ T.atoms)
    (hf : Inside front fp) (hj : 0 ≤ j ∧ j < c) (hb : Inside back bp) :
    droppedAt (fi ++ var v :: bi) T (fp ++ j :: bp) = droppedAt (fi ++ var v :: bi) T
      (fp ++ 0 :: bp) := by
  have hidx := hx.flat _ (inside_axis hf hj hb)
  have hT := (hl.addressFlat_delivers hidx).of_ok h
  have hgs := hl.steps
  simp only [addressFlat, hl.merged, ok_bind, bind_eq_ok] at h
  obtain ⟨terms, hterms, h⟩ := h
  have hdigits := (addressOuter_delivers hidx.regular hgs).of_ok hterms
  have hreg := (digits_means hgs hidx hdigits).1
  -- every term is a digit times its stride
  have hread : ∀ t ∈ terms, ∃ b ∈ digitsOf gs, ∃ f, Axis.Read front c back fi v bi b f ∧
      b.Reads idx f ∧ Fits b.stride ∧ f.times b.stride = .ok t := by
    intro t ht
    obtain ⟨b, hb, hfp, f, hf, ht⟩ := exists_of_mem_right hdigits ht
    have hb := mem_reverse.1 hb
    obtain ⟨hp, hbase, hfb, hst⟩ := digitsOf_pos hgs b hb
    exact ⟨b, hb, f, hx.read hp hfp hbase hfb hf, hf, hst, ht⟩
  have hreg' : ∀ t ∈ (if lower.offset = 0 then terms else num lower.offset :: terms),
      t.Regular (position (fi ++ var v :: bi) (fp ++ j :: bp)).scope := by
    split
    · exact hreg
    · exact forall_mem_cons.2 ⟨.num hl.offset_fits, hreg⟩
  -- one of them is linear in the counter
  obtain ⟨a, ha, e, hae, hre, hve⟩ : ∃ a ∈ digitsOf gs, ∃ e,
      Axis.Read front c back fi v bi a e ∧ a.Reads idx e ∧ var v ∈ e.atoms := by
    obtain ⟨t, ht, hvt⟩ := mem_flatMap.1 ((total_atoms hreg' h).subset hv)
    have ht : t ∈ terms := by
      split at ht
      · exact ht
      · obtain rfl | ht := mem_cons.1 ht
        · simp at hvt
        · exact ht
    obtain ⟨a, ha, e, hae, hre, hst, ht⟩ := hread t ht
    exact ⟨a, ha, e, hae, hre,
      (times_atoms (hae.value _ (inside_axis hf hj hb)).regular hst ht).subset hvt⟩
  have hmixed : T.gauge (mixed (valueAt (fi ++ var v :: bi) (fp ++ j :: bp))
      (valueAt (fi ++ var v :: bi) (fp ++ 0 :: bp))) =
      T.gauge (value (valueAt (fi ++ var v :: bi) (fp ++ j :: bp))) := by
    rw [total_gauge (respects_mixed _ _) hreg' h,
      total_gauge (φ := value (valueAt (fi ++ var v :: bi) (fp ++ j :: bp)))
        respects_value hreg' h]
    refine congrArg List.sum (map_congr_left fun t ht => ?_)
    have ht : t = num lower.offset ∨ t ∈ terms := by
      split at ht
      · exact .inr ht
      · exact mem_cons.1 ht
    obtain rfl | ht := ht
    · rw [gauge_num, gauge_num]
    · obtain ⟨b, hbm, f, hbf, hrf, hst, ht⟩ := hread t ht
      have hf' := (hbf.value _ (inside_axis hf hj hb)).regular
      have hab : a.Below b ∨ b.Below a ∨ e = f := by
        by_cases heq : a = b
        · subst heq
          exact .inr (.inr (hre.unique hrf))
        · exact (digitsOf_related ha hbm heq).imp_right .inl
      rw [times_gauge (respects_mixed _ _) hf' hst ht,
        times_gauge (φ := value (valueAt (fi ++ var v :: bi) (fp ++ j :: bp)))
          respects_value hf' hst ht,
        hx.read_mixed hae hve hbf hab hf hj hb]
  have := mixed_dropped hT.regular (valueAt (fi ++ var v :: bi) (fp ++ j :: bp))
    (valueAt (fi ++ var v :: bi) (fp ++ 0 :: bp))
  unfold droppedAt
  omega

/-! The index of a row-major view. -/

lemma strideWalk_rank {strides : List Int} {covered : Option Int}
    (h : (ofInts dims).strideWalk = .ok (some (strides, covered))) :
    covered = some dims.prod ∧ ∀ p, Inside dims p →
      (zipWith (· * ·) p strides).sum = Shape.rank dims p := by
  induction dims generalizing strides covered with
  | nil =>
    cases h
    refine ⟨rfl, fun p hp => ?_⟩
    cases hp
    rfl
  | cons d ds ih =>
    simp only [ofInts, map_cons, strideWalk, bind_eq_ok] at h
    obtain ⟨out, hout, h⟩ := h
    cases out with
    | none => cases h
    | some out =>
      obtain ⟨_, _⟩ := out
      obtain ⟨rfl, hrest⟩ := ih hout
      dsimp only at h
      split at h
      · rename_i h1
        cases h
        have hd := is_num.1 h1
        refine ⟨by simp [hd], fun p hp => ?_⟩
        cases hp with
        | @cons i _ is _ hi his =>
          rw [zipWith_cons_cons, sum_cons, hrest is his, Shape.rank]
          have hi0 : i = 0 := by omega
          rw [hi0]
          simp
      · simp only [num?, bind_eq_ok, mul_eq_ok, pure_eq_ok] at h
        obtain ⟨_, ⟨_, rfl⟩, h⟩ := h
        cases h
        refine ⟨by simp [mul_comm], fun p hp => ?_⟩
        cases hp with
        | @cons i _ is _ hi his =>
          rw [zipWith_cons_cons, sum_cons, hrest is his, Shape.rank]

lemma ofShape_rank {w : View} (h : View.ofShape (ofInts dims) = .ok w) (hp : Inside dims p) :
    w.offset = 0 ∧ (zipWith (· * ·) p w.strides).sum = Shape.rank dims p := by
  obtain ⟨_, strides, _, hwalk, h⟩ := ofShape_eq h
  obtain ⟨_, _, hs, ho, _⟩ := make_eq h
  exact ⟨ho, by rw [hs, products_dropUnitStrides hp.holds, (strideWalk_rank hwalk).2 p hp]⟩

lemma counters_once (hatom : ∀ e ∈ idxs, e.var? = none → e = num 0)
    (hn : (idxs.filterMap var?).Nodup) : (idxs.map (count (only u))).sum ≤ 1 := by
  have hcount : (idxs.map (count (only u))).sum = (idxs.filterMap var?).count u := by
    clear hn
    induction idxs with
    | nil => rfl
    | cons e idxs ih =>
      obtain ⟨he, hatom⟩ := forall_mem_cons.1 hatom
      rw [map_cons, sum_cons, ih hatom]
      cases hv : e.var? with
      | none =>
        rw [filterMap_cons_none hv, he hv, count_num, zero_add]
      | some v =>
        obtain rfl := eq_var_of_var? hv
        rw [filterMap_cons_some hv, count_cons, count_var, only, add_comm]
        by_cases huv : u = v
        · simp [huv]
        · simp [Ne.symm huv]
  rw [hcount]
  exact nodup_iff_count_le_one.1 hn u

lemma address_once {v : View} (hv : v.Sound) (hi : ∀ e ∈ idxs, e.Regular A.scope)
    (hatom : ∀ e ∈ idxs, e.var? = none → e = num 0) (hn : (idxs.filterMap var?).Nodup)
    (h : v.address idxs = .ok idx) : idx.count (only u) ≤ 1 := by
  unfold address at h
  split at h
  · cases h
  rename_i hlen
  simp only [bind_eq_ok] at h
  obtain ⟨terms, hterms, h⟩ := h
  have hall := forall₂_of_mapM (R := fun (t : (SymInt × SymInt) × Int) (e : SymInt) =>
    e.Regular A.scope ∧ e.count (only u) ≤ t.1.1.count (only u)) hterms fun t ht r hr => by
      obtain ⟨h1, h2⟩ := of_mem_zip (mem_of_mem_filter ht)
      have hreg := hi _ (of_mem_zip h1).1
      have hst := hv.strides_fit _ h2
      exact ⟨(times_means hreg.means hst hr).regular, count_le_of_atoms
        (times_atoms hreg hst hr)⟩
  have hreg : ∀ e ∈ terms, e.Regular A.scope := by
    intro e he
    obtain ⟨k, hk, rfl⟩ := getElem_of_mem he
    exact (hall.get (hall.length_eq ▸ hk) hk).1
  refine (total_count_le (forall_mem_cons.2 ⟨.num hv.offset_fits, hreg⟩) h).trans ?_
  rw [map_cons, sum_cons, count_num, zero_add]
  generalize hm : ((idxs.zip v.shape).zip v.strides).filter _ = moving at hall
  have hsub : (moving.map (fun t => t.1.1)).Sublist idxs := by
    have hzip : ((idxs.zip v.shape).zip v.strides).map (fun t => t.1.1) = idxs := by
      have hl := hv.strides_length
      have hlen : idxs.length = v.shape.length := not_not.1 hlen
      rw [show (fun t : (SymInt × SymInt) × Int => t.1.1) = Prod.fst ∘ Prod.fst from rfl,
        ← List.map_map, map_fst_zip (by simp only [length_zip]; omega), map_fst_zip (by omega)]
    rw [← hm]
    conv_rhs => rw [← hzip]
    exact filter_sublist.map _
  calc (terms.map (count (only u))).sum ≤ (moving.map (fun t => t.1.1.count (only u))).sum := by
        clear * - hall
        induction hall with
        | nil => exact le_rfl
        | cons h _ ih => simpa using Nat.add_le_add h.2 ih
    _ = ((moving.map (fun t => t.1.1)).map (count (only u))).sum := by rw [List.map_map]; rfl
    _ ≤ (idxs.map (count (only u))).sum := (hsub.map _).sum_le_sum (by simp)
    _ ≤ 1 := counters_once hatom hn

/-! Every position is kept. -/

lemma forall₂_append_cons {α β : Type} {R : α → β → Prop} {xs zs : List α} {a : α}
    {ys : List β} (h : Forall₂ R (xs ++ a :: zs) ys) : ∃ us b vs, ys = us ++ b :: vs ∧
      Forall₂ R xs us ∧ R a b ∧ Forall₂ R zs vs := by
  induction xs generalizing ys with
  | nil =>
    cases h with
    | cons hab hrest => exact ⟨[], _, _, rfl, .nil, hab, hrest⟩
  | cons x xs ih =>
    cases h with
    | cons hx hrest =>
      obtain ⟨us, b, vs, rfl, hus, hab, hvs⟩ := ih hrest
      exact ⟨_ :: us, b, vs, rfl, .cons hx hus, hab, hvs⟩

lemma atom_of_axisStride {shape : Shape} {a : Access} {k : Nat} {st : Int}
    (hc : Forall₂ Counts shape idxs) (ha : a.index.Regular A.scope)
    (hget : idxs[k]? = some (var v)) (hv : v ∈ a.index.vars)
    (h : axisStride a (a.index.parts.filterMap (strideOf idxs)) false k (var v) = some st) :
    var v ∈ a.index.atoms := by
  simp only [axisStride, var?] at h
  split at h
  · cases h
  rw [if_pos (contains_iff_mem.2 hv)] at h
  obtain ⟨⟨j, s⟩, hfind, rfl⟩ := map_eq_some_iff.1 h
  obtain ⟨t, ht, hs⟩ := mem_filterMap.1 (mem_reverse.1 (mem_of_find?_eq_some hfind))
  have hj : j = k := by simpa using find?_some hfind
  obtain ⟨_, hlin, hidx⟩ := strideOf_some hs
  rw [parts_eq_terms ha] at ht
  obtain ⟨u, hu, _, hatom, _, _⟩ := linear_term (ha.terms.1 t ht).1 hlin
  rw [hatom, hj] at hidx
  have huv : var u = var v := some.inj ((findIdx_counter hc hu hidx).symm.trans hget)
  rw [← huv, ← hatom]
  refine mem_map_of_mem (f := fun t => t.atomCoeff.1) (mem_filter.2 ⟨ht, ?_⟩)
  rw [linear_not_isNum hlin]
  rfl

lemma droppedAt_congr {q : List Int} (he : e.Regular A.scope)
    (h : ∀ v ∈ e.vars, valueAt idxs p v = valueAt idxs q v) :
    droppedAt idxs e p = droppedAt idxs e q := by
  refine congrArg List.sum (map_congr_left fun t ht => ?_)
  have ht := mem_of_mem_filter ht
  exact (he.terms.1 t (parts_eq_terms he ▸ ht)).1.value_congr fun v hv =>
    h v (occurrences_part ht hv)

section
variable {lower extra w : View} {gs : List (Int × Int)} {dims : List Int} (hl : lower.Groups gs)
  (hd : Extents dims) (he : View.ofShape (ofInts dims) = .ok extra)
  (hw : mergeViews lower extra = .ok (some w))
include hl hd he hw

/-- What a merge under a row-major view drops does not follow any axis. -/
lemma dropped_start {a : Access} (hidxs : extra.shape.counters = .ok idxs)
    (ha : access { top := extra, below := [lower] } idxs = .ok a)
    (hp : Inside dims (fp ++ j :: bp)) :
    droppedAt idxs a.index (fp ++ j :: bp) = droppedAt idxs a.index (fp ++ 0 :: bp) := by
  have hsized : (ofInts dims).Sized dims := ⟨rfl, hd⟩
  have hu := ofShape_sound hsized.written he
  have hshape := View.ofShape_shape he
  have hall (q : List Int) : extra.allows q = true := by rw [allows, ofShape_mask he]
  have hc := counters_count hidxs
  have hT := access_index hu hshape hp hl (hall _) hp hidxs ha
  obtain ⟨idx, hidx, haddr⟩ := access_address hu hshape hp (hall _) hidxs ha
  obtain ⟨_, _, _, a', _, hidxs', ha', hs, _⟩ := mergeViews_some hw
  cases hidxs.symm.trans hidxs'
  cases ha.symm.trans ha'
  -- the index before the merge counts positions, and uses each counter once
  have hflat (q : List Int) (hq : Inside dims q) : Means (position idxs q) idx
      (Shape.rank dims q) := by
    have hm := (address_delivers (N := True) hu (counters_at hidxs (hshape ▸ inside_counts hq))
      (hshape ▸ inside_units hq)).of_ok hidx
    rwa [(ofShape_rank he hq).1, (ofShape_rank he hq).2, zero_add] at hm
  have honce {u : Variable} : idx.count (only u) ≤ 1 := by
    refine address_once hu (regular_of_means (counters_at hidxs (hshape ▸ inside_counts hp)))
      (fun e he hn => ?_) (counters_distinct hidxs) hidx
    obtain ⟨k, hk, rfl⟩ := getElem_of_mem he
    exact (hc.get (hc.length_eq ▸ hk) hk).eq_zero hn
  obtain ⟨front, c, back, rfl, hf, hj, hb⟩ := forall₂_append_cons hp
  have hsplit := hc
  rw [hshape, ofInts, map_append, map_cons] at hsplit
  obtain ⟨fi, e, bi, rfl, hfi, hcount, hbi⟩ := forall₂_append_cons hsplit
  have hfl : fi.length = front.length := by simpa using hfi.length_eq.symm
  have hbl : bi.length = back.length := by simpa using hbi.length_eq.symm
  have hlen : fi.length = fp.length := hfl.trans hf.length_eq.symm
  by_cases hvar : ∃ v, e = var v ∧ v ∈ a.index.vars
  · obtain ⟨v, rfl, hv⟩ := hvar
    have hget : (fi ++ var v :: bi)[fi.length]? = some (var v) := by simp
    have hatom : var v ∈ a.index.atoms := by
      have hmap := congrArg (·[fi.length]?) (eq_map_some hs)
      simp only [getElem?_mapIdx, hget, map_some, getElem?_map] at hmap
      obtain ⟨st, _, hst⟩ := map_eq_some_iff.1 hmap.symm
      exact atom_of_axisStride hc hT.regular hget hv hst.symm
    have hc2 : 2 ≤ c := by
      obtain ⟨u, _, hlo, hhi, hu⟩ := hcount
      rw [hi_num] at hhi
      unfold ofVariable at hu
      split at hu
      · cases hu
      · omega
    have hx : Axis front c back fi v bi idx :=
      ⟨hfl, hbl, counters_distinct hidxs, hflat, honce, hc2, Inside.pos hf, Inside.pos hb⟩
    exact hx.dropped_eq hl haddr hatom hf hj hb
  · refine droppedAt_congr hT.regular fun v hv => valueAt_axis hlen ?_ j 0
    exact fun hev => hvar ⟨v, eq_var_of_var? hev, hv⟩

/-- A merge under a row-major view keeps every position. -/
lemma kept_of_rowMajor (hp : Inside dims p) : Kept lower extra p := by
  intro idxs a hidxs ha
  suffices hall : ∀ bp fp, Inside dims (fp ++ bp) →
      droppedAt idxs a.index (fp ++ bp) = droppedAt idxs a.index
        (fp ++ originOf bp) from hall p [] hp
  intro bp
  induction bp with
  | nil => exact fun fp _ => rfl
  | cons j bp ih =>
    intro fp hp
    have hstart : Inside dims (fp ++ [0] ++ bp) := by
      obtain ⟨_, c, _, rfl, hf, hj, hb⟩ := forall₂_append_cons hp
      rw [append_assoc]
      exact inside_axis hf ⟨le_rfl, lt_of_le_of_lt hj.1 hj.2⟩ hb
    have hrest := ih (fp ++ [0]) hstart
    rw [dropped_start hl hd he hw hidxs ha hp]
    simpa [originOf] using hrest

end

end Layout

end LazyTensor
