import LazyTensor.Proofs.View.Position
import Mathlib.Tactic.LinearCombination

/-! Digits along an axis. A row-major index is `y + e * j + c * e * k` where `j` counts along one
axis. If one digit of the index grows evenly with `j`, the whole axis fits into the digit, so that
no other digit moves. -/
namespace LazyTensor.Shape

/-- The digit of place `i` and base `d` is `r * j` more at `j` than at the start of the axis. -/
def Even (i d e c m r : Int) : Prop :=
  ∀ y j k, 0 ≤ y → y < e → 0 ≤ j → j < c → 0 ≤ k → k < m →
    (y + e * j + c * e * k) / i % d = (y + c * e * k) / i % d + r * j

namespace Even

variable {i d e c m r a : Int}

section
variable (h : Even i d e c m r) (hi : 0 < i) (hd : 0 < d) (he : 0 < e) (hc : 2 ≤ c) (hm : 0 < m)
  (hr : r ≠ 0)
include h he hc hm

lemma step : e / i % d = r := by
  have := h 0 1 0 le_rfl he (by omega) (by omega) le_rfl hm
  simpa using this

include hi hd hr

lemma dvd : i ∣ e := by
  have hstep := h.step he hc hm
  have hle : i ≤ e := by
    by_contra hlt
    rw [Int.ediv_eq_zero_of_lt he.le (by omega), Int.zero_emod] at hstep
    exact hr hstep.symm
  by_contra hnot
  have hpos : 0 < e % i := by
    have h0 := Int.emod_nonneg e hi.ne'
    have hne : e % i ≠ 0 := fun h0 => hnot (Int.dvd_of_emod_eq_zero h0)
    omega
  have hlt := Int.emod_lt_of_pos e hi
  have hnext := h (i - e % i) 1 0 (by omega) (by omega) (by omega) (by omega) le_rfl hm
  have hsum : i - e % i + e * 1 + c * e * 0 = (e / i + 1) * i := by
    linear_combination -(Int.emod_add_mul_ediv e i)
  rw [hsum, mul_zero, add_zero, Int.mul_ediv_cancel _ hi.ne',
    Int.ediv_eq_zero_of_lt (by omega : 0 ≤ i - e % i) (by omega), Int.zero_emod,
    zero_add, mul_one,
    ← hstep] at hnext
  have hsub := Int.emod_eq_emod_iff_emod_sub_eq_zero.1 hnext
  rw [add_sub_cancel_left] at hsub
  have hd1 : d = 1 := by
    have := Int.le_of_dvd one_pos (Int.dvd_of_emod_eq_zero hsub)
    omega
  rw [hd1, Int.emod_one] at hstep
  exact hr hstep.symm

end

/-! Steps that are a multiple of the place. -/

section
variable (h : Even i d (a * i) c m r) (hi : 0 < i) (hd : 0 < d) (ha : 0 < a) (hc : 2 ≤ c)
  (hm : 0 < m) (hr : r ≠ 0)
include h hi

lemma scaled {y j k : Int} (hy : 0 ≤ y) (hya : y < a) (hj : 0 ≤ j) (hjc : j < c) (hk : 0 ≤ k)
    (hkm : k < m) : (y + a * j + c * a * k) % d = (y + c * a * k) % d + r * j := by
  have := h (y * i) j k (mul_nonneg hy hi.le) (mul_lt_mul_of_pos_right hya hi) hj hjc hk hkm
  rwa [show y * i + a * i * j + c * (a * i) * k = (y + a * j + c * a * k) * i by ring,
    show y * i + c * (a * i) * k = (y + c * a * k) * i by ring, Int.mul_ediv_cancel _ hi.ne',
    Int.mul_ediv_cancel _ hi.ne'] at this

include hd ha hc hm hr

lemma step_lt : a < d ∧ r = a := by
  have hstep : a % d = r := by simpa using h.scaled hi le_rfl ha zero_le_one (by omega) le_rfl hm
  have hr0 : 0 < r := by
    have := Int.emod_nonneg a hd.ne'
    omega
  have hrd : r < d := hstep ▸ Int.emod_lt_of_pos a hd
  have hlt : a < d := by
    by_contra hge
    have hturn := h.scaled hi (show 0 ≤ d - r by omega) (show d - r < a by omega) zero_le_one
      (by omega) le_rfl hm
    have hwhole : d - r + a * 1 + c * a * 0 = d * (a / d + 1) := by
      linear_combination -(Int.emod_add_mul_ediv a d) + hstep
    rw [hwhole, Int.mul_emod_right, mul_zero, add_zero,
      Int.emod_eq_of_lt (by omega) (by omega)] at hturn
    omega
  exact ⟨hlt, by rw [← hstep, Int.emod_eq_of_lt ha.le hlt]⟩

lemma axis_le : c * a ≤ d := by
  obtain ⟨hlt, rfl⟩ := h.step_lt hi hd ha hc hm hr
  have hlast := h.scaled hi (show 0 ≤ r - 1 by omega) (by omega) (show 0 ≤ c - 1 by omega)
    (by omega) le_rfl hm
  rw [mul_zero, add_zero, add_zero, Int.emod_eq_of_lt (by omega : 0 ≤ r - 1) (by omega),
    show r - 1 + r * (c - 1) = c * r - 1 by ring] at hlast
  have := Int.emod_lt_of_pos (c * r - 1) hd
  omega

lemma axis_dvd : c * a ∣ d ∨ c * a * m ≤ d := by
  by_contra hnot
  obtain ⟨hdvd, _⟩ := not_or.1 hnot
  have hle := h.axis_le hi hd ha hc hm hr
  obtain ⟨hlt, rfl⟩ := h.step_lt hi hd ha hc hm hr
  have hq : 0 < c * r := mul_pos (by omega) ha
  obtain ⟨t, s, hdt, hs0, hsq⟩ : ∃ t s, d = c * r * t + s ∧ 0 < s ∧ s < c * r := by
    refine ⟨d / (c * r), d % (c * r), (Int.mul_ediv_add_emod d (c * r)).symm, ?_,
      Int.emod_lt_of_pos d hq⟩
    have h0 := Int.emod_nonneg d hq.ne'
    have hne : d % (c * r) ≠ 0 := fun h0 => hdvd (Int.dvd_of_emod_eq_zero h0)
    omega
  have ht0 : 0 ≤ t := by
    by_contra hneg
    have : c * r * t ≤ c * r * (-1) := mul_le_mul_of_nonneg_left (by omega) hq.le
    omega
  have htm : t < m := by
    by_contra hge
    have : c * r * m ≤ c * r * t := mul_le_mul_of_nonneg_left (by omega) hq.le
    omega
  have hturns : 0 ≤ c * r * t := mul_nonneg hq.le ht0
  -- the digit turns over inside turn `t`, either at a later step or within the first one
  obtain ⟨j, u, hsj, hu0, hur⟩ : ∃ j u, s = r * j + u ∧ 0 ≤ u ∧ u < r :=
    ⟨s / r, s % r, (Int.mul_ediv_add_emod s r).symm, Int.emod_nonneg s ha.ne',
      Int.emod_lt_of_pos s ha⟩
  have hj0 : 0 ≤ j := by
    by_contra hneg
    have : r * j ≤ r * (-1) := mul_le_mul_of_nonneg_left (by omega) ha.le
    omega
  have hjc : j < c := by
    by_contra hge
    have : r * c ≤ r * j := mul_le_mul_of_nonneg_left (by omega) ha.le
    rw [mul_comm r c] at this
    omega
  by_cases hzero : j = 0
  · subst hzero
    have hturn := h.scaled hi le_rfl ha zero_le_one (by omega : 1 < c) ht0 htm
    rw [zero_add, zero_add, mul_one, Int.emod_eq_of_lt hturns (by omega),
      show r + c * r * t = r - s + d * 1 by linear_combination -hdt, Int.add_mul_emod_self_left,
      Int.emod_eq_of_lt (by omega) (by omega)] at hturn
    omega
  · have hrj : r * 1 ≤ r * j := mul_le_mul_of_nonneg_left (by omega) ha.le
    have hturn := h.scaled hi hu0 hur hj0 hjc ht0 htm
    rw [show u + r * j + c * r * t = d by linear_combination -hdt - hsj, Int.emod_self,
      Int.emod_eq_of_lt (by omega) (by omega)] at hturn
    omega

end

/-- The place divides the steps, and turns of the axis fill the digit unless the index never
passes it. -/
lemma fits (h : Even i d e c m r) (hi : 0 < i) (hd : 0 < d) (he : 0 < e) (hc : 2 ≤ c)
    (hm : 0 < m) (hr : r ≠ 0) : i ∣ e ∧ (c * e ∣ d * i ∨ c * e * m ≤ d * i) := by
  have hdvd := h.dvd hi hd he hc hm hr
  refine ⟨hdvd, ?_⟩
  obtain ⟨a, rfl⟩ := hdvd
  have ha : 0 < a := pos_of_mul_pos_right he hi.le
  rw [mul_comm i a] at h ⊢
  refine (h.axis_dvd hi hd ha hc hm hr).imp (fun hfill => ?_) (fun hfill => ?_)
  · rw [← mul_assoc]
    exact mul_dvd_mul_right hfill i
  · calc c * (a * i) * m = c * a * m * i := by ring
      _ ≤ d * i := mul_le_mul_of_nonneg_right hfill hi.le

end Even

/-! The digits beside an even one. -/

lemma digit_below {i d e x j : Int} (hi : 0 < i) (hdvd : d * i ∣ e) :
    (x + e * j) / i % d = x / i % d := by
  obtain ⟨k, rfl⟩ := hdvd
  rw [show x + d * i * k * j = x + d * (k * j) * i by ring, Int.add_mul_ediv_right _ _ hi.ne',
    Int.add_mul_emod_self_left]

lemma digit_above {w i d e c m y j k : Int} (hw : 0 < w) (hdvd : w ∣ i) (he : 0 < e) (hc : 0 < c)
    (hfill : c * e ∣ w ∨ c * e * m ≤ w) (hy : 0 ≤ y) (hye : y < e) (hj : 0 ≤ j)
    (hjc : j < c) (hk : 0 ≤ k) (hkm : k < m) :
    (y + e * j + c * e * k) / i % d = (y + c * e * k) / i % d := by
  have hce : 0 < c * e := mul_pos hc he
  have hej : 0 ≤ e * j := mul_nonneg he.le hj
  have hbound : y + e * j < c * e := by
    have : e * j ≤ e * (c - 1) := mul_le_mul_of_nonneg_left (by omega) he.le
    linarith
  have hturn : (y + e * j + c * e * k) / w = (y + c * e * k) / w := by
    obtain ⟨n, rfl⟩ | _ := hfill
    · rw [← Int.ediv_ediv_of_nonneg hce.le, ← Int.ediv_ediv_of_nonneg hce.le,
        Int.add_mul_ediv_left _ _ hce.ne', Int.add_mul_ediv_left _ _ hce.ne',
        Int.ediv_eq_zero_of_lt (by omega) hbound, Int.ediv_eq_zero_of_lt hy (by omega)]
    · have : c * e * k ≤ c * e * (m - 1) := mul_le_mul_of_nonneg_left (by omega) hce.le
      have h0 : 0 ≤ c * e * k := mul_nonneg hce.le hk
      rw [Int.ediv_eq_zero_of_lt (by omega) (by linarith),
        Int.ediv_eq_zero_of_lt (by omega) (by linarith)]
  obtain ⟨n, rfl⟩ := hdvd
  rw [← Int.ediv_ediv_of_nonneg hw.le, hturn, Int.ediv_ediv_of_nonneg hw.le]

end LazyTensor.Shape
