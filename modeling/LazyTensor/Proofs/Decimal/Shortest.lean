import LazyTensor.Decimal.Shortest
import LazyTensor.Proofs.Checked
import Mathlib.Algebra.Order.Field.Rat
import Mathlib.Algebra.Order.Field.Power
import Mathlib.Data.Nat.Cast.Order.Field
import Mathlib.Tactic.FieldSimp
import Mathlib.Tactic.Positivity

/-! Shortest digits. The decimal that is found lies among the numbers that round to the given one,
seventeen digits are always enough, and no decimal lies among those of two numbers of the format. -/
namespace LazyTensor.Decimal
variable {n m : Nat} {q : ℚ} {e f : Int}
variable {k : Nat} {i : Interval}

def Interval.Holds (i : Interval) (q : ℚ) : Prop :=
  if i.closed then i.lo * 2 ^ i.e ≤ q ∧ q ≤ i.hi * 2 ^ i.e
  else i.lo * 2 ^ i.e < q ∧ q < i.hi * 2 ^ i.e

lemma zpow_eq_div (b : ℚ) (z : ℤ) : b ^ z = b ^ z.toNat / b ^ (-z).toNat := by
  obtain hz | hz := le_total 0 z
  · obtain ⟨n, rfl⟩ := Int.eq_ofNat_of_zero_le hz
    simp
  · obtain ⟨n, hn⟩ := Int.eq_ofNat_of_zero_le (Int.neg_nonneg_of_nonpos hz)
    obtain rfl : z = -(n : ℤ) := by omega
    simp

namespace Interval
variable {i : Interval} {g : Int}

/-- One step of the grid and one unit of the interval, over a common denominator. -/
def step (i : Interval) (g : Int) : Nat := Nat.pow 10 g.toNat * Nat.pow 2 (-i.e).toNat

def unit (i : Interval) (g : Int) : Nat := Nat.pow 2 i.e.toNat * Nat.pow 10 (-g).toNat

lemma unit_pos (i : Interval) (g : Int) : 0 < i.unit g :=
  Nat.mul_pos (Nat.pow_pos (by decide)) (Nat.pow_pos (by decide))

lemma step_mul (i : Interval) (g : Int) : (i.step g : ℚ) * 2 ^ i.e = i.unit g * 10 ^ g := by
  rw [zpow_eq_div 2, zpow_eq_div 10, step, unit]
  push_cast
  simp only [Nat.pow_eq, Nat.cast_pow, Nat.cast_ofNat]
  field_simp

section
variable (i g) (a k : Nat)

lemma unit_scaled : ((a * i.unit g : Nat) : ℚ) * 2 ^ i.e = i.unit g * (a * 2 ^ i.e) := by
  push_cast
  ring

lemma step_scaled : ((k * i.step g : Nat) : ℚ) * 2 ^ i.e = i.unit g * (k * 10 ^ g) := by
  push_cast
  rw [mul_assoc, i.step_mul g]
  ring

lemma unit_le_step : a * i.unit g ≤ k * i.step g ↔ (a : ℚ) * 2 ^ i.e ≤ k * 10 ^ g := by
  have h2 : (0 : ℚ) < 2 ^ i.e := by positivity
  have hu : (0 : ℚ) < i.unit g := by exact_mod_cast i.unit_pos g
  rw [← Nat.cast_le (α := ℚ), ← mul_le_mul_iff_left₀ h2, unit_scaled, step_scaled,
    mul_le_mul_iff_right₀ hu]

lemma step_le_unit : k * i.step g ≤ a * i.unit g ↔ (k : ℚ) * 10 ^ g ≤ a * 2 ^ i.e := by
  have h2 : (0 : ℚ) < 2 ^ i.e := by positivity
  have hu : (0 : ℚ) < i.unit g := by exact_mod_cast i.unit_pos g
  rw [← Nat.cast_le (α := ℚ), ← mul_le_mul_iff_left₀ h2, unit_scaled, step_scaled,
    mul_le_mul_iff_right₀ hu]

end

def inside (i : Interval) (g : Int) (k : Nat) : Bool :=
  if i.closed then i.lo * i.unit g ≤ k * i.step g && k * i.step g ≤ i.hi * i.unit g
  else i.lo * i.unit g < k * i.step g && k * i.step g < i.hi * i.unit g

lemma holds_of_inside (h : i.inside g k = true) : i.Holds (k * 10 ^ g) := by
  unfold inside at h
  unfold Holds
  split at h
  · next hc =>
    simp only [Bool.and_eq_true, decide_eq_true_eq] at h
    rw [if_pos hc]
    exact ⟨(unit_le_step ..).1 h.1, (step_le_unit ..).1 h.2⟩
  · next hc =>
    simp only [Bool.and_eq_true, decide_eq_true_eq, ← not_le] at h
    rw [if_neg hc, ← not_le, ← not_le]
    exact ⟨fun hle => h.1 ((step_le_unit ..).2 hle), fun hle => h.2 ((unit_le_step ..).2 hle)⟩

lemma onGrid_eq (i : Interval) (g : Int) : i.onGrid g =
    let d := i.mid * i.unit g / i.step g
    match i.inside g d && d != 0, i.inside g (d + 1) with
    | true, true =>
      some (if i.mid * i.unit g - d * i.step g < (d + 1) * i.step g - i.mid * i.unit g
        then d else d + 1)
    | true, false => some d
    | false, true => some (d + 1)
    | false, false => none := rfl

lemma holds_of_onGrid (h : i.onGrid g = some k) : i.Holds (k * 10 ^ g) ∧ k ≠ 0 := by
  rw [onGrid_eq] at h
  dsimp only at h
  split at h
  · next hd hs =>
    simp only [Bool.and_eq_true, bne_iff_ne] at hd
    split at h <;> cases h
    · exact ⟨holds_of_inside hd.1, hd.2⟩
    · exact ⟨holds_of_inside hs, Nat.succ_ne_zero _⟩
  · next hd hs =>
    simp only [Bool.and_eq_true, bne_iff_ne] at hd
    cases h
    exact ⟨holds_of_inside hd.1, hd.2⟩
  · next hd hs =>
    cases h
    exact ⟨holds_of_inside hs, Nat.succ_ne_zero _⟩
  · cases h

lemma onGrid_isSome {w : Nat} (hlo : i.mid = i.lo + w) (hhi : i.hi = i.mid + 2)
    (hstep : i.step g < (w + 2) * i.unit g) (hmid : i.step g ≤ i.mid * i.unit g) :
    (i.onGrid g).isSome = true := by
  have hpos : 0 < i.step g := Nat.mul_pos (Nat.pow_pos (by decide)) (Nat.pow_pos (by decide))
  have hmod := Nat.div_add_mod (i.mid * i.unit g) (i.step g)
  have hlt := Nat.mod_lt (i.mid * i.unit g) hpos
  have hd : i.mid * i.unit g / i.step g ≠ 0 := (Nat.div_pos hmid hpos).ne'
  have hunit := i.unit_pos g
  have hM : i.mid * i.unit g = i.lo * i.unit g + w * i.unit g := by rw [hlo, Nat.add_mul]
  have hH : i.hi * i.unit g = i.mid * i.unit g + 2 * i.unit g := by rw [hhi, Nat.add_mul]
  have hW : (w + 2) * i.unit g = w * i.unit g + 2 * i.unit g := Nat.add_mul ..
  rw [onGrid_eq]
  generalize i.mid * i.unit g / i.step g = d at *
  generalize i.mid * i.unit g % i.step g = r at *
  have hD : (d + 1) * i.step g = d * i.step g + i.step g := Nat.succ_mul ..
  rw [Nat.mul_comm] at hmod
  -- the middle lies between two multiples, and the gap around it is wider than they are apart
  have hin : i.inside g d = true ∨ i.inside g (d + 1) = true := by
    unfold inside
    by_cases hr : r < w * i.unit g
    · left
      split <;> simp only [Bool.and_eq_true, decide_eq_true_eq] <;> omega
    · right
      split <;> simp only [Bool.and_eq_true, decide_eq_true_eq] <;> omega
  have hd : (d != 0) = true := bne_iff_ne.2 hd
  dsimp only
  obtain h | h := hin
  · rw [h, hd]
    cases i.inside g (d + 1) <;> rfl
  · rw [h, hd]
    cases i.inside g d <;> rfl

end Interval

lemma search_holds {top : Int} {digits : Nat} (hn : 0 < n)
    (h : (i.onGrid (top + 1 - (digits + n - 1 : Nat))).isSome = true) :
    i.Holds ((search i top digits n).1 * 10 ^ (search i top digits n).2) ∧
      (search i top digits n).1 ≠ 0 := by
  induction n generalizing digits with
  | zero => cases hn
  | succ n ih =>
    rw [search]
    split
    · next d hd => exact Interval.holds_of_onGrid hd
    · next hnone =>
      obtain rfl | hn := Nat.eq_zero_or_pos n
      · rw [show digits + (0 + 1) - 1 = digits by omega, hnone] at h
        cases h
      · exact ih hn (by rw [show digits + 1 + n - 1 = digits + (n + 1) - 1 by omega]; exact h)

lemma strip_value (n d : Nat) (g : Int) :
    ((strip n d g).1 : ℚ) * 10 ^ (strip n d g).2 = d * 10 ^ g ∧
      (d ≠ 0 → (strip n d g).1 ≠ 0) := by
  induction n generalizing d g with
  | zero => exact ⟨rfl, id⟩
  | succ n ih =>
    rw [strip]
    split
    · next h =>
      obtain ⟨hval, hne⟩ := ih (d / 10) (g + 1)
      refine ⟨?_, fun _ => hne (by omega)⟩
      have hd : (d : ℚ) = (d / 10 : Nat) * 10 := by
        exact_mod_cast (Nat.div_mul_cancel (Nat.dvd_of_mod_eq_zero h.1)).symm
      rw [hval, zpow_add_one₀ (by norm_num), hd]
      ring
    · exact ⟨rfl, id⟩

lemma digitCount_le (hn : 0 < n) : 10 ^ (digitCount n - 1) ≤ n ∧ n < 10 ^ digitCount n := by
  have hpos := Nat.length_toDigits_pos (b := 10) (n := n)
  rw [digitCount, if_neg hn.ne']
  refine ⟨?_, (Nat.length_toDigits_le_iff (by decide) hpos).1 le_rfl⟩
  by_contra hlt
  obtain h1 | h1 := Nat.eq_zero_or_pos ((Nat.toDigits 10 n).length - 1)
  · rw [h1] at hlt
    omega
  · have := (Nat.length_toDigits_le_iff (b := 10) (by decide) h1).2 (not_le.1 hlt)
    omega

lemma digitCount_pos (hn : 0 < n) : 0 < digitCount n := by
  rw [digitCount, if_neg hn.ne']
  exact Nat.length_toDigits_pos

lemma pow_digitCount_le (hn : 0 < n) : (10 : ℚ) ^ ((digitCount n : ℤ) - 1) ≤ n := by
  have hd := digitCount_pos hn
  rw [show (digitCount n : ℤ) - 1 = ((digitCount n - 1 : Nat) : ℤ) by omega, zpow_natCast]
  exact_mod_cast (digitCount_le hn).1

lemma pow_leading_le (hn : 0 < n) (e : Int) : (10 : ℚ) ^ leading n e ≤ n * 2 ^ e := by
  unfold leading
  split
  · next he =>
    have hpos : 0 < n * Nat.pow 2 e.toNat := Nat.mul_pos hn (Nat.pow_pos (by decide))
    refine (pow_digitCount_le hpos).trans (le_of_eq ?_)
    push_cast
    rw [zpow_eq_div 2, show (-e).toNat = 0 by omega]
    simp
  · next he =>
    have hscale : (n : ℚ) * 2 ^ e = n / (Nat.pow 2 (-e).toNat : Nat) := by
      rw [zpow_eq_div 2, show e.toNat = 0 by omega]
      simp [div_eq_mul_inv]
    rw [hscale]
    have hd : 0 < Nat.pow 2 (-e).toNat := Nat.pow_pos (by decide)
    generalize Nat.pow 2 (-e).toNat = d at *
    have hdq : (0 : ℚ) < d := by exact_mod_cast hd
    dsimp only
    split
    · next hle =>
      exact (pow_digitCount_le (Nat.div_pos hle hd)).trans Nat.cast_div_le
    · next hlt =>
      have hq : 0 < (d + n - 1) / n - 1 := by
        have : 2 ≤ (d + n - 1) / n := (Nat.le_div_iff_mul_le hn).2 (by omega)
        omega
      have hup := (digitCount_le hq).2
      have hceil : d ≤ n * 10 ^ digitCount ((d + n - 1) / n - 1) := by
        have hle : (d + n - 1) / n ≤ 10 ^ digitCount ((d + n - 1) / n - 1) := by omega
        have hmul := Nat.div_add_mod (d + n - 1) n
        have hmod := Nat.mod_lt (d + n - 1) hn
        calc d ≤ n * ((d + n - 1) / n) := by omega
          _ ≤ _ := Nat.mul_le_mul_left n hle
      rw [zpow_neg, zpow_natCast, inv_eq_one_div, div_le_div_iff₀ (by positivity) hdq, one_mul]
      exact_mod_cast hceil

/-- The digits of a positive number of the format lie among those that round to it. -/
lemma shortest_holds (hm : 0 < m) (hlt : m < 2 ^ 53) (e : Int) : (Interval.around .double m e).Holds
      ((shortest .double m e).1 * 10 ^ (shortest .double m e).2) ∧
        (shortest .double m e).1 ≠ 0 := by
  have hgrid : ((Interval.around .double m e).onGrid
      (leading (4 * m) (e - 2) + 1 - (1 + 17 - 1 : Nat))).isSome = true := by
    have hlead := pow_leading_le (n := 4 * m) (by omega) (e - 2)
    generalize leading (4 * m) (e - 2) = top at *
    rw [show top + 1 - ((1 + 17 - 1 : Nat) : Int) = top - 16 by omega]
    -- seventeen digits: the grid has at most a fraction `10 ^ -16` of the number for a step
    have hscale : 10 ^ 16 * (Interval.around .double m e).step (top - 16) ≤
        4 * m * (Interval.around .double m e).unit (top - 16) := by
      rw [Interval.step_le_unit]
      refine le_trans (le_of_eq ?_) hlead
      rw [zpow_sub₀ (by norm_num)]
      norm_num
      ring
    have hunit := (Interval.around .double m e).unit_pos (top - 16)
    have hmid : (Interval.around .double m e).mid = 4 * m := rfl
    have hhi : (Interval.around .double m e).hi = 4 * m + 2 := rfl
    have hmul : m * (Interval.around .double m e).unit (top - 16) ≤
        2 ^ 53 * (Interval.around .double m e).unit (top - 16) := Nat.mul_le_mul_right _ hlt.le
    rw [Nat.mul_assoc] at hscale
    by_cases hedge : m = Nat.pow 2 52 ∧ -1074 < e
    · have hlo : (Interval.around .double m e).lo = 4 * m - 1 := if_pos hedge
      have hpower : m * (Interval.around .double m e).unit (top - 16) =
          2 ^ 52 * (Interval.around .double m e).unit (top - 16) :=
        congrArg (· * (Interval.around .double m e).unit (top - 16)) hedge.1
      refine Interval.onGrid_isSome (w := 1) (by rw [hmid, hlo]; omega) hhi ?_ ?_
      · omega
      · rw [hmid, Nat.mul_assoc]
        omega
    · have hlo : (Interval.around .double m e).lo = 4 * m - 2 := if_neg hedge
      refine Interval.onGrid_isSome (w := 2) (by rw [hmid, hlo]; omega) hhi ?_ ?_
      · omega
      · rw [hmid, Nat.mul_assoc]
        omega
  obtain ⟨hholds, hne⟩ := search_holds (by decide : 0 < 17) hgrid
  obtain ⟨hval, hstrip⟩ := strip_value 18
    (search (Interval.around .double m e) (leading (4 * m) (e - 2)) 1 17).1
    (search (Interval.around .double m e) (leading (4 * m) (e - 2)) 1 17).2
  refine ⟨?_, hstrip hne⟩
  rw [← hval] at hholds
  exact hholds

/-- A number of the double format: as few leading zeros as the least exponent allows. -/
structure Canonical (m : Nat) (e : Int) : Prop where
  lt : m < 2 ^ 53
  le : -1074 ≤ e
  full : m < 2 ^ 52 → e = -1074

lemma Interval.Holds.le (h : i.Holds q) : i.lo * 2 ^ i.e ≤ q ∧ q ≤ i.hi * 2 ^ i.e := by
  unfold Interval.Holds at h
  split at h
  · exact h
  · exact ⟨h.1.le, h.2.le⟩

lemma Interval.Holds.meet {j : Interval} (hi : i.Holds q) (hj : j.Holds q) :
    (j.lo : ℚ) * 2 ^ j.e < i.hi * 2 ^ i.e ∨ i.closed = true ∧ j.closed = true := by
  unfold Interval.Holds at hi hj
  split at hi <;> split at hj
  · next hci hcj => exact .inr ⟨hci, hcj⟩
  · exact .inl (hj.1.trans_le hi.2)
  · exact .inl (hj.1.trans_lt hi.2)
  · exact .inl (hj.1.trans hi.2)

lemma scaled_le {a b : Nat} (h : e ≤ f) :
    ((a : ℚ) * 2 ^ (f - 2) ≤ b * 2 ^ (e - 2) ↔ a * 2 ^ (f - e).toNat ≤ b) ∧
      ((a : ℚ) * 2 ^ (f - 2) < b * 2 ^ (e - 2) ↔ a * 2 ^ (f - e).toNat < b) := by
  have hpow : (2 : ℚ) ^ (f - 2) = 2 ^ (f - e).toNat * 2 ^ (e - 2) := by
    rw [← zpow_natCast, ← zpow_add₀ (by norm_num)]
    congr 1
    omega
  have hpos : (0 : ℚ) < 2 ^ (e - 2) := by positivity
  rw [hpow, ← mul_assoc, mul_le_mul_iff_left₀ hpos, mul_lt_mul_iff_left₀ hpos]
  exact ⟨by exact_mod_cast Iff.rfl, by exact_mod_cast Iff.rfl⟩

lemma around_lt (hm : Canonical m e) (hn : Canonical n f) (hn0 : 0 < n)
    (h : e < f ∨ e = f ∧ m < n) (hq : (Interval.around .double m e).Holds q)
    (hq' : (Interval.around .double n f).Holds q) : False := by
  have hle := hq'.le.1.trans hq.le.2
  have hmeet := hq.meet hq'
  have hef : e ≤ f := by omega
  simp only [Interval.around, scaled_le hef, beq_iff_eq] at hle hmeet
  have hlo : 4 * n - 2 ≤ (if n = Nat.pow 2 52 ∧ -1074 < f then 4 * n - 1 else 4 * n - 2) := by
    split <;> omega
  obtain h | ⟨rfl, hlt⟩ := h
  · have htwo : 2 ≤ 2 ^ (f - e).toNat := by
      rw [show (f - e).toNat = (f - e).toNat - 1 + 1 by omega, Nat.pow_succ]
      have := Nat.one_le_two_pow (n := (f - e).toNat - 1)
      omega
    have hfull : 2 ^ 52 ≤ n := by
      by_contra hlt
      have := hn.full (by omega)
      have := hm.le
      omega
    have hge : 2 ^ 54 - 1 ≤
        (if n = Nat.pow 2 52 ∧ -1074 < f then 4 * n - 1 else 4 * n - 2) := by
      have := hm.le
      split
      · omega
      · next hedge =>
        have : n ≠ 2 ^ 52 := fun heq => hedge ⟨heq, by omega⟩
        omega
    have hmul := Nat.mul_le_mul hge htwo
    have := hm.lt
    simp only [show Binary.Format.double.fraction = 52 from rfl,
      show Binary.Format.double.least = -1074 from rfl] at hle hmeet
    omega
  · simp only [show Binary.Format.double.fraction = 52 from rfl,
      show Binary.Format.double.least = -1074 from rfl, sub_self, Int.toNat_zero, pow_zero,
      mul_one] at hle hmeet
    omega

/-- No number lies in the intervals of two numbers of the format. -/
lemma around_unique (hm : Canonical m e) (hn : Canonical n f) (hm0 : 0 < m) (hn0 : 0 < n)
    (hq : (Interval.around .double m e).Holds q) (hq' : (Interval.around .double n f).Holds q) :
    m = n ∧ e = f := by
  by_contra hne
  have hcases : (e < f ∨ e = f ∧ m < n) ∨ f < e ∨ f = e ∧ n < m := by omega
  obtain h | h := hcases
  · exact around_lt hm hn hn0 h hq hq'
  · exact around_lt hn hm hm0 h hq' hq

end LazyTensor.Decimal
