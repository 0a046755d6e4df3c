import LazyTensor.Proofs.SymInt.Expand
import LazyTensor.Proofs.SymInt.Expression
import LazyTensor.Texture

/-! Narrowing of variables by the conditions on an image. Each narrowed variable has the name of the
original and a range within its range; direct comparisons narrow away only values at which they
fail. -/
namespace LazyTensor
open VarMap

open Checked SymInt
variable {v : Variable} {valid : SymInt}

def Assignment.named (ρ : String → Int) : Assignment where
  scope v := v.Counts ∧ v.lo ≤ ρ v.name ∧ ρ v.name ≤ v.hi
  value v := ρ v.name
  lo_le _ h := h.2.1
  le_hi _ h := h.2.2

def Assignment.least : Assignment where
  scope v := v.Counts
  value v := v.lo
  lo_le _ _ := Int.le_refl _
  le_hi _ h := Int.le_of_lt h.lo_lt_hi

namespace Texture

/-! Narrowing. -/

section
variable {a : SymInt} {b m x : Int} {range r : Int × Int}

lemma narrowBy_shrinks (h : narrowBy a b range = .ok r) : range.1 ≤ r.1 ∧ r.2 ≤ range.2 := by
  unfold narrowBy at h
  split at h
  · split at h
    · simp only [bind_eq_ok, pure_eq_ok] at h
      obtain ⟨_, _, _, _, rfl⟩ := h
      exact ⟨le_max_left _ _, le_rfl⟩
    split at h
    · simp only [bind_eq_ok] at h
      obtain ⟨_, _, _, _, h⟩ := h
      split at h <;> simp only [bind_eq_ok, pure_eq_ok] at h <;> obtain ⟨_, _, rfl⟩ := h <;>
        exact ⟨le_rfl, min_le_left _ _⟩
    · cases h
      exact ⟨le_rfl, le_rfl⟩
  · simp only [bind_eq_ok, pure_eq_ok] at h
    obtain ⟨_, _, rfl⟩ := h
    exact ⟨le_rfl, min_le_left _ _⟩
  · cases h
    exact ⟨le_rfl, le_rfl⟩

lemma fdiv_lt_of_mul_lt (hm : m < 0) (h : x * m < b) : b.fdiv m < x := by
  rw [← Int.neg_fdiv_neg, Int.fdiv_eq_ediv_of_nonneg _ (by omega),
    Int.ediv_lt_iff_lt_mul (by omega), mul_neg]
  omega

/-- Narrowing keeps the value `x` of a variable where the comparison holds, as long as a multiple
is of something that lies on the right side of the variable. -/
lemma narrowBy_keeps {σ : Variable → Int} (h : narrowBy a b range = .ok r)
    (hvar : ∀ v, a = .var v → σ v = x)
    (hmul : ∀ e m, a = .mul e m → (m < 0 → e.value σ ≤ x) ∧ (0 < m → x ≤ e.value σ))
    (ha : a.value σ < b) (hx : range.1 ≤ x ∧ x ≤ range.2) : r.1 ≤ x ∧ x ≤ r.2 := by
  unfold narrowBy at h
  split at h
  · rename_i e m
    rw [value] at ha
    obtain ⟨hneg, hpos⟩ := hmul e m rfl
    split at h
    · rename_i hm
      simp only [bind_eq_ok, pure_eq_ok, floorDiv_eq_ok, add_eq_ok] at h
      obtain ⟨_, ⟨_, _, rfl⟩, _, ⟨_, rfl⟩, rfl⟩ := h
      have hle : x * m ≤ e.value σ * m := mul_le_mul_of_nonpos_right (hneg hm) (le_of_lt hm)
      have := fdiv_lt_of_mul_lt hm (by omega : x * m < b)
      exact ⟨max_le hx.1 (by omega), hx.2⟩
    split at h
    · rename_i hm
      have hle : x * m ≤ e.value σ * m := mul_le_mul_of_nonneg_right (hpos hm) (le_of_lt hm)
      simp only [bind_eq_ok, truncMod, pure_eq_ok] at h
      obtain ⟨q, hq, _, ⟨_, _, rfl⟩, h⟩ := h
      rw [floorDiv_pos hm hq] at h
      have hxm : x * m < b := by omega
      split at h
      · rename_i hdvd
        simp only [bind_eq_ok, pure_eq_ok, sub_eq_ok] at h
        obtain ⟨_, ⟨_, rfl⟩, rfl⟩ := h
        have hb : b / m * m = b := Int.ediv_mul_cancel (Int.dvd_iff_tmod_eq_zero.2 hdvd)
        have : x < b / m := lt_of_mul_lt_mul_right (by omega) (le_of_lt hm)
        exact ⟨hx.1, le_min hx.2 (by omega)⟩
      · obtain ⟨_, rfl, rfl⟩ := h
        exact ⟨hx.1, le_min hx.2 (Int.le_ediv_of_mul_le hm (le_of_lt hxm))⟩
    · cases h
      exact hx
  · rename_i v
    rw [value, hvar v rfl] at ha
    simp only [bind_eq_ok, pure_eq_ok, sub_eq_ok] at h
    obtain ⟨_, ⟨_, rfl⟩, rfl⟩ := h
    exact ⟨hx.1, le_min hx.2 (by omega)⟩
  · cases h
    exact hx

end

def isPart : SymInt → Bool
  | .div (.var _) _ | .mod (.var _) _ => true
  | _ => false

/-- A comparison narrows its only variable as if its multiple were one of the variable itself.
That is right where it is, and for a negative multiple of a quotient or remainder of it. -/
def direct : SymInt → Bool
  | .lt (.mul a m) _ => a.var?.isSome || (isPart a && m < 0) || a.vars.length ≠ 1
  | _ => true

lemma emod_le_self {x c : Int} (hx : 0 ≤ x) (hc : 0 < c) : x % c ≤ x := by
  have hsplit := Int.emod_add_mul_ediv x c
  have := mul_nonneg (le_of_lt hc) (Int.ediv_nonneg hx (le_of_lt hc))
  omega

lemma direct_mul {A : Assignment} {e : SymInt} {m b : Int} (hA : A.Nonneg) (he : e.Regular A.scope)
    (hd : direct (.lt (.mul e m) b) = true) (hv : e.vars = [v]) :
    (m < 0 → e.value A.value ≤ A.value v) ∧ (0 < m → A.value v ≤ e.value A.value) := by
  have hpos {w : Variable} (hw : A.scope w) : 0 ≤ A.value w := (hA w hw).trans (A.lo_le w hw)
  have hone : e.vars.length = 1 := by rw [hv, List.length_singleton]
  simp only [direct, hone, ne_eq, not_true_eq_false, decide_false, Bool.or_false,
    Bool.or_eq_true, Bool.and_eq_true, decide_eq_true_eq] at hd
  obtain hd | ⟨hd, hm⟩ := hd
  · cases e with
    | var w =>
      obtain rfl : w = v := by simpa [vars] using hv
      rw [value]
      exact ⟨fun _ => le_rfl, fun _ => le_rfl⟩
    | num _ | mul _ _ | div _ _ | mod _ _ | lt _ _ | sum _ | conj _ => cases hd
  · refine ⟨fun _ => ?_, fun h => absurd h (by omega)⟩
    unfold isPart at hd
    split at hd
    · rename_i w c
      obtain rfl : w = v := by simpa [vars] using hv
      cases he with
      | div ha _ hc _ _ =>
        cases ha with
        | var _ _ hs =>
          rw [value, value]
          exact Int.ediv_le_self c (hpos hs)
    · rename_i w c
      obtain rfl : w = v := by simpa [vars] using hv
      cases he with
      | mod ha _ hc _ _ =>
        cases ha with
        | var _ _ hs =>
          rw [value, value]
          exact emod_le_self (hpos hs) (by omega)
    · cases hd

/-- A step changes at most the range of the comparison's only variable. -/
lemma narrowStep_cases {ranges ranges' : VarMap (Int × Int)} {c : SymInt}
    (h : narrowStep ranges c = .ok ranges') (x : Variable × (Int × Int)) (hx : x ∈ ranges') :
    x ∈ ranges ∨ ∃ a b range, c = .lt a b ∧ c.vars = [x.1] ∧ (x.1, range) ∈ ranges ∧
      narrowBy a b range = .ok x.2 := by
  unfold narrowStep at h
  split at h
  · rename_i a b
    split at h
    · rename_i v hv
      split at h
      · rename_i range hrange
        simp only [bind_eq_ok, pure_eq_ok] at h
        obtain ⟨r, hr, rfl⟩ := h
        obtain rfl | hx := mem_put hx
        · exact .inr ⟨a, b, range, rfl, hv, mem_of_value? hrange, hr⟩
        · exact .inl hx
      · cases h
        exact .inl hx
    · cases h
      exact .inl hx
  · cases h
    exact .inl hx

/-- A narrowed variable has the name of the original and a range within that of the original. -/
structure Narrows (v : Variable) (w : SymInt) (lo hi : Int) : Prop where
  eq_var : w = .var ⟨v.name, lo, hi⟩
  le_lo : v.lo ≤ lo
  lo_lt_hi : lo < hi
  hi_le : hi ≤ v.hi

/-- Every narrowed range comes out of the fold over the comparisons, so it has every property that
the full ranges have and that each comparison keeps. -/
lemma narrowed_cases {sub : VarMap SymInt} (h : narrowed valid = .ok sub)
    (P : Variable → Int × Int → Prop) (start : ∀ v ∈ valid.vars, P v (v.lo, v.hi))
    (step : ∀ a b v range r, .lt a b ∈ valid.conditions → vars (.lt a b) = [v] →
      P v range → narrowBy a b range = .ok r → P v r) (x :
      Variable × SymInt) (hx : x ∈ sub) :
    ∃ lo hi, Narrows x.1 x.2 lo hi ∧ P x.1 (lo, hi) := by
  simp only [narrowed, bind_eq_ok] at h
  obtain ⟨ranges, hranges, h⟩ := h
  have hall : ∀ y ∈ ranges, (y.1.lo ≤ y.2.1 ∧ y.2.2 ≤ y.1.hi) ∧ P y.1 y.2 := by
    refine foldlM_induction (fun ranges : VarMap (Int × Int) =>
      ∀ y ∈ ranges, (y.1.lo ≤ y.2.1 ∧ y.2.2 ≤ y.1.hi) ∧ P y.1 y.2) ?_ ?_ hranges
    · intro ranges c _ hc hold hstep y hy
      obtain hy | ⟨a, b, range, rfl, hv, hin, hr⟩ := narrowStep_cases hstep y hy
      · exact hold y hy
      · obtain ⟨hb, hP⟩ := hold _ hin
        have hs := narrowBy_shrinks hr
        exact ⟨⟨hb.1.trans hs.1, hs.2.trans hb.2⟩, step a b y.1 range y.2 hc hv hP hr⟩
    · refine ofEntries_induction (fun y hy => ?_)
      obtain ⟨v, hv, rfl⟩ := List.mem_map.1 hy
      exact ⟨⟨le_rfl, le_rfl⟩, start v hv⟩
  obtain ⟨y, hy, h⟩ := exists_of_mapM h hx
  obtain ⟨v, lo, hi⟩ := y
  obtain ⟨hin, _⟩ := List.mem_filter.1 hy
  have hlt : lo < hi := by simp_all
  simp only [counter, Variable.counter, if_pos (le_of_lt hlt), bind_eq_ok, pure_eq_ok,
    ok_eq_ok] at h
  obtain ⟨_, ⟨_, rfl, rfl⟩, rfl⟩ := h
  obtain ⟨hb, hP⟩ := hall _ hin
  refine ⟨lo, hi, ⟨?_, hb.1, hlt, hb.2⟩, hP⟩
  rw [ofVariable, if_neg (ne_of_lt hlt)]

lemma narrowBy_overflow (a : SymInt) (b : Int) (range : Int × Int) :
    OnlyOverflow (narrowBy a b range) := by
  unfold narrowBy
  split
  · split
    · exact (OnlyOverflow.floorDiv _ _).bind (fun _ _ => .word_bind
        (fun _ _ => .pure _))
    split
    · refine (OnlyOverflow.floorDiv _ _).bind (fun _ _ => ?_)
      refine OnlyOverflow.bind ?_ (fun _ _ => ?_)
      · unfold truncMod truncDiv
        split
        · exact .arithmetic
        · exact (OnlyOverflow.word _).bind (fun _ _ => .pure _)
      · split
        · exact (OnlyOverflow.word _).bind (fun _ _ => .pure _)
        · exact (OnlyOverflow.pure _).bind (fun _ _ => .pure _)
    · exact .ok _
  · exact (OnlyOverflow.word _).bind (fun _ _ => .pure _)
  · exact .ok _

lemma narrowStep_overflow (ranges : VarMap (Int × Int)) (c : SymInt) :
    OnlyOverflow (narrowStep ranges c) := by
  unfold narrowStep
  split
  · split
    · split
      · exact (narrowBy_overflow _ _ _).bind (fun _ _ => .pure _)
      · exact .ok _
    · exact .ok _
  · exact .ok _

lemma narrowed_overflow (valid : SymInt) : OnlyOverflow (narrowed valid) := by
  refine (OnlyOverflow.foldlM narrowStep_overflow _ _).bind (fun ranges _ => ?_)
  refine OnlyOverflow.mapM (fun x hx => ?_)
  obtain ⟨v, lo, hi⟩ := x
  have hlt : lo < hi := by
    have := (List.mem_filter.1 hx).2
    simp_all
  simp only [counter, Variable.counter, if_pos (le_of_lt hlt)]
  exact .ok _

/-- Every variable that the condition narrows has its value in the narrowed range. -/
def Within (valid : SymInt) (ρ : String → Int) : Prop :=
  ∀ sub, narrowed valid = .ok sub → ∀ x ∈ sub, x.2.lo ≤ ρ x.1.name ∧
    ρ x.1.name ≤ x.2.hi

/-- A condition whose comparisons are direct narrows away only values at which it fails. -/
lemma within_of_direct {ρ : String → Int} (hv : valid.Condition (Assignment.named ρ).scope)
    (hone : valid.value (Assignment.named ρ).value = 1)
    (hd : ∀ c ∈ valid.conditions, direct c = true) : Within valid ρ := by
  intro sub hsub x hx
  have hstep (a : SymInt) (b : Int) (v : Variable) (range r : Int × Int)
      (hc : .lt a b ∈ valid.conditions) (hvars : vars (.lt a b) = [v])
      (hrange : range.1 ≤ ρ v.name ∧ ρ v.name ≤ range.2)
        (hby : narrowBy a b range = .ok r) :
      r.1 ≤ ρ v.name ∧ ρ v.name ≤ r.2 := by
    obtain ⟨hcond, hall⟩ := hv.conditions
    have hholds := (hall _).1 hone _ hc
    have ha : a.Regular (Assignment.named ρ).scope := by
      cases (hcond _ hc).1 with
      | test ht =>
        obtain ⟨_, _, heq, ha, _⟩ := ht.open_lt
        cases heq
        exact ha
    replace hvars : a.vars = [v] := hvars
    refine narrowBy_keeps (σ := (Assignment.named ρ).value) hby ?_ ?_ ?_ hrange
    · rintro w rfl
      obtain rfl : w = v := by simpa [vars] using hvars
      rfl
    · rintro e m rfl
      cases ha with
      | mul he _ _ _ _ _ _ =>
        exact direct_mul (A := Assignment.named ρ) (fun _ h => h.1.nonneg) he (hd _ hc) hvars
    · rw [value] at hholds
      by_contra hlt
      rw [if_neg hlt] at hholds
      cases hholds
  have hstart (v : Variable) (hm : v ∈ valid.vars) : v.lo ≤ ρ v.name ∧ ρ v.name ≤ v.hi :=
    (hv.scope_of_mem (mem_vars.1 hm)).2
  obtain ⟨lo, hi, hn, hP⟩ := narrowed_cases hsub
    (fun v range => range.1 ≤ ρ v.name ∧ ρ v.name ≤ range.2) hstart hstep x hx
  rw [hn.eq_var, lo_var, hi_var]
  exact hP

/-! Replacing the narrowed variables. -/

section
variable {ρ : String → Int} {valid e r : SymInt} {sub : VarMap SymInt}

/-- Replacements, each one a narrowed form of the variable it stands for. -/
def Replaces (sub : VarMap SymInt) : Prop := ∀ x ∈ sub, ∃ lo hi, Narrows x.1 x.2 lo hi

lemma narrowed_replaces (h : narrowed valid = .ok sub) : Replaces sub := by
  intro x hx
  obtain ⟨lo, hi, hn, _⟩ := narrowed_cases h (fun _ _ => True) (fun _ _ => trivial)
    (fun _ _ _ _ _ _ _ _ _ => trivial) x hx
  exact ⟨lo, hi, hn⟩

lemma Replaces.image (h : Replaces sub) (hv : v.Counts) :
    ∃ w : Variable, SymInt.image sub v = .var w ∧ w.name = v.name ∧ w.Counts ∧
      v.lo ≤ w.lo ∧
      w.hi ≤ v.hi ∧ (w = v ∨ (v, .var w) ∈ sub) := by
  rw [SymInt.image]
  cases hw : value? sub v with
  | none => exact ⟨v, rfl, rfl, hv, le_rfl, le_rfl, .inl rfl⟩
  | some w =>
    have hin := mem_of_value? hw
    obtain ⟨lo, hi, hn⟩ := h _ hin
    obtain rfl : w = .var ⟨v.name, lo, hi⟩ := hn.eq_var
    have hlo : v.lo ≤ lo := hn.le_lo
    have hhi : hi ≤ v.hi := hn.hi_le
    have hlt : lo < hi := hn.lo_lt_hi
    have hfl := hv.proper.lo_fits.between hv.proper.hi_fits hlo (by omega)
    have hfh := hv.proper.lo_fits.between hv.proper.hi_fits (by omega) hhi
    exact ⟨⟨v.name, lo, hi⟩, rfl, rfl,
      ⟨⟨hv.proper.named, hfl, hfh⟩, hv.nonneg.trans hlo, hlt⟩, hlo, hhi, .inr hin⟩

lemma Replaces.means (h : Replaces sub)
    (hin : ∀ x ∈ sub, x.2.lo ≤ ρ x.1.name ∧ ρ x.1.name ≤ x.2.hi) (v : Variable)
    (hv : (Assignment.named ρ).scope v) :
    Means (Assignment.named ρ) (SymInt.image sub v) ((Assignment.named ρ).value v) := by
  obtain ⟨w, hw, hname, hc, _, _, hor⟩ := h.image hv.1
  rw [hw]
  have hscope : (Assignment.named ρ).scope w := by
    obtain rfl | hmem := hor
    · exact hv
    · have := hin _ hmem
      rw [lo_var, hi_var] at this
      exact ⟨hc, hname ▸ this⟩
  refine ⟨.var hc.proper hc.lo_lt_hi hscope, ?_⟩
  simp only [SymInt.value, Assignment.named, hname]

def Replaces.least (h : Replaces sub) : Assignment where
  scope v := v.Counts
  value v := (SymInt.image sub v).lo
  lo_le v hv := by
    obtain ⟨w, hw, _, _, hlo, _⟩ := h.image hv
    rw [hw, lo_var]
    exact hlo
  le_hi v hv := by
    obtain ⟨w, hw, _, hc, _, hhi, _⟩ := h.image hv
    rw [hw, lo_var]
    exact (le_of_lt hc.lo_lt_hi).trans hhi

lemma Replaces.least_means (h : Replaces sub) (v : Variable) (hv : h.least.scope v) :
    Means Assignment.least (SymInt.image sub v) (h.least.value v) := by
  obtain ⟨w, hw, _, hc, _⟩ := h.image hv
  simp only [Replaces.least, hw, lo_var]
  refine ⟨.var hc.proper hc.lo_lt_hi hc, ?_⟩
  simp only [SymInt.value, Assignment.least]

end

end Texture

end LazyTensor
