import LazyTensor.Proofs.Checked
import LazyTensor.SymInt.Substitute
import Mathlib.Algebra.Order.BigOperators.Group.List

/-! The meaning of an index in exact integers, and the shape every index has that the library
builds. -/
namespace LazyTensor
open SymInt Option List

open Checked
variable {ps : List SymInt} {a : SymInt} {c : Int} {A : Assignment} {vals : Bindings}

/-- Names that can be read back from a key, and a range of words. -/
structure Variable.Proper (v : Variable) : Prop where
  named : v.name = "" ∨ Variable.isIdentifier v.name = true
  lo_fits : Fits v.lo
  hi_fits : Fits v.hi

/-- Values for the variables of a scope, each one within its range. -/
structure Assignment where
  scope : Variable → Prop
  value : Variable → Int
  lo_le : ∀ v, scope v → v.lo ≤ value v
  le_hi : ∀ v, scope v → value v ≤ v.hi

def Assignment.Nonneg (A : Assignment) : Prop := ∀ v, A.scope v → 0 ≤ v.lo

namespace SymInt

attribute [simp] occurrences occurrencesAll

mutual

/-- Value in exact integers, with quotients rounded down and remainders that are not negative. -/
def value (σ : Variable → Int) : SymInt → Int
  | num n => n
  | var v => σ v
  | mul a c => a.value σ * c
  | div a c => a.value σ / c
  | mod a c => a.value σ % c
  | lt a c => if a.value σ < c then 1 else 0
  | sum ps => valueSum σ ps
  | conj ps => if valueAll σ ps then 1 else 0

def valueSum (σ : Variable → Int) : List SymInt → Int
  | [] => 0
  | p :: ps => p.value σ + valueSum σ ps

@[simp] def valueAll (σ : Variable → Int) : List SymInt → Bool
  | [] => true
  | p :: ps => p.value σ != 0 && valueAll σ ps

end

section
attribute [local simp] value range

section
variable (σ : Variable → Int)

lemma valueSum_eq (ps : List SymInt) : valueSum σ ps = (ps.map (value σ)).sum := by
  induction ps with
  | nil => rfl
  | cons p ps ih => simp [valueSum, ih]

lemma valueAll_eq (ps : List SymInt) : valueAll σ ps = true ↔
    ∀ p ∈ ps, p.value σ ≠ 0 := by
  induction ps with
  | nil => simp
  | cons p ps ih => simp [ih]

@[simp] lemma value_num (n : Int) : (num n).value σ = n := by
  rw [value]

lemma value_sum (ps : List SymInt) : (sum ps).value σ = (ps.map (value σ)).sum := by
  rw [value, valueSum_eq]

end

lemma rangeSum_eq (ps : List SymInt) : rangeSum ps = ((ps.map lo).sum, (ps.map hi).sum) := by
  induction ps with
  | nil => rfl
  | cons p ps ih => simp [rangeSum, ih, lo, hi]

lemma rangeConj_bounds (h : ps ≠ []) :
    (∃ p ∈ ps, p.lo = (rangeConj ps).1) ∧ (∃ p ∈ ps, p.hi = (rangeConj ps).2) ∧
      ∀ p ∈ ps, (rangeConj ps).1 ≤ p.lo ∧ p.hi ≤ (rangeConj ps).2 := by
  induction ps with
  | nil => exact absurd rfl h
  | cons p ps ih =>
    cases ps with
    | nil => simp [rangeConj, lo, hi]
    | cons q ps =>
      obtain ⟨⟨l, hl, el⟩, ⟨r, hr, er⟩, hb⟩ := ih (by simp)
      have e1 : (rangeConj (p :: q :: ps)).1 = min p.lo (rangeConj (q :: ps)).1 := by
        simp [rangeConj, lo]
      have e2 : (rangeConj (p :: q :: ps)).2 = max p.hi (rangeConj (q :: ps)).2 := by
        simp [rangeConj, hi]
      rw [e1, e2]
      refine ⟨?_, ?_, ?_⟩
      · obtain hle | hle := le_total p.lo (rangeConj (q :: ps)).1
        · exact ⟨p, mem_cons_self, by omega⟩
        · exact ⟨l, mem_cons_of_mem p hl, by omega⟩
      · obtain hle | hle := le_total p.hi (rangeConj (q :: ps)).2
        · exact ⟨r, mem_cons_of_mem p hr, by omega⟩
        · exact ⟨p, mem_cons_self, by omega⟩
      · intro x hx
        obtain rfl | hx := mem_cons.1 hx
        · omega
        · have := hb x hx
          omega

@[simp] lemma lo_num (n : Int) : (num n).lo = n := by simp [lo]

@[simp] lemma hi_num (n : Int) : (num n).hi = n := by simp [hi]

@[simp] lemma lo_var (v : Variable) : (var v).lo = v.lo := by simp [lo]

@[simp] lemma hi_var (v : Variable) : (var v).hi = v.hi := by simp [hi]

lemma lo_sum (ps : List SymInt) : (sum ps).lo = (ps.map lo).sum := by
  simp [lo, rangeSum_eq]

lemma hi_sum (ps : List SymInt) : (sum ps).hi = (ps.map hi).sum := by
  simp [hi, rangeSum_eq]

lemma range_mul (a : SymInt) (c : Int) :
    (0 ≤ c ∧ (mul a c).lo = a.lo * c ∧ (mul a c).hi = a.hi * c) ∨
      (c < 0 ∧ (mul a c).lo = a.hi * c ∧ (mul a c).hi = a.lo * c) := by
  by_cases hc : 0 ≤ c
  · exact .inl ⟨hc, by simp [lo, hc], by simp [hi, hc]⟩
  · exact .inr ⟨by omega, by simp [lo, hi, hc], by simp [lo, hi, hc]⟩

lemma lo_div (hc : 0 < c) : (div a c).lo = a.lo / c := by
  simp [lo, Int.fdiv_eq_ediv_of_nonneg _ (le_of_lt hc)]

lemma hi_div (hc : 0 < c) : (div a c).hi = a.hi / c := by
  simp [hi, Int.fdiv_eq_ediv_of_nonneg _ (le_of_lt hc)]

end

/-- A remainder runs through everything, or through the part its dividend allows. -/
lemma range_mod (hc : 0 < c) :
    ((c ≤ a.hi - a.lo ∨ a.hi % c ≤ a.lo % c) ∧ (mod a c).lo = 0 ∧
      (mod a c).hi = c - 1) ∨
      (a.hi - a.lo < c ∧ a.lo % c < a.hi % c ∧ (mod a c).lo = a.lo % c ∧
        (mod a c).hi = a.hi % c) := by
  have hf (x : Int) : x.fmod c = x % c := Int.fmod_eq_emod_of_nonneg x (le_of_lt hc)
  by_cases h : c ≤ a.hi - a.lo ∨ a.hi % c ≤ a.lo % c
  · refine .inl ⟨h, ?_, ?_⟩
    · rw [lo, range]
      simp only [hf]
      rw [if_pos (by simpa [lo, hi] using h)]
    · rw [hi, range]
      simp only [hf]
      rw [if_pos (by simpa [lo, hi] using h)]
  · refine .inr ⟨by omega, by omega, ?_, ?_⟩
    · rw [lo, range]
      simp only [hf]
      rw [if_neg (by simpa [lo, hi] using h)]
      rfl
    · rw [hi, range]
      simp only [hf]
      rw [if_neg (by simpa [lo, hi] using h)]
      rfl

lemma lo_lt_hi_mod (hc : 1 < c) : (mod a c).lo < (mod a c).hi := by
  obtain ⟨_, el, eh⟩ | ⟨_, hm, el, eh⟩ := range_mod (a := a) (by omega : 0 < c)
  · omega
  · omega

lemma emod_between {lo hi v : Int} (hc : 0 < c) (hl : lo ≤ v) (hh : v ≤ hi)
    (hw : hi - lo < c) (hm : lo % c < hi % c) : lo % c ≤ v % c ∧ v % c ≤ hi % c := by
  have hlv : lo / c ≤ v / c := Int.ediv_le_ediv hc hl
  have hvh : v / c ≤ hi / c := Int.ediv_le_ediv hc hh
  have el := Int.emod_add_mul_ediv lo c
  have ev := Int.emod_add_mul_ediv v c
  have eh := Int.emod_add_mul_ediv hi c
  have hsame : hi / c ≤ lo / c := by
    by_contra hlt
    have h1 : c * (lo / c + 1) ≤ c * (hi / c) :=
      mul_le_mul_of_nonneg_left (by omega) (le_of_lt hc)
    rw [mul_add, mul_one] at h1
    omega
  have h1 : v / c = lo / c := by omega
  have h2 : hi / c = lo / c := by omega
  rw [h1] at ev
  rw [h2] at eh
  omega

/-- What a multiple may be a multiple of. -/
def isAtom : SymInt → Bool
  | var _ | div _ _ | mod _ _ => true
  | _ => false

@[simp] def isSum : SymInt → Bool
  | sum _ => true
  | _ => false

lemma isSum_or (e : SymInt) : e.isSum = false ∨ ∃ ps, e = sum ps := by
  cases e <;> simp

/-- The form in which indices are built. Numerators are never negative, multiples are of atoms,
sums are flat with one term for each atom, and every word that computing the value passes
through is known to fit. -/
inductive Regular (scope : Variable → Prop) : SymInt → Prop
  | num {n : Int} : Fits n → Regular scope (num n)
  | var {v : Variable} : v.Proper → v.lo < v.hi → scope v → Regular scope (var v)
  | mul {a : SymInt} {c : Int} : Regular scope a → a.isAtom = true → c ≠ 0 →
      c ≠ 1 → Fits c →
      Fits (a.lo * c) → Fits (a.hi * c) → Regular scope (mul a c)
  | div {a : SymInt} {c : Int} : Regular scope a → 0 ≤ a.lo → 1 < c → Fits c →
      (div a c).lo < (div a c).hi → Regular scope (div a c)
  | mod {a : SymInt} {c : Int} : Regular scope a → 0 ≤ a.lo → 1 < c → Fits c →
      a.lo < a.hi → Regular scope (mod a c)
  | sum {ps : List SymInt} {s t : Int} : (∀ p ∈ ps, Regular scope p) →
      (∀ p ∈ ps, p.isSum = false) → 2 ≤ ps.length →
      ((ps.filter (fun p => !p.isNum)).map (fun p => p.atomCoeff.1.key)).Nodup →
      Checked.sum (ps.map lo) = .ok s → Checked.sum (ps.map hi) = .ok t → Regular scope (sum ps)

namespace Regular
variable {scope : Variable → Prop} {e : SymInt}

section
variable (h : e.Regular scope)
include h

lemma mono {other : Variable → Prop} (hs : ∀ v, scope v → other v) : e.Regular other := by
  induction h with
  | num h => exact .num h
  | var hp hl hv => exact .var hp hl (hs _ hv)
  | mul _ ha h0 h1 hc hl hh ih => exact .mul ih ha h0 h1 hc hl hh
  | div _ h0 hc hf hr ih => exact .div ih h0 hc hf hr
  | mod _ h0 hc hf hr ih => exact .mod ih h0 hc hf hr
  | sum _ hn h2 hk hl hh ih => exact .sum ih hn h2 hk hl hh

lemma lo_le_hi_fits : e.lo ≤ e.hi ∧ Fits e.lo ∧ Fits e.hi := by
  induction h with
  | num h => simpa using h
  | var hp hl _ => simpa using ⟨le_of_lt hl, hp.lo_fits, hp.hi_fits⟩
  | @mul a c _ _ _ _ _ hl hh ih =>
    obtain ⟨hc, el, eh⟩ | ⟨hc, el, eh⟩ := range_mul a c
    · rw [el, eh]
      exact ⟨mul_le_mul_of_nonneg_right ih.1 hc, hl, hh⟩
    · rw [el, eh]
      exact ⟨mul_le_mul_of_nonpos_right ih.1 (le_of_lt hc), hh, hl⟩
  | @div a c _ h0 hc _ hr ih =>
    rw [lo_div (by omega), hi_div (by omega)] at hr ⊢
    have hl0 : 0 ≤ a.lo / c := Int.ediv_nonneg h0 (by omega)
    have hh : a.hi / c ≤ a.hi := Int.ediv_le_self c (by omega)
    exact ⟨le_of_lt hr, fits_zero.between ih.2.2 hl0 (by omega),
      fits_zero.between ih.2.2 (by omega) hh⟩
  | @mod a c _ _ hc hf _ _ =>
    have hcpos : 0 < c := by omega
    refine ⟨le_of_lt (lo_lt_hi_mod hc), ?_⟩
    obtain ⟨_, el, eh⟩ | ⟨_, _, el, eh⟩ := range_mod (a := a) hcpos
    · rw [el, eh]
      exact ⟨fits_zero, fits_zero.between hf (by omega) (by omega)⟩
    · rw [el, eh]
      have hm (x : Int) : Fits (x % c) := fits_zero.between hf (Int.emod_nonneg x (by omega))
        (le_of_lt (Int.emod_lt_of_pos x hcpos))
      exact ⟨hm _, hm _⟩
  | sum _ _ _ _ hl hh ih =>
    rw [lo_sum, hi_sum]
    exact ⟨sum_le_sum (fun p hp => (ih p hp).1), sum_eq hl ▸ sum_fits hl,
      sum_eq hh ▸ sum_fits hh⟩

lemma lo_le_hi : e.lo ≤ e.hi := h.lo_le_hi_fits.1

lemma lo_fits : Fits e.lo := h.lo_le_hi_fits.2.1

lemma hi_fits : Fits e.hi := h.lo_le_hi_fits.2.2

end

lemma value_between (h : e.Regular A.scope) : e.lo ≤ e.value A.value ∧
    e.value A.value ≤ e.hi := by
  induction h with
  | num _ => simp
  | var _ _ hv =>
    rw [value, lo_var, hi_var]
    exact ⟨A.lo_le _ hv, A.le_hi _ hv⟩
  | @mul a c _ _ _ _ _ _ _ ih =>
    rw [value]
    obtain ⟨hc, el, eh⟩ | ⟨hc, el, eh⟩ := range_mul a c
    · rw [el, eh]
      exact ⟨mul_le_mul_of_nonneg_right ih.1 hc, mul_le_mul_of_nonneg_right ih.2 hc⟩
    · rw [el, eh]
      exact ⟨mul_le_mul_of_nonpos_right ih.2 (le_of_lt hc),
        mul_le_mul_of_nonpos_right ih.1 (le_of_lt hc)⟩
  | @div a c _ _ hc _ _ ih =>
    rw [value, lo_div (by omega), hi_div (by omega)]
    exact ⟨Int.ediv_le_ediv (by omega) ih.1, Int.ediv_le_ediv (by omega) ih.2⟩
  | @mod a c _ _ hc _ _ ih =>
    have hcpos : 0 < c := by omega
    rw [value]
    obtain ⟨_, el, eh⟩ | ⟨hw, hm, el, eh⟩ := range_mod (a := a) hcpos
    · have h0 := Int.emod_nonneg (a.value A.value) (by omega : c ≠ 0)
      have h1 := Int.emod_lt_of_pos (a.value A.value) hcpos
      omega
    · rw [el, eh]
      exact emod_between hcpos ih.1 ih.2 hw hm
  | sum _ _ _ _ _ _ ih =>
    rw [value_sum, lo_sum, hi_sum]
    exact ⟨sum_le_sum (fun p hp => (ih p hp).1), sum_le_sum (fun p hp => (ih p hp).2)⟩

end Regular

/-- Sums are computed term by term. Every partial sum lies between those of the lower and of
the upper ends, which fit. -/
lemma evalSum_eq {σ : Variable → Int}
    (hps : ∀ p ∈ ps, p.eval vals = .ok (some (p.value σ)) ∧ p.lo ≤ p.value σ ∧
      p.value σ ≤ p.hi)
    {accLo acc accHi s t : Int} (hlo : accLo ≤ acc) (hhi : acc ≤ accHi)
    (hs : (ps.map lo).foldlM add accLo = .ok s)
    (ht : (ps.map hi).foldlM add accHi = .ok t) :
    evalSum vals acc ps = .ok (some (acc + (ps.map (value σ)).sum)) := by
  induction ps generalizing accLo acc accHi with
  | nil => simp [evalSum]
  | cons p ps ih =>
    obtain ⟨hp, hpl, hph⟩ := hps p mem_cons_self
    obtain ⟨_, hl, hs⟩ := foldlM_cons_eq_ok.1 hs
    obtain ⟨_, hh, ht⟩ := foldlM_cons_eq_ok.1 ht
    obtain ⟨hfl, rfl⟩ := add_eq_ok.1 hl
    obtain ⟨hfh, rfl⟩ := add_eq_ok.1 hh
    have hstep : add acc (p.value σ) = .ok (acc + p.value σ) :=
      add_eq_ok.2 ⟨hfl.between hfh (by omega) (by omega), rfl⟩
    have hrest := ih (fun q hq => hps q (mem_cons_of_mem p hq))
      (by omega : accLo + p.lo ≤ acc + p.value σ)
        (by omega : acc + p.value σ ≤ accHi + p.hi) hs ht
    rw [evalSum, hp]
    change (add acc (p.value σ) >>= fun x => evalSum vals x ps) = _
    rw [hstep]
    change evalSum vals (acc + p.value σ) ps = _
    rw [hrest, map_cons, sum_cons, add_assoc]

end SymInt

/-- Computing the value of a built index under bindings that give the assigned values never fails
and gives its exact value. -/
lemma SymInt.Regular.eval_eq {e : SymInt}
    (h : e.Regular A.scope) (hv : ∀ v, A.scope v → VarMap.value? vals v = some (A.value v)) :
    e.eval vals = .ok (some (e.value A.value)) := by
  induction h with
  | num _ => simp [eval]
  | var _ _ hs => simp [eval, value, hv _ hs]
  | @mul a c ha _ _ _ _ hl hh ih =>
    have hb := ha.value_between
    have hfit : Fits (a.value A.value * c) := by
      by_cases hc : 0 ≤ c
      · exact hl.between hh (mul_le_mul_of_nonneg_right hb.1 hc)
          (mul_le_mul_of_nonneg_right hb.2 hc)
      · exact hh.between hl (mul_le_mul_of_nonpos_right hb.2 (by omega))
          (mul_le_mul_of_nonpos_right hb.1 (by omega))
    have hm := mul_eq_ok.2 ⟨hfit, rfl⟩
    rw [eval, ih, value]
    simp [bind, Except.bind, mapM_some, hm, Functor.map, Except.map]
  | @div a c ha h0 hc _ _ ih =>
    have hb := ha.value_between
    have hd := floorDiv_of_nonneg (b := c) (by omega : 0 ≤ a.value A.value) (by omega)
      (ha.lo_fits.between ha.hi_fits hb.1 hb.2)
    rw [eval, ih, value]
    simp [bind, Except.bind, mapM_some, hd, Functor.map, Except.map]
  | @mod a c ha h0 hc _ _ ih =>
    have hb := ha.value_between
    have hm := floorMod_of_nonneg (b := c) (by omega : 0 ≤ a.value A.value) (by omega)
      (ha.lo_fits.between ha.hi_fits hb.1 hb.2)
    rw [eval, ih, value]
    simp [bind, Except.bind, mapM_some, hm, Functor.map, Except.map]
  | sum hps _ _ _ hl hh ih =>
    rw [eval, value_sum]
    have hsum :=
      evalSum_eq (fun p hp => ⟨ih p hp, (hps p hp).value_between⟩) le_rfl le_rfl hl hh
    rw [hsum, zero_add]

end LazyTensor
