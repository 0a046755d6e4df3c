import LazyTensor.Proofs.SymInt.Closed
import LazyTensor.Proofs.SymInt.Steps

/-! Substitution. An index in which variables were replaced has the value of the original where
they have the values of their replacements; with every variable bound it is a number. -/
namespace LazyTensor
open Option VarMap

open Checked
variable {v : Variable}

lemma mem_foldl_unseen {xs seen : List Variable} :
    v ∈ xs.foldl (fun seen v => if seen.contains v then seen else seen ++ [v]) seen ↔
      v ∈ seen ∨ v ∈ xs := by
  induction xs generalizing seen with
  | nil => simp
  | cons x xs ih =>
    rw [List.foldl_cons, ih]
    split
    · grind
    · grind

namespace SymInt
variable {A B : Assignment} {e r : SymInt}
variable {m : VarMap SymInt} {b : Int} {scope : Variable → Prop}

lemma substitute_delivers (hm : ∀ v, A.scope v → Means B (image m v) (A.value v))
    (he : e.Regular A.scope) :
    Delivers B.Nonneg (e.substitute m) (Means B · (e.value A.value)) := by
  induction he with
  | num hf => exact .ok (by simpa using means_num hf)
  | @var v _ _ hs =>
    rw [value]
    exact .ok (hm v hs)
  | mul _ _ _ _ hf _ _ ih =>
    rw [substitute, value]
    exact ih.bind fun _ hx => times_delivers hx hf
  | div _ _ hc hf _ ih =>
    rw [substitute, value]
    exact ih.bind fun _ hx => quotient_delivers hx (by omega) hf
  | mod _ _ hc hf _ ih =>
    rw [substitute, value]
    exact ih.bind fun _ hx => remainder_delivers hx (by omega) hf
  | sum _ _ _ _ _ _ ih =>
    rw [substitute, substituteAll_eq, value_sum]
    refine (Delivers.mapM ih).bind fun qs hqs => ?_
    obtain ⟨hreg, hsum⟩ := means_all hqs
    exact hsum ▸ total_delivers hreg

/-- Numbers stay numbers. -/
lemma isNum_closed : Closed (·.isNum = true) where
  num _ := rfl
  total h hr := total_nums h hr ▸ rfl
  times {a r c} h hr := by
    obtain ⟨n, hn⟩ := isSome_iff_exists.1 h
    cases eq_num_of_num? hn
    obtain ⟨_, rfl⟩ | hflat := (times_multiplies (Q := fun _ => False) (C := fun _ => True)
      ⟨False.elim, False.elim, fun _ => trivial⟩ _
        (by simp [Loose, symbols, terms, h]) trivial hr).shape
    · rfl
    · exact hflat.isNum
  div {a c} h _ _ := by
    obtain ⟨n, hn⟩ := isSome_iff_exists.1 h
    rw [eq_num_of_num? hn, collapse_of_eq (by simp [lo, hi, range])]
    rfl
  mod {a c} h _ _ hne := by
    obtain ⟨n, hn⟩ := isSome_iff_exists.1 h
    simp [eq_num_of_num? hn] at hne
  lt {a c} h := by
    obtain ⟨n, hn⟩ := isSome_iff_exists.1 h
    rw [eq_num_of_num? hn, collapse_of_eq]
    · rfl
    · obtain h | h := lt_or_ge n c
      · simp [lo, hi, range, h]
      · simp [lo, hi, range, h, h.not_gt]
  conj {ps} h hopen h2 := by
    cases ps with
    | nil => simp at h2
    | cons p ps =>
      obtain ⟨n, hn⟩ := isSome_iff_exists.1 (h p List.mem_cons_self)
      exact (hopen p List.mem_cons_self (by simp [eq_num_of_num? hn])).elim
  operands {e} h p hp := by
    obtain ⟨n, hn⟩ := isSome_iff_exists.1 h
    rw [eq_num_of_num? hn] at hp
    cases hp

/-! Bindings give a number to every variable that occurs. -/

lemma Regular.restrict (h : e.Regular scope) :
    e.Regular (fun v => scope v ∧ v ∈ e.occurrences ∧ v.Proper) := by
  induction h with
  | num hf => exact .num hf
  | var hp hl hs => exact .var hp hl ⟨hs, by simp, hp⟩
  | mul _ ha h0 h1 hc hl hh ih => exact .mul (by simpa using ih) ha h0 h1 hc hl hh
  | div _ h0 hc hf hr ih => exact .div (by simpa using ih) h0 hc hf hr
  | mod _ h0 hc hf hr ih => exact .mod (by simpa using ih) h0 hc hf hr
  | @sum ps _ _ _ hn h2 hk hl hh ih =>
    refine .sum (fun p hp => (ih p hp).mono (fun v hv => ⟨hv.1, ?_, hv.2.2⟩)) hn h2 hk hl hh
    rw [occurrences]
    exact mem_occurrencesAll.2 ⟨p, hp, hv.2.1⟩

lemma mem_vars : v ∈ e.vars ↔ v ∈ e.occurrences := by
  rw [vars, mem_foldl_unseen]
  simp

end SymInt

lemma VarMap.value?_map {α β : Type} (m : VarMap α) (f : α → β) (v : Variable) :
    value? (m.map (fun x => (x.1, f x.2))) v = (value? m v).map f := by
  induction m with
  | nil => rfl
  | cons x m ih =>
    simp only [value?, List.map_cons, List.find?_cons] at ih ⊢
    cases decide (x.1 = v) with
    | true => rfl
    | false => exact ih

namespace SymInt
variable {A : Assignment} {e r : SymInt}

def Assignment.closed : Assignment where
  scope _ := False
  value _ := 0
  lo_le _ h := h.elim
  le_hi _ h := h.elim

def Assignment.within (A : Assignment) (e : SymInt) : Assignment where
  scope v := A.scope v ∧ v ∈ e.occurrences ∧ v.Proper
  value := A.value
  lo_le v h := A.lo_le v h.1
  le_hi v h := A.le_hi v h.1

lemma image_bound {vals : Bindings} {n : Int} (h : value? vals v = some n) :
    image (vals.map (fun x => (x.1, num x.2))) v = num n := by
  rw [image, value?_map, h]
  rfl

section
variable {vals : Bindings} (hv : ∀ v ∈ e.vars, value? vals v = some (A.value v))
include hv

lemma image_within (v : Variable) (h : (Assignment.within A e).scope v) :
    Means Assignment.closed (image (vals.map (fun x => (x.1, num x.2))) v) (A.value v) := by
  obtain ⟨hs, hm, hp⟩ := h
  rw [image_bound (hv v (mem_vars.2 hm))]
  exact means_num (hp.lo_fits.between hp.hi_fits (A.lo_le v hs) (A.le_hi v hs))

lemma bindVars_eq (he : e.Regular A.scope) (h : e.bindVars vals = .ok r) :
    r = num (e.value A.value) := by
  have hm :=
    (substitute_delivers (A := Assignment.within A e) (image_within hv) he.restrict).of_ok h
  have hnum : r.isNum = true := by
    refine isNum_closed.substitute (fun v ho => ?_) h
    rw [image_bound (hv v (mem_vars.2 ho))]
    rfl
  obtain ⟨n, hn⟩ := isSome_iff_exists.1 hnum
  cases eq_num_of_num? hn
  have hvalue := hm.value
  rw [value_num] at hvalue
  rw [hvalue]
  rfl

lemma bindVars_overflow (he : e.Regular A.scope) : OnlyOverflow (e.bindVars vals) :=
  (substitute_delivers (A := Assignment.within A e) (image_within hv) he.restrict).overflow
    fun _ h => h.elim

end

end SymInt

end LazyTensor
