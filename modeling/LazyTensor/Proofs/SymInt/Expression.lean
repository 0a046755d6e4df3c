import LazyTensor.Error
import LazyTensor.Proofs.SymInt.Compare
import LazyTensor.Proofs.SymInt.Steps

/-! Expressions as they are written, with their value in exact integers, and the index or condition
the library makes of them. -/
namespace LazyTensor
open List Variable
variable {v : Variable} {A : Assignment} {f : Formula}

open Checked SymInt

/-- An index as it is written. Constants are words and variables are declared ones. -/
inductive Formula where
  | num (n : Int) (fits : Fits n)
  | var (v : Variable) (declared : declare v.name v.lo v.hi = .ok v) (fits : Fits v.hi)
  | plus (a b : Formula)
  | minus (a b : Formula)
  | negate (a : Formula)
  | times (a : Formula) (c : Int) (fits : Fits c)
  | quotient (a : Formula) (b : Int) (pos : 0 < b) (fits : Fits b)
  | remainder (a : Formula) (b : Int) (pos : 0 < b) (fits : Fits b)

namespace Formula

def build : Formula → Checked SymInt
  | num n _ => .ok (SymInt.num n)
  | var v _ _ => .ok (ofVariable v)
  | plus a b => do (← a.build).plus (← b.build)
  | minus a b => do (← a.build).minus (← b.build)
  | negate a => do (← a.build).negate
  | times a c _ => do (← a.build).times c
  | quotient a b _ _ => do (← a.build).quotient b
  | remainder a b _ _ => do (← a.build).remainder b

def value (σ : Variable → Int) : Formula → Int
  | num n _ => n
  | var v _ _ => σ v
  | plus a b => a.value σ + b.value σ
  | minus a b => a.value σ - b.value σ
  | negate a => -a.value σ
  | times a c _ => a.value σ * c
  | quotient a b _ _ => a.value σ / b
  | remainder a b _ _ => a.value σ % b

def vars : Formula → List Variable
  | num _ _ => []
  | var v _ _ => [v]
  | plus a b | minus a b => a.vars ++ b.vars
  | negate a | times a _ _ | quotient a _ _ _ | remainder a _ _ _ => a.vars

end Formula

/-- A variable that was declared has a name, is not negative and has two values at least. -/
lemma Variable.of_declare (h : declare v.name v.lo v.hi = .ok v) :
    isIdentifier v.name = true ∧ 0 ≤ v.lo ∧ v.lo < v.hi := by
  unfold declare at h
  split at h
  · cases h
  split at h
  · cases h
  split at h
  · cases h
  · rename_i hn hl hh
    exact ⟨by simpa using hn, by omega, by omega⟩

/-- A variable as it occurs in an index: declared or a counter, never negative and with two values
at least. -/
structure Variable.Counts (v : Variable) : Prop where
  proper : v.Proper
  nonneg : 0 ≤ v.lo
  lo_lt_hi : v.lo < v.hi

lemma Variable.counts_of_declare (h : declare v.name v.lo v.hi = .ok v)
    (fits : Fits v.hi) : v.Counts := by
  obtain ⟨hname, h0, hlt⟩ := of_declare h
  exact ⟨⟨.inr hname, fits_zero.between fits h0 (le_of_lt hlt), fits⟩, h0, hlt⟩

lemma Formula.build_delivers (hv : ∀ v ∈ f.vars, A.scope v) :
    Delivers A.Nonneg f.build (Means A · (f.value A.value)) := by
  induction f with
  | num n fits => exact .ok (means_num fits)
  | var v declared fits =>
    have hc := counts_of_declare declared fits
    rw [Formula.build, ofVariable, if_neg (ne_of_lt hc.lo_lt_hi)]
    exact .ok ⟨.var hc.proper hc.lo_lt_hi (hv v (by simp [Formula.vars])), by
      rw [SymInt.value, Formula.value]⟩
  | plus a b iha ihb =>
    obtain ⟨ha, hb⟩ := forall_mem_append.1 hv
    exact (iha ha).bind fun _ hx => (ihb hb).bind fun _ hy => plus_delivers hx hy
  | minus a b iha ihb =>
    obtain ⟨ha, hb⟩ := forall_mem_append.1 hv
    exact (iha ha).bind fun _ hx => (ihb hb).bind fun _ hy => minus_delivers hx hy
  | negate a ih => exact (ih hv).bind fun _ hx => negate_delivers hx
  | times a c fits ih => exact (ih hv).bind fun _ hx => times_delivers hx fits
  | quotient a b pos fits ih => exact (ih hv).bind fun _ hx => quotient_delivers hx pos fits
  | remainder a b pos fits ih => exact (ih hv).bind fun _ hx => remainder_delivers hx pos fits

inductive Comparison where
  | less | atMost | more | atLeast

namespace Comparison

def apply (c : Comparison) (e : SymInt) (b : Int) : Checked SymInt :=
  match c with
  | less => e.lessThan b
  | atMost => e.atMost b
  | more => e.moreThan b
  | atLeast => e.atLeast b

def holds (c : Comparison) (x b : Int) : Bool :=
  match c with
  | less => x < b
  | atMost => x ≤ b
  | more => b < x
  | atLeast => b ≤ x

lemma apply_delivers {N : Prop} (c : Comparison) {e : SymInt} {x b : Int} (he : Means A e x) :
    Delivers N (c.apply e b) (Decides A · (c.holds x b = true)) := by
  cases c with
  | less => exact (lessThan_delivers he).weaken fun _ h => h.congr (by simp [holds])
  | atMost => exact (atMost_delivers he).weaken fun _ h => h.congr (by simp [holds])
  | more => exact (moreThan_delivers he).weaken fun _ h => h.congr (by simp [holds])
  | atLeast => exact (atLeast_delivers he).weaken fun _ h => h.congr (by simp [holds])

end Comparison

/-- A validity condition as it is written. -/
inductive Clause where
  | compare (c : Comparison) (f : Formula) (b : Int)
  | all (cs : List Clause)

namespace Clause

mutual

def build : Clause → Checked SymInt
  | compare c f b => do c.apply (← f.build) b
  | all cs => return conjunction (← buildAll cs)

def buildAll : List Clause → Checked (List SymInt)
  | [] => .ok []
  | c :: cs => return (← c.build) :: (← buildAll cs)

end

mutual

def holds (σ : Variable → Int) : Clause → Bool
  | compare c f b => c.holds (f.value σ) b
  | all cs => holdsAll σ cs

def holdsAll (σ : Variable → Int) : List Clause → Bool
  | [] => true
  | c :: cs => c.holds σ && holdsAll σ cs

end

mutual

def vars : Clause → List Variable
  | compare _ f _ => f.vars
  | all cs => varsAll cs

def varsAll : List Clause → List Variable
  | [] => []
  | c :: cs => c.vars ++ varsAll cs

end

mutual

lemma build_delivers {A : Assignment} (c : Clause) (hv : ∀ v ∈ c.vars, A.scope v) :
    Delivers A.Nonneg c.build (Decides A · (c.holds A.value = true)) := by
  match c with
  | compare k f b =>
    rw [build, holds]
    exact (Formula.build_delivers (by simpa [vars] using hv)).bind fun _ hx => k.apply_delivers hx
  | all cs =>
    rw [build, holds]
    exact (buildAll_delivers cs (by simpa [vars] using hv)).bind fun _ hes =>
      .ok ((conjunction_decides hes.1).congr hes.2)

lemma buildAll_delivers {A : Assignment} (cs : List Clause) (hv : ∀ v ∈ varsAll cs, A.scope v) :
    Delivers A.Nonneg (buildAll cs) (fun es => (∀ e ∈ es, e.Condition A.scope) ∧
      ((∀ e ∈ es, e.value A.value = 1) ↔ holdsAll A.value cs = true)) := by
  match cs with
  | [] => exact .ok (by simp [holdsAll])
  | c :: cs =>
    obtain ⟨hc, hcs⟩ := forall_mem_append.1 hv
    refine (build_delivers c hc).bind fun e he => (buildAll_delivers cs hcs).bind
      fun es hes => .ok ?_
    refine ⟨forall_mem_cons.2 ⟨he.condition, hes.1⟩, ?_⟩
    rw [forall_mem_cons, he.value, hes.2, holdsAll, Bool.and_eq_true]

end

end Clause

lemma Formula.vars_counts (h : v ∈ f.vars) : v.Counts := by
  induction f with
  | num n fits => cases h
  | var w declared fits =>
    cases mem_singleton.1 h
    exact counts_of_declare declared fits
  | plus a b iha ihb | minus a b iha ihb =>
    cases mem_append.1 h with
    | inl h => exact iha h
    | inr h => exact ihb h
  | negate a ih | times a c fits ih | quotient a b pos fits ih | remainder a b pos fits ih =>
    exact ih h

lemma Formula.vars_nonneg (h : v ∈ f.vars) : 0 ≤ v.lo :=
  (vars_counts h).nonneg

mutual

lemma Clause.vars_counts (c : Clause) {v : Variable} (h : v ∈ c.vars) : v.Counts := by
  match c with
  | .compare k f b => exact Formula.vars_counts (by simpa [Clause.vars] using h)
  | .all cs => exact Clause.varsAll_counts cs (by simpa [Clause.vars] using h)

lemma Clause.varsAll_counts (cs : List Clause) {v : Variable} (h : v ∈ Clause.varsAll cs) :
    v.Counts := by
  match cs with
  | [] => cases h
  | c :: cs =>
    rw [Clause.varsAll] at h
    cases mem_append.1 h with
    | inl h => exact Clause.vars_counts c h
    | inr h => exact Clause.varsAll_counts cs h

end

lemma Clause.vars_nonneg (c : Clause) (h : v ∈ c.vars) : 0 ≤ v.lo :=
  (c.vars_counts h).nonneg

/-- The bindings hold a value in range for every one of these variables. -/
def Admits (vals : Bindings) (σ : Variable → Int) (vs : List Variable) : Prop :=
  ∀ v ∈ vs, VarMap.value? vals v = some (σ v) ∧ v.lo ≤ σ v ∧ σ v ≤ v.hi

/-- The variables that are bound to a value in range, with that value. -/
def Admits.assignment (vals : Bindings) (σ : Variable → Int) : Assignment where
  scope v := VarMap.value? vals v = some (σ v) ∧ 0 ≤ v.lo ∧ v.lo ≤ σ v ∧ σ v ≤ v.hi
  value := σ
  lo_le _ h := h.2.2.1
  le_hi _ h := h.2.2.2

lemma Admits.scope {vals : Bindings} {σ : Variable → Int} {vs : List Variable}
    (h : Admits vals σ vs) (h0 : ∀ v ∈ vs, 0 ≤ v.lo) :
    ∀ v ∈ vs, (Admits.assignment vals σ).scope v := by
  intro v hv
  obtain ⟨hb, hlo, hhi⟩ := h v hv
  exact ⟨hb, h0 v hv, hlo, hhi⟩

lemma Checked.OnlyOverflow.error_or_ok {α : Type} {x : Checked α} (h : OnlyOverflow x) :
    x = .error .arithmetic ∨ ∃ a, x = .ok a := by
  cases x with
  | error e => exact .inl (by rw [h e rfl])
  | ok a => exact .inr ⟨a, rfl⟩

/-- Unless a word overflows on the way, an index is built that evaluates to the exact value of
the expression, and a condition to one or to zero as the clause holds or not. -/
theorem build_preserves_value (vals : Bindings) (σ : Variable → Int) :
    (∀ f : Formula, Admits vals σ f.vars → f.build = .error .arithmetic ∨
      ∃ e, f.build = .ok e ∧ e.eval vals = .ok (some (f.value σ))) ∧
    (∀ c : Clause, Admits vals σ c.vars → c.build = .error .arithmetic ∨
      ∃ e, c.build = .ok e ∧ e.eval vals = .ok (some (if c.holds σ then 1 else 0))) := by
  have bound : ∀ v, (Admits.assignment vals σ).scope v → VarMap.value? vals v = some (σ v) :=
    fun v h => h.1
  have nonneg : (Admits.assignment vals σ).Nonneg := fun v h => h.2.1
  constructor
  · intro f hf
    refine ((Formula.build_delivers (hf.scope fun v => Formula.vars_nonneg)).returns
      nonneg).imp_right ?_
    rintro ⟨e, he, hm⟩
    exact ⟨e, he, by rw [hm.regular.eval_eq bound, hm.value]; rfl⟩
  · intro c hc
    refine ((c.build_delivers (hc.scope fun v => c.vars_nonneg)).returns nonneg).imp_right ?_
    rintro ⟨e, he, hd⟩
    refine ⟨e, he, ?_⟩
    rw [hd.condition.eval_eq bound]
    -- a condition is zero or one, and one exactly when the clause holds
    have hbit := hd.condition.bit σ
    have hone : e.value σ = 1 ↔ c.holds σ = true := hd.value
    split <;> grind [Admits.assignment]

/-- `(6 * row - 3 * col) mod 4`, an index with a negative coefficient. -/
def Formula.skewed : Formula :=
  .remainder (.plus (.times (.var ⟨"row", 0, 5⟩ rfl (by decide)) 6 (by decide))
    (.times (.var ⟨"col", 0, 9⟩ rfl (by decide)) (-3) (by decide))) 4 (by decide) (by decide)

def Clause.skewedInside : Clause :=
  .all [.compare .less .skewed 2,
    .compare .atLeast (.quotient (.var ⟨"col", 0, 9⟩ rfl (by decide)) 3 (by decide) (by decide))
      1]

theorem skewed_preserves_value :
    let vals : Bindings := [(⟨"col", 0, 9⟩, 4), (⟨"row", 0, 5⟩, 3)]
    (∃ e, Formula.skewed.build = .ok e ∧ e.eval vals = .ok (some 2)) ∧
      ∃ e, Clause.skewedInside.build = .ok e ∧ e.eval vals = .ok (some 0) := by
  intro vals
  have h := build_preserves_value vals (fun v => if v.name = "row" then 3 else 4)
  constructor
  · refine (h.1 .skewed (by unfold Admits; decide)).resolve_left (fun he => ?_)
    have hok : Formula.skewed.build.isOk = true := by rfl
    simp [he, Except.isOk, Except.toBool] at hok
  · refine (h.2 .skewedInside (by unfold Admits; decide)).resolve_left (fun he => ?_)
    have hok : Clause.skewedInside.build.isOk = true := by rfl
    simp [he, Except.isOk, Except.toBool] at hok

end LazyTensor
