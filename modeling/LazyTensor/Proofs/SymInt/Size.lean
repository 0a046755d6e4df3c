import LazyTensor.Proofs.SymInt.Atoms

/-! The size of indices. Three numbers grow only by what division adds: the variables that occur,
each counted by a weight, the product of the divisors on a path, and the nesting of remainders. All
can be read off the atoms. -/
namespace LazyTensor.SymInt
open List
variable {ps es : List SymInt} {d m l l' : Nat} {r a e : SymInt} {n c : Int}

open Checked

def count (w : Variable → Nat) (e : SymInt) : Nat := (e.occurrences.map w).sum

abbrev leaves (e : SymInt) : Nat := e.count (fun _ => 1)

mutual

def divisors : SymInt → Nat
  | num _ | var _ => 1
  | mul a _ | mod a _ | lt a _ => a.divisors
  | div a c => a.divisors * c.natAbs
  | sum ps | conj ps => divisorsAll ps

def divisorsAll : List SymInt → Nat
  | [] => 1
  | p :: ps => max p.divisors (divisorsAll ps)

end

mutual

def nesting : SymInt → Nat
  | num _ | var _ => 0
  | mul a _ | div a _ | lt a _ => a.nesting
  | mod a _ => a.nesting + 1
  | sum ps | conj ps => nestingAll ps

def nestingAll : List SymInt → Nat
  | [] => 0
  | p :: ps => max p.nesting (nestingAll ps)

end

attribute [simp] divisors nesting

section
variable (w : Variable → Nat)

lemma occurrencesAll_sum (ps : List SymInt) :
    ((occurrencesAll ps).map w).sum = (ps.map (count w)).sum := by
  induction ps with
  | nil => rfl
  | cons p ps ih => simp [count, ih]

@[simp] lemma count_num (n : Int) : (num n).count w = 0 := rfl

@[simp] lemma count_var (v : Variable) : (var v).count w = w v := by simp [count]

@[simp] lemma count_mul (a : SymInt) (c : Int) : (mul a c).count w = a.count w := by
  simp [count]

@[simp] lemma count_div (a : SymInt) (c : Int) : (div a c).count w = a.count w := by
  simp [count]

@[simp] lemma count_mod (a : SymInt) (c : Int) : (mod a c).count w = a.count w := by
  simp [count]

lemma count_sum (ps : List SymInt) : (sum ps).count w = (ps.map (count w)).sum := by
  rw [count, occurrences, occurrencesAll_sum]

end

variable {w : Variable → Nat}

lemma divisorsAll_le : divisorsAll ps ≤ d ↔ 1 ≤ d ∧ ∀ p ∈ ps, p.divisors ≤ d := by
  induction ps with
  | nil => simp [divisorsAll]
  | cons p ps ih =>
    rw [divisorsAll, max_le_iff, ih, forall_mem_cons]
    tauto

lemma nestingAll_le : nestingAll ps ≤ m ↔ ∀ p ∈ ps, p.nesting ≤ m := by
  induction ps with
  | nil => simp [nestingAll]
  | cons p ps ih => rw [nestingAll, max_le_iff, ih, forall_mem_cons]

/-- At most so many variables, divisors and nested remainders. -/
structure Within (w : Variable → Nat) (l d m : Nat) (e : SymInt) : Prop where
  leaves : e.count w ≤ l
  divisors : e.divisors ≤ d
  nesting : e.nesting ≤ m

lemma Within.mono {d' m' : Nat} (h : Within w l d m e) (hl : l ≤ l') (hd : d ≤ d')
    (hm : m ≤ m') : Within w l' d' m' e :=
  ⟨h.leaves.trans hl, h.divisors.trans hd, h.nesting.trans hm⟩

lemma within_num (hd : 1 ≤ d) (n : Int) : Within w l d m (num n) :=
  ⟨by simp, by simpa using hd, by simp⟩

namespace Regular
variable {scope : Variable → Prop}

lemma divisors_pos (h : e.Regular scope) : 1 ≤ e.divisors := by
  induction h with
  | num _ | var _ _ _ => simp
  | mul _ _ _ _ _ _ _ ih | mod _ _ _ _ _ ih => simpa using ih
  | @div a c _ _ hc _ _ ih =>
    rw [divisors]
    exact Nat.mul_pos ih (by omega)
  | sum _ _ _ _ _ _ _ =>
    rw [divisors]
    exact (divisorsAll_le.1 le_rfl).1

lemma leaves_pos (h : e.Regular scope) (hlt : e.lo < e.hi) : 1 ≤ e.leaves := by
  induction h with
  | num _ => simp at hlt
  | var _ _ _ => simp
  | mul ha hatom _ _ _ _ _ ih => simpa using ih (ha.lo_lt_hi_of_atom hatom)
  | @div a c ha _ hc _ hr ih =>
    rw [leaves, count_div]
    refine ih (lt_of_not_ge (fun hge => ?_))
    rw [lo_div (by omega), hi_div (by omega)] at hr
    have := Int.ediv_le_ediv (by omega : 0 < c) hge
    omega
  | mod _ _ _ _ hr ih =>
    rw [leaves, count_mod]
    exact ih hr
  | @sum ps _ _ hps _ _ _ _ _ ih =>
    rw [lo_sum, hi_sum] at hlt
    obtain ⟨p, hp, hplt⟩ := exists_lt_of_sum_lt _ _ hlt
    rw [leaves, count_sum]
    exact (ih p hp hplt).trans (single_le_sum (by simp) _ (mem_map_of_mem hp))

end Regular

/-! Sizes from atoms. -/

variable {A : Assignment}

lemma count_eq_atoms (w : Variable → Nat) (e : SymInt) :
    e.count w = (e.atoms.map (count w)).sum := by
  rw [← sum_terms (count_sum w) e, atoms]
  induction e.terms with
  | nil => rfl
  | cons t ts ih =>
    rw [map_cons, sum_cons, ih]
    cases t <;> simp [isNum, num?, atomCoeff]

lemma leaves_eq_atoms (e : SymInt) : e.leaves = (e.atoms.map leaves).sum := count_eq_atoms _ e

lemma count_le_of_atoms (h : r.atoms.Sublist e.atoms) : r.count w ≤ e.count w := by
  rw [count_eq_atoms, count_eq_atoms]
  exact (h.map (count w)).sum_le_sum (by simp)

/-- A size that is the largest of those of the terms is at most `d` if it is for the atoms. -/
lemma le_iff_atoms {f : SymInt → Nat} {k : Nat} (hnum : ∀ n, f (num n) = k)
    (hmul : ∀ a c, f (mul a c) = f a)
    (hsum : ∀ ps, f (sum ps) ≤ d ↔ k ≤ d ∧ ∀ p ∈ ps, f p ≤ d)
    (hk : ∀ {e}, e.Regular A.scope → k ≤ f e) (h : e.Regular A.scope) :
    f e ≤ d ↔ k ≤ d ∧ ∀ a ∈ e.atoms, f a ≤ d := by
  have hpos := hk h
  induction h with
  | num _ => simp [hnum]
  | mul _ _ _ _ _ _ _ _ =>
    rw [hmul] at hpos
    rw [atoms_mul, forall_mem_singleton, hmul]
    omega
  | var _ _ _ | div _ _ _ _ _ _ | mod _ _ _ _ _ _ =>
    rw [atoms_of_isAtom rfl, forall_mem_singleton]
    omega
  | sum hps _ _ _ _ _ ih =>
    rw [hsum, atoms_sum]
    refine and_congr_right (fun hd => ?_)
    simp only [mem_flatMap, forall_exists_index, and_imp]
    constructor
    · intro hall a p hp ha
      exact ((ih p hp (hk (hps p hp))).1 (hall p hp)).2 a ha
    · intro hall p hp
      exact (ih p hp (hk (hps p hp))).2 ⟨hd, fun a ha => hall a p hp ha⟩

lemma divisors_le_iff (h : e.Regular A.scope) :
    e.divisors ≤ d ↔ 1 ≤ d ∧ ∀ a ∈ e.atoms, a.divisors ≤ d :=
  le_iff_atoms (fun _ => by rw [divisors]) (fun _ _ => by rw [divisors])
    (fun _ => by rw [divisors, divisorsAll_le]) Regular.divisors_pos h

lemma nesting_le_iff (h : e.Regular A.scope) : e.nesting ≤ m ↔
    ∀ a ∈ e.atoms, a.nesting ≤ m := by
  simpa using le_iff_atoms (d := m) (fun _ => by rw [nesting]) (fun _ _ => by rw [nesting])
    (fun _ => by simp [nestingAll_le]) (fun _ => Nat.zero_le _) h

/-- The sizes are read off the atoms. -/
lemma within_iff (h : e.Regular A.scope) : Within w l d m e ↔
    e.count w ≤ l ∧ 1 ≤ d ∧ ∀ a ∈ e.atoms, a.divisors ≤ d ∧ a.nesting ≤ m := by
  constructor
  · intro hw
    obtain ⟨hd, hall⟩ := (divisors_le_iff h).1 hw.divisors
    exact ⟨hw.leaves, hd, fun a ha => ⟨hall a ha, (nesting_le_iff h).1 hw.nesting a ha⟩⟩
  · rintro ⟨hl, hd, hall⟩
    exact ⟨hl, (divisors_le_iff h).2 ⟨hd, fun a ha => (hall a ha).1⟩,
      (nesting_le_iff h).2 fun a ha => (hall a ha).2⟩

lemma Within.of_atoms (he : e.Regular A.scope) (hr : r.Regular A.scope)
    (h : r.atoms.Sublist e.atoms) (hw : Within w l d m e) : Within w l d m r := by
  obtain ⟨hl, hd, hall⟩ := (within_iff he).1 hw
  exact (within_iff hr).2 ⟨(count_le_of_atoms h).trans hl, hd, fun a ha => hall a (h.subset ha)⟩

lemma total_count_le (h : ∀ e ∈ es, e.Regular A.scope) (hr : total es = .ok r) :
    r.count w ≤ (es.map (count w)).sum := by
  rw [count_eq_atoms]
  refine (((total_atoms h hr).map (count w)).sum_le_sum (by simp)).trans ?_
  clear hr
  induction es with
  | nil => simp
  | cons e es ih =>
    rw [flatMap_cons, map_append, sum_append, map_cons, sum_cons, ← count_eq_atoms]
    exact Nat.add_le_add_left (ih (fun x hx => h x (mem_cons_of_mem e hx))) _

lemma total_within (hd : 1 ≤ d) (h : ∀ e ∈ es, e.Regular A.scope)
    (hes : ∀ e ∈ es, ∀ a ∈ e.atoms, a.divisors ≤ d ∧ a.nesting ≤ m)
    (hr : total es = .ok r) :
    Within w (es.map (count w)).sum d m r := by
  refine (within_iff (total_means h hr).regular).2 ⟨total_count_le h hr, hd, fun a ha => ?_⟩
  obtain ⟨e, he, ha⟩ := mem_flatMap.1 ((total_atoms h hr).subset ha)
  exact hes e he a ha

lemma plus_within {b : SymInt} (ha : a.Regular A.scope) (hb : b.Regular A.scope)
    (hwa : Within w l d m a) (hwb : Within w l' d m b) (h : a.plus b = .ok r) :
    Within w (l + l') d m r := by
  obtain ⟨hla, hd, halla⟩ := (within_iff ha).1 hwa
  obtain ⟨hlb, _, hallb⟩ := (within_iff hb).1 hwb
  have hw := total_within (w := w) (A := A) (d := d) (m := m) hd (by simp [ha, hb])
    (forall_mem_cons.2 ⟨halla, forall_mem_singleton.2 hallb⟩) h
  refine hw.mono ?_ le_rfl le_rfl
  simpa using Nat.add_le_add hla hlb

lemma Within.of_mul (h : Within w l d m (mul a c)) : Within w l d m a :=
  ⟨by simpa using h.leaves, by simpa using h.divisors,
    by simpa using h.nesting⟩

lemma Within.of_mod (h : Within w l d m (mod a c)) :
    Within w l d a.nesting a ∧ a.nesting + 1 ≤ m :=
  ⟨⟨by simpa using h.leaves, by simpa using h.divisors, le_rfl⟩,
    by simpa using h.nesting⟩

/-! Sizes of terms. -/

lemma terms_flatMap_atoms (e : SymInt) : e.terms.flatMap atoms = e.atoms := by
  rw [flatMap_atoms, ← symbols_termsAll, termsAll_flat (isSum_terms e), atoms]

lemma terms_count (e : SymInt) : (e.terms.map (count w)).sum = e.count w :=
  sum_terms (count_sum w) e

end LazyTensor.SymInt
