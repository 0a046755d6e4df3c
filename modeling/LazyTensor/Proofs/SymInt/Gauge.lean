import LazyTensor.Proofs.SymInt.Size

/-! Gauges of an index that tell variables from what is inside quotients and remainders. -/
namespace LazyTensor.SymInt
open Checked List
variable {r a e : SymInt} {c : Int}

variable {A : Assignment} {φ : SymInt → Int}
variable {v : Variable}

lemma total_gauge {es : List SymInt} (hφ : ByKey (IndexAtom A.scope) φ)
    (h : ∀ e ∈ es, e.Regular A.scope) (hr : total es = .ok r) :
    r.gauge φ = (es.map (gauge φ)).sum :=
  total_gauge_of (kind_index _) hφ (fun e he => (h e he).loose) hr

lemma times_gauge (hφ : ByKey (IndexAtom A.scope) φ) (he : e.Regular A.scope) (hc : Fits c)
    (h : e.times c = .ok r) : r.gauge φ = e.gauge φ * c :=
  (times_multiplies (kind_index _) e he.loose hc h).gauge φ hφ

/-! Two assignments, one for the variables that stand for themselves and one for those inside
quotients and remainders. -/

/-- What an atom counts if variables take the first assignment and other atoms the second. -/
def mixed (σ τ : Variable → Int) (a : SymInt) : Int :=
  a.value (if a.var?.isSome then σ else τ)

lemma isVar_of_key {b : SymInt} (ha : a.Regular A.scope) (hb : b.Regular A.scope)
    (h : a.key = b.key) (hvar : a.var?.isSome = true) : b.var?.isSome = true := by
  cases ha with
  | @var v hv _ _ =>
    have hlist : (var v).key.toList ++ [] = b.key.toList ++ [] := by rw [h]
    obtain ⟨n, rfl⟩ | ⟨u, rfl, _⟩ | ⟨p, u, ho, _⟩ := hb.readable.opened
    · exact (num_ne_var hv hlist.symm).elim
    · rfl
    · exact (var_ne_opened hv ho hlist).elim
  | num _ | mul _ _ _ _ _ _ _ | div _ _ _ _ _ | mod _ _ _ _ _ | sum _ _ _ _ _ _ => cases hvar

lemma respects_mixed (σ τ : Variable → Int) : ByKey (IndexAtom A.scope) (mixed σ τ) := by
  intro a b ha hb hkey
  have hvar : a.var?.isSome = b.var?.isSome :=
    Bool.eq_iff_iff.2 ⟨isVar_of_key ha.1 hb.1 hkey, isVar_of_key hb.1 ha.1 hkey.symm⟩
  rw [mixed, mixed, hvar]
  exact (agree_atoms ha hb hkey).value _

lemma Regular.value_congr {σ τ : Variable → Int} {scope : Variable → Prop}
    (h : e.Regular scope) (hv : ∀ v ∈ e.occurrences, σ v = τ v) :
    e.value σ = e.value τ := by
  induction h with
  | num _ => simp
  | @var v _ _ _ =>
    rw [value, value]
    exact hv v (by simp)
  | mul _ _ _ _ _ _ _ ih | div _ _ _ _ _ ih | mod _ _ _ _ _ ih =>
    rw [value, value, ih (by simpa using hv)]
  | @sum ps _ _ _ _ _ _ _ _ ih =>
    rw [value_sum, value_sum]
    refine congrArg List.sum (map_congr_left fun p hp => ih p hp fun v hvp => hv v ?_)
    rw [occurrences]
    exact mem_occurrencesAll.2 ⟨p, hp, hvp⟩

lemma eq_var_of_var? (h : e.var? = some v) : e = var v := by
  cases e <;> simp_all [var?]

def only (v u : Variable) : Nat := if u = v then 1 else 0

lemma count_only_pos (h : v ∈ e.occurrences) : 1 ≤ e.count (only v) := by
  have := single_le_sum (fun _ _ => Nat.zero_le _) _ (mem_map_of_mem (f := only v) h)
  simpa [count, only] using this

lemma not_inside (hone : e.count (only v) ≤ 1) (hv : var v ∈ e.atoms)
    (ha : a ∈ e.atoms) (hne : a ≠ var v) : v ∉ a.occurrences := by
  intro hin
  have h1 := count_only_pos hin
  rw [count_eq_atoms] at hone
  obtain ⟨front, back, heq⟩ := append_of_mem hv
  rw [heq] at ha hone
  have hmem : a ∈ front ++ back := by
    simp only [mem_append, mem_cons] at ha ⊢
    tauto
  have h2 := single_le_sum (fun _ _ => Nat.zero_le _) _ (mem_map_of_mem (f := count (only v)) hmem)
  simp only [map_append, sum_append, map_cons, sum_cons, count_var] at hone h2
  have h3 : only v v = 1 := by simp [only]
  omega

section
variable {σ τ : Variable → Int} {v : Variable} (he : e.Regular A.scope)
  (hoff : ∀ u, u ≠ v → σ u = τ u)
include he hoff

lemma mixed_of_linear (hone : e.count (only v) ≤ 1) (hv : var v ∈ e.atoms) :
    e.gauge (mixed σ τ) = e.gauge (value σ) := by
  refine gauge_congr fun a ha => ?_
  unfold mixed
  split
  · rfl
  · rename_i hvar
    refine ((he.mem_atoms ha).1.value_congr fun u hu => hoff u ?_).symm
    rintro rfl
    refine not_inside hone hv ha ?_ hu
    rintro rfl
    exact hvar rfl

lemma mixed_of_absent (hv : var v ∉ e.atoms) : e.gauge (mixed σ τ) = e.gauge (value τ) := by
  refine gauge_congr fun a ha => ?_
  unfold mixed
  split
  · rename_i hvar
    refine (he.mem_atoms ha).1.value_congr fun u hu => hoff u ?_
    rintro rfl
    cases a with
    | var w =>
      obtain rfl : u = w := by simpa using hu
      exact hv ha
    | num _ | mul _ _ | div _ _ | mod _ _ | lt _ _ | sum _ | conj _ => cases hvar
  · rfl

end

end LazyTensor.SymInt
