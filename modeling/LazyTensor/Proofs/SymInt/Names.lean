import LazyTensor.Proofs.SymInt.Expand

/-! Names of the variables of an expression. -/
namespace LazyTensor.SymInt
open LazyTensor.Checked VarMap SymInt List
variable {n : Nat} {f : Bool} {rs : List SymInt} {m : VarMap SymInt}

/-- Every variable has a name of the given kind. -/
def Over (P : String → Prop) (e : SymInt) : Prop := ∀ v ∈ e.occurrences, P v.name

variable {P : String → Prop} {e a b r : SymInt} {c : Int} {ps qs : List SymInt}

@[simp] lemma over_num (n : Int) : Over P (num n) := by simp [Over]

@[simp] lemma over_var {v : Variable} : Over P (var v) ↔ P v.name := by simp [Over]

@[simp] lemma over_mul : Over P (mul a c) ↔ Over P a := Iff.rfl

@[simp] lemma over_div : Over P (div a c) ↔ Over P a := Iff.rfl

@[simp] lemma over_mod : Over P (mod a c) ↔ Over P a := Iff.rfl

@[simp] lemma over_lt : Over P (lt a c) ↔ Over P a := Iff.rfl

@[simp] lemma over_sum : Over P (sum ps) ↔ ∀ p ∈ ps, Over P p := by
  simp only [Over, occurrences, mem_occurrencesAll]
  grind

@[simp] lemma over_conj : Over P (conj ps) ↔ ∀ p ∈ ps, Over P p := by
  simp only [Over, occurrences, mem_occurrencesAll]
  grind

lemma Over.of_name {v : Variable} (h : P v.name) : Over P (ofVariable v) := by
  unfold ofVariable
  split
  · exact over_num _
  · exact over_var.2 h

lemma Over.counter {name : String} {lo hi : Int} (hn : P name)
    (h : counter name lo hi = .ok r) : Over P r := by
  simp only [SymInt.counter, Variable.counter, bind_eq_ok, pure_eq_ok] at h
  obtain ⟨v, hv, rfl⟩ := h
  split at hv
  · cases hv
    exact .of_name hn
  · cases hv

lemma Over.collapse (h : Over P e) : Over P e.collapse := by
  unfold SymInt.collapse
  split
  split
  · exact over_num _
  · exact h

/-! A sum of expressions. -/

lemma Over.scale (h : Over P a) (hr : scale a c = .ok r) : Over P r := by
  unfold SymInt.scale at hr
  split at hr
  · cases hr
    exact over_num 0
  split at hr
  · cases hr
    exact h
  · simp only [bind_eq_ok, pure_eq_ok] at hr
    obtain ⟨_, _, _, _, rfl⟩ := hr
    exact Over.collapse (over_mul.2 h)

lemma Over.atom (h : Over P e) : Over P e.atomCoeff.1 := by
  cases e <;> exact h

lemma Over.addCoeff {gs gs' : List (SymInt × Int)} (hg : ∀ g ∈ gs, Over P g.1) (ha : Over P a)
    (h : addCoeff gs a c = .ok gs') : ∀ g ∈ gs', Over P g.1 := by
  obtain ⟨_, b, d, _, rfl, _, _, rfl⟩ | ⟨_, rfl⟩ := addCoeff_cases h
  · simpa only [forall_mem_append, forall_mem_cons] using hg
  · exact forall_mem_append.2 ⟨hg, by simpa using ha⟩

lemma Over.mergeTerms (h : ∀ p ∈ ps, Over P p) (hr : mergeTerms ps = .ok qs) :
    ∀ q ∈ qs, Over P q := by
  simp only [SymInt.mergeTerms, bind_eq_ok] at hr
  obtain ⟨gs, hgs, hqs⟩ := hr
  have hall : ∀ g ∈ gs, Over P g.1 := foldlM_induction (fun gs => ∀ g ∈ gs, Over P g.1)
      (fun gs t gs' ht hgs h' => Over.addCoeff hgs (h t ht).atom h') (by simp) hgs
  intro q hq
  obtain ⟨g, hg, hscale⟩ := exists_of_mapM hqs hq
  exact (hall g (mem_filter.mp hg).1).scale hscale

lemma Over.total (h : ∀ p ∈ ps, Over P p) (hr : total ps = .ok r) : Over P r := by
  have hkept : ∀ p ∈ ps.filter (fun x => x.range ≠ (0, 0)), Over P p :=
    fun p hp => h p (mem_filter.1 hp).1
  obtain ⟨_, rfl⟩ | he | ⟨_, k, ts, rfl, _, hts, hr⟩ := total_cases hr
  · exact over_num 0
  · exact hkept r (he ▸ mem_singleton_self r)
  have hsym : ∀ t ∈ (termsAll (ps.filter (fun x => x.range ≠ (0, 0)))).filter
      (fun x => !x.isNum), Over P t :=
    fun t ht => termsAll_of (fun _ => over_sum.1) hkept t (mem_filter.1 ht).1
  have hall : ∀ t ∈ ts, Over P t := by
    obtain ⟨_, rfl⟩ | ⟨_, hm⟩ := hts
    · exact hsym
    · exact Over.mergeTerms hsym hm
  have hwith : ∀ t ∈ withConstant ts k, Over P t := by
    intro t ht
    obtain ht | rfl := mem_withConstant ht
    · exact hall t ht
    · exact over_num k
  obtain ⟨_, rfl⟩ | he | ⟨_, _, _, rfl⟩ := assemble_cases hr
  · exact over_num 0
  · exact hwith r (by simp [he])
  · exact Over.collapse (over_sum.2 hwith)

mutual

lemma Over.times {e r : SymInt} {c : Int} (h : Over P e) (hr : e.times c = .ok r) : Over P r := by
  unfold SymInt.times at hr
  split at hr
  · cases hr
    exact over_num 0
  split at hr
  · cases hr
    exact h
  cases e with
  | num n =>
    simp only [bind_eq_ok, pure_eq_ok] at hr
    obtain ⟨_, _, rfl⟩ := hr
    exact over_num _
  | mul a d =>
    simp only [bind_eq_ok] at hr
    obtain ⟨k, _, hr⟩ := hr
    exact Over.times (over_mul.1 h) hr
  | sum ps =>
    simp only [bind_eq_ok] at hr
    obtain ⟨qs, hqs, hr⟩ := hr
    exact Over.total (Over.timesAll (over_sum.1 h) hqs) hr
  | var v | div a d | mod a d | lt a d | conj ps => exact Over.scale h hr

lemma Over.timesAll {ps qs : List SymInt} {c : Int} (h : ∀ p ∈ ps, Over P p)
    (hr : timesAll ps c = .ok qs) : ∀ q ∈ qs, Over P q := by
  match ps with
  | [] =>
    cases hr
    simp
  | p :: ps =>
    simp only [SymInt.timesAll, bind_eq_ok, pure_eq_ok] at hr
    obtain ⟨q, hq, qs, hqs, rfl⟩ := hr
    have hp := Over.times (h p (by simp)) hq
    have hps := Over.timesAll (fun x hx => h x (by simp [hx])) hqs
    simpa using ⟨hp, hps⟩

end

lemma over_closed (P : String → Prop) : Closed (Over P) where
  num := over_num
  total := Over.total
  times := Over.times
  div h _ _ := Over.collapse (over_div.2 h)
  mod h _ _ _ := Over.collapse (over_mod.2 h)
  lt h := Over.collapse (over_lt.2 h)
  conj h _ _ := Over.collapse (over_conj.2 h)
  operands {e} h p hp := by
    cases e with
    | num _ | var _ => cases hp
    | mul a _ | div a _ | mod a _ | lt a _ =>
      cases mem_singleton.1 hp
      exact h
    | sum ps => exact over_sum.1 h p hp
    | conj ps => exact over_conj.1 h p hp

lemma Over.lessThan (h : Over P e) (hr : e.lessThan c = .ok r) : Over P r :=
  (over_closed P).lessThan h hr

lemma Over.atLeast (h : Over P e) (hr : e.atLeast c = .ok r) : Over P r := by
  simp only [SymInt.atLeast, bind_eq_ok] at hr
  obtain ⟨n, hn, _, _, _, _, hr⟩ := hr
  exact (h.times hn).lessThan hr

lemma Over.conditions (h : Over P e) : ∀ p ∈ e.conditions, Over P p :=
  (over_closed P).conditions h

lemma Over.conjunction (h : ∀ p ∈ ps, Over P p) : Over P (conjunction ps) :=
  (over_closed P).conjunction h

section
variable (h : Over P e)
include h

lemma Over.quotient (hr : e.quotient c = .ok r) : Over P r :=
  (over_closed P).quotient h hr

lemma Over.remainder (hr : e.remainder c = .ok r) : Over P r :=
  (over_closed P).remainder h hr

/-- Variables are replaced by expressions over the names. -/
lemma Over.replaced (hm : ∀ x ∈ m, Over P x.2) (hr : e.substitute m = .ok r) : Over P r := by
  refine (over_closed P).substitute (fun v hv => ?_) hr
  unfold image
  cases hx : value? m v with
  | none => exact over_var.2 (h v hv)
  | some x => exact hm _ (mem_of_value? hx)

lemma Over.expand {vs : List Variable} (hr : e.expand vs = .ok rs) : ∀ r ∈ rs, Over P r := by
  intro r hmem
  obtain ⟨_, _, hr⟩ := exists_of_mapM hr hmem
  refine h.replaced ?_ hr
  refine ofEntries_induction fun x hx => ?_
  obtain ⟨n, _, hn⟩ := mem_map.1 (of_mem_zip hx).2
  rw [← hn]
  exact over_num n

lemma Over.unroll (hr : e.unroll = .ok rs) : ∀ r ∈ rs, Over P r := by
  unfold SymInt.unroll at hr
  split at hr
  · exact h.expand hr
  · cases hr
    simpa using h

end

end LazyTensor.SymInt
