import LazyTensor.Proofs.SymInt.Atoms

/-! Comparisons and conjunctions keep the truth. -/
namespace LazyTensor.SymInt
open List SymInt
variable {scope : Variable → Prop} {e r : SymInt} {p : Prop} {x b g : Int}
  {ts ps es : List SymInt} {σ : Variable → Int} {vals : Bindings}

open Checked

/-- A comparison that its range leaves open. -/
structure Test (scope : Variable → Prop) (e : SymInt) : Prop where
  open_lt : ∃ a c, e = lt a c ∧ a.Regular scope ∧ a.lo < c ∧ c ≤ a.hi

/-- The form in which conditions are built. -/
inductive Condition (scope : Variable → Prop) : SymInt → Prop
  | zero : Condition scope (num 0)
  | one : Condition scope (num 1)
  | test {e : SymInt} : Test scope e → Condition scope e
  | conj {ps : List SymInt} : ps ≠ [] → (∀ p ∈ ps, Test scope p) →
      Condition scope (conj ps)

variable {A : Assignment}

lemma Test.range (h : Test scope e) : e.lo = 0 ∧ e.hi = 1 := by
  obtain ⟨a, c, rfl, _, hl, hh⟩ := h.open_lt
  simp only [lo, hi] at hl hh
  simp only [lo, hi, range]
  rw [if_neg (by omega), if_neg (by omega)]
  exact ⟨rfl, rfl⟩

lemma Test.bit (h : Test scope e) (σ : Variable → Int) : e.value σ = 0 ∨ e.value σ = 1 := by
  obtain ⟨a, c, rfl, _⟩ := h.open_lt
  rw [value]
  split
  · exact .inr rfl
  · exact .inl rfl

lemma Condition.bit (h : e.Condition scope) (σ : Variable → Int) :
    e.value σ = 0 ∨ e.value σ = 1 := by
  cases h with
  | zero => exact .inl (value_num σ 0)
  | one => exact .inr (value_num σ 1)
  | test h => exact h.bit σ
  | conj _ _ =>
    rw [value]
    split
    · exact .inr rfl
    · exact .inl rfl

/-- The condition is built over the scope of the assignment, and is one exactly if `p`. -/
structure Decides (A : Assignment) (e : SymInt) (p : Prop) : Prop where
  condition : e.Condition A.scope
  value : e.value A.value = 1 ↔ p

lemma Decides.congr {q : Prop} (h : Decides A e p) (hpq : p ↔ q) :
    Decides A e q := ⟨h.condition, h.value.trans hpq⟩

lemma decides_one (hp : p) : Decides A (num 1) p := ⟨.one, by simp [hp]⟩

lemma decides_zero (hp : ¬p) : Decides A (num 0) p := ⟨.zero, by simp [hp]⟩

lemma lessPlain_decides (b : Int) (he : Means A e x) : Decides A (e.lessPlain b) (x < b) := by
  have hx := he.between
  have hr : (lt e b).range =
      if e.hi < b then (1, 1) else if b ≤ e.lo then (0, 0) else (0, 1) := by
    rw [range]
    rfl
  unfold lessPlain collapse
  rw [hr]
  by_cases h1 : e.hi < b
  · simp only [h1, if_true]
    exact decides_one (by omega)
  by_cases h0 : b ≤ e.lo
  · simp only [h1, h0, if_true, if_false]
    exact decides_zero (by omega)
  · simp only [h1, h0, if_false]
    refine ⟨.test ⟨e, b, rfl, he.regular, by omega, by omega⟩, ?_⟩
    simp [value, he.value]

/-! Comparison of sums. -/

lemma parts_eq_terms (h : e.Regular A.scope) : e.parts = e.terms := by
  cases h with
  | sum _ hns _ _ _ _ => rw [terms_sum hns, parts]
  | num _ | var _ _ _ | mul _ _ _ _ _ _ _ | div _ _ _ _ _ | mod _ _ _ _ _ => simp [parts, terms]

lemma eq_mul_of_reaches {t : SymInt} (h : reaches b t = true) : ∃ a c, t = mul a c := by
  cases t <;> simp_all [reaches]

lemma gcdCoeffs_dvd (h : ts.foldlM gcdCoeff b = .ok g) :
    g ∣ b ∧ ∀ a c, mul a c ∈ ts → g ∣ c := by
  induction ts generalizing b with
  | nil =>
    rw [foldlM_nil_eq_ok] at h
    simp [h]
  | cons t ts ih =>
    obtain ⟨g₁, h₁, h⟩ := foldlM_cons_eq_ok.1 h
    obtain ⟨hg, hts⟩ := ih h
    have hstep : g₁ ∣ b ∧ ∀ a c, t = mul a c → g₁ ∣ c := by
      cases t with
      | mul a c =>
        rw [gcd_eq_ok h₁]
        refine ⟨Int.gcd_dvd_left b c, fun a' c' he => ?_⟩
        obtain ⟨_, rfl⟩ := mul.inj he
        exact Int.gcd_dvd_right b c
      | num _ | var _ | div _ _ | mod _ _ | lt _ _ | sum _ | conj _ =>
        cases h₁
        simp
    refine ⟨hg.trans hstep.1, fun a c hm => ?_⟩
    obtain he | hm := mem_cons.1 hm
    · exact hg.trans (hstep.2 a c he.symm)
    · exact hts a c hm

lemma divideCoeffs_means {rs : List SymInt} (hg : 0 < g)
    (hts : ∀ t ∈ ts, t.Regular A.scope ∧ ∃ a c, t = mul a c ∧ g ∣ c)
    (h : ts.mapM (divideCoeff g) = .ok rs) : (∀ r ∈ rs, r.Regular A.scope) ∧
      g * (rs.map (value A.value)).sum = (ts.map (value A.value)).sum := by
  induction mapM_eq_ok.1 h with
  | nil => simp
  | @cons t r ts rs hr hrest ih =>
    obtain ⟨hreg, a, c, rfl, hdvd⟩ := hts t mem_cons_self
    obtain ⟨hregs, hv⟩ := ih (fun u hu => hts u (mem_cons_of_mem _ hu)) (mapM_eq_ok.2 hrest)
    cases hreg with
    | mul ha _ _ _ _ _ _ =>
      rw [divideCoeff, bind_eq_ok] at hr
      obtain ⟨q, hq, hr⟩ := hr
      have hfit := floorDiv_fits hq
      have hm := times_means ha.means hfit hr
      refine ⟨forall_mem_cons.2 ⟨hm.regular, hregs⟩, ?_⟩
      have hc : g * q = c := by rw [floorDiv_pos hg hq, Int.mul_ediv_cancel' hdvd]
      rw [map_cons, sum_cons, map_cons, sum_cons, mul_add, hv, hm.value, value, ← hc]
      ring

/-- Terms below the common divisor cannot decide the comparison. -/
lemma mul_add_lt_iff {m r : Int} (h0 : 0 ≤ r) (hr : r < g) (hb : g ∣ b) :
    g * m + r < b ↔ m < b / g := by
  obtain ⟨k, rfl⟩ := hb
  have hg : 0 < g := by omega
  rw [Int.mul_ediv_cancel_left k (by omega)]
  constructor
  · intro h
    exact lt_of_mul_lt_mul_left (by omega) (le_of_lt hg)
  · intro h
    have : g * (m + 1) ≤ g * k := mul_le_mul_of_nonneg_left (by omega) (le_of_lt hg)
    rw [mul_add, mul_one] at this
    omega

lemma sum_partition (σ : Variable → Int) (p : SymInt → Bool) (ts : List SymInt) :
    ((ts.partition p).1.map (value σ)).sum + ((ts.partition p).2.map (value σ)).sum =
      (ts.map (value σ)).sum := by
  rw [partition_eq_filter_filter]
  induction ts with
  | nil => rfl
  | cons t ts ih =>
    cases h : p t with
    | true => simp_all [add_assoc]
    | false =>
      simp only [filter_cons, h, Function.comp, Bool.not_false, Bool.false_eq_true, if_true,
        if_false, map_cons, sum_cons] at ih ⊢
      rw [← ih]
      ring

lemma lessTerms_decides (he : Means A e x) (h : e.lessTerms b = .ok r) : Decides A r (x < b) := by
  unfold lessTerms at h
  rw [parts_eq_terms he.regular] at h
  obtain ⟨hterms, htotal⟩ := he.regular.terms
  have hsplit := sum_partition A.value (reaches b) e.terms
  have hmem : ∀ t, t ∈ (e.terms.partition (reaches b)).1 → t ∈ e.terms ∧
      reaches b t = true := by
    intro t ht
    rw [partition_eq_filter_filter] at ht
    exact mem_filter.1 ht
  have hothers : ∀ t, t ∈ (e.terms.partition (reaches b)).2 → t.Regular A.scope := by
    intro t ht
    rw [partition_eq_filter_filter] at ht
    exact (hterms t (mem_of_mem_filter ht)).1
  generalize e.terms.partition (reaches b) = split at *
  obtain ⟨multiples, _⟩ := split
  dsimp only at h hsplit hmem hothers
  split at h
  · cases h
    exact lessPlain_decides b he
  simp only [bind_eq_ok] at h
  obtain ⟨g, hg, _, hrest, h⟩ := h
  have hmr := total_means hothers hrest
  obtain ⟨hgb, hcoeffs⟩ := gcdCoeffs_dvd hg
  split at h
  · rename_i hsmall
    simp only [bind_eq_ok, pure_eq_ok] at h
    obtain ⟨ds, hds, _, hdiv, q, hq, rfl⟩ := h
    have hpos : 0 < g := by
      have := hmr.regular.lo_le_hi
      omega
    have hmul : ∀ t ∈ multiples, t.Regular A.scope ∧ ∃ a c, t = mul a c ∧ g ∣ c := by
      intro t ht
      obtain ⟨hin, hreach⟩ := hmem t ht
      obtain ⟨a, c, rfl⟩ := eq_mul_of_reaches hreach
      exact ⟨(hterms _ hin).1, a, c, rfl, hcoeffs a c ht⟩
    obtain ⟨hregs, hsum⟩ := divideCoeffs_means hpos hmul hds
    have hbound := hmr.between
    refine (lessPlain_decides q (total_means hregs hdiv)).congr ?_
    rw [← he.value, ← htotal, ← hsplit, ← hsum, floorDiv_pos hpos hq]
    exact (mul_add_lt_iff (by omega) (by omega) hgb).symm
  · cases h
    exact lessPlain_decides b he

lemma foldlM_sub_eq {ns : List Int} {r : Int} (h : ns.foldlM sub b = .ok r) : r = b - ns.sum := by
  induction ns generalizing b with
  | nil =>
    rw [foldlM_nil_eq_ok] at h
    simp [h]
  | cons n ns ih =>
    obtain ⟨b', hb, h⟩ := foldlM_cons_eq_ok.1 h
    rw [ih h, ← (sub_eq_ok.1 hb).2, sum_cons]
    ring

/-- A multiple of `y` lies below `b` if `y`, with the sign of the coefficient, lies below the
quotient rounded up. -/
lemma mul_lt_iff {y c : Int} (hc : c ≠ 0) :
    y * c < b ↔ y * c.sign < (b + c.natAbs - 1) / c.natAbs := by
  have hpos : 0 < (c.natAbs : Int) := by omega
  have hsplit : y * c = y * c.sign * c.natAbs := by
    rw [mul_assoc, Int.sign_mul_natAbs]
  rw [hsplit, Int.lt_iff_add_one_le, Int.lt_iff_add_one_le, Int.le_ediv_iff_mul_le hpos, add_mul]
  omega

lemma lessThan_decides (he : Means A e x) (h : e.lessThan b = .ok r) : Decides A r (x < b) := by
  rw [lessThan.eq_def] at h
  obtain ⟨hreg, rfl⟩ := he
  have he := hreg.means
  cases hreg with
  | @mul a c ha _ h0 _ _ _ _ =>
    dsimp only at h
    split at h
    · cases h
      exact lessPlain_decides b he
    simp only [bind_eq_ok, pure_eq_ok, abs_eq_ok, add_eq_ok, sub_eq_ok] at h
    obtain ⟨_, ⟨_, rfl⟩, _, hs, _, ⟨_, rfl⟩, _, ⟨_, rfl⟩, q, hq, rfl⟩ := h
    have hfit : Fits c.sign := by
      obtain hc | hc | hc := Int.sign_trichotomy c <;> rw [hc] <;> decide
    refine (lessPlain_decides q (times_means ha.means hfit hs)).congr ?_
    rw [floorDiv_pos (by omega) hq, value]
    exact (mul_lt_iff h0).symm
  | @sum ps _ _ hps hns _ _ _ _ =>
    simp only [bind_eq_ok] at h
    obtain ⟨_, hbound, _, hleft, h⟩ := h
    have hml := total_means (fun p hp => hps p (mem_of_mem_filter hp)) hleft
    refine (lessTerms_decides hml h).congr ?_
    have hsplit := sum_split_nums _ (value_num A.value) ps
    rw [foldlM_sub_eq hbound, value_sum]
    omega
  | num _ | var _ _ _ | div _ _ _ _ _ | mod _ _ _ _ _ =>
    cases h
    exact lessPlain_decides b he

/-! Conjunctions. -/

lemma value_conj (σ : Variable → Int) (ps : List SymInt) :
    (conj ps).value σ = 1 ↔ ∀ p ∈ ps, p.value σ ≠ 0 := by
  rw [value, ← valueAll_eq]
  simp

section
variable (h : e.Condition scope)
include h

lemma Condition.value_ne_zero : e.value σ ≠ 0 ↔ e.value σ = 1 := by
  have := h.bit σ
  omega

lemma Condition.conditions : (∀ c ∈ e.conditions, c.Condition scope ∧ c.isConj = false) ∧
      ∀ σ : Variable → Int, e.value σ = 1 ↔ ∀ c ∈ e.conditions, c.value σ = 1 := by
  have single {e : SymInt} (he : e.Condition scope) (hc : e.isConj = false) :
      (∀ c ∈ e.conditions, c.Condition scope ∧ c.isConj = false) ∧
        ∀ σ : Variable → Int, e.value σ = 1 ↔ ∀ c ∈ e.conditions, c.value σ = 1 := by
    have : e.conditions = [e] := by
      cases e <;> simp_all [SymInt.conditions, isConj]
    rw [this]
    simp [he, hc]
  cases h with
  | zero => exact single .zero rfl
  | one => exact single .one rfl
  | test ht =>
    obtain ⟨a, c, rfl, _⟩ := ht.open_lt
    exact single (.test ht) rfl
  | conj hne hps =>
    refine ⟨fun c hc => ⟨.test (hps c hc), ?_⟩, fun σ => ?_⟩
    · obtain ⟨a, d, rfl, _⟩ := (hps c hc).open_lt
      rfl
    · rw [value_conj]
      exact forall₂_congr (fun p hp => (Condition.test (hps p hp)).value_ne_zero)

lemma Condition.test_of_open (hc : e.isConj = false) (hr : e.lo ≠ e.hi) : Test scope e := by
  cases h with
  | zero | one => simp at hr
  | test ht => exact ht
  | conj _ _ => simp [isConj] at hc

lemma Condition.num_of_closed (hc : e.isConj = false) (hr : e.lo = e.hi) :
    e = num 0 ∨ e = num 1 := by
  cases h with
  | zero => exact .inl rfl
  | one => exact .inr rfl
  | test ht =>
    have := ht.range
    omega
  | conj _ _ => simp [isConj] at hc

end

lemma tests_range (h : ps ≠ []) (hps : ∀ p ∈ ps, Test scope p) :
    (conj ps).lo = 0 ∧ (conj ps).hi = 1 := by
  obtain ⟨⟨p, hp, el⟩, ⟨q, hq, eh⟩, _⟩ := rangeConj_bounds h
  have hl : (conj ps).lo = (rangeConj ps).1 := by simp [lo, range]
  have hh : (conj ps).hi = (rangeConj ps).2 := by simp [hi, range]
  have h1 := (hps p hp).range
  have h2 := (hps q hq).range
  omega

lemma tests_conj (h : ps ≠ []) (hps : ∀ p ∈ ps, Test scope p) :
    (conj ps).collapse = conj ps := by
  apply collapse_of_ne
  have := tests_range h hps
  omega

lemma closed_is_one (h : ∀ e ∈ es, e.Condition scope) (hany : ¬es.any (·.is 0) = true)
    {c : SymInt} (hc : c ∈ es.flatMap conditions) (hr : c.lo = c.hi) : c = num 1 := by
  obtain ⟨e, he, hc⟩ := mem_flatMap.1 hc
  obtain ⟨hcond, hflat⟩ := (h e he).conditions.1 c hc
  obtain rfl | rfl := hcond.num_of_closed hflat hr
  · refine absurd (any_eq_true.2 ⟨e, he, ?_⟩) hany
    cases h e he with
    | zero => rfl
    | one => simp [conditions] at hc
    | test ht =>
      obtain ⟨a, d, rfl, _⟩ := ht.open_lt
      simp [conditions] at hc
    | conj _ hps =>
      have := (hps _ hc).range
      simp at this
  · rfl

lemma open_conditions (h : ∀ e ∈ es, e.Condition A.scope) (hany : ¬es.any (·.is 0) = true) :
    (∀ c ∈ (es.flatMap conditions).filter (fun x => x.lo ≠ x.hi), Test A.scope c) ∧
      ((∀ e ∈ es, e.value A.value = 1) ↔
        ∀ c ∈ (es.flatMap conditions).filter (fun x => x.lo ≠ x.hi),
          c.value A.value = 1) := by
  refine ⟨fun c hc => ?_, fun hall c hc => ?_, fun hall e he => ?_⟩
  · obtain ⟨hc, hr⟩ := mem_filter.1 hc
    obtain ⟨e, he, hc⟩ := mem_flatMap.1 hc
    obtain ⟨hcond, hflat⟩ := (h e he).conditions.1 c hc
    exact hcond.test_of_open hflat (by simpa using hr)
  · obtain ⟨e, he, hc⟩ := mem_flatMap.1 (mem_filter.1 hc).1
    exact ((h e he).conditions.2 A.value).1 (hall e he) c hc
  · refine ((h e he).conditions.2 A.value).2 (fun c hc => ?_)
    have hin := mem_flatMap.2 ⟨e, he, hc⟩
    by_cases hr : c.lo = c.hi
    · rw [closed_is_one h hany hin hr, value_num]
    · exact hall c (mem_filter.2 ⟨hin, by simpa using hr⟩)

lemma conjunction_decides (h : ∀ e ∈ es, e.Condition A.scope) :
    Decides A (conjunction es) (∀ e ∈ es, e.value A.value = 1) := by
  unfold conjunction
  split
  · exact decides_one (by simp)
  · exact ⟨h _ mem_cons_self, by simp⟩
  split
  · rename_i hany
    obtain ⟨z, hz, hzero⟩ := any_eq_true.1 hany
    refine decides_zero (fun hall => ?_)
    have hone := hall z hz
    rw [eq_num_of_num? (of_decide_eq_true hzero), value_num] at hone
    omega
  · rename_i hany
    obtain ⟨htests, hvalue⟩ := open_conditions h hany
    split
    · rename_i hnil
      rw [hnil] at hvalue
      exact decides_one (by simpa using hvalue)
    · rename_i c hone
      rw [hone] at htests hvalue
      exact ⟨.test (htests c mem_cons_self), by simpa using hvalue.symm⟩
    · rename_i hne _
      rw [tests_conj hne htests]
      refine ⟨.conj hne htests, ?_⟩
      rw [value_conj, hvalue]
      exact forall₂_congr (fun p hp => (Condition.test (htests p hp)).value_ne_zero)

/-! Evaluation. -/

lemma Test.eval_eq (h : Test A.scope e)
    (hv : ∀ v, A.scope v → VarMap.value? vals v = some (A.value v)) :
    e.eval vals = .ok (some (e.value A.value)) := by
  obtain ⟨a, c, rfl, ha, _⟩ := h.open_lt
  simp [eval, ha.eval_eq hv, value]

lemma evalAll_eq (h : ∀ p ∈ ps, p.eval vals = .ok (some (p.value σ))) (acc : Bool) :
    evalAll vals acc ps = .ok (some (acc && valueAll σ ps)) := by
  induction ps generalizing acc with
  | nil => simp [evalAll]
  | cons p ps ih =>
    have hp := h p mem_cons_self
    have hps := ih (fun q hq => h q (mem_cons_of_mem p hq))
    rw [evalAll, hp]
    change evalAll vals (acc && p.value σ != 0) ps = _
    rw [hps, valueAll, Bool.and_assoc]

/-- Computing a condition never fails and gives its exact value. -/
lemma Condition.eval_eq (h : e.Condition A.scope)
    (hv : ∀ v, A.scope v → VarMap.value? vals v = some (A.value v)) :
    e.eval vals = .ok (some (e.value A.value)) := by
  cases h with
  | zero | one => simp [eval]
  | test ht => exact ht.eval_eq hv
  | conj _ hps =>
    rw [eval, evalAll_eq (fun p hp => (hps p hp).eval_eq hv), value]
    simp

/-! Failures. -/

lemma gcdCoeff_overflow (g : Int) (t : SymInt) : OnlyOverflow (gcdCoeff g t) := by
  unfold gcdCoeff
  split
  · exact .gcd _ _
  · exact .ok _

lemma divideCoeff_overflow (g : Int) (t : SymInt) : OnlyOverflow (divideCoeff g t) := by
  unfold divideCoeff
  split
  · exact (OnlyOverflow.floorDiv _ _).bind (fun _ _ => times_overflow _ _)
  · exact .ok _

lemma lessTerms_overflow (e : SymInt) (b : Int) : OnlyOverflow (e.lessTerms b) := by
  unfold lessTerms
  dsimp only
  split
  · exact .pure _
  refine (OnlyOverflow.foldlM gcdCoeff_overflow _ _).bind (fun g _ => ?_)
  refine (total_overflow _).bind (fun rest _ => ?_)
  split
  · refine (OnlyOverflow.mapM (fun t _ => divideCoeff_overflow g t)).bind (fun ds _ => ?_)
    exact (total_overflow _).bind (fun _ _ => (OnlyOverflow.floorDiv _ _).bind (fun _ _ => .pure _))
  · exact .pure _

lemma lessThan_overflow (e : SymInt) (b : Int) : OnlyOverflow (e.lessThan b) := by
  rw [lessThan.eq_def]
  split
  · split
    · exact .ok _
    refine (OnlyOverflow.word _).bind (fun _ _ => (times_overflow _ _).bind (fun _ _ => ?_))
    refine (OnlyOverflow.word _).bind (fun _ _ => (OnlyOverflow.word _).bind (fun _ _ => ?_))
    exact (OnlyOverflow.floorDiv _ _).bind (fun _ _ => .pure _)
  · refine (OnlyOverflow.foldlM (fun _ _ => .word _) _ _).bind (fun _ _ => ?_)
    exact (total_overflow _).bind (fun _ _ => lessTerms_overflow _ _)
  · exact .ok _

section
variable {N : Prop}

lemma lessThan_delivers (he : Means A e x) : Delivers N (e.lessThan b) (Decides A · (x < b)) :=
  ⟨lessThan_decides he, fun _ => lessThan_overflow e b⟩

lemma atMost_delivers (he : Means A e x) : Delivers N (e.atMost b) (Decides A · (x ≤ b)) :=
  (Delivers.word _).bind fun _ hn => (lessThan_delivers he).weaken fun _ hd => hd.congr (by omega)

lemma moreThan_delivers (he : Means A e x) : Delivers N (e.moreThan b) (Decides A · (b < x)) :=
  (negate_delivers he).bind fun _ hm => (Delivers.word _).bind fun _ hn =>
    (lessThan_delivers hm).weaken fun _ hd => hd.congr (by omega)

lemma atLeast_delivers (he : Means A e x) : Delivers N (e.atLeast b) (Decides A · (b ≤ x)) :=
  (negate_delivers he).bind fun _ hm => (Delivers.word _).bind fun _ hn =>
    (Delivers.word _).bind fun _ hk =>
    (lessThan_delivers hm).weaken fun _ hd => hd.congr (by omega)

end

end LazyTensor.SymInt
