import LazyTensor.Proofs.SymInt.Compare
import LazyTensor.Proofs.SymInt.Substitute
import Mathlib.Data.List.Induction

/-! Conditions in which variables were replaced, and the values an index runs through. -/
namespace LazyTensor
open List Option VarMap
variable {α : Type} {v : Variable}
variable {y : α} {entries : List (Variable × α)}

open Checked

namespace SymInt
variable {A B : Assignment} {e r : SymInt} {m : VarMap SymInt}
variable {ps : List SymInt} {scope other : Variable → Prop} {v : Variable} {vals : Bindings}

section
variable (hm : ∀ v, A.scope v → Means B (image m v) (A.value v))
include hm

lemma Test.substitute_delivers (he : e.Test A.scope) :
    Delivers B.Nonneg (e.substitute m) (Decides B · (e.value A.value = 1)) := by
  obtain ⟨a, c, rfl, ha, _⟩ := he.open_lt
  rw [substitute]
  refine (SymInt.substitute_delivers hm ha).bind fun _ hx =>
    (lessThan_delivers hx).weaken fun _ hd => hd.congr ?_
  rw [SymInt.value]
  split <;> simp_all

/-- Either a part is false after the replacement, or the parts hold together as they did. -/
lemma substituteConj_delivers (hps : ∀ p ∈ ps, p.Test A.scope) :
    Delivers B.Nonneg (substituteConj m ps) (fun o =>
      (o = none → ∃ p ∈ ps, p.value A.value ≠ 1) ∧ ∀ qs, o = some qs →
        (∀ q ∈ qs, q.Condition B.scope) ∧
        ((∀ q ∈ qs, q.value B.value = 1) ↔ ∀ p ∈ ps, p.value A.value = 1)) := by
  induction ps with
  | nil => exact .ok (by simp)
  | cons p ps ih =>
    obtain ⟨hp, hps⟩ := forall_mem_cons.1 hps
    rw [substituteConj]
    refine (hp.substitute_delivers hm).bind fun q hq => ?_
    split
    · rename_i hzero
      cases eq_num_of_num? (of_decide_eq_true hzero)
      exact .ok ⟨fun _ => ⟨p, by simp, fun h => by simpa using hq.value.2 h⟩, by simp⟩
    · refine (ih hps).bind fun o ho => .ok ?_
      cases o with
      | none =>
        obtain ⟨z, hz, hne⟩ := ho.1 rfl
        exact ⟨fun _ => ⟨z, mem_cons_of_mem p hz, hne⟩, by simp⟩
      | some qs =>
        obtain ⟨hcond, hval⟩ := ho.2 qs rfl
        simp only [map_some, reduceCtorEq, false_implies, some.injEq, forall_eq', true_and,
          forall_mem_cons, hq.value, hval]
        exact ⟨⟨hq.condition, hcond⟩, trivial⟩

lemma Condition.substitute_delivers (he : e.Condition A.scope) :
    Delivers B.Nonneg (e.substitute m) (Decides B · (e.value A.value = 1)) := by
  cases he with
  | zero => exact .ok (decides_zero (by simp))
  | one => exact .ok (decides_one (by simp))
  | test ht => exact ht.substitute_delivers hm
  | @conj ps hne hps =>
    have hvalue : (SymInt.conj ps).value A.value = 1 ↔ ∀ p ∈ ps, p.value A.value = 1 := by
      rw [value_conj]
      exact forall₂_congr (fun p hp => (Condition.test (hps p hp)).value_ne_zero)
    rw [substitute]
    refine (substituteConj_delivers hm hps).bind fun o ho => ?_
    cases o with
    | none =>
      obtain ⟨p, hp, hne⟩ := ho.1 rfl
      exact .ok (decides_zero fun hall => hne (hvalue.1 hall p hp))
    | some qs =>
      obtain ⟨hcond, hval⟩ := ho.2 qs rfl
      exact .ok ((conjunction_decides hcond).congr (hval.trans hvalue.symm))

end

/-! Variables that occur. -/

lemma Regular.scope_of_mem (h : e.Regular scope) (hv : v ∈ e.occurrences) : scope v := by
  induction h with
  | num _ => simp at hv
  | var _ _ hs =>
    rw [occurrences, mem_singleton] at hv
    exact hv ▸ hs
  | mul _ _ _ _ _ _ _ ih | div _ _ _ _ _ ih | mod _ _ _ _ _ ih =>
    rw [occurrences] at hv
    exact ih hv
  | sum _ _ _ _ _ _ ih =>
    rw [occurrences] at hv
    obtain ⟨p, hp, hv⟩ := mem_occurrencesAll.1 hv
    exact ih p hp hv

lemma Condition.scope_of_mem (h : e.Condition scope) (hv : v ∈ e.occurrences) : scope v := by
  have htest {e : SymInt} (ht : e.Test scope) (hv : v ∈ e.occurrences) : scope v := by
    obtain ⟨a, c, rfl, ha, _⟩ := ht.open_lt
    rw [occurrences] at hv
    exact ha.scope_of_mem hv
  cases h with
  | zero | one => simp at hv
  | test ht => exact htest ht hv
  | conj _ hps =>
    rw [occurrences] at hv
    obtain ⟨p, hp, hv⟩ := mem_occurrencesAll.1 hv
    exact htest (hps p hp) hv

/-! Evaluation under bindings of the variables that occur. -/

lemma Regular.eval_occurring (h : e.Regular A.scope)
    (hv : ∀ v ∈ e.vars, value? vals v = some (A.value v)) :
    e.eval vals = .ok (some (e.value A.value)) :=
  Regular.eval_eq (A := Assignment.within A e) h.restrict (fun v hs => hv v (mem_vars.2 hs.2.1))

lemma Test.mono (h : e.Test scope) (hs : ∀ v, scope v → other v) : e.Test other := by
  obtain ⟨a, c, rfl, ha, hc⟩ := h.open_lt
  exact ⟨a, c, rfl, ha.mono hs, hc⟩

lemma Condition.mono (h : e.Condition scope) (hs : ∀ v, scope v → other v) :
    e.Condition other := by
  cases h with
  | zero => exact .zero
  | one => exact .one
  | test ht => exact .test (ht.mono hs)
  | conj hne hps => exact .conj hne (fun p hp => (hps p hp).mono hs)

lemma Test.restrict (h : e.Test scope) :
    e.Test (fun v => scope v ∧ v ∈ e.occurrences ∧ v.Proper) := by
  obtain ⟨a, c, rfl, ha, hc⟩ := h.open_lt
  exact ⟨a, c, rfl, by simpa using ha.restrict, hc⟩

lemma Condition.restrict (h : e.Condition scope) :
    e.Condition (fun v => scope v ∧ v ∈ e.occurrences ∧ v.Proper) := by
  cases h with
  | zero => exact .zero
  | one => exact .one
  | test ht => exact .test ht.restrict
  | conj hne hps =>
    refine .conj hne (fun p hp => (hps p hp).restrict.mono (fun v hv => ⟨hv.1, ?_, hv.2.2⟩))
    rw [occurrences]
    exact mem_occurrencesAll.2 ⟨p, hp, hv.2.1⟩

lemma Condition.eval_occurring (h : e.Condition A.scope)
    (hv : ∀ v ∈ e.vars, value? vals v = some (A.value v)) :
    e.eval vals = .ok (some (e.value A.value)) :=
  Condition.eval_eq (A := Assignment.within A e) h.restrict (fun v hs => hv v (mem_vars.2 hs.2.1))

/-! Expressions without variables. -/

lemma Regular.lo_eq_hi (h : e.Regular Assignment.closed.scope) : e.lo = e.hi := by
  induction h with
  | num _ => simp
  | var _ _ hs => exact hs.elim
  | @mul a c _ _ _ _ _ _ _ ih =>
    obtain ⟨_, hl, hh⟩ | ⟨_, hl, hh⟩ := range_mul a c <;> rw [hl, hh, ih]
  | @div a c _ _ hc _ hr ih =>
    rw [lo_div (by omega), hi_div (by omega), ih] at hr
    omega
  | mod _ _ _ _ hr ih => omega
  | @sum ps _ _ _ _ _ _ _ _ ih =>
    rw [lo_sum, hi_sum, map_congr_left ih]

lemma Regular.lo_eq_value (h : e.Regular Assignment.closed.scope) :
    e.lo = e.value Assignment.closed.value := by
  have hv := h.value_between (A := Assignment.closed)
  have := h.lo_eq_hi
  omega

lemma Condition.lo_eq_value (h : e.Condition Assignment.closed.scope) :
    e.lo = e.value Assignment.closed.value := by
  have hno {e : SymInt} (ht : e.Test Assignment.closed.scope) : False := by
    obtain ⟨a, c, _, ha, hl, hh⟩ := ht.open_lt
    have := ha.lo_eq_hi
    omega
  cases h with
  | zero | one => simp
  | test ht => exact (hno ht).elim
  | conj hne hps =>
    obtain ⟨p, hp⟩ := exists_mem_of_ne_nil _ hne
    exact (hno (hps p hp)).elim

end SymInt

/-! Choices of values. -/

lemma mem_intRange {lo hi x : Int} : x ∈ intRange lo hi ↔ lo ≤ x ∧ x ≤ hi := by
  simp only [intRange, List.mem_map, mem_range]
  constructor
  · rintro ⟨k, hk, rfl⟩
    omega
  · intro h
    exact ⟨(x - lo).toNat, by omega, by omega⟩

lemma mem_choices {vs : List Variable} {σ : Variable → Int}
    (h : ∀ v ∈ vs, v.lo ≤ σ v ∧ σ v ≤ v.hi) :
    vs.map σ ∈ choices (vs.map (fun v => (v.lo, v.hi))) := by
  induction vs with
  | nil => simp [choices]
  | cons v vs ih =>
    have hrest := ih (fun w hw => h w (mem_cons_of_mem v hw))
    have hv := mem_intRange.2 (h v mem_cons_self)
    simp only [map_cons, choices, mem_flatMap, List.mem_map]
    exact ⟨_, hrest, _, hv, rfl⟩

lemma choices_between {ranges : List (Int × Int)} {values : List Int}
    (h : values ∈ choices ranges) : Forall₂
      (fun r n => r.1 ≤ n ∧ n ≤ r.2) ranges values := by
  induction ranges generalizing values with
  | nil =>
    cases mem_singleton.1 h
    exact .nil
  | cons r rs ih =>
    simp only [choices, mem_flatMap, List.mem_map] at h
    obtain ⟨_, htail, n, hn, rfl⟩ := h
    exact .cons (mem_intRange.1 hn) (ih htail)

lemma VarMap.value?_put (m : VarMap α) (v w : Variable) (x : α) :
    value? (m.put v x) w = if v = w then some x else value? m w := by
  induction m with
  | nil => by_cases h : v = w <;> simp [put, value?, h]
  | cons e m ih =>
    unfold put
    by_cases he : v = e.1
    · by_cases h : v = w <;> simp_all [value?]
    · rw [if_neg he]
      by_cases hb : v.before e.1 = true
      · by_cases h : v = w <;> simp_all [value?]
      · rw [if_neg hb]
        by_cases hew : e.1 = w
        · have : v ≠ w := fun h => he (h.trans hew.symm)
          simp [value?, hew, this]
        · simpa [value?, hew] using ih

lemma VarMap.mem_put {m : VarMap α} {x : Variable × α} (h : x ∈ m.put v y) :
    x = (v, y) ∨ x ∈ m := by
  induction m with
  | nil => exact .inl (mem_singleton.1 h)
  | cons e m ih =>
    unfold put at h
    split at h
    · exact (mem_cons.1 h).imp_right (mem_cons_of_mem e)
    split at h
    · exact mem_cons.1 h
    · obtain rfl | h := mem_cons.1 h
      · exact .inr mem_cons_self
      · exact (ih h).imp_right (mem_cons_of_mem e)

lemma VarMap.mem_of_value? {m : VarMap α} (h : value? m v = some y) : (v, y) ∈ m := by
  obtain ⟨x, hx, rfl⟩ := map_eq_some_iff.1 h
  have hv : x.1 = v := by simpa using find?_some hx
  exact hv ▸ mem_of_find?_eq_some hx

lemma VarMap.ofEntries_induction {P : Variable × α → Prop} (h : ∀ x ∈ entries, P x) :
    ∀ x ∈ ofEntries entries, P x := by
  have hfold (m : VarMap α) (hm : ∀ x ∈ m, P x) :
      ∀ x ∈ entries.foldl (fun m e => put m e.1 e.2) m, P x := by
    induction entries generalizing m with
    | nil => exact hm
    | cons e es ih =>
      refine ih (fun y hy => h y (mem_cons_of_mem e hy)) _ (fun y hy => ?_)
      obtain rfl | hy := mem_put hy
      · exact h e mem_cons_self
      · exact hm y hy
  exact hfold [] (by simp)

lemma VarMap.exists_value? (hv : v ∈ entries.map (·.1)) :
    ∃ x, (v, x) ∈ entries ∧ value? (ofEntries entries) v = some x := by
  induction entries using reverseRecOn with
  | nil => cases hv
  | append_singleton es e ih =>
    have hput : ofEntries (es ++ [e]) = put (ofEntries es) e.1 e.2 := by
      simp [ofEntries]
    rw [hput, value?_put]
    by_cases he : e.1 = v
    · exact ⟨e.2, by simp [← he], if_pos he⟩
    · obtain ⟨x, hin, hx⟩ := ih (by simpa [Ne.symm he] using hv)
      exact ⟨x, mem_append_left _ hin, by rw [if_neg he, hx]⟩

namespace SymInt
variable {A : Assignment} {e r : SymInt}
variable {vs : List Variable} {v : Variable} {values : List Int}

def Assignment.numbers (A : Assignment) (vs : List Variable) : VarMap SymInt :=
  VarMap.ofEntries (vs.zip ((vs.map A.value).map num))

lemma image_numbers (h : v ∈ vs) : image (Assignment.numbers A vs) v = num (A.value v) := by
  have hentries : vs.zip ((vs.map A.value).map num) = vs.map (fun v => (v, num (A.value v))) := by
    rw [List.map_map, ← map_prod_left_eq_zip]
    rfl
  have hv : v ∈ (vs.map (fun v => (v, num (A.value v)))).map (·.1) := by simpa using h
  obtain ⟨x, hin, hx⟩ := exists_value? hv
  obtain ⟨w, _, heq⟩ := List.mem_map.1 hin
  cases heq
  rw [image, Assignment.numbers, hentries, hx]
  rfl

lemma numbers_means (h : ∀ v ∈ e.vars, v ∈ vs) (v : Variable)
    (hv : (Assignment.within A e).scope v) :
    Means Assignment.closed (image (Assignment.numbers A vs) v) (A.value v) := by
  obtain ⟨hs, ho, hp⟩ := hv
  rw [image_numbers (h v (mem_vars.2 ho))]
  exact means_num (hp.lo_fits.between hp.hi_fits (A.lo_le v hs) (A.le_hi v hs))

lemma Regular.substitute_numbers (he : e.Regular A.scope) (hvs : ∀ v ∈ e.vars, v ∈ vs)
    (h : e.substitute (Assignment.numbers A vs) = .ok r) : r.lo = e.value A.value := by
  have hm :=
    (substitute_delivers (A := Assignment.within A e) (numbers_means hvs) he.restrict).of_ok h
  rw [hm.regular.lo_eq_value, hm.value]
  rfl

lemma Condition.substitute_numbers (he : e.Condition A.scope) (hvs : ∀ v ∈ e.vars, v ∈ vs)
    (h : e.substitute (Assignment.numbers A vs) = .ok r) : r.lo = e.value A.value := by
  have hd :=
    (he.restrict.substitute_delivers (A := Assignment.within A e) (numbers_means hvs)).of_ok h
  have hsame : r.value Assignment.closed.value = 1 ↔ e.value A.value = 1 := hd.value
  have hr := hd.condition.bit Assignment.closed.value
  have hv := he.bit A.value
  rw [hd.condition.lo_eq_value]
  omega

/-! Every choice of values leaves numbers, so only overflow can stop an expansion. -/

lemma image_choice (h : values ∈ choices (vs.map (fun v => (v.lo, v.hi)))) (hv : v ∈ vs) :
    ∃ n, image (ofEntries (vs.zip (values.map num))) v = num n ∧ v.lo ≤ n ∧ n ≤ v.hi := by
  have hb : Forall₂ (fun v n => v.lo ≤ n ∧ n ≤ v.hi) vs values := by
    simpa [forall₂_map_left_iff] using choices_between h
  have hmem : v ∈ (vs.zip (values.map num)).map (·.1) := by
    rw [map_fst_zip (by simp [hb.length_eq])]
    exact hv
  obtain ⟨x, hin, hx⟩ := exists_value? hmem
  rw [zip_map_right] at hin
  obtain ⟨y, hy, heq⟩ := mem_map.1 hin
  cases heq
  refine ⟨y.2, ?_, (forall₂_iff_zip.1 hb).2 hy⟩
  rw [image, hx]
  rfl

def Assignment.chosen {vs : List Variable} {values : List Int}
    (h : values ∈ choices (vs.map (fun v => (v.lo, v.hi)))) : Assignment where
  scope v := v ∈ vs ∧ v.Proper
  value v := (image (VarMap.ofEntries (vs.zip (values.map num))) v).lo
  lo_le v hv := by
    obtain ⟨n, hn, hlo, _⟩ := image_choice h hv.1
    rw [hn, lo_num]
    exact hlo
  le_hi v hv := by
    obtain ⟨n, hn, _, hhi⟩ := image_choice h hv.1
    rw [hn, lo_num]
    exact hhi

lemma chosen_means (h : values ∈ choices (vs.map (fun v => (v.lo, v.hi)))) (v : Variable)
    (hv : (Assignment.chosen h).scope v) :
    Means Assignment.closed (image (ofEntries (vs.zip (values.map num))) v)
      ((Assignment.chosen h).value v) := by
  obtain ⟨n, hn, hlo, hhi⟩ := image_choice h hv.1
  simp only [Assignment.chosen, hn, lo_num]
  exact means_num (hv.2.lo_fits.between hv.2.hi_fits hlo hhi)

lemma expand_overflow {scope : Variable → Prop} (hvs : ∀ v ∈ e.vars, v ∈ vs)
    (he : e.Regular scope ∨ e.Condition scope) : OnlyOverflow (e.expand vs) := by
  refine OnlyOverflow.mapM (fun values hvalues => ?_)
  have hscope (v : Variable) (h : scope v ∧ v ∈ e.occurrences ∧ v.Proper) :
      (Assignment.chosen hvalues).scope v := ⟨hvs v (mem_vars.2 h.2.1), h.2.2⟩
  obtain he | he := he
  · exact (substitute_delivers (A := Assignment.chosen hvalues) (chosen_means hvalues)
      (he.restrict.mono hscope)).overflow fun _ h => h.elim
  · exact (Condition.substitute_delivers (A := Assignment.chosen hvalues) (chosen_means hvalues)
      (he.restrict.mono hscope)).overflow fun _ h => h.elim

end SymInt

end LazyTensor
