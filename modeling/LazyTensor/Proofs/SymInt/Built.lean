import LazyTensor.Proofs.SymInt.Expand
import LazyTensor.Proofs.SymInt.Expression

/-! Indices and conditions as they come about, by the operators and by replacing variables. -/
namespace LazyTensor
open VarMap Variable

open Checked

namespace SymInt
variable {e n r : SymInt} {m : VarMap SymInt} {vals vals' : Bindings}

/-- Every replacement keeps to the range of its variable. -/
def Stays (m : VarMap SymInt) : Prop :=
  ∀ v y, VarMap.value? m v = some y → ∀ σ : Variable → Int,
    (∀ u ∈ y.vars, u.lo ≤ σ u ∧ σ u ≤ u.hi) → v.lo ≤ y.value σ ∧
    y.value σ ≤ v.hi

/-- Indices: numbers, declared variables and counters with or without a name, sums, products,
quotients and remainders of indices, and indices in which indices took the place of variables. -/
inductive Index : SymInt → Prop
  | num {n : Int} (fits : Fits n) : Index (num n)
  | var {v : Variable} (declared : declare v.name v.lo v.hi = .ok v) (fits : Fits v.hi) :
    Index (ofVariable v)
  | counter {name : String} {lo hi : Int} {r : SymInt}
    (named : name = "" ∨ isIdentifier name = true) (nonneg : 0 ≤ lo) (fits : Fits hi)
    (h : counter name lo hi = .ok r) : Index r
  | total {es : List SymInt} {r : SymInt} (hes : ∀ e ∈ es, Index e)
      (h : total es = .ok r) : Index r
  | plus {a b r : SymInt} (ha : Index a) (hb : Index b) (h : a.plus b = .ok r) : Index r
  | minus {a b r : SymInt} (ha : Index a) (hb : Index b) (h : a.minus b = .ok r) : Index r
  | negate {a r : SymInt} (ha : Index a) (h : a.negate = .ok r) : Index r
  | times {a r : SymInt} {c : Int} (ha : Index a) (fits : Fits c) (h : a.times c = .ok r) : Index r
  | quotient {a r : SymInt} {b : Int} (ha : Index a) (pos : 0 < b) (fits : Fits b)
    (h : a.quotient b = .ok r) : Index r
  | remainder {a r : SymInt} {b : Int} (ha : Index a) (pos : 0 < b) (fits : Fits b)
    (h : a.remainder b = .ok r) : Index r
  | substitute {e r : SymInt} {m : VarMap SymInt} (he : Index e)
    (hm : ∀ v y, VarMap.value? m v = some y → Index y) (hs : Stays m)
      (h : e.substitute m = .ok r) :
    Index r

/-- Conditions: comparisons of an index, conjunctions of conditions, and conditions in which indices
took the place of variables. -/
inductive Validity : SymInt → Prop
  | compare {a r : SymInt} (c : Comparison) (b : Int) (ha : Index a) (h : c.apply a b = .ok r) :
    Validity r
  | all {es : List SymInt} (h : ∀ e ∈ es, Validity e) : Validity (conjunction es)
  | substitute {e r : SymInt} {m : VarMap SymInt} (he : Validity e)
    (hm : ∀ v y, VarMap.value? m v = some y → Index y) (hs : Stays m)
      (h : e.substitute m = .ok r) :
    Validity r

def Assignment.lowest : Assignment where
  scope := Variable.Counts
  value := Variable.lo
  lo_le _ _ := le_rfl
  le_hi _ h := h.lo_lt_hi.le

def Assignment.replaced (hm : ∀ v y, VarMap.value? m v = some y → y.Regular Variable.Counts)
    (hs : Stays m) : Assignment where
  scope := Variable.Counts
  value v := (image m v).value Variable.lo
  lo_le v hv := by
    unfold image
    cases hy : VarMap.value? m v with
    | none => simp [SymInt.value]
    | some y => exact (hs v y hy _ fun u hu =>
        ⟨le_rfl, ((hm v y hy).scope_of_mem (mem_vars.1 hu)).lo_lt_hi.le⟩).1
  le_hi v hv := by
    unfold image
    cases hy : VarMap.value? m v with
    | none => simpa [SymInt.value] using hv.lo_lt_hi.le
    | some y => exact (hs v y hy _ fun u hu =>
        ⟨le_rfl, ((hm v y hy).scope_of_mem (mem_vars.1 hu)).lo_lt_hi.le⟩).2

lemma image_replaced (hm : ∀ v y, value? m v = some y → y.Regular Variable.Counts)
    (hs : Stays m) (v : Variable) (hv : v.Counts) :
    Means Assignment.lowest (image m v) ((Assignment.replaced hm hs).value v) := by
  refine ⟨?_, rfl⟩
  unfold image
  cases hy : value? m v with
  | none => exact .var hv.proper hv.lo_lt_hi hv
  | some y => exact hm v y hy

lemma counter_regular {name : String} {lo hi : Int}
    (named : name = "" ∨ isIdentifier name = true) (nonneg : 0 ≤ lo) (fits : Fits hi)
    (h : counter name lo hi = .ok e) : e.Regular Variable.Counts := by
  unfold SymInt.counter Variable.counter at h
  split at h
  · rename_i hle
    cases h
    have hlo : Fits lo := fits_zero.between fits nonneg hle
    rw [ofVariable]
    split
    · exact .num hlo
    · rename_i hne
      have hlt : lo < hi := lt_of_le_of_ne hle hne
      exact .var ⟨named, hlo, fits⟩ hlt ⟨⟨named, hlo, fits⟩, nonneg, hlt⟩
  · cases h

lemma Index.regular (h : Index e) : e.Regular Variable.Counts := by
  have regular {a : SymInt} {x : Int} (h : Means Assignment.lowest a x) := h.regular
  induction h with
  | num fits => exact .num fits
  | var declared fits =>
    have hc := counts_of_declare declared fits
    rw [ofVariable, if_neg (ne_of_lt hc.lo_lt_hi)]
    exact .var hc.proper hc.lo_lt_hi hc
  | counter named nonneg fits h => exact counter_regular named nonneg fits h
  | total _ h ih => exact regular (total_means ih h)
  | plus _ _ h iha ihb => exact regular (plus_means iha.means ihb.means h)
  | minus _ _ h iha ihb => exact regular (minus_means iha.means ihb.means h)
  | negate _ h ih => exact regular (negate_means ih.means h)
  | times _ fits h ih => exact regular (times_means ih.means fits h)
  | quotient _ pos fits h ih => exact regular (quotient_means ih.means pos fits h)
  | remainder _ pos fits h ih => exact regular (remainder_means ih.means pos fits h)
  | substitute _ _ hs h ih ihm =>
    exact regular
      ((substitute_delivers (A := Assignment.replaced ihm hs) (image_replaced ihm hs) ih).of_ok h)

lemma Validity.condition (h : Validity e) : e.Condition Variable.Counts := by
  induction h with
  | compare c b ha h =>
    exact ((c.apply_delivers (A := Assignment.lowest) (N := True) ha.regular.means).of_ok
      h).condition
  | all _ ih => exact (conjunction_decides (A := Assignment.lowest) ih).condition
  | substitute _ hm hs h ih =>
    have hm' := fun v y hy => (hm v y hy).regular
    exact ((Condition.substitute_delivers (A := Assignment.replaced hm' hs)
      (image_replaced hm' hs) ih).of_ok h).condition

/-! Values under bindings. -/

def Binds (vals : Bindings) (v : Variable) : Prop :=
  ∃ x, VarMap.value? vals v = some x ∧ v.lo ≤ x ∧ x ≤ v.hi

def Assignment.bound (vals : Bindings) : Assignment where
  scope v := v.Counts ∧ Binds vals v
  value v := (VarMap.value? vals v).getD 0
  lo_le v h := by
    obtain ⟨_, x, hx, hlo, _⟩ := h
    rw [hx]
    exact hlo
  le_hi v h := by
    obtain ⟨_, x, hx, _, hhi⟩ := h
    rw [hx]
    exact hhi

lemma Assignment.bound_value {v : Variable} (h : Binds vals v) :
    value? vals v = some ((Assignment.bound vals).value v) := by
  obtain ⟨x, hx, _⟩ := h
  simp only [Assignment.bound, hx, Option.getD_some]

lemma Regular.bound (h : e.Regular Variable.Counts) (hv : ∀ v ∈ e.vars, Binds vals v) :
    e.Regular (Assignment.bound vals).scope :=
  h.restrict.mono fun v hs => ⟨hs.1, hv v (mem_vars.2 hs.2.1)⟩

lemma Condition.bound (h : e.Condition Variable.Counts) (hv : ∀ v ∈ e.vars, Binds vals v) :
    e.Condition (Assignment.bound vals).scope :=
  h.restrict.mono fun v hs => ⟨hs.1, hv v (mem_vars.2 hs.2.1)⟩

lemma Condition.value_between {A : Assignment} (h : e.Condition A.scope) :
    e.lo ≤ e.value A.value ∧ e.value A.value ≤ e.hi := by
  have hbit := h.bit A.value
  cases h with
  | zero | one => simp
  | test ht =>
    have := ht.range
    omega
  | conj hne hps =>
    have := tests_range hne hps
    omega

/-- An index or condition evaluates under every assignment of its variables, to a value between its
bounds. -/
theorem eval_between_bounds (he : Index e ∨ Validity e) (hv : ∀ v ∈ e.vars, Binds vals v) :
    ∃ x, e.eval vals = .ok (some x) ∧ e.lo ≤ x ∧ x ≤ e.hi := by
  have hbound := fun v (h : (Assignment.bound vals).scope v) => Assignment.bound_value h.2
  obtain he | he := he
  · have hr := he.regular.bound hv
    exact ⟨_, hr.eval_eq hbound, hr.value_between⟩
  · have hc := he.condition.bound hv
    exact ⟨_, hc.eval_eq hbound, hc.value_between⟩

/-- `(6 * row) mod 4` at row 3. -/
theorem row_between_bounds : let row : Variable := ⟨"row", 0, 5⟩
    ∃ a e, (ofVariable row).times 6 = .ok a ∧ a.remainder 4 = .ok e ∧
      (∀ v ∈ e.vars, Binds [(row, 3)] v) ∧
      e.lo = 0 ∧ e.hi = 3 ∧ ∃ x, e.eval [(row, 3)] = .ok (some x) ∧ e.lo ≤ x ∧
      x ≤ e.hi := by
  intro row
  obtain ⟨a, ha⟩ : ∃ a, (ofVariable row).times 6 = .ok a := ⟨_, rfl⟩
  obtain ⟨e, he⟩ : ∃ e, a.remainder 4 = .ok e := by
    cases ha
    exact ⟨_, rfl⟩
  have hrow : Index (ofVariable row) := .var (v := ⟨"row", 0, 5⟩) rfl (by decide)
  have hindex : Index e := .remainder (.times hrow (by decide) ha) (by decide) (by decide) he
  have hfacts : e.vars = [row] ∧ e.lo = 0 ∧ e.hi = 3 := by
    cases ha
    cases he
    decide +kernel
  have hbinds : ∀ v ∈ e.vars, Binds [(row, 3)] v := by
    rw [hfacts.1]
    simp only [List.mem_singleton, forall_eq]
    exact ⟨3, rfl, by decide, by decide⟩
  exact ⟨a, e, ha, he, hbinds, hfacts.2.1, hfacts.2.2, eval_between_bounds (.inl hindex) hbinds⟩

/-- `(z // 8) * -2 + (z < 8) * -2 + 2`, zero wherever `z` keeps to its range. -/
def halved (z : Variable) : Checked SymInt := do
  let high ← (← (var z).quotient 8).times (-2)
  let low ← (← (var z).lessThan 8).times (-2)
  (← high.plus low).plusInt 2

/-- `(x < 5) * 4`. -/
def quad (x : Variable) : Checked SymInt := do (← (var x).lessThan 5).times 4

/-- With comparisons under arithmetic, a conjunction of parts that are zero everywhere turns into
one that is true above its upper bound: the quotient of a comparison is taken as a comparison of
quotients. -/
theorem halved_above_bound : let z : Variable := ⟨"z", 0, 15⟩; let w : Variable :=
  ⟨"w", 0, 15⟩
    let x : Variable := ⟨"x", 0, 9⟩; let y : Variable := ⟨"y", 0, 9⟩
    ∃ a b c d r, halved z = .ok a ∧ halved w = .ok b ∧ quad x = .ok c ∧ quad y = .ok d ∧
      (∀ i ∈ intRange 0 15, a.eval [(z, i)] = .ok (some 0) ∧
        b.eval [(w, i)] = .ok (some 0)) ∧
      c.lo = 0 ∧ c.hi = 4 ∧ (conjunction [a, b]).substitute [(z, c), (w, d)] = .ok r ∧
      r.lo = -2 ∧ r.hi = 0 ∧ r.eval [(x, 0), (y, 0)] = .ok (some 1) := by
  intro z w x y
  have hrun : (do
      let a ← halved z
      let b ← halved w
      let c ← quad x
      let d ← quad y
      let r ← (conjunction [a, b]).substitute [(z, c), (w, d)]
      pure
        (decide
          ((∀ i ∈ intRange 0 15, a.eval [(z, i)] = .ok (some 0) ∧
            b.eval [(w, i)] = .ok (some 0)) ∧
        c.lo = 0 ∧ c.hi = 4 ∧ r.lo = -2 ∧ r.hi = 0 ∧
        r.eval [(x, 0), (y, 0)] = .ok (some 1)))) =
      (.ok true : Checked Bool) := by decide +kernel
  simp only [bind_eq_ok, pure_eq_ok, decide_eq_true_eq] at hrun
  obtain ⟨a, ha, b, hb, c, hc, d, hd, r, hr, hzero, hclo, hchi, hbounds⟩ := hrun
  exact ⟨a, b, c, d, r, ha, hb, hc, hd, hzero, hclo, hchi, hr, hbounds⟩

/-- Replacing variables and then binding the rest gives what binding all of them gives, each
replaced one to the value of its replacement. Only a word that overflows while the expression is
built anew stops it. -/
theorem substitute_eval (hn : Index n ∨ Validity n)
    (hm : ∀ v y, VarMap.value? m v = some y → Index y ∧ (∀ u ∈ y.vars, Binds vals u) ∧
      ∃ x, y.eval vals = .ok (some x) ∧ v.lo ≤ x ∧ x ≤ v.hi ∧
        VarMap.value? vals' v = some x)
    (hrest : ∀ v ∈ n.vars, VarMap.value? m v = none →
      Binds vals v ∧ VarMap.value? vals' v = VarMap.value? vals v) :
    n.substitute m = .error .arithmetic ∨ ∃ r x, n.substitute m = .ok r ∧
      r.eval vals = .ok (some x) ∧ n.eval vals' = .ok (some x) := by
  have hbound (w : Bindings) (v : Variable) (h : (Assignment.bound w).scope v) :=
    Assignment.bound_value h.2
  have hnonneg (v : Variable) (h : (Assignment.bound vals).scope v) := h.1.nonneg
  have hbinds : ∀ v ∈ n.vars, Binds vals' v := by
    intro v hv
    cases hy : VarMap.value? m v with
    | none =>
      obtain ⟨⟨x, hx, hin⟩, hsame⟩ := hrest v hv hy
      exact ⟨x, hsame.trans hx, hin⟩
    | some y =>
      obtain ⟨_, _, x, _, hlo, hhi, hx⟩ := hm v y hy
      exact ⟨x, hx, hlo, hhi⟩
  have himage (v : Variable) (h : (Assignment.within (Assignment.bound vals') n).scope v) :
      Means (Assignment.bound vals) (image m v) ((Assignment.bound vals').value v) := by
    obtain ⟨⟨hc, hb⟩, hv, _⟩ := h
    have hvalue := Assignment.bound_value hb
    unfold image
    cases hy : VarMap.value? m v with
    | none =>
      obtain ⟨hb', hsame⟩ := hrest v (mem_vars.2 hv) hy
      have hvalue' := Assignment.bound_value hb'
      refine ⟨.var hc.proper hc.lo_lt_hi ⟨hc, hb'⟩, Option.some.inj ?_⟩
      rw [← hvalue, hsame, hvalue', Option.getD_none, SymInt.value]
    | some y =>
      obtain ⟨hi, hvars, x, hx, _, _, hx'⟩ := hm v y hy
      have hr := hi.regular.bound hvars
      have heval := hr.eval_eq (hbound vals)
      refine ⟨hr, Option.some.inj ?_⟩
      rw [← hvalue, hx']
      exact (ok_eq_ok.1 (hx.symm.trans heval)).symm
  obtain hn | hn := hn
  · have hr := hn.regular.bound hbinds
    refine ((substitute_delivers himage hr.restrict).returns hnonneg).imp_right ?_
    rintro ⟨r, h, hmeans⟩
    exact ⟨r, _, h, hmeans.regular.eval_eq (hbound vals),
      hmeans.value ▸ hr.eval_eq (hbound vals')⟩
  · have hc := hn.condition.bound hbinds
    refine ((Condition.substitute_delivers himage hc.restrict).returns hnonneg).imp_right ?_
    rintro ⟨r, h, hd⟩
    refine ⟨r, _, h, hd.condition.eval_eq (hbound vals), ?_⟩
    -- both are zero or one, and one together
    have hone : r.value (Assignment.bound vals).value = 1 ↔
        n.value (Assignment.bound vals').value = 1 :=
      hd.value
    have h1 := hd.condition.bit (Assignment.bound vals).value
    have h2 := hc.bit (Assignment.bound vals').value
    have hsame : n.value (Assignment.bound vals').value =
        r.value (Assignment.bound vals).value := by omega
    exact hsame ▸ hc.eval_eq (hbound vals')

/-- `(4 * x) mod 6` with `2 * y + 1` for `x`. -/
theorem odd_substitute_eval : let x : Variable := ⟨"x", 0, 5⟩; let y : Variable :=
  ⟨"y", 0, 2⟩
    ∃ a n b o, (ofVariable x).times 4 = .ok a ∧ a.remainder 6 = .ok n ∧
      (ofVariable y).times 2 = .ok b ∧
      b.plus (num 1) = .ok o ∧ ∃ r, n.substitute [(x, o)] = .ok r ∧
        r.eval [(y, 2)] = .ok (some 2) ∧
        n.eval [(x, 5)] = .ok (some 2) := by
  intro x y
  obtain ⟨a, ha⟩ : ∃ a, (ofVariable x).times 4 = .ok a := ⟨_, rfl⟩
  obtain ⟨n, hn⟩ : ∃ n, a.remainder 6 = .ok n := by
    cases ha
    exact ⟨_, rfl⟩
  obtain ⟨b, hb⟩ : ∃ b, (ofVariable y).times 2 = .ok b := ⟨_, rfl⟩
  obtain ⟨o, ho⟩ : ∃ o, b.plus (num 1) = .ok o := by
    cases hb
    exact ⟨_, rfl⟩
  have hx : Index (ofVariable x) := .var (v := ⟨"x", 0, 5⟩) rfl (by decide)
  have hy : Index (ofVariable y) := .var (v := ⟨"y", 0, 2⟩) rfl (by decide)
  have hindex : Index n := .remainder (.times hx (by decide) ha) (by decide) (by decide) hn
  have hodd : Index o := .plus (.times hy (by decide) hb) (.num (by decide)) ho
  have hfacts : n.vars = [x] ∧ o.vars = [y] ∧ o.eval [(y, 2)] = .ok (some 5) ∧
      (n.substitute [(x, o)]).isOk = true ∧ n.eval [(x, 5)] = .ok (some 2) := by
    cases ha
    cases hn
    cases hb
    cases ho
    decide +kernel
  obtain ⟨hnv, hov, heval, hok, hvalue⟩ := hfacts
  have hsub : n.substitute [(x, o)] = .error .arithmetic ∨
      ∃ r z, n.substitute [(x, o)] = .ok r ∧
      r.eval [(y, 2)] = .ok (some z) ∧ n.eval [(x, 5)] = .ok (some z) :=
    substitute_eval (.inl hindex) (fun v w hw => ?_) (fun v hv hnone => ?_)
  · obtain herr | ⟨r, z, hr, hz, hn'⟩ := hsub
    · rw [herr] at hok
      cases hok
    · rw [hvalue] at hn'
      cases hn'
      exact ⟨a, n, b, o, ha, hn, hb, ho, r, hr, hz, hvalue⟩
  · cases VarMap.mem_of_value? hw with
    | head => exact ⟨hodd, by rw [hov]; simpa using ⟨2, rfl, by decide, by decide⟩, 5, heval,
        by decide, by decide, rfl⟩
    | tail _ h => cases h
  · rw [hnv, List.mem_singleton] at hv
    subst hv
    cases hnone

/-- A quotient whose numerator is too large for a word once the variable is replaced, though the
replacement is in range and the quotient is a word. -/
theorem steep_substitute_overflows : let x : Variable := ⟨"x", 0, 9⟩; let y : Variable :=
  ⟨"y", 0, 1⟩
    ∃ a n b, (ofVariable x).times 3 = .ok a ∧ a.quotient 2 = .ok n ∧
      (ofVariable y).times (2 ^ 62) = .ok b ∧
      b.eval [(y, 0)] = .ok (some 0) ∧ n.eval [(x, 0)] = .ok (some 0) ∧
      n.substitute [(x, b)] = .error .arithmetic :=
  ⟨_, _, _, rfl, rfl, rfl, rfl, rfl, rfl⟩

end SymInt

end LazyTensor
