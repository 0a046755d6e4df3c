import LazyTensor.Proofs.SymInt.Expand

/-! The form of everything that the operations give: flat sums of multiples of distinct atoms with
the number last, quotients and remainders of what is not negative, and nothing with a single value
but numbers. Such expressions are told apart by their keys. -/
namespace LazyTensor.SymInt
open Checked VarMap List
variable {V W : Variable → Prop} {e a b r t : SymInt} {c k : Int} {ts ps : List SymInt}
  {m : VarMap SymInt}

inductive Formed (V : Variable → Prop) : SymInt → Prop
  | num (n : Int) : Formed V (num n)
  | var {v : Variable} : V v → v.lo < v.hi → Formed V (var v)
  | mul {a : SymInt} {c : Int} : Formed V a → a.Atomic → c ≠ 0 → c ≠ 1 →
      Fits (a.lo * c) →
      Fits (a.hi * c) → Formed V (mul a c)
  | div {a : SymInt} {c : Int} : Formed V a → 0 ≤ a.lo → 1 < c →
      (div a c).lo < (div a c).hi →
      Formed V (div a c)
  | mod {a : SymInt} {c : Int} : Formed V a → 0 ≤ a.lo → 1 < c → a.lo / c ≠ a.hi / c →
      Formed V (mod a c)
  | lt {a : SymInt} {c : Int} : Formed V a → (lt a c).lo < (lt a c).hi → Formed V (lt a c)
  | sum {ts : List SymInt} {k x y : Int} : (∀ t ∈ ts, Formed V t) →
      (∀ t ∈ ts, t.isSum = false ∧ t.isNum = false) →
      (ts.map (fun t => t.atomCoeff.1.key)).Nodup →
      Fits k → 2 ≤ (withConstant ts k).length →
      Checked.sum ((withConstant ts k).map lo) = .ok x →
      Checked.sum ((withConstant ts k).map hi) = .ok y → Formed V (sum (withConstant ts k))
  | conj {ps : List SymInt} : (∀ p ∈ ps, Formed V p) → 2 ≤ ps.length →
      (conj ps).lo < (conj ps).hi → Formed V (conj ps)

abbrev Summand (V : Variable → Prop) : SymInt → Prop :=
  Multiple (fun a => a.Formed V ∧ a.Atomic) fun _ => True

namespace Formed

lemma range_of (h : e.Formed V) : e.lo ≤ e.hi ∧ (e.isNum = false → e.lo < e.hi) := by
  have strict {e : SymInt} (h : e.lo < e.hi) : e.lo ≤ e.hi ∧
      (e.isNum = false → e.lo < e.hi) :=
    ⟨h.le, fun _ => h⟩
  induction h with
  | num n => simp [isNum, num?]
  | var _ h => exact strict (by simpa using h)
  | mul _ ha h0 _ _ _ ih => exact strict (lo_lt_hi_mul (ih.2 ha.flat.2.1) h0)
  | mod _ _ hc _ _ => exact strict (lo_lt_hi_mod hc)
  | div _ _ _ h _ | lt _ h _ | conj _ _ h _ => exact strict h
  | sum _ hflat _ _ h2 _ _ ih =>
    exact strict (lo_lt_hi_withConstant (fun t ht => (ih t ht).2 (hflat t ht).2) h2)

lemma operands (h : e.Formed V) {p : SymInt} (hp : p ∈ e.operands) : p.Formed V := by
  cases h with
  | num _ | var _ _ => cases hp
  | mul ha _ _ _ _ _ | div ha _ _ _ | mod ha _ _ _ | lt ha _ =>
    cases mem_singleton.1 hp
    exact ha
  | sum hts _ _ _ _ _ _ =>
    obtain hp | rfl := mem_withConstant hp
    · exact hts p hp
    · exact .num _
  | conj hps _ _ => exact hps p hp

lemma mem_occurrences (h : e.Formed V) {v : Variable} (hv : v ∈ e.occurrences) :
    V v ∧ v.lo < v.hi := by
  induction h with
  | num _ => simp at hv
  | var hv' hl =>
    cases mem_singleton.1 (by simpa using hv)
    exact ⟨hv', hl⟩
  | mul _ _ _ _ _ _ ih | div _ _ _ _ ih | mod _ _ _ _ ih | lt _ _ ih =>
    exact ih (by simpa using hv)
  | sum _ _ _ _ _ _ _ ih =>
    rw [occurrences] at hv
    obtain ⟨p, hp, hv⟩ := mem_occurrencesAll.1 hv
    obtain hp | rfl := mem_withConstant hp
    · exact ih p hp hv
    · simp at hv
  | conj _ _ _ ih =>
    rw [occurrences] at hv
    obtain ⟨p, hp, hv⟩ := mem_occurrencesAll.1 hv
    exact ih p hp hv

lemma collapse (h : e.lo < e.hi → e.Formed V) (hle : e.lo ≤ e.hi) : e.collapse.Formed V := by
  obtain heq | hne := eq_or_ne e.lo e.hi
  · rw [collapse_of_eq heq]
    exact .num _
  · rw [collapse_of_ne hne]
    exact h (lt_of_le_of_ne hle hne)

/-! Formed expressions are the flat ones over formed atoms. -/

lemma kind (V : Variable → Prop) : Kind (fun a => a.Formed V ∧ a.Atomic) fun _ => True :=
  ⟨And.right, fun h => h.1.range_of.2 h.2.flat.2.1, fun _ => trivial⟩

lemma summand (h : t.Formed V) (hs : t.isSum = false) (hn : t.isNum = false) : Summand V t := by
  cases h with
  | num _ => simp [isNum, num?] at hn
  | sum _ _ _ _ _ _ _ => simp at hs
  | mul ha hat h0 h1 hl hh => exact .mul ⟨ha, hat⟩ h0 h1 trivial hl hh
  | var hv hl => exact .one ⟨.var hv hl, trivial⟩
  | div ha h0 hc hr => exact .one ⟨.div ha h0 hc hr, trivial⟩
  | mod ha h0 hc hr => exact .one ⟨.mod ha h0 hc hr, trivial⟩
  | lt ha hr => exact .one ⟨.lt ha hr, trivial⟩
  | conj ha h2 hr => exact .one ⟨.conj ha h2 hr, trivial⟩

lemma of_summand (h : Summand V t) : t.Formed V := by
  cases h with
  | one ha => exact ha.1
  | mul ha h0 h1 _ hl hh => exact .mul ha.1 ha.2 h0 h1 hl hh

lemma flat (h : e.Formed V) : Flat (fun a => a.Formed V ∧ a.Atomic) (fun _ => True) e := by
  obtain hs | ⟨ps, rfl⟩ := e.isSum_or
  · cases hn : e.num? with
    | some n => exact eq_num_of_num? hn ▸ .num trivial
    | none => exact .term (h.summand hs (by simp [isNum, hn]))
  cases h with
  | sum hts hflat hk hf h2 hx hy =>
    exact .sum (fun t ht => (hts t ht).summand (hflat t ht).1 (hflat t ht).2) hk hf h2 hx hy

lemma of_flat (h : Flat (fun a => a.Formed V ∧ a.Atomic) (fun _ => True) e) : e.Formed V := by
  cases h with
  | num _ => exact .num _
  | term h => exact of_summand h
  | sum hts hk hf h2 hx hy =>
    exact .sum (fun t ht => of_summand (hts t ht))
      (fun t ht => (hts t ht).flat (kind V)) hk hf h2 hx hy

lemma loose (h : e.Formed V) : Loose (fun a => a.Formed V ∧ a.Atomic) (fun _ => True) e :=
  h.flat.loose (kind V)

end Formed

lemma lo_le_hi_conj (hne : ps ≠ []) (h : ∀ p ∈ ps, p.lo ≤ p.hi) :
    (conj ps).lo ≤ (conj ps).hi := by
  obtain ⟨⟨p, hp, hl⟩, ⟨_, _, _⟩, hb⟩ := rangeConj_bounds hne
  have hle := h p hp
  have hh := (hb p hp).2
  rw [lo, hi, range]
  omega

lemma formed_closed (V : Variable → Prop) : Closed (Formed V) where
  num := .num
  total h hr := by
    obtain ⟨hm | hflat, _⟩ := total_flat (Formed.kind V) (fun p hp => (h p hp).loose) hr
    · exact h _ hm
    · exact .of_flat hflat
  times h hr := by
    obtain ⟨_, rfl⟩ | hflat := (times_multiplies (Formed.kind V) _ h.loose trivial hr).shape
    · exact h
    · exact .of_flat hflat
  div {a c} h h0 hc := by
    refine Formed.collapse (.div h h0 hc) ?_
    rw [lo_div (by omega), hi_div (by omega)]
    exact Int.ediv_le_ediv (by omega) h.range_of.1
  mod {a c} h h0 hc hr := Formed.collapse (fun _ => .mod h h0 hc hr) (lo_lt_hi_mod hc).le
  lt {a c} h := by
    refine Formed.collapse (.lt h) ?_
    rw [lo, hi, range]
    dsimp only
    split
    · simp
    · split <;> simp
  conj {ps} h _ h2 := by
    refine Formed.collapse (.conj h h2) (lo_le_hi_conj ?_ fun p hp => (h p hp).range_of.1)
    rintro rfl
    simp at h2
  operands h p hp := h.operands hp

inductive Made (V : Variable → Prop) : SymInt → Prop
  | num (n : Int) : Made V (num n)
  | var {v : Variable} : V v → v.lo ≤ v.hi → Made V (ofVariable v)
  | total {ps : List SymInt} {r : SymInt} : (∀ p ∈ ps, Made V p) →
      total ps = .ok r → Made V r
  | times {a r : SymInt} {c : Int} : Made V a → a.times c = .ok r → Made V r
  | quotient {a r : SymInt} {c : Int} : Made V a → a.quotient c = .ok r → Made V r
  | remainder {a r : SymInt} {c : Int} : Made V a → a.remainder c = .ok r → Made V r
  | lessThan {a r : SymInt} {c : Int} : Made V a → a.lessThan c = .ok r → Made V r
  | conjunction {ps : List SymInt} : (∀ p ∈ ps, Made V p) → Made V (conjunction ps)
  | substitute {e r : SymInt} {m : VarMap SymInt} : Made V e → (∀ x ∈ m, Made V x.2) →
      e.substitute m = .ok r → Made V r

lemma Formed.substitute (h : e.Formed V) (hm : ∀ x ∈ m, x.2.Formed V)
    (hr : e.substitute m = .ok r) :
    r.Formed V := by
  refine (formed_closed V).substitute (fun v hv => ?_) hr
  unfold image
  cases hx : value? m v with
  | none => exact .var (h.mem_occurrences hv).1 (h.mem_occurrences hv).2
  | some x => exact hm _ (mem_of_value? hx)

lemma Made.formed (h : Made V e) : e.Formed V := by
  have hV := formed_closed V
  induction h with
  | num n => exact .num n
  | var hv hle =>
    unfold ofVariable
    split
    · exact .num _
    · exact .var hv (by omega)
  | total _ hr ih => exact hV.total ih hr
  | times _ hr ih => exact hV.times ih hr
  | quotient _ hr ih => exact hV.quotient ih hr
  | remainder _ hr ih => exact hV.remainder ih hr
  | lessThan _ hr ih => exact hV.lessThan ih hr
  | conjunction _ ih => exact hV.conjunction ih
  | substitute _ _ hr ih ihm => exact ih.substitute ihm hr

lemma Formed.readable (h : e.Formed Variable.Proper) : e.Readable := by
  induction h with
  | num n => exact .num n
  | var hv _ => exact .var hv
  | mul _ _ _ _ _ _ ih => exact .mul _ ih
  | div _ _ _ _ ih => exact .div _ ih
  | mod _ _ _ _ ih => exact .mod _ ih
  | lt _ _ ih => exact .lt _ ih
  | sum _ _ _ _ h2 _ _ ih =>
    refine .sum (fun p hp => ?_) h2
    obtain hp | rfl := mem_withConstant hp
    · exact ih p hp
    · exact .num _
  | conj _ h2 _ ih => exact .conj ih h2

/-! Values under bindings of all variables. -/

section
variable {vals : Bindings} {σ : Variable → Int}

/-- Evaluation gives the exact value or overflows. -/
def Exactly (vals : Bindings) (σ : Variable → Int) (e : SymInt) : Prop :=
  Returns .arithmetic (e.eval vals) (· = some (e.value σ))

lemma mapM_exactly {x : Checked (Option Int)} {g : Int → Checked Int} {n y : Int}
    (hx : Returns .arithmetic x (· = some n)) (hg : OnlyOverflow (g n))
    (hy : ∀ z, g n = .ok z → z = y) :
    Returns .arithmetic (do (← x).mapM g) (· = some y) := by
  refine hx.bind fun o _ ho => ?_
  subst ho
  rw [Option.mapM_some, map_eq_pure_bind]
  exact (Returns.of_overflow hg hy).bind fun z _ hz => .ok (congrArg some hz)

lemma evalSum_exactly {acc : Int} (h : ∀ p ∈ ps, Exactly vals σ p) :
    Returns .arithmetic (evalSum vals acc ps) (· = some (acc + (ps.map (value σ)).sum)) := by
  induction ps generalizing acc with
  | nil => exact .ok (by simp)
  | cons p ps ih =>
    obtain ⟨hp, hps⟩ := forall_mem_cons.1 h
    rw [evalSum]
    refine Returns.bind hp fun o _ ho => ?_
    subst ho
    refine Returns.bind (.of_overflow (.word _) fun y h => (add_eq_ok.1 h).2.symm) fun y _ hy => ?_
    rw [hy, map_cons, sum_cons, ← add_assoc]
    exact ih hps

lemma evalAll_exactly {acc : Bool} (h : ∀ p ∈ ps, Exactly vals σ p) :
    Returns .arithmetic (evalAll vals acc ps) (· = some (acc && valueAll σ ps)) := by
  induction ps generalizing acc with
  | nil => exact .ok (by simp)
  | cons p ps ih =>
    obtain ⟨hp, hps⟩ := forall_mem_cons.1 h
    rw [evalAll]
    refine Returns.bind hp fun o _ ho => ?_
    subst ho
    rw [valueAll, ← Bool.and_assoc]
    exact ih hps

lemma Formed.exactly (h : e.Formed V) (hv : ∀ v ∈ e.occurrences, value? vals v = some (σ v)) :
    Exactly vals σ e := by
  have part {ps : List SymInt} (hv : ∀ v ∈ occurrencesAll ps, value? vals v = some (σ v))
      {p : SymInt} (hp : p ∈ ps) : ∀ v ∈ p.occurrences, value? vals v = some (σ v) :=
    fun v h => hv v (mem_occurrencesAll.2 ⟨p, hp, h⟩)
  unfold Exactly
  induction h with
  | num n => exact .ok (by rw [value_num])
  | @var v _ _ => exact .ok (by rw [value, hv v (by simp)])
  | @mul a c _ _ _ _ _ _ ih =>
    rw [eval, value]
    exact mapM_exactly (ih hv) (.word _) fun _ h => (mul_eq_ok.1 h).2.symm
  | @div a c _ _ hc _ ih =>
    rw [eval, value]
    exact mapM_exactly (ih hv) (.floorDiv _ _) fun _ h => floorDiv_pos (by omega) h
  | @mod a c _ _ hc _ ih =>
    rw [eval, value]
    exact mapM_exactly (ih hv) (.floorMod _ _) fun _ h => floorMod_pos (by omega) h
  | @lt a c _ _ ih =>
    rw [eval, value]
    exact (ih hv).bind fun o _ ho => .ok (by rw [ho]; rfl)
  | @sum ts k _ _ _ _ _ _ _ _ _ ih =>
    rw [eval, value_sum, ← zero_add (List.sum _)]
    refine evalSum_exactly fun p hp => ?_
    obtain hp' | rfl := mem_withConstant hp
    · exact ih p hp' (part hv hp)
    · exact .ok (by rw [value_num])
  | @conj ps _ _ _ ih =>
    rw [eval, value]
    refine (evalAll_exactly fun p hp => ih p hp (part hv hp)).bind fun o _ ho => .ok ?_
    rw [ho]
    rfl

end

/-- Expressions with equal keys have the same bounds, variables and values. -/
theorem eval_eq_of_key (ha : Made Variable.Proper a) (hb : Made Variable.Proper b)
    (h : a.key = b.key) :
    a.lo = b.lo ∧ a.hi = b.hi ∧ (∀ v, v ∈ a.vars ↔ v ∈ b.vars) ∧
      (∀ σ, a.value σ = b.value σ) ∧
      ∀ vals σ, (∀ v ∈ a.vars, VarMap.value? vals v = some (σ v)) →
        (a.eval vals = .error .arithmetic ∨ a.eval vals = .ok (some (a.value σ))) ∧
        (b.eval vals = .error .arithmetic ∨ b.eval vals = .ok (some (a.value σ))) := by
  obtain ⟨hvalue, hrange, hvars⟩ := agree_of_key ha.formed.readable hb.formed.readable h
  refine ⟨by rw [lo, lo, hrange], by rw [hi, hi, hrange], fun v =>
    by rw [mem_vars, mem_vars, hvars],
    hvalue, fun vals σ hv => ?_⟩
  have hx := ha.formed.exactly fun v hm => hv v (mem_vars.2 hm)
  have hy := hb.formed.exactly fun v hm => hv v (mem_vars.2 ((hvars v).2 hm))
  exact ⟨hx.imp_right (by simp), hy.imp_right (by simp [hvalue])⟩

/-- A sum of sides of up to three. -/
def sides (names : List String) : SymInt := sum (names.map fun name => var ⟨name, 0, 3⟩)

lemma Made.side {name : String} (h : Variable.isIdentifier name = true) :
    Made Variable.Proper (SymInt.var ⟨name, 0, 3⟩) :=
  .var (v := ⟨name, 0, 3⟩) ⟨.inr h, fits_zero, (by decide : Fits 3)⟩ (by simp)

lemma key_sides {ns ns' : List String} (h : ns.Perm ns') : (sides ns).key = (sides ns').key := by
  rw [sides, sides, key, renderWith, renderAll_key, key, renderWith, renderAll_key]
  exact joinSorted_perm "+" ((h.map _).map _)

/-- Three sides, added up from the last one on. -/
theorem sides_eval_eq : Made Variable.Proper (sides ["z", "x", "y"]) ∧
    (sides ["z", "x", "y"]).terms.map key ≠ (sides ["x", "y", "z"]).terms.map key ∧
    ∀ vals σ, (∀ v ∈ (sides ["z", "x", "y"]).vars, VarMap.value? vals v = some (σ v)) →
      ((sides ["z", "x", "y"]).eval vals = .error .arithmetic ∨
        (sides ["z", "x", "y"]).eval vals = .ok (some ((sides ["z", "x", "y"]).value σ))) ∧
      ((sides ["x", "y", "z"]).eval vals = .error .arithmetic ∨
        (sides ["x", "y", "z"]).eval vals = .ok (some ((sides ["z", "x", "y"]).value σ))) := by
  have hmade (ns : List String) (h : ∀ n ∈ ns, Variable.isIdentifier n = true)
      (hr : total (ns.map fun n => var ⟨n, 0, 3⟩) = .ok (sides ns)) : Made Variable.Proper
        (sides ns) := by
    refine .total (fun p hp => ?_) hr
    obtain ⟨n, hn, rfl⟩ := mem_map.1 hp
    exact .side (h n hn)
  have hzxy := hmade ["z", "x", "y"] (by decide) rfl
  have hkey := key_sides (show List.Perm ["z", "x", "y"] ["x", "y", "z"] by decide)
  exact ⟨hzxy, by decide,
    (eval_eq_of_key hzxy (hmade ["x", "y", "z"] (by decide) rfl) hkey).2.2.2.2⟩

/-- The order of the sides decides on overflow. -/
theorem sides_eval_overflows : ∃ vals, (sides ["z", "x", "y"]).key =
    (sides ["x", "y", "z"]).key ∧
    (sides ["z", "x", "y"]).eval vals = .ok (some (2 ^ 63 - 1)) ∧
    (sides ["x", "y", "z"]).eval vals = .error .arithmetic := by
  refine ⟨[(⟨"x", 0, 3⟩, 2 ^ 63 - 1), (⟨"y", 0, 3⟩, 1), (⟨"z", 0, 3⟩, -1)], ?_,
    by decide, by decide⟩
  exact key_sides (by decide)

end LazyTensor.SymInt
