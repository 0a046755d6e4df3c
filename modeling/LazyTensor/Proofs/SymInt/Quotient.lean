import LazyTensor.Proofs.SymInt.Size

/-! Quotients and remainders by a positive constant keep the meaning, and a divisor adds to the size
only itself. The functions call each other with one step less, so what they promise is proved by
induction on the steps; each way to reduce a dividend rests on one identity of integers. -/
namespace LazyTensor.SymInt
open List SymInt

open Checked

variable {A : Assignment} {w : Variable → Nat}
variable {x c b g a : Int} {q r e t : SymInt} {ts rs : List SymInt}

/-! Identities of floor division. -/

lemma mul_ediv_of_emod_zero (h : c % b = 0) : x * c / b = x * (c / b) :=
  Int.mul_ediv_assoc x (Int.dvd_of_emod_eq_zero h)

lemma mul_ediv_cancel (hc : 0 < c) (h : c ∣ b) : x / (b / c) = x * c / b := by
  obtain ⟨k, rfl⟩ := h
  rw [Int.mul_ediv_cancel_left k (by omega), mul_comm x c, Int.mul_ediv_mul_of_pos x k hc]

lemma emod_ediv (hb : 0 < b) (hc : 0 < c) (h : b ∣ c) : x / b % (c / b) = x % c / b := by
  obtain ⟨k, rfl⟩ := h
  have hx : x / b = x % (b * k) / b + k * (x / (b * k)) := by
    calc x / b = (x % (b * k) + b * k * (x / (b * k))) / b := by rw [Int.emod_add_mul_ediv]
      _ = (x % (b * k) + k * (x / (b * k)) * b) / b := by ring_nf
      _ = x % (b * k) / b + k * (x / (b * k)) := Int.add_mul_ediv_right _ _ (by omega)
  have h0 : 0 ≤ x % (b * k) / b := Int.ediv_nonneg (Int.emod_nonneg x (by omega)) (le_of_lt hb)
  have h1 : x % (b * k) / b < k := Int.ediv_lt_of_lt_mul hb (by linarith [Int.emod_lt_of_pos x hc])
  rw [Int.mul_ediv_cancel_left k (by omega), hx, Int.add_mul_emod_self_left,
    Int.emod_eq_of_lt h0 h1]

lemma ediv_ediv_of_dvd (hg : 0 < g) (h : g ∣ b) : x / g / (b / g) = x / b := by
  obtain ⟨k, rfl⟩ := h
  rw [Int.mul_ediv_cancel_left k (by omega), Int.ediv_ediv_of_nonneg (le_of_lt hg)]

lemma mul_emod_emod (x c b : Int) : x * (c % b) % b = x * c % b := by
  rw [Int.mul_emod, Int.emod_emod, ← Int.mul_emod]

lemma emod_of_same_ediv {l u : Int} (hb : 0 < b) (hl : l ≤ x) (hu : x ≤ u)
    (h : l / b = u / b) : x % b = x - b * (l / b) := by
  have h1 : l / b ≤ x / b := Int.ediv_le_ediv hb hl
  have h2 : x / b ≤ u / b := Int.ediv_le_ediv hb hu
  have h3 : x / b = l / b := by omega
  rw [Int.emod_def, h3]

/-! Meaning and size together. -/

/-- An index that means `x`, with at most so many variables, divisors and nested remainders. -/
structure Measured (w : Variable → Nat) (A : Assignment) (l d m : Nat) (e : SymInt)
    (x : Int) : Prop
    extends Means A e x, Within w l d m e

section
variable {l l' d d' m m' : Nat} {e e' r : SymInt} {x y c n : Int}

lemma Regular.measured (h : e.Regular A.scope) (hw : Within w l d m e) :
    Measured w A l d m e (e.value A.value) := ⟨h.means, hw⟩

lemma Measured.mono (h : Measured w A l d m e x) (hl : l ≤ l') (hd : d ≤ d') (hm : m ≤ m') :
    Measured w A l' d' m' e x := ⟨h.toMeans, h.toWithin.mono hl hd hm⟩

lemma Measured.divisors_pos (h : Measured w A l d m e x) : 1 ≤ d :=
  h.regular.divisors_pos.trans h.divisors

lemma measured_num (hd : 1 ≤ d) (hn : Fits n) : Measured w A l d m (num n) n :=
  ⟨means_num hn, within_num hd n⟩

section
variable (h : Measured w A l d m e x)
include h

lemma Measured.of_atoms (hr : Means A r y)
    (ha : r.atoms.Sublist e.atoms) : Measured w A l d m r y :=
  ⟨hr, h.toWithin.of_atoms h.regular hr.regular ha⟩

lemma Measured.times (hc : Fits c) (hr : e.times c = .ok r) :
    Measured w A l d m r (x * c) := h.of_atoms (times_means h.toMeans hc hr)
      (times_atoms h.regular hc hr)

lemma Measured.plus (h' : Measured w A l' d m e' y)
    (hr : e.plus e' = .ok r) : Measured w A (l + l') d m r (x + y) :=
  ⟨plus_means h.toMeans h'.toMeans hr,
    plus_within h.regular h'.regular h.toWithin h'.toWithin hr⟩

lemma Measured.plusInt (hn : Fits n) (hr : e.plusInt n = .ok r) :
    Measured w A l d m r (x + n) := h.of_atoms (plusInt_means h.toMeans hn hr)
      (plusInt_atoms h.regular hn hr)

lemma Measured.minusNum (hr : e.minus (num n) = .ok r) :
    Measured w A l d m r (x - n) := h.plusInt (minus_num hr).1 (minus_num hr).2

end

end

/-! The split of a sum. -/

def coeff : SymInt → Int
  | num n => n
  | mul _ c => c
  | _ => 1

/-- How the terms seen so far are shared out. What is left is not divided by `b`, the common
factor divides all of it, and a divisor is one of its coefficients. -/
structure Split.Shares (w : Variable → Nat) (A : Assignment) (b : Int) (ts : List SymInt)
    (s : Split) : Prop where
  whole : ∀ q ∈ s.whole, q.Regular A.scope
  rest : ∀ t ∈ s.rest, t.Regular A.scope
  total : (s.whole.map (value A.value)).sum * b + (s.rest.map (value A.value)).sum =
    (ts.map (value A.value)).sum
  sublist : s.rest.Sublist ts
  leaves : (s.whole.map (count w)).sum + (s.rest.map (count w)).sum ≤ (ts.map (count w)).sum
  atoms : ∀ q ∈ s.whole, ∀ a ∈ q.atoms, a ∈ ts.flatMap atoms
  coeff : ∀ t ∈ s.rest, ¬b ∣ t.coeff ∧ s.factor ∣ t.coeff
  factor_pos : 0 < s.factor
  factor_dvd : s.factor ∣ b
  divisor_dvd : s.divisor ∣ b
  divisor : s.divisor ≠ 1 → ∃ a, mul a s.divisor ∈ s.rest

section
variable {b : Int} {ts us : List SymInt} {s s' : Split} {t : SymInt}

lemma Split.Shares.addWhole {y : Int} (hs : s.Shares w A b ts)
    (hv : t.value A.value = y * b) (hq : Means A q y) (ha : q.atoms.Sublist t.atoms) :
    ({ s with whole := s.whole ++ [q] } : Split).Shares w A b (ts ++ [t]) where
  whole := forall_mem_append.2 ⟨hs.whole, forall_mem_singleton.2 hq.regular⟩
  rest := hs.rest
  total := by
    simp only [map_append, sum_append, map_cons, map_nil, sum_cons,
      sum_nil, hq.value, hv, ← hs.total]
    ring
  sublist := hs.sublist.trans (sublist_append_left ts [t])
  leaves := by
    have hsum := hs.leaves
    have hle := count_le_of_atoms (w := w) ha
    simp only [map_append, sum_append, map_cons, map_nil, sum_cons, sum_nil]
    omega
  atoms := by
    simp only [flatMap_append, flatMap_singleton, mem_append]
    rintro p (hp | hp) a hpa
    · exact .inl (hs.atoms p hp a hpa)
    · exact .inr (ha.subset (mem_singleton.1 hp ▸ hpa))
  coeff := hs.coeff
  factor_pos := hs.factor_pos
  factor_dvd := hs.factor_dvd
  divisor_dvd := hs.divisor_dvd
  divisor := hs.divisor

lemma Split.Shares.addRest {d : Int} (hs : s.Shares w A b ts) (ht : t.Regular A.scope)
    (hc : ¬b ∣ t.coeff) (hg : 0 < g ∧ g ∣ s.factor ∧ g ∣ t.coeff)
    (hd : d = s.divisor ∨ d ∣ b ∧ ∃ a, t = mul a d) :
    ({ s with rest := s.rest ++ [t], factor := g, divisor := d } : Split).Shares w A b
      (ts ++ [t]) where
  whole := hs.whole
  rest := forall_mem_append.2 ⟨hs.rest, forall_mem_singleton.2 ht⟩
  total := by
    simp only [map_append, sum_append, map_cons, map_nil, sum_cons, sum_nil, ← hs.total]
    ring
  sublist := hs.sublist.append (Sublist.refl _)
  leaves := by
    have := hs.leaves
    simp only [map_append, sum_append, map_cons, map_nil, sum_cons, sum_nil]
    omega
  atoms p hp a hpa := by
    rw [flatMap_append, mem_append]
    exact .inl (hs.atoms p hp a hpa)
  coeff :=
    forall_mem_append.2 ⟨fun p hp => ⟨(hs.coeff p hp).1, hg.2.1.trans (hs.coeff p hp).2⟩,
      forall_mem_singleton.2 ⟨hc, hg.2.2⟩⟩
  factor_pos := hg.1
  factor_dvd := hg.2.1.trans hs.factor_dvd
  divisor_dvd := hd.elim (fun hd => hd ▸ hs.divisor_dvd) fun hd => hd.1
  divisor hne := by
    obtain rfl | ⟨_, a, rfl⟩ := hd
    · obtain ⟨a, ha⟩ := hs.divisor hne
      exact ⟨a, mem_append_left _ ha⟩
    · exact ⟨a, mem_append_right _ (mem_singleton_self _)⟩

lemma gcd_divides {f n : Int} (hf : 0 < f) (h : Checked.gcd f n = .ok g) :
    0 < g ∧ g ∣ f ∧ g ∣ n := by
  rw [gcd_eq_ok h]
  refine ⟨?_, Int.gcd_dvd_left f n, Int.gcd_dvd_right f n⟩
  exact_mod_cast Int.gcd_pos_of_ne_zero_left n (by omega)

lemma not_dvd_of_floorMod {r : Int} (hb : 0 < b) (h : floorMod a b = .ok r) (hr : r ≠ 0) :
    ¬b ∣ a := fun hd => hr (by rw [floorMod_pos hb h, Int.emod_eq_zero_of_dvd hd])

lemma eq_mul_of_floorDiv {q : Int} (hm : floorMod a b = .ok 0) (hq : floorDiv a b = .ok q) :
    a = q * b := by
  rw [← (floorDiv_eq_ok.1 hq).2.2, mul_comm]
  exact (sub_eq_zero.1 (floorMod_eq_ok hm).2.symm)

lemma Split.Shares.add (hb : 1 < b) (hs : s.Shares w A b ts) (ht : t.Regular A.scope)
    (h : Split.add b s t = .ok s') : s'.Shares w A b (ts ++ [t]) := by
  have hb0 : 0 < b := by omega
  have hone : ¬b ∣ 1 := fun hd => by
    have := Int.le_of_dvd (by omega) hd
    omega
  have hreg := ht
  cases ht with
  | num _ =>
    obtain ⟨m, hm, h⟩ := bind_eq_ok.1 h
    split at h
    · rename_i h0
      obtain ⟨q, hq, rfl⟩ := map_eq_ok.1 h
      exact hs.addWhole (by rw [value_num, eq_mul_of_floorDiv (h0 ▸ hm) hq])
        (means_num (floorDiv_fits hq)) (by simp)
    · rename_i h0
      obtain ⟨g, hg, rfl⟩ := map_eq_ok.1 h
      exact hs.addRest hreg (not_dvd_of_floorMod hb0 hm h0)
        (gcd_divides hs.factor_pos hg) (.inl rfl)
  | @mul a c ha hatom _ _ _ _ _ =>
    obtain ⟨m, hm, h⟩ := bind_eq_ok.1 h
    split at h
    · rename_i h0
      simp only [bind_eq_ok, pure_eq_ok] at h
      obtain ⟨k, hk, q, hq, rfl⟩ := h
      have hfit := floorDiv_fits hk
      refine hs.addWhole ?_ (times_means ha.means hfit hq) ?_
      · rw [value, eq_mul_of_floorDiv (h0 ▸ hm) hk, mul_assoc]
      · rw [atoms_mul, ← atoms_of_isAtom hatom]
        exact times_atoms ha hfit hq
    · rename_i h0
      obtain ⟨g, hg, h⟩ := bind_eq_ok.1 h
      have hnot := not_dvd_of_floorMod hb0 hm h0
      have hg := gcd_divides hs.factor_pos hg
      by_cases hd : s.divisor = 1
      · simp only [hd, if_true, bind_eq_ok, pure_eq_ok] at h
        obtain ⟨m', hm', d, rfl, rfl⟩ := h
        refine hs.addRest hreg hnot hg ?_
        split
        · rename_i hz
          exact .inr ⟨dvd_of_floorMod_zero (of_decide_eq_true hz ▸ hm'), a, rfl⟩
        · exact .inl hd.symm
      · simp only [hd, if_false, bind_eq_ok, pure_eq_ok] at h
        obtain ⟨_, rfl, rfl⟩ := h
        exact hs.addRest hreg hnot hg (.inl rfl)
  | var _ _ _ | div _ _ _ _ _ | mod _ _ _ _ _ | sum _ _ _ _ _ _ =>
    cases h
    exact hs.addRest hreg hone ⟨one_pos, one_dvd _, one_dvd _⟩ (.inl rfl)

lemma Split.Shares.fold (hb : 1 < b) (hs : s.Shares w A b ts)
    (hus : ∀ t ∈ us, t.Regular A.scope) (h : us.foldlM (Split.add b) s = .ok s') :
    s'.Shares w A b (ts ++ us) := by
  induction us generalizing s ts with
  | nil =>
    rw [foldlM_nil_eq_ok] at h
    simpa [h] using hs
  | cons t us ih =>
    obtain ⟨s₁, h₁, h⟩ := foldlM_cons_eq_ok.1 h
    have := ih (hs.add hb (hus t mem_cons_self) h₁) (fun u hu => hus u (mem_cons_of_mem t hu)) h
    rwa [append_assoc] at this

lemma split_shares (hb : 1 < b) (he : e.Regular A.scope)
    (h : e.terms.foldlM (Split.add b) { factor := b } = .ok s) : s.Shares w A b e.terms := by
  have hstart : ({ factor := b } : Split).Shares w A b [] :=
    ⟨by simp, by simp, by simp, by simp, by simp, by simp, by simp, hb.trans' one_pos, dvd_refl b,
      one_dvd b, by simp⟩
  simpa using hstart.fold hb (fun t ht => (he.terms.1 t ht).1) h

lemma Split.Shares.measured {whole rest : SymInt} {l d m : Nat} (hs : s.Shares w A b e.terms)
    (he : e.Regular A.scope) (hw : Within w l d m e) (hwhole : SymInt.total s.whole = .ok whole)
    (hrest : SymInt.total s.rest = .ok rest) :
    Measured w A (s.whole.map (count w)).sum d m whole (s.whole.map (value A.value)).sum ∧
      Measured w A (s.rest.map (count w)).sum d m rest (s.rest.map (value A.value)).sum := by
  obtain ⟨_, hd, hall⟩ := (within_iff he).1 hw
  rw [← terms_flatMap_atoms e] at hall
  refine ⟨⟨total_means hs.whole hwhole, total_within hd hs.whole
    (fun q hq a ha => ?_) hwhole⟩,
    ⟨total_means hs.rest hrest, total_within hd hs.rest (fun t ht a ha => ?_) hrest⟩⟩
  · exact hall a (hs.atoms q hq a ha)
  · exact hall a (mem_flatMap.2 ⟨t, hs.sublist.subset ht, ha⟩)

end

/-! Terms reduced by the divisor. -/

lemma reduceTerm_means (hb : 0 < b) (ht : t.Regular A.scope)
    (h : reduceTerm b t = .ok r) : r.Regular A.scope ∧
      r.value A.value % b = t.value A.value % b := by
  cases ht with
  | num hn =>
    simp only [reduceTerm, bind_eq_ok, pure_eq_ok] at h
    obtain ⟨m, hm, rfl⟩ := h
    exact ⟨.num (floorMod_fits hm),
      by rw [value_num, value_num, floorMod_pos hb hm, Int.emod_emod]⟩
  | mul ha _ _ _ _ _ _ =>
    simp only [reduceTerm, bind_eq_ok] at h
    obtain ⟨m, hm, h⟩ := h
    have hr := times_means ha.means (floorMod_fits hm) h
    exact ⟨hr.regular, by rw [hr.value, value, floorMod_pos hb hm, mul_emod_emod]⟩
  | var hp hl hv =>
    cases h
    exact ⟨.var hp hl hv, rfl⟩
  | div ha h0 hc hf hr =>
    cases h
    exact ⟨.div ha h0 hc hf hr, rfl⟩
  | mod ha h0 hc hf hr =>
    cases h
    exact ⟨.mod ha h0 hc hf hr, rfl⟩
  | sum hps hns h2 hk hl hh =>
    cases h
    exact ⟨.sum hps hns h2 hk hl hh, rfl⟩

lemma reduceTerms_means (hb : 0 < b)
    (hts : ∀ t ∈ ts, t.Regular A.scope) (h : ts.mapM (reduceTerm b) = .ok rs) :
    (∀ r ∈ rs, r.Regular A.scope) ∧
      (rs.map (value A.value)).sum % b = (ts.map (value A.value)).sum % b := by
  induction mapM_eq_ok.1 h with
  | nil => simp
  | @cons t r ts rs hr hrest ih =>
    obtain ⟨hreg, hv⟩ := reduceTerm_means hb (hts t mem_cons_self) hr
    obtain ⟨hregs, hvs⟩ := ih (fun u hu => hts u (mem_cons_of_mem t hu)) (mapM_eq_ok.2 hrest)
    refine ⟨forall_mem_cons.2 ⟨hreg, hregs⟩, ?_⟩
    rw [map_cons, sum_cons, map_cons, sum_cons, Int.add_emod, hv, hvs, ← Int.add_emod]

lemma reduceTerm_atoms (ht : t.Regular A.scope)
    (h : reduceTerm b t = .ok r) : r.atoms.Sublist t.atoms := by
  cases ht with
  | num _ =>
    simp only [reduceTerm, bind_eq_ok, pure_eq_ok] at h
    obtain ⟨m, _, rfl⟩ := h
    simp
  | mul ha hatom _ _ _ _ _ =>
    simp only [reduceTerm, bind_eq_ok] at h
    obtain ⟨m, hm, h⟩ := h
    rw [atoms_mul, ← atoms_of_isAtom hatom]
    exact times_atoms ha (floorMod_fits hm) h
  | var _ _ _ | div _ _ _ _ _ | mod _ _ _ _ _ | sum _ _ _ _ _ _ =>
    cases h
    exact Sublist.refl _

lemma reduceTerms_atoms (hts : ∀ t ∈ ts, t.Regular A.scope)
    (h : ts.mapM (reduceTerm b) = .ok rs) : (rs.flatMap atoms).Sublist (ts.flatMap atoms) := by
  induction mapM_eq_ok.1 h with
  | nil => exact Sublist.refl _
  | @cons t r ts rs hr hrest ih =>
    rw [flatMap_cons, flatMap_cons]
    exact (reduceTerm_atoms (hts t mem_cons_self) hr).append
      (ih (fun u hu => hts u (mem_cons_of_mem t hu)) (mapM_eq_ok.2 hrest))

/-! The five functions. -/

/-- What the functions promise for a divisor that is a positive word, with `n` steps left. A divisor
multiplies the divisors by its size, and adds nothing else. -/
structure Divides (w : Variable → Nat) (A : Assignment) (n : Nat) : Prop where
  quotientIn {e r : SymInt} {x b : Int} {f : Bool} {l d m : Nat} : Measured w A l d m e x →
    0 < b → Fits b → quotientIn n e b f = .ok r → Measured w A l (d * b.natAbs) m r (x / b)
  quotientPlain {e r : SymInt} {x b : Int} {l d m : Nat} : Measured w A l d m e x → 0 < b →
    Fits b → quotientPlain n e b = .ok r → Measured w A l (d * b.natAbs) m r (x / b)
  quotientSum {e r : SymInt} {x b : Int} {f : Bool} {l d m : Nat} : Measured w A l d m e x →
    0 < b → Fits b → quotientSum n e b f = .ok r → Measured w A l (d * b.natAbs) m r (x / b)
  remainderIn {e r : SymInt} {x b : Int} {l d m : Nat} : Measured w A l d m e x →
    0 < b → Fits b → remainderIn n e b = .ok r → Measured w A l d (m + 1) r (x % b)
  remainderPlain {e r : SymInt} {x b : Int} {l d m : Nat} : Measured w A l d m e x →
    0 < b → Fits b → remainderPlain n e b = .ok r → Measured w A l d (m + 1) r (x % b)

namespace Divides
variable {n : Nat} {e r : SymInt} {x b : Int} {f : Bool} {l d m : Nat}

lemma le_mul_natAbs (hb : 0 < b) : d ≤ d * b.natAbs := Nat.le_mul_of_pos_right d (by omega)

/-- Division by the whole of `b` in two steps. -/
lemma twice {p : SymInt} (ih : Divides w A n) (he : Measured w A l d m e x) (hb : 0 < b)
    (hf : Fits b) (hg : 0 < g) (hgb : g ∣ b) (hp : SymInt.quotientIn n e g true = .ok p)
    (hq : SymInt.quotientIn n p (b.tdiv g) true = .ok q) :
    Measured w A l (d * b.natAbs) m q (x / b) := by
  have hle : g ≤ b := Int.le_of_dvd hb hgb
  have hpos : 0 < b / g := Int.ediv_pos_of_pos_of_dvd hb (le_of_lt hg) hgb
  have hself : b / g ≤ b := Int.ediv_le_self g (le_of_lt hb)
  have hmp := ih.quotientIn he hg (fits_zero.between hf (le_of_lt hg) hle) hp
  rw [Int.tdiv_eq_ediv_of_nonneg (le_of_lt hb)] at hq
  have hmq := ih.quotientIn hmp hpos (fits_zero.between hf (le_of_lt hpos) hself) hq
  rwa [ediv_ediv_of_dvd hg hgb, mul_assoc, ← Int.natAbs_mul, Int.mul_ediv_cancel' hgb] at hmq

lemma quotientIn_succ (ih : Divides w A n) (he : Measured w A l d m e x) (hb : 0 < b) (hf : Fits b)
    (h : SymInt.quotientIn (n + 1) e b f = .ok r) : Measured w A l (d * b.natAbs) m r (x / b) := by
  have hd := he.divisors_pos
  have hle := le_mul_natAbs (d := d) hb
  rw [quotientIn.eq_def] at h
  dsimp only at h
  rw [if_neg (by omega)] at h
  obtain ⟨⟨hreg, rfl⟩, hw⟩ := he
  have he := hreg.measured hw
  cases hreg with
  | num _ =>
    simp only [bind_eq_ok, pure_eq_ok] at h
    obtain ⟨q, hq, rfl⟩ := h
    rw [value_num, ← floorDiv_pos hb hq]
    exact measured_num (hd.trans hle) (floorDiv_fits hq)
  | @mul a c ha _ _ _ _ _ _ =>
    have ha := ha.measured hw.of_mul
    obtain ⟨_, hm, h⟩ := bind_eq_ok.1 h
    split at h
    · rename_i h0
      obtain ⟨q, hq, h⟩ := bind_eq_ok.1 h
      rw [value, mul_ediv_of_emod_zero (floorMod_pos hb hm ▸ h0), ← floorDiv_pos hb hq]
      exact (ha.times (floorDiv_fits hq) h).mono le_rfl hle le_rfl
    · obtain ⟨_, hm', h⟩ := bind_eq_ok.1 h
      split at h
      · rename_i h0
        obtain ⟨q, hq, h⟩ := bind_eq_ok.1 h
        have hdvd : c ∣ b := dvd_of_floorMod_zero (h0.1 ▸ hm')
        have hqe : q = b / c := floorDiv_pos h0.2 hq
        have hpos : 0 < q := hqe ▸ Int.ediv_pos_of_pos_of_dvd hb (le_of_lt h0.2) hdvd
        have hqb : q ≤ b := hqe ▸ Int.ediv_le_self c (le_of_lt hb)
        rw [value, ← mul_ediv_cancel h0.2 hdvd, ← hqe]
        exact (ih.quotientIn ha hpos (floorDiv_fits hq) h).mono le_rfl
          (Nat.mul_le_mul_left d (by omega)) le_rfl
      · exact ih.quotientPlain he hb hf h
  | @div a c ha _ hc _ _ =>
    obtain ⟨_, hk, h⟩ := bind_eq_ok.1 h
    obtain ⟨hfit, rfl⟩ := mul_eq_ok.1 hk
    have hwa : Within w l a.divisors m a := ⟨by simpa using hw.leaves, le_rfl,
      by simpa using hw.nesting⟩
    have hdiv : a.divisors * c.natAbs ≤ d := by simpa using hw.divisors
    rw [value, Int.ediv_ediv_of_nonneg (by omega)]
    refine (ih.quotientIn (ha.measured hwa) (mul_pos (by omega) hb) hfit h).mono le_rfl ?_ le_rfl
    rw [Int.natAbs_mul, ← mul_assoc]
    exact Nat.mul_le_mul_right _ hdiv
  | @mod a c ha _ hc hfc _ =>
    obtain ⟨hwa, hnest⟩ := hw.of_mod
    obtain ⟨_, hm, h⟩ := bind_eq_ok.1 h
    split at h
    · rename_i h0
      obtain ⟨q, hq, h⟩ := bind_eq_ok.1 h
      obtain ⟨k, hk, h⟩ := bind_eq_ok.1 h
      have hdvd : b ∣ c := dvd_of_floorMod_zero (h0 ▸ hm)
      have hpos : 0 < k :=
        floorDiv_pos hb hk ▸ Int.ediv_pos_of_pos_of_dvd (by omega) (le_of_lt hb) hdvd
      rw [value, ← emod_ediv hb (by omega) hdvd, ← floorDiv_pos hb hk]
      exact (ih.remainderIn (ih.quotientIn (ha.measured hwa) hb hf hq) hpos
        (floorDiv_fits hk) h).mono le_rfl le_rfl hnest
    · exact ih.quotientPlain he hb hf h
  | var _ _ _ => exact ih.quotientPlain he hb hf h
  | sum _ _ _ _ _ _ => exact ih.quotientSum he hb hf h

lemma quotientPlain_succ (ih : Divides w A n) (he : Measured w A l d m e x) (hb : 0 < b)
    (hf : Fits b) (h : SymInt.quotientPlain (n + 1) e b = .ok r) :
    Measured w A l (d * b.natAbs) m r (x / b) := by
  have hle := le_mul_natAbs (d := d) hb
  rw [quotientPlain.eq_def] at h
  dsimp only at h
  rw [if_neg (by omega)] at h
  split at h
  · rename_i h1
    cases h
    rw [show x / b = x by rw [h1, Int.ediv_one]]
    exact he.mono le_rfl hle le_rfl
  · rename_i h1
    split at h
    · -- the shift is a multiple of the divisor, so it leaves the quotient as the offset
      simp only [bind_eq_ok, neg_eq_ok, mul_eq_ok] at h
      obtain ⟨o, ho, _, ⟨_, rfl⟩, _, ⟨hs, rfl⟩, _, hm, q, hq, h⟩ := h
      have hres := (ih.quotientIn (he.plusInt hs hm) hb hf hq).plusInt (floorDiv_fits ho) h
      rwa [Int.add_mul_ediv_right _ _ (by omega), neg_add_cancel_right] at hres
    · rename_i h0
      cases h
      rw [← he.value]
      by_cases hr : (div e b).lo = (div e b).hi
      · have hl := he.between
        have hv := he.value
        rw [collapse_of_eq hr, lo_div hb]
        rw [lo_div hb, hi_div hb] at hr
        have h1 : e.lo / b ≤ x / b := Int.ediv_le_ediv hb hl.1
        have h2 : x / b ≤ e.hi / b := Int.ediv_le_ediv hb hl.2
        have h3 : 0 ≤ e.lo / b := Int.ediv_nonneg (by omega) (le_of_lt hb)
        have h4 : e.lo / b ≤ e.lo := Int.ediv_le_self b (by omega)
        rw [hv, show x / b = e.lo / b by omega]
        exact measured_num (he.divisors_pos.trans hle) (fits_zero.between he.regular.lo_fits h3 h4)
      · rw [collapse_of_ne hr]
        have hlt : (div e b).lo < (div e b).hi := by
          have := Int.ediv_le_ediv hb he.regular.lo_le_hi
          rw [← lo_div hb, ← hi_div hb] at this
          omega
        refine ⟨⟨.div he.regular (by omega) (by omega) hf hlt, by rw [value]⟩, ?_⟩
        exact ⟨by simpa using he.leaves,
          by simpa using Nat.mul_le_mul_right b.natAbs he.divisors,
          by simpa using he.nesting⟩

lemma quotientSum_shape (ih : Divides w A n) (he : e.Regular A.scope) (hb : 1 < b) (hf : Fits b)
    (h : SymInt.quotientSum (n + 1) e b true = .ok r) :
    ∃ (s : Split) (whole rest q : SymInt), s.Shares w A b e.terms ∧
      total s.whole = .ok whole ∧
      total s.rest = .ok rest ∧ whole.plus q = .ok r ∧
        ∀ {l d m x}, Measured w A l d m rest x →
        Measured w A l (d * b.natAbs) m q (x / b) := by
  rw [quotientSum.eq_def] at h
  dsimp only at h
  rw [if_neg (by simp; omega), if_neg (by omega)] at h
  simp only [bind_eq_ok] at h
  obtain ⟨s, hs, whole, hw, rest, hr, h⟩ := h
  have hshares := split_shares (w := w) hb he hs
  have hb0 : 0 < b := by omega
  refine ⟨s, whole, rest, ?_⟩
  split at h
  · obtain ⟨p, hp, q, hq, h⟩ := by simpa only [bind_eq_ok] using h
    exact ⟨q, hshares, hw, hr, h, fun hrest =>
      ih.twice hrest hb0 hf hshares.factor_pos hshares.factor_dvd hp hq⟩
  · split at h
    · obtain ⟨p, hp, q, hq, h⟩ := by simpa only [bind_eq_ok] using h
      exact ⟨q, hshares, hw, hr, h, fun hrest =>
        ih.twice hrest hb0 hf (by omega) hshares.divisor_dvd hp hq⟩
    · obtain ⟨q, hq, h⟩ := bind_eq_ok.1 h
      exact ⟨q, hshares, hw, hr, h, fun hrest => ih.quotientPlain hrest hb0 hf hq⟩

lemma quotientSum_succ (ih : Divides w A n) (he : Measured w A l d m e x) (hb : 0 < b)
    (hf : Fits b) (h : SymInt.quotientSum (n + 1) e b f = .ok r) :
    Measured w A l (d * b.natAbs) m r (x / b) := by
  have hcopy := h
  rw [quotientSum.eq_def] at h
  dsimp only at h
  split at h
  · exact ih.quotientPlain he hb hf h
  rename_i hf'
  obtain rfl : f = true := by simpa using (not_or.1 hf').2
  split at h
  · rename_i h1
    cases h
    rw [show x / b = x by rw [h1, Int.ediv_one]]
    exact he.mono le_rfl (le_mul_natAbs hb) le_rfl
  · obtain ⟨s, _, _, q, hs, hwhole, hrest, hplus, hq⟩ :=
      ih.quotientSum_shape he.regular (by omega) hf hcopy
    obtain ⟨hmw, hmr⟩ := hs.measured he.regular he.toWithin hwhole hrest
    have hleaves := hs.leaves.trans (terms_count e).le
    have hres := ((hmw.mono le_rfl (le_mul_natAbs hb) le_rfl).plus (hq hmr) hplus).mono
      (hleaves.trans he.leaves) le_rfl le_rfl
    rwa [← he.value, ← he.regular.terms.2, ← hs.total, add_comm,
      Int.add_mul_ediv_right _ _ (by omega), add_comm]

lemma remainderIn_succ (ih : Divides w A n) (he : Measured w A l d m e x) (hb : 0 < b)
    (hf : Fits b) (h : SymInt.remainderIn (n + 1) e b = .ok r) :
    Measured w A l d (m + 1) r (x % b) := by
  rw [remainderIn.eq_def] at h
  dsimp only at h
  rw [if_neg (by omega)] at h
  obtain ⟨⟨hreg, rfl⟩, hw⟩ := he
  have he := hreg.measured hw
  cases hreg with
  | mul ha _ _ _ _ _ _ =>
    simp only [bind_eq_ok] at h
    obtain ⟨c, hc, p, hp, h⟩ := h
    have hres := ih.remainderPlain ((ha.measured hw.of_mul).times (floorMod_fits hc) hp) hb hf h
    rwa [floorMod_pos hb hc, mul_emod_emod] at hres
  | mod ha _ _ _ _ =>
    obtain ⟨g, hg, h⟩ := bind_eq_ok.1 h
    split at h
    · rename_i hgb
      obtain ⟨hwa, _⟩ := hw.of_mod
      rw [gcd_eq_ok hg] at hgb
      rw [value, Int.emod_emod_of_dvd _ (hgb ▸ Int.gcd_dvd_left _ b)]
      exact (ih.remainderIn (ha.measured hwa) hb hf h).mono le_rfl le_rfl (by omega)
    · exact ih.remainderPlain he hb hf h
  | @sum ps _ _ hps _ _ _ _ _ =>
    simp only [bind_eq_ok] at h
    obtain ⟨rs, hrs, p, hp, h⟩ := h
    obtain ⟨hregs, hv⟩ := reduceTerms_means hb hps hrs
    have hmp := total_means hregs hp
    have hsub : p.atoms.Sublist (sum ps).atoms := by
      rw [atoms_sum]
      exact (total_atoms hregs hp).trans (reduceTerms_atoms hps hrs)
    have hres := ih.remainderPlain (he.of_atoms hmp hsub) hb hf h
    rwa [hv, ← value_sum] at hres
  | num _ | var _ _ _ | div _ _ _ _ _ => exact ih.remainderPlain he hb hf h

lemma remainderPlain_succ (ih : Divides w A n) (he : Measured w A l d m e x) (hb : 0 < b)
    (hf : Fits b) (h : SymInt.remainderPlain (n + 1) e b = .ok r) :
    Measured w A l d (m + 1) r (x % b) := by
  rw [remainderPlain.eq_def] at h
  dsimp only at h
  have hx := he.between
  have hup := he.mono le_rfl le_rfl (Nat.le_succ m)
  split at h
  · rename_i h1
    cases h
    rw [h1, Int.emod_one]
    exact measured_num he.divisors_pos fits_zero
  rename_i h1
  split at h
  · rename_i hlt
    cases h
    rwa [Int.emod_eq_of_lt (by omega) (by omega)]
  obtain ⟨_, hfirst, h⟩ := bind_eq_ok.1 h
  obtain ⟨_, hlast, h⟩ := bind_eq_ok.1 h
  split at h
  · rename_i hsame
    obtain ⟨_, hp, h⟩ := bind_eq_ok.1 h
    obtain ⟨hfit, rfl⟩ := mul_eq_ok.1 hp
    rw [floorDiv_pos hb hfirst, floorDiv_pos hb hlast] at hsame
    rw [emod_of_same_ediv hb hx.1 hx.2 hsame, ← floorDiv_pos hb hfirst]
    exact hup.minusNum h
  · rename_i hdiff
    split at h
    · simp only [bind_eq_ok, mul_eq_ok] at h
      obtain ⟨_, ⟨hfit, rfl⟩, _, hm, h⟩ := h
      have hres := ih.remainderIn (he.minusNum hm) hb hf h
      rwa [Int.sub_mul_emod_self_right] at hres
    · rename_i h0
      simp only [bind_eq_ok, pure_eq_ok] at h
      obtain ⟨_, _, rfl⟩ := h
      have hne : e.lo ≠ e.hi := by
        intro he
        rw [he, hlast] at hfirst
        exact hdiff (Except.ok.inj hfirst).symm
      have hlt : e.lo < e.hi := lt_of_le_of_ne he.regular.lo_le_hi hne
      have hb1 : 1 < b := by omega
      rw [collapse_of_ne (ne_of_lt (lo_lt_hi_mod hb1))]
      refine ⟨⟨.mod he.regular (by omega) hb1 hf hlt, by rw [value, he.value]⟩, ?_⟩
      exact ⟨by simpa using he.leaves, by simpa using he.divisors,
        by simpa using he.nesting⟩

end Divides

lemma divides (w : Variable → Nat) (A : Assignment) (n : Nat) : Divides w A n := by
  induction n with
  | zero =>
    constructor
    · intro e r x b f l d m _ _ _ h
      simp [quotientIn] at h
    · intro e r x b l d m _ _ _ h
      simp [quotientPlain] at h
    · intro e r x b f l d m _ _ _ h
      simp [quotientSum] at h
    · intro e r x b l d m _ _ _ h
      simp [remainderIn] at h
    · intro e r x b l d m _ _ _ h
      simp [remainderPlain] at h
  | succ n ih =>
    exact ⟨ih.quotientIn_succ, ih.quotientPlain_succ, ih.quotientSum_succ, ih.remainderIn_succ,
      ih.remainderPlain_succ⟩

lemma quotient_means (he : Means A e x) (hb : 0 < b) (hf : Fits b)
    (h : e.quotient b = .ok r) : Means A r (x / b) :=
  ((divides (fun _ => 0) A _).quotientIn ⟨he, le_rfl, le_rfl, le_rfl⟩ hb hf h).toMeans

lemma remainder_means (he : Means A e x) (hb : 0 < b) (hf : Fits b)
    (h : e.remainder b = .ok r) : Means A r (x % b) :=
  ((divides (fun _ => 0) A _).remainderIn ⟨he, le_rfl, le_rfl, le_rfl⟩ hb hf h).toMeans

end LazyTensor.SymInt
