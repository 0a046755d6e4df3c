import LazyTensor.Proofs.SymInt.Quotient
import Mathlib.Data.Nat.Log

/-! Division ends within the steps it is given, as long as no variable is negative, and then fails
only on overflow. A rank falls with every call: first the variables, then the divisors with the one
in hand; while both stand still, that one shrinks under a sum or a single term is opened. -/
namespace LazyTensor.SymInt
open List
variable {a r t p e e' : SymInt} {c : Int} {n b' : Nat} {b : Int}

open Checked

variable {A : Assignment}

/-! Remainders. -/

lemma Regular.atom_lo_nonneg (hA : A.Nonneg) (h : a.Regular A.scope)
    (ha : a.isAtom = true) : 0 ≤ a.lo := by
  cases h with
  | var _ _ hv => simpa using hA _ hv
  | div _ h0 hc _ _ =>
    rw [lo_div (by omega)]
    exact Int.ediv_nonneg h0 (by omega)
  | @mod b c _ _ hc _ _ =>
    obtain ⟨_, el, _⟩ | ⟨_, _, el, _⟩ := range_mod (a := b) (by omega : 0 < c)
    · omega
    · rw [el]
      exact Int.emod_nonneg _ (by omega)
  | num _ | mul _ _ _ _ _ _ _ | sum _ _ _ _ _ _ => simp [isAtom] at ha

lemma scale_lo_nonneg (ha : a.Regular A.scope) (hatom : a.isAtom = true) (hl : 0 ≤ a.lo)
    (hc : Fits c) (h0 : 0 ≤ c) (h : scale a c = .ok r) : 0 ≤ r.lo := by
  by_cases hz : c = 0
  · subst hz
    cases h
    simp
  · obtain ⟨ht, he⟩ := scale_multiple (kind_index A.scope) ⟨ha, hatom⟩ hc hz h
    have h1 : 0 ≤ a.lo * c := mul_nonneg hl h0
    have h2 : 0 ≤ a.hi * c := mul_nonneg (hl.trans ha.lo_le_hi) h0
    rw [ht.lo_eq (kind_index A.scope), he, lowEnd]
    exact le_min h1 h2

lemma reduceTerm_lo_nonneg (hA : A.Nonneg) (hb : 0 < b)
    (ht : t.Regular A.scope) (hs : t.isSum = false) (h : reduceTerm b t = .ok r) : 0 ≤ r.lo := by
  cases ht with
  | num _ =>
    simp only [reduceTerm, bind_eq_ok, pure_eq_ok] at h
    obtain ⟨m, hm, rfl⟩ := h
    rw [lo_num, floorMod_pos hb hm]
    exact Int.emod_nonneg _ (by omega)
  | mul ha hatom _ _ _ _ _ =>
    simp only [reduceTerm, bind_eq_ok] at h
    obtain ⟨m, hm, h⟩ := h
    rw [times_eq_scale hatom] at h
    refine scale_lo_nonneg ha hatom (ha.atom_lo_nonneg hA hatom) (floorMod_fits hm) ?_ h
    rw [floorMod_pos hb hm]
    exact Int.emod_nonneg _ (by omega)
  | var hp hl hv =>
    cases h
    exact (Regular.var hp hl hv).atom_lo_nonneg hA rfl
  | div ha h0 hc hf hr =>
    cases h
    exact (Regular.div ha h0 hc hf hr).atom_lo_nonneg hA rfl
  | mod ha h0 hc hf hr =>
    cases h
    exact (Regular.mod ha h0 hc hf hr).atom_lo_nonneg hA rfl
  | sum _ _ _ _ _ _ => simp at hs

lemma reduceTerm_overflow (b : Int) (t : SymInt) : OnlyOverflow (reduceTerm b t) := by
  unfold reduceTerm
  split
  · exact (OnlyOverflow.floorMod _ _).bind (fun _ _ => .pure _)
  · exact (OnlyOverflow.floorMod _ _).bind (fun _ _ => times_overflow _ _)
  · exact .ok _

lemma remainderPlain_finishes
    (hl : 0 ≤ e.lo ∨ e.lo = e.hi) : OnlyOverflow (remainderPlain (n + 1) e b) := by
  rw [remainderPlain.eq_def]
  dsimp only
  split
  · exact .ok _
  split
  · exact .ok _
  refine (OnlyOverflow.floorDiv _ _).bind (fun first hfirst => ?_)
  refine (OnlyOverflow.floorDiv _ _).bind (fun last hlast => ?_)
  split
  · exact (OnlyOverflow.word _).bind (fun _ _ => minus_overflow _ _)
  · rename_i hdiff
    split
    · rename_i hneg
      obtain hl | hl := hl
      · omega
      · rw [hl, hlast] at hfirst
        exact absurd (Except.ok.inj hfirst).symm hdiff
    · exact (OnlyOverflow.word _).bind (fun _ _ => .pure _)

lemma remainderIn_finishes (hA : A.Nonneg)
    (he : e.Regular A.scope) (hb : 0 < b) (hn : e.nesting + 2 ≤ n) :
    OnlyOverflow (remainderIn n e b) := by
  induction n generalizing e with
  | zero => omega
  | succ n ih =>
    obtain ⟨k, rfl⟩ : ∃ k, n = k + 1 := ⟨n - 1, by omega⟩
    rw [remainderIn.eq_def]
    dsimp only
    rw [if_neg (by omega)]
    cases he with
    | @mul a c ha hatom _ _ _ _ _ =>
      refine (OnlyOverflow.floorMod _ _).bind (fun m hm => ?_)
      refine (times_overflow _ _).bind (fun r hr => remainderPlain_finishes (.inl ?_))
      rw [times_eq_scale hatom] at hr
      refine scale_lo_nonneg ha hatom (ha.atom_lo_nonneg hA hatom) (floorMod_fits hm) ?_ hr
      rw [floorMod_pos hb hm]
      exact Int.emod_nonneg _ (by omega)
    | mod ha h0 hc hf hr =>
      refine (OnlyOverflow.gcd _ _).bind (fun g _ => ?_)
      split
      · rw [nesting] at hn
        exact ih ha (by omega)
      · exact remainderPlain_finishes (.inl ((Regular.mod ha h0 hc hf hr).atom_lo_nonneg hA rfl))
    | @sum ps _ _ hps hns _ _ _ _ =>
      refine (OnlyOverflow.mapM (fun t _ => reduceTerm_overflow b t)).bind (fun rs hrs => ?_)
      refine (total_overflow rs).bind (fun r hr => remainderPlain_finishes (.inl ?_))
      refine le_trans ?_ (total_lo (reduceTerms_means hb hps hrs).1 hr)
      refine sum_nonneg (fun x hx => ?_)
      obtain ⟨q, hq, rfl⟩ := mem_map.1 hx
      obtain ⟨t, ht, hqt⟩ := exists_of_mapM hrs hq
      exact reduceTerm_lo_nonneg hA hb (hps t ht) (hns t ht) hqt
    | num _ => exact remainderPlain_finishes (.inr (by simp))
    | var hp hl hv =>
      exact remainderPlain_finishes (.inl ((Regular.var hp hl hv).atom_lo_nonneg hA rfl))
    | div ha h0 hc hf hr =>
      exact remainderPlain_finishes (.inl ((Regular.div ha h0 hc hf hr).atom_lo_nonneg hA rfl))

/-! Quotients that leave no remainder. -/

lemma sum_filter_split (p : SymInt → Bool) (f : SymInt → Nat) (ts : List SymInt) :
    ((ts.filter p).map f).sum + ((ts.filter (fun t => !p t)).map f).sum = (ts.map f).sum := by
  induction ts with
  | nil => rfl
  | cons t ts ih =>
    cases h : p t with
    | true =>
      rw [filter_cons_of_pos h, filter_cons_of_neg (by simp [h]), map_cons,
        sum_cons, map_cons, sum_cons, ← ih]
      omega
    | false =>
      rw [filter_cons_of_neg (by simp [h]), filter_cons_of_pos (by simp [h]),
        map_cons, sum_cons, map_cons, sum_cons, ← ih]
      omega

lemma Split.Shares.leaves_lt {ts : List SymInt} {s : Split}
    (hs : s.Shares (fun _ => 1) A b ts) (ht : t ∈ ts) (hb : b ∣ t.coeff) (hl : 1 ≤ t.leaves) :
    (s.rest.map SymInt.leaves).sum < (ts.map SymInt.leaves).sum := by
  have hkeep : s.rest.filter (fun t => decide (¬b ∣ t.coeff)) = s.rest :=
    filter_eq_self.2 (fun x hx => decide_eq_true (hs.coeff x hx).1)
  have hsub := hs.sublist.filter (fun t => decide (¬b ∣ t.coeff))
  rw [hkeep] at hsub
  have hle : (s.rest.map SymInt.leaves).sum ≤
      ((ts.filter (fun t => decide (¬b ∣ t.coeff))).map SymInt.leaves).sum :=
    (hsub.map SymInt.leaves).sum_le_sum (by simp)
  have hmem : t ∈ ts.filter (fun t => !decide (¬b ∣ t.coeff)) :=
    mem_filter.2 ⟨ht, by simp [hb]⟩
  have hone := single_le_sum (by simp) _ (mem_map_of_mem (f := SymInt.leaves) hmem)
  have hsplit := sum_filter_split (fun t => decide (¬b ∣ t.coeff)) SymInt.leaves ts
  omega

lemma eq_of_leaves_le {l₁ l₂ : List SymInt} (h : l₁.Sublist l₂)
    (hl : ∀ a ∈ l₂, 1 ≤ a.leaves) (hs : (l₂.map leaves).sum ≤ (l₁.map leaves).sum) :
    l₁ = l₂ := by
  induction h with
  | slnil => rfl
  | @cons l₁ l₂ a hsub _ =>
    have h1 := (hsub.map leaves).sum_le_sum (by simp)
    have h2 := hl a mem_cons_self
    rw [map_cons, sum_cons] at hs
    omega
  | @cons_cons l₁ l₂ a hsub ih =>
    rw [map_cons, sum_cons, map_cons, sum_cons] at hs
    rw [ih (fun x hx => hl x (mem_cons_of_mem a hx)) (by omega)]

lemma Regular.atoms_leaves (h : e.Regular A.scope) : ∀ a ∈ e.atoms, 1 ≤ a.leaves := by
  intro a ha
  obtain ⟨hr, hatom⟩ := h.mem_atoms ha
  exact hr.leaves_pos (hr.lo_lt_hi_of_atom hatom)

/-- Where a term is divided evenly, the quotient has fewer variables or several terms, or it makes
no quotient of its own. -/
lemma quotient_of_even_term {x : Int} (he : e.Regular A.scope)
    (hx : 1 < x) (hf : Fits x) (h : quotientIn n e x true = .ok p) (ht : mul a c ∈ e.terms)
    (hc : x ∣ c) : p.leaves < e.leaves ∨ 2 ≤ p.atoms.length ∨
      ∀ b ∈ p.atoms, b ∈ e.atoms := by
  cases n with
  | zero => simp [quotientIn] at h
  | succ n =>
    have hreg := he
    rw [quotientIn.eq_def] at h
    dsimp only at h
    rw [if_neg (by omega)] at h
    cases he with
    | @mul a' c' ha hatom _ _ _ _ _ =>
      rw [terms_of_not_sum rfl, mem_singleton] at ht
      obtain ⟨rfl, rfl⟩ := SymInt.mul.inj ht
      obtain ⟨m, hm, h⟩ := bind_eq_ok.1 h
      rw [floorMod_pos (by omega) hm, Int.emod_eq_zero_of_dvd hc, if_pos rfl] at h
      obtain ⟨k, hk, h⟩ := bind_eq_ok.1 h
      refine .inr (.inr (fun b hb => ?_))
      rw [atoms_mul, ← atoms_of_isAtom hatom]
      exact (times_atoms ha (floorDiv_fits hk) h).subset hb
    | @sum ps _ _ _ _ _ _ _ _ =>
      cases n with
      | zero => simp [quotientSum] at h
      | succ n =>
        obtain ⟨s, whole, rest, q, hs, hwhole, hrest, hplus, hsize⟩ :=
          (divides (fun _ => 1) A n).quotientSum_shape hreg hx hf h
        obtain ⟨hww, hwr⟩ := hs.measured hreg ⟨le_rfl, le_rfl, le_rfl⟩ hwhole hrest
        have hwq := hsize hwr
        have hwreg := hww.regular
        have hq := hwq.regular
        have hterm := hreg.terms.1 _ ht
        have hlt := hs.leaves_lt ht hc
          (hterm.1.leaves_pos ((hterm.1.multiple hterm.2 rfl).lo_lt_hi (kind_index A.scope)))
        have hcount : (map SymInt.leaves (SymInt.sum ps).terms).sum = (SymInt.sum ps).leaves :=
          terms_count _
        have hql : q.leaves ≤ (s.rest.map SymInt.leaves).sum := hwq.leaves
        have hwl : whole.leaves ≤ (s.whole.map SymInt.leaves).sum := hww.leaves
        have hall : (s.whole.map SymInt.leaves).sum + (s.rest.map SymInt.leaves).sum ≤
          (map SymInt.leaves (SymInt.sum ps).terms).sum := hs.leaves
        have hpreg := (plus_means hwreg.means hq.means hplus).regular
        by_cases hleaves : p.leaves < (SymInt.sum ps).leaves
        · exact .inl hleaves
        -- nothing was merged, so the atoms of both parts stand side by side
        have hatoms : p.atoms = whole.atoms ++ q.atoms := by
          refine eq_of_leaves_le (plus_atoms hwreg hq hplus) (fun b hb => ?_) ?_
          · obtain hb | hb := mem_append.1 hb
            · exact hwreg.atoms_leaves b hb
            · exact hq.atoms_leaves b hb
          · rw [map_append, sum_append, ← leaves_eq_atoms, ← leaves_eq_atoms,
              ← leaves_eq_atoms]
            omega
        have hpl : p.leaves = whole.leaves + q.leaves := by
          rw [leaves_eq_atoms, hatoms, map_append, sum_append, ← leaves_eq_atoms,
            ← leaves_eq_atoms]
        have hwne : whole.atoms ≠ [] := by
          intro hnil
          rw [leaves_eq_atoms whole, hnil] at hpl
          simp only [map_nil, sum_nil] at hpl
          omega
        by_cases hqn : q.atoms = []
        · refine .inr (.inr (fun b hb => ?_))
          rw [hatoms, hqn, append_nil] at hb
          obtain ⟨w, hw, hb⟩ := mem_flatMap.1 ((total_atoms hs.whole hwhole).subset hb)
          rw [← terms_flatMap_atoms (SymInt.sum ps)]
          exact hs.atoms w hw b hb
        · refine .inr (.inl ?_)
          have h1 := length_pos_iff.2 hwne
          have h2 := length_pos_iff.2 hqn
          rw [hatoms, length_append]
          omega
    | num _ | var _ _ _ | div _ _ _ _ _ | mod _ _ _ _ _ =>
      rw [terms_of_not_sum rfl, mem_singleton] at ht
      cases ht

/-! The rank of a division. -/

/-- The divisors of an index together with the divisor in hand. -/
def reach (e : SymInt) (b : Nat) : Nat := Nat.log 2 (e.divisors * b)

/-- What falls while the variables and the reach stand still: the divisor in hand where there are
several terms, and what a single term hides otherwise. -/
def turn (bound : Nat) (e : SymInt) (b : Nat) : Nat :=
  if 2 ≤ e.atoms.length then Nat.log 2 b else bound + 1 + Nat.log 2 e.divisors + e.nesting

def rank (bound : Nat) (e : SymInt) (b : Nat) : Nat :=
  (e.leaves * (bound + 1) + reach e b) * (2 * bound + 3) + turn bound e b

def Covered (bound : Nat) (e : SymInt) (b : Nat) : Prop := reach e b + e.nesting ≤ bound

lemma turn_le {bound : Nat} {b : Nat} (he : e.Regular A.scope) (hb : 0 < b)
    (h : Covered bound e b) : turn bound e b ≤ 2 * bound + 1 := by
  have hd := he.divisors_pos
  have h1 : Nat.log 2 b ≤ reach e b := Nat.log_mono_right (Nat.le_mul_of_pos_left b (by omega))
  have h2 : Nat.log 2 e.divisors ≤ reach e b := Nat.log_mono_right (Nat.le_mul_of_pos_right _ hb)
  unfold Covered at h
  unfold turn
  split
  · omega
  · omega

lemma rank_lt {bound : Nat} {b : Nat} (he' : e'.Regular A.scope) (hb' : 0 < b')
    (hcov : Covered bound e' b') (hl : e'.leaves ≤ e.leaves) (hr : reach e' b' ≤ reach e b)
    (h : e'.leaves < e.leaves ∨ reach e' b' < reach e b ∨ turn bound e' b' < turn bound e b) :
    rank bound e' b' < rank bound e b := by
  have hturn := turn_le he' hb' hcov
  have hmul : e'.leaves * (bound + 1) ≤ e.leaves * (bound + 1) := Nat.mul_le_mul_right _ hl
  unfold rank
  obtain hlt | hge :=
    Nat.lt_or_ge (e'.leaves * (bound + 1) + reach e' b') (e.leaves * (bound + 1) + reach e b)
  · have := Nat.mul_le_mul_right (2 * bound + 3) (Nat.succ_le_of_lt hlt)
    rw [Nat.succ_mul] at this
    omega
  · have hleaves : e'.leaves = e.leaves := by
      by_contra hne
      have := Nat.mul_le_mul_right (bound + 1) (by omega : e'.leaves + 1 ≤ e.leaves)
      rw [Nat.succ_mul] at this
      omega
    have hreach : reach e' b' = reach e b := by
      rw [hleaves] at hge
      omega
    rw [hleaves, hreach]
    omega

lemma log_lt_of_double {x y : Nat} (hx : 0 < x) (h : x * 2 ≤ y) : Nat.log 2 x < Nat.log 2 y := by
  have h1 := Nat.log_mono_right (b := 2) h
  rw [Nat.log_mul_base (by omega) (by omega)] at h1
  omega

lemma reach_lt_of_half {b : Nat} (he' : e'.Regular A.scope) (hb' : 0 < b')
    (hd : e'.divisors ≤ e.divisors) (hb : b' * 2 ≤ b) : reach e' b' < reach e b := by
  refine log_lt_of_double (Nat.mul_pos he'.divisors_pos hb') ?_
  rw [mul_assoc]
  exact Nat.mul_le_mul hd hb

lemma Covered.of_le {bound : Nat} {b : Nat} (h : Covered bound e b)
    (hr : reach e' b' ≤ reach e b) (hn : e'.nesting ≤ e.nesting) : Covered bound e' b' := by
  unfold Covered at *
  omega

/-- Divisions below the rank of `e` by `b` end within `n` steps. -/
def Ends (A : Assignment) (bound n : Nat) (e : SymInt) (b : Int) : Prop :=
  ∀ k e' b' f, n ≤ k → e'.Regular A.scope → 0 < b' → Fits b' →
    Covered bound e' b'.natAbs →
    rank bound e' b'.natAbs < rank bound e b.natAbs → OnlyOverflow (quotientIn k e' b' f)

lemma quotientPlain_nonneg (hb : 0 < b) (hl : 0 ≤ e.lo) :
    OnlyOverflow (quotientPlain (n + 1) e b) := by
  rw [quotientPlain.eq_def]
  dsimp only
  rw [if_neg (by omega)]
  split
  · exact .ok _
  · rw [if_neg (by omega)]
    exact .ok _

lemma mem_terms_of_rest {s : Split} {rest : SymInt} (he : e.Regular A.scope)
    (hs : s.Shares (fun _ => 1) A b e.terms) (hrest : total s.rest = .ok rest) (ht : t ∈ s.rest)
    (hn : t.isNum = false) : t ∈ rest.terms := by
  have hterms (t : SymInt) (ht : t ∈ s.rest) := he.terms.1 t (hs.sublist.subset ht)
  refine total_keeps (A := A) hterms ?_ hrest ht hn
  refine Nodup.sublist ((hs.sublist.filter _).map _) ?_
  obtain hsum | ⟨ps, rfl⟩ := e.isSum_or
  · rw [terms_of_not_sum hsum]
    cases hn : e.isNum <;> simp [hn]
  · cases he with
    | sum _ hns _ hk _ _ =>
      rw [terms_sum hns]
      exact hk

lemma quotientIn_num (n : Nat) (k : Int) (hb : 0 < b) (f : Bool) :
    quotientIn (n + 1) (num k) b f = do return num (← floorDiv k b) := by
  rw [quotientIn, if_neg hb.ne']

lemma Split.add_overflow (b : Int) (s : Split) (t : SymInt) : OnlyOverflow (Split.add b s t) := by
  unfold Split.add
  split
  · refine (OnlyOverflow.floorMod _ _).bind (fun m _ => ?_)
    split
    · exact (OnlyOverflow.floorDiv _ _).bind (fun _ _ => .pure _)
    · exact (OnlyOverflow.gcd _ _).bind (fun _ _ => .pure _)
  · refine (OnlyOverflow.floorMod _ _).bind (fun m _ => ?_)
    split
    · exact (OnlyOverflow.floorDiv _ _).bind
        (fun _ _ => (times_overflow _ _).bind (fun _ _ => .pure _))
    · refine (OnlyOverflow.gcd _ _).bind (fun _ _ => ?_)
      split
      · exact (OnlyOverflow.floorMod _ _).bind (fun _ _ => .pure _)
      · exact .pure _
  · exact .ok _

section
variable {bound : Nat} {b : Int} (he : e.Regular A.scope) (hb : 0 < b) (hf : Fits b)
  (hcov : Covered bound e b.natAbs) (hends : Ends A bound n e b)
include he hb hf hcov hends

lemma twice_ends {rest : SymInt} {x : Int} (hr : rest.Regular A.scope)
    (hwithin : Within (fun _ => 1) e.leaves e.divisors e.nesting rest) (hx : 1 < x) (hxb : x ∣ b)
    (hne : x ≠ b) (ht : mul a c ∈ rest.terms) (hc : x ∣ c) {next : SymInt → Checked SymInt}
    (hnext : ∀ q, OnlyOverflow (next q)) :
    OnlyOverflow (do
      let p ← quotientIn n rest x true
      let q ← quotientIn n p (b.tdiv x) true
      next q) := by
  have hle := Int.le_of_dvd hb hxb
  obtain ⟨k, rfl⟩ := hxb
  have hk : 1 < k := by
    by_contra hk1
    have hkpos : 0 < k := (mul_pos_iff_of_pos_left (by omega : 0 < x)).1 hb
    exact hne (by rw [show k = 1 by omega, mul_one])
  have hfx : Fits x := fits_zero.between hf (by omega) hle
  have hfk : Fits k := fits_zero.between hf (by omega) (le_mul_of_one_le_left (by omega) (by omega))
  have htdiv : (x * k).tdiv x = k := Int.mul_tdiv_cancel_left k (by omega)
  have habs : (x * k).natAbs = x.natAbs * k.natAbs := Int.natAbs_mul x k
  have hhalf : x.natAbs * 2 ≤ (x * k).natAbs := by
    rw [habs]
    exact Nat.mul_le_mul_left _ (by omega)
  have hreach := reach_lt_of_half (e := e) hr (by omega : 0 < x.natAbs) hwithin.divisors hhalf
  have hcovr := hcov.of_le (le_of_lt hreach) hwithin.nesting
  refine OnlyOverflow.bind (hends n rest x true le_rfl hr (by omega) hfx hcovr
    (rank_lt hr (by omega) hcovr hwithin.leaves (le_of_lt hreach) (.inr (.inl hreach))))
    (fun p hp => ?_)
  rw [htdiv]
  have hsize := (divides _ A n).quotientIn (hr.measured hwithin) (by omega) hfx hp
  have hpreg := hsize.regular
  have hreachp : reach p k.natAbs ≤ reach e (x * k).natAbs := by
    refine Nat.log_mono_right ?_
    rw [habs, ← mul_assoc]
    exact Nat.mul_le_mul_right _ hsize.divisors
  have hcovp := hcov.of_le hreachp hsize.nesting
  refine OnlyOverflow.bind (hends n p k true le_rfl hpreg (by omega) hfk hcovp
    (rank_lt hpreg (by omega) hcovp hsize.leaves hreachp ?_)) (fun q _ => hnext q)
  obtain hlt | hmany | hsub := quotient_of_even_term hr hx hfx hp ht hc
  · exact .inl (lt_of_lt_of_le hlt hwithin.leaves)
  · -- several terms: the divisor in hand has fallen
    refine .inr (.inr ?_)
    have hlog : Nat.log 2 k.natAbs < Nat.log 2 (x * k).natAbs := by
      refine log_lt_of_double (by omega) ?_
      rw [habs, mul_comm]
      exact Nat.mul_le_mul_right _ (by omega)
    have hbound : Nat.log 2 (x * k).natAbs ≤ reach e (x * k).natAbs :=
      Nat.log_mono_right (Nat.le_mul_of_pos_left _ he.divisors_pos)
    unfold Covered at hcov
    rw [turn, turn, if_pos hmany]
    split
    · exact hlog
    · omega
  · refine .inr (.inl (reach_lt_of_half hpreg (by omega) ?_ ?_))
    · have hall := (divisors_le_iff hr).1 hwithin.divisors
      exact (divisors_le_iff hpreg).2 ⟨hall.1, fun b hb => hall.2 b (hsub b hb)⟩
    · rw [habs, mul_comm]
      exact Nat.mul_le_mul_right _ (by omega)

variable (hA : A.Nonneg) (hn : bound + 2 ≤ n)
include hA hn

lemma quotientIn_single {y : SymInt} {f : Bool} (hy : y.Regular A.scope) (hs : y.isSum = false)
    (hatoms : y.atoms.Sublist e.atoms) (hplain : OnlyOverflow (quotientPlain n y b)) :
    OnlyOverflow (quotientIn (n + 1) y b f) := by
  have hwithin : Within (fun _ => 1) e.leaves e.divisors e.nesting y :=
    Within.of_atoms he hy hatoms ⟨le_rfl, le_rfl, le_rfl⟩
  -- an atom of `y` has no more variables than `e`, and fewer where `e` has several terms
  have hsingle (ha : y.isAtom = true) : y.leaves < e.leaves ∨ ¬2 ≤ e.atoms.length := by
    by_cases h2 : 2 ≤ e.atoms.length
    · left
      by_contra hge
      rw [atoms_of_isAtom ha] at hatoms
      have heq := eq_of_leaves_le hatoms he.atoms_leaves (by
        rw [← leaves_eq_atoms]
        simpa using hge)
      rw [← heq] at h2
      simp at h2
    · exact .inr h2
  rw [quotientIn.eq_def]
  dsimp only
  rw [if_neg (by omega)]
  have hyreg := hy
  cases hy with
  | num _ => exact (OnlyOverflow.floorDiv _ _).bind (fun _ _ => .pure _)
  | @mul a c ha _ h0 h1 _ _ _ =>
    refine (OnlyOverflow.floorMod _ _).bind (fun m _ => ?_)
    split
    · exact (OnlyOverflow.floorDiv _ _).bind (fun _ _ => times_overflow _ _)
    refine (OnlyOverflow.floorMod _ _).bind (fun m' hm' => ?_)
    split
    · rename_i hdiv
      refine (OnlyOverflow.floorDiv _ _).bind (fun q hq => ?_)
      obtain ⟨k, rfl⟩ : c ∣ b := dvd_of_floorMod_zero (hdiv.1 ▸ hm')
      have hqk : q = k := by rw [floorDiv_pos hdiv.2 hq, Int.mul_ediv_cancel_left k h0]
      subst hqk
      have hpos : 0 < q := (mul_pos_iff_of_pos_left hdiv.2).1 hb
      have hhalf : q.natAbs * 2 ≤ (c * q).natAbs := by
        rw [Int.natAbs_mul, mul_comm]
        exact Nat.mul_le_mul_right _ (by omega)
      have hwa := hwithin.of_mul
      have hreach := reach_lt_of_half (e := e) ha (by omega : 0 < q.natAbs) hwa.divisors hhalf
      have hcov' := hcov.of_le (le_of_lt hreach) hwa.nesting
      exact hends n a q true le_rfl ha hpos (floorDiv_fits hq) hcov'
        (rank_lt ha (by omega) hcov' hwa.leaves (le_of_lt hreach) (.inr (.inl hreach)))
    · exact hplain
  | @div a c ha _ hc _ _ =>
    refine (OnlyOverflow.word _).bind (fun d hd => ?_)
    obtain ⟨hfit, rfl⟩ := word_eq_ok.1 hd
    have hpos : 0 < c * b := mul_pos (by omega) hb
    have hreach_eq : reach a (c * b).natAbs = reach (div a c) b.natAbs := by
      rw [reach, reach, divisors, Int.natAbs_mul, mul_assoc]
    have hreach : reach a (c * b).natAbs ≤ reach e b.natAbs := by
      rw [hreach_eq]
      exact Nat.log_mono_right (Nat.mul_le_mul_right _ hwithin.divisors)
    have hleaves : a.leaves ≤ e.leaves := by simpa using hwithin.leaves
    have hnest : a.nesting ≤ e.nesting := by simpa using hwithin.nesting
    have hcov' := hcov.of_le hreach hnest
    refine hends n a (c * b) true le_rfl ha hpos hfit hcov'
      (rank_lt ha (by omega) hcov' hleaves hreach ?_)
    obtain hlt | hone := hsingle rfl
    · exact .inl (by simpa using hlt)
    · refine .inr (.inr ?_)
      have hlog : Nat.log 2 a.divisors < Nat.log 2 e.divisors := by
        refine log_lt_of_double ha.divisors_pos (le_trans ?_ hwithin.divisors)
        rw [divisors]
        exact Nat.mul_le_mul_left _ (by omega)
      have hb' : Nat.log 2 (c * b).natAbs ≤ reach a (c * b).natAbs :=
        Nat.log_mono_right (Nat.le_mul_of_pos_left _ ha.divisors_pos)
      unfold Covered at hcov'
      rw [turn, turn, if_neg hone]
      split
      · omega
      · omega
  | @mod a c ha _ hc hfc _ =>
    obtain ⟨hwa, hnest⟩ := hwithin.of_mod
    have hreach : reach a b.natAbs ≤ reach e b.natAbs :=
      Nat.log_mono_right (Nat.mul_le_mul_right _ hwa.divisors)
    have hcov' := hcov.of_le hreach (by omega)
    have hrank : rank bound a b.natAbs < rank bound e b.natAbs := by
      refine rank_lt ha (by omega) hcov' hwa.leaves hreach ?_
      obtain hlt | hone := hsingle rfl
      · exact .inl (by simpa using hlt)
      · refine .inr (.inr ?_)
        have hlog : Nat.log 2 a.divisors ≤ Nat.log 2 e.divisors := Nat.log_mono_right hwa.divisors
        have hb' : Nat.log 2 b.natAbs ≤ reach a b.natAbs :=
          Nat.log_mono_right (Nat.le_mul_of_pos_left _ ha.divisors_pos)
        unfold Covered at hcov'
        rw [turn, turn, if_neg hone]
        split
        · omega
        · omega
    refine (OnlyOverflow.floorMod _ _).bind (fun m hm => ?_)
    split
    · rename_i h0
      refine (hends n a b true le_rfl ha hb hf hcov' hrank).bind (fun q hq => ?_)
      refine (OnlyOverflow.floorDiv _ _).bind (fun d hd => ?_)
      have hdvd : b ∣ c := dvd_of_floorMod_zero (h0 ▸ hm)
      have hpos : 0 < d :=
        floorDiv_pos hb hd ▸ Int.ediv_pos_of_pos_of_dvd (by omega) (le_of_lt hb) hdvd
      have hmq := (divides _ A n).quotientIn (ha.measured hwa) hb hf hq
      have hnq := hmq.nesting
      unfold Covered at hcov'
      exact remainderIn_finishes hA hmq.regular hpos (by omega)
    · exact hplain
  | var _ _ _ => exact hplain
  | sum _ _ _ _ _ _ => simp at hs

lemma quotientPlain_ends {x : SymInt} (hx : x.Regular A.scope) (hatoms : x.atoms.Sublist e.atoms) :
    OnlyOverflow (quotientPlain (n + 2) x b) := by
  by_cases hl : 0 ≤ x.lo
  · exact quotientPlain_nonneg hb hl
  rw [quotientPlain.eq_def]
  dsimp only
  rw [if_neg (by omega)]
  split
  · exact .ok _
  rw [if_pos (by omega)]
  refine (OnlyOverflow.floorDiv _ _).bind (fun o ho => ?_)
  refine (OnlyOverflow.word _).bind (fun s hs => (OnlyOverflow.word _).bind (fun t ht => ?_))
  obtain ⟨_, rfl⟩ := word_eq_ok.1 hs
  obtain ⟨hft, rfl⟩ := word_eq_ok.1 ht
  refine (plus_overflow _ _).bind (fun moved hm => ?_)
  refine OnlyOverflow.bind ?_ (fun q _ => plus_overflow _ _)
  have hreg := (plusInt_means hx.means hft hm).regular
  have hsub : moved.atoms.Sublist e.atoms := by
    have := plus_atoms hx (.num hft) hm
    rw [atoms_num, append_nil] at this
    exact this.trans hatoms
  have hnonneg : 0 ≤ moved.lo := by
    have hlow := plus_lo hx (.num hft) hm
    have hmod := Int.emod_add_mul_ediv x.lo b
    have hpos := Int.emod_nonneg x.lo (by omega : b ≠ 0)
    rw [floorDiv_pos hb ho] at hlow
    rw [lo_num, neg_mul, mul_comm (x.lo / b) b] at hlow
    omega
  obtain ⟨k, rfl⟩ : ∃ k, n = k + 2 := ⟨n - 2, by omega⟩
  obtain hsum | ⟨ps, rfl⟩ := moved.isSum_or
  · exact quotientIn_single he hb hf hcov hends hA hn hreg hsum hsub
      (quotientPlain_nonneg hb hnonneg)
  · rw [quotientIn.eq_def]
    dsimp only
    rw [if_neg (by omega), quotientSum.eq_def]
    dsimp only
    rw [if_pos (.inr rfl)]
    exact quotientPlain_nonneg hb hnonneg

lemma quotientSum_ends (f : Bool) : OnlyOverflow (quotientSum (n + 3) e b f) := by
  have hends' : Ends A bound (n + 2) e b := fun k e' b' f' hk => hends k e' b' f' (by omega)
  rw [quotientSum.eq_def]
  dsimp only
  split
  · exact quotientPlain_ends he hb hf hcov hends hA hn he (Sublist.refl _)
  split
  · exact .ok _
  rename_i hb1
  have hb2 : 1 < b := by omega
  refine (OnlyOverflow.foldlM (Split.add_overflow b) _ _).bind (fun s hs => ?_)
  refine (total_overflow _).bind (fun whole hwhole => ?_)
  refine (total_overflow _).bind (fun rest hrest => ?_)
  have hs := split_shares (w := fun _ => 1) hb2 he hs
  have hreg := (total_means hs.rest hrest).regular
  have hsub : rest.atoms.Sublist e.atoms := by
    rw [← terms_flatMap_atoms e]
    exact (total_atoms hs.rest hrest).trans (hs.sublist.flatMap _)
  have hwithin : Within (fun _ => 1) e.leaves e.divisors e.nesting rest :=
    Within.of_atoms he hreg hsub ⟨le_rfl, le_rfl, le_rfl⟩
  split
  · rename_i hfactor
    by_cases hnums : ∀ t ∈ s.rest, t.isNum = true
    · -- numbers alone: both quotients are computed at once
      obtain ⟨k, rfl⟩ : ∃ k, rest = num k := ⟨_, total_nums hnums hrest⟩
      have hpos : 0 < b.tdiv s.factor := by
        rw [Int.tdiv_eq_ediv_of_nonneg (le_of_lt hb)]
        exact Int.ediv_pos_of_pos_of_dvd hb (by omega) hs.factor_dvd
      rw [quotientIn_num _ k (by omega), bind_assoc]
      refine (OnlyOverflow.floorDiv _ _).bind fun q _ => ?_
      rw [pure_bind, quotientIn_num _ q hpos, bind_assoc]
      exact (OnlyOverflow.floorDiv _ _).bind fun _ _ => plus_overflow _ _
    · push Not at hnums
      obtain ⟨t, ht, hnum⟩ := hnums
      have hcoeff := hs.coeff t ht
      have hne : s.factor ≠ b := fun heq => hcoeff.1 (heq ▸ hcoeff.2)
      obtain ⟨a, c, rfl⟩ : ∃ a c, t = mul a c := by
        cases t with
        | mul a c => exact ⟨a, c, rfl⟩
        | num k => simp [isNum, num?] at hnum
        | var _ | div _ _ | mod _ _ | lt _ _ | sum _ | conj _ =>
          have hone : s.factor ∣ 1 := hcoeff.2
          have := Int.le_of_dvd (by omega) hone
          omega
      exact twice_ends he hb hf hcov hends' hreg hwithin hfactor hs.factor_dvd hne
        (mem_terms_of_rest he hs hrest ht rfl) hcoeff.2 (fun _ => plus_overflow _ _)
  · split
    · rename_i hdiv
      obtain ⟨a, ha⟩ := hs.divisor (by omega)
      have hne : s.divisor ≠ b := fun heq => (hs.coeff _ ha).1 (heq ▸ dvd_refl _)
      exact twice_ends he hb hf hcov hends' hreg hwithin hdiv hs.divisor_dvd hne
        (mem_terms_of_rest he hs hrest ha rfl) (dvd_refl _) (fun _ => plus_overflow _ _)
    · exact (quotientPlain_ends he hb hf hcov hends hA hn hreg hsub).bind
        (fun _ _ => plus_overflow _ _)

end

lemma quotientIn_ends (hA : A.Nonneg) {bound n r : Nat}
    {f : Bool} (he : e.Regular A.scope) (hb : 0 < b) (hf : Fits b) (hcov : Covered bound e b.natAbs)
    (hr : rank bound e b.natAbs ≤ r) (hn : 4 * r + bound + 6 ≤ n) :
    OnlyOverflow (quotientIn n e b f) := by
  induction r using Nat.strong_induction_on generalizing n e b f with
  | _ r ih =>
    obtain ⟨k, rfl⟩ : ∃ k, n = k + 4 := ⟨n - 4, by omega⟩
    have hends (j : Nat) (hj : k ≤ j) : Ends A bound j e b := by
      intro i e' b' f' hi he' hb' hf' hcov' hlt
      exact ih (rank bound e' b'.natAbs) (by omega) he' hb' hf' hcov' le_rfl (by omega)
    obtain hsum | ⟨ps, rfl⟩ := e.isSum_or
    · exact quotientIn_single he hb hf hcov (hends _ (by omega)) hA (by omega) he hsum
        (Sublist.refl _) (quotientPlain_ends he hb hf hcov (hends _ (by omega)) hA (by omega) he
          (Sublist.refl _))
    · rw [quotientIn.eq_def]
      dsimp only
      rw [if_neg (by omega)]
      exact quotientSum_ends he hb hf hcov (hends k le_rfl) hA (by omega) f

/-! The steps that division is given. -/

lemma le_weightAll {ps : List SymInt} (hp : p ∈ ps) : p.weight ≤ weightAll ps := by
  induction ps with
  | nil => cases hp
  | cons q ps ih =>
    rw [weightAll]
    obtain rfl | hp := mem_cons.1 hp
    · omega
    · have := ih hp
      omega

namespace Regular
variable {scope : Variable → Prop}

lemma leaves_le_weight (h : e.Regular scope) : e.leaves ≤ e.weight := by
  unfold leaves
  induction h with
  | num _ => simp
  | var _ _ _ => simp [weight]
  | mul _ _ _ _ _ _ _ ih | div _ _ _ _ _ ih | mod _ _ _ _ _ ih =>
    simp only [count_mul, count_div, count_mod, weight]
    omega
  | @sum ps _ _ _ _ _ _ _ _ ih =>
    rw [count_sum, weight]
    suffices (ps.map (count fun _ => 1)).sum ≤ weightAll ps by omega
    clear * - ih
    induction ps with
    | nil => simp
    | cons p ps ihp =>
      have h1 := ih p mem_cons_self
      have h2 := ihp (fun q hq => ih q (mem_cons_of_mem p hq))
      rw [map_cons, sum_cons, weightAll]
      omega

lemma nesting_le_weight (h : e.Regular scope) : e.nesting ≤ e.weight := by
  induction h with
  | num _ | var _ _ _ => simp
  | mul _ _ _ _ _ _ _ ih | div _ _ _ _ _ ih | mod _ _ _ _ _ ih =>
    simp only [nesting, weight]
    omega
  | sum _ _ _ _ _ _ ih =>
    rw [nesting, weight, nestingAll_le]
    intro p hp
    have h1 := ih p hp
    have h2 := le_weightAll hp
    omega

lemma divisors_lt_weight (h : e.Regular scope) : e.divisors < 2 ^ e.weight := by
  induction h with
  | num _ | var _ _ _ =>
    rw [divisors, weight]
    exact Nat.one_lt_two_pow (by omega)
  | mul _ _ _ _ _ _ _ ih | mod _ _ _ _ _ ih =>
    simp only [divisors, weight]
    exact lt_of_lt_of_le ih (Nat.pow_le_pow_right (by omega) (by omega))
  | @div a c _ _ _ _ _ ih =>
    rw [divisors, weight, Nat.add_comm, Nat.add_comm 1, pow_add]
    exact Nat.mul_lt_mul'' ih Nat.lt_log2_self
  | @sum ps _ _ _ _ _ _ _ _ ih =>
    have hone : 1 < 2 ^ (1 + weightAll ps) := Nat.one_lt_two_pow (by omega)
    rw [divisors, weight]
    refine Nat.lt_of_le_pred (by omega)
      (divisorsAll_le.2 ⟨Nat.le_pred_of_lt hone, fun p hp => ?_⟩)
    refine Nat.le_pred_of_lt (lt_of_lt_of_le (ih p hp) (Nat.pow_le_pow_right (by omega) ?_))
    have := le_weightAll hp
    omega

end Regular

lemma reach_le_weight (he : e.Regular A.scope) : reach e b.natAbs ≤ e.weight + b.natAbs.log2 := by
  have hlt : e.divisors * b.natAbs < 2 ^ (e.weight + (b.natAbs.log2 + 1)) := by
    rw [pow_add]
    exact Nat.mul_lt_mul'' he.divisors_lt_weight Nat.lt_log2_self
  have := Nat.log_lt_of_lt_pow' (by omega) hlt
  unfold reach
  omega

/-- The rank is at most a cube of the weights, which the steps exceed. -/
lemma rank_le_steps (he : e.Regular A.scope) (hb : 0 < b) :
    Covered (2 * e.weight + b.natAbs.log2) e b.natAbs ∧
      4 * rank (2 * e.weight + b.natAbs.log2) e b.natAbs + (2 * e.weight + b.natAbs.log2) + 6 ≤
        steps e b := by
  have hreach := reach_le_weight (b := b) he
  have hnest := he.nesting_le_weight
  have hleaves := he.leaves_le_weight
  have hcov : Covered (2 * e.weight + b.natAbs.log2) e b.natAbs := by
    unfold Covered
    omega
  have hturn := turn_le he (by omega) hcov
  refine ⟨hcov, ?_⟩
  unfold rank steps
  rw [Nat.pow_eq]
  have hl : e.leaves ≤ 2 * e.weight + b.natAbs.log2 := by omega
  have hr : reach e b.natAbs ≤ 2 * e.weight + b.natAbs.log2 := by omega
  generalize 2 * e.weight + b.natAbs.log2 = w at *
  have hrank : (e.leaves * (w + 1) + reach e b.natAbs) * (2 * w + 3) + turn w e b.natAbs ≤
      (w * (w + 1) + w) * (2 * w + 3) + (2 * w + 1) :=
    Nat.add_le_add (Nat.mul_le_mul_right _ (Nat.add_le_add (Nat.mul_le_mul_right _ hl) hr)) hturn
  nlinarith [Nat.zero_le (w ^ 3), Nat.zero_le (w ^ 2)]

/-- Division by a positive constant fails only on overflow. -/
lemma quotient_delivers {x : Int} (he : Means A e x) (hb : 0 < b) (hf : Fits b) :
    Delivers A.Nonneg (e.quotient b) (Means A · (x / b)) := by
  refine ⟨quotient_means he hb hf, fun hA => ?_⟩
  obtain ⟨hcov, hsteps⟩ := rank_le_steps he.regular hb
  exact quotientIn_ends hA he.regular hb hf hcov le_rfl hsteps

lemma steps_succ (e : SymInt) (b : Int) : ∃ n, steps e b = n + 3 := by
  have : 1 ≤ Nat.pow (2 * e.weight + b.natAbs.log2 + 2) 3 := Nat.one_le_pow _ _ (by omega)
  exact ⟨_, (Nat.sub_add_cancel (by unfold steps; omega)).symm⟩

lemma nesting_le_steps (he : e.Regular A.scope) : e.nesting + 2 ≤ steps e b := by
  have h1 := he.nesting_le_weight
  have h2 : 2 * e.weight + 2 ≤ (2 * e.weight + b.natAbs.log2 + 2) ^ 3 :=
    le_trans (by omega) (Nat.le_self_pow (by omega) _)
  unfold steps
  rw [Nat.pow_eq]
  omega

lemma remainder_delivers {x : Int} (he : Means A e x) (hb : 0 < b) (hf : Fits b) :
    Delivers A.Nonneg (e.remainder b) (Means A · (x % b)) :=
  ⟨remainder_means he hb hf, fun hA => remainderIn_finishes hA he.regular hb
    (nesting_le_steps he.regular)⟩

end LazyTensor.SymInt
