import LazyTensor.Proofs.SymInt.Value
import Mathlib.Algebra.BigOperators.Ring.List
import Mathlib.Data.List.Flatten

/-! Linear arithmetic over atoms of any kind: what a sum or a multiple is made of. Whatever the
atoms count, sums add it up and multiples multiply it. -/
namespace LazyTensor.SymInt
open Checked List SymInt
variable {e a b r t p : SymInt} {n c k : Int} {ts rs es ps : List SymInt}
  {gs gs' : List (SymInt × Int)}

lemma collapse_of_eq (h : e.lo = e.hi) : e.collapse = num e.lo := by
  simp only [lo, hi] at h
  simp [collapse, lo, h]

lemma collapse_of_ne (h : e.lo ≠ e.hi) : e.collapse = e := by
  simp only [lo, hi] at h
  simp [collapse, h]

lemma eq_num_of_num? (h : e.num? = some n) : e = num n := by
  cases e <;> simp_all [num?]

/-! Terms. -/

lemma termsAll_eq (ps : List SymInt) : termsAll ps = ps.flatMap terms := by
  induction ps with
  | nil => rfl
  | cons p ps ih => simp [termsAll, ih]

lemma terms_of_not_sum (h : e.isSum = false) : e.terms = [e] := by
  cases e <;> simp_all [terms]

lemma termsAll_flat (h : ∀ p ∈ ps, p.isSum = false) : termsAll ps = ps := by
  rw [termsAll_eq]
  induction ps with
  | nil => rfl
  | cons p ps ih =>
    rw [flatMap_cons, terms_of_not_sum (h p mem_cons_self),
      ih (fun q hq => h q (mem_cons_of_mem p hq))]
    rfl

lemma terms_sum (h : ∀ p ∈ ps, p.isSum = false) : (sum ps).terms = ps := by
  rw [terms, termsAll_flat h]

mutual

/-- What passes to the parts of sums passes to terms. -/
lemma terms_of {P : SymInt → Prop} (hP : ∀ ps, P (sum ps) → ∀ p ∈ ps, P p)
    {e : SymInt} (h : P e) :
    ∀ t ∈ e.terms, P t := by
  cases e with
  | sum ps => exact termsAll_of hP (hP ps h)
  | num _ | var _ | mul _ _ | div _ _ | mod _ _ | lt _ _ | conj _ => simpa [terms] using h

lemma termsAll_of {P : SymInt → Prop} (hP : ∀ ps, P (sum ps) → ∀ p ∈ ps, P p)
    {es : List SymInt} (h : ∀ e ∈ es, P e) : ∀ t ∈ termsAll es, P t := by
  match es with
  | [] => simp [termsAll]
  | e :: es =>
    obtain ⟨he, hes⟩ := forall_mem_cons.1 h
    exact forall_mem_append.2 ⟨terms_of hP he, termsAll_of hP hes⟩

end

mutual

/-- What sums add up, the terms of an expression add up. -/
lemma sum_terms {M : Type} [AddMonoid M] {f : SymInt → M}
    (hf : ∀ ps, f (sum ps) = (ps.map f).sum) (e : SymInt) : (e.terms.map f).sum = f e := by
  cases e with
  | sum ps => rw [terms, sum_termsAll hf ps, hf]
  | num _ | var _ | mul _ _ | div _ _ | mod _ _ | lt _ _ | conj _ => simp [terms]

lemma sum_termsAll {M : Type} [AddMonoid M] {f : SymInt → M}
    (hf : ∀ ps, f (sum ps) = (ps.map f).sum) (es : List SymInt) :
    ((termsAll es).map f).sum = (es.map f).sum := by
  match es with
  | [] => rfl
  | e :: es =>
    rw [termsAll, map_append, sum_append, sum_terms hf e, sum_termsAll hf es, map_cons,
      sum_cons]

end

mutual

lemma isSum_terms (e : SymInt) : ∀ t ∈ e.terms, t.isSum = false := by
  cases e with
  | sum ps => exact isSum_termsAll ps
  | num _ | var _ | mul _ _ | div _ _ | mod _ _ | lt _ _ | conj _ => simp [terms]

lemma isSum_termsAll (es : List SymInt) : ∀ t ∈ termsAll es, t.isSum = false := by
  match es with
  | [] => simp [termsAll]
  | e :: es => exact forall_mem_append.2 ⟨isSum_terms e, isSum_termsAll es⟩

end

lemma sum_split_nums (f : SymInt → Int) (hf : ∀ n, f (num n) = n) (ts : List SymInt) :
    (ts.map f).sum = (ts.filterMap num?).sum + ((ts.filter (fun x => !x.isNum)).map f).sum := by
  induction ts with
  | nil => rfl
  | cons t ts ih =>
    rw [map_cons, sum_cons, ih]
    cases hn : t.num? with
    | some n =>
      rw [filterMap_cons_some hn, filter_cons_of_neg (by simp [isNum, hn]),
        eq_num_of_num? hn, hf, sum_cons, add_assoc]
    | none =>
      rw [filterMap_cons_none hn, filter_cons_of_pos (by simp [isNum, hn]), map_cons, sum_cons]
      ring

def constant (e : SymInt) : Int := (e.terms.filterMap num?).sum

def symbols (e : SymInt) : List SymInt := e.terms.filter (fun t => !t.isNum)

/-- The atoms of an index, one for each term that is not a number. -/
def atoms (e : SymInt) : List SymInt :=
  (e.terms.filter (fun t => !t.isNum)).map (fun t => t.atomCoeff.1)

@[simp] lemma atoms_num (n : Int) : (num n).atoms = [] := by
  simp [atoms, terms, isNum, num?]

lemma atoms_term (hs : t.isSum = false) (hn : t.isNum = false) : t.atoms = [t.atomCoeff.1] := by
  simp [atoms, terms_of_not_sum hs, hn]

lemma constant_termsAll (es : List SymInt) :
    ((termsAll es).filterMap num?).sum = (es.map constant).sum := by
  rw [termsAll_eq]
  induction es with
  | nil => rfl
  | cons e es ih => rw [flatMap_cons, filterMap_append, sum_append, ih]; rfl

lemma symbols_termsAll (es : List SymInt) :
    (termsAll es).filter (fun t => !t.isNum) = es.flatMap symbols := by
  rw [termsAll_eq, filter_flatMap]
  rfl

lemma flatMap_atoms (es : List SymInt) :
    es.flatMap atoms = (es.flatMap symbols).map (fun t => t.atomCoeff.1) := by
  rw [map_flatMap]
  rfl

lemma atoms_sum (ps : List SymInt) : (sum ps).atoms = ps.flatMap atoms := by
  rw [atoms, terms, symbols_termsAll, flatMap_atoms]

/-! The shape of a sum. -/

def withConstant (ts : List SymInt) (k : Int) : List SymInt := if k = 0 then ts else ts ++ [num k]

lemma mem_withConstant (h : p ∈ withConstant ts k) : p ∈ ts ∨ p = num k := by
  unfold withConstant at h
  split at h
  · exact .inl h
  · simpa using h

lemma mem_withConstant_left (k : Int) (h : p ∈ ts) : p ∈ withConstant ts k := by
  unfold withConstant
  split
  · exact h
  · exact mem_append_left _ h

lemma withConstant_split (h : ∀ t ∈ ts, t.isNum = false) (k : Int) :
    (withConstant ts k).filter (fun t => !t.isNum) = ts ∧
      ((withConstant ts k).filterMap num?).sum = k := by
  have hts : ts.filter (fun t => !t.isNum) = ts := filter_eq_self.2 fun t ht => by simp [h t ht]
  have hnums : ts.filterMap num? = [] := filterMap_eq_nil_iff.2 fun t ht => by
    simpa [isNum] using h t ht
  unfold withConstant
  split
  · rename_i h0
    rw [hts, hnums, h0]
    exact ⟨rfl, rfl⟩
  · rw [filter_append, hts, filterMap_append, hnums]
    simp [isNum, num?]

lemma exists_mem_of_two_le (h : 2 ≤ (withConstant ts k).length) : ∃ t, t ∈ ts := by
  cases ts with
  | nil =>
    unfold withConstant at h
    split at h <;> simp at h
  | cons t ts => exact ⟨t, by simp⟩

lemma lo_lt_hi_withConstant (hts : ∀ t ∈ ts, t.lo < t.hi)
    (h2 : 2 ≤ (withConstant ts k).length) :
    (sum (withConstant ts k)).lo < (sum (withConstant ts k)).hi := by
  obtain ⟨t, ht⟩ := exists_mem_of_two_le h2
  rw [lo_sum, hi_sum]
  refine sum_lt_sum _ _ (fun p hp => ?_) ⟨t, mem_withConstant_left k ht, hts t ht⟩
  obtain hp | rfl := mem_withConstant hp
  · exact (hts p hp).le
  · simp

def assemble (ts : List SymInt) (k : Int) : Checked SymInt :=
  match withConstant ts k with
  | [] => pure (num 0)
  | [x] => pure x
  | terms => do
    let _ ← Checked.sum (terms.map lo)
    let _ ← Checked.sum (terms.map hi)
    pure (sum terms).collapse

lemma assemble_cases (h : assemble ts k = .ok r) :
    (withConstant ts k = [] ∧ r = num 0) ∨ withConstant ts k = [r] ∨
        (2 ≤ (withConstant ts k).length ∧
        (∃ s, Checked.sum ((withConstant ts k).map lo) = .ok s) ∧
        (∃ t, Checked.sum ((withConstant ts k).map hi) = .ok t) ∧
        r = (sum (withConstant ts k)).collapse) := by
  unfold assemble at h
  generalize withConstant ts k = terms at *
  match terms with
  | [] =>
    cases h
    exact .inl ⟨rfl, rfl⟩
  | [p] =>
    cases h
    exact .inr (.inl rfl)
  | p :: q :: rest =>
    simp only [bind_eq_ok, pure_eq_ok] at h
    obtain ⟨s, hs, t, ht, rfl⟩ := h
    exact .inr (.inr ⟨by simp, ⟨s, hs⟩, ⟨t, ht⟩, rfl⟩)

/-- What a sum is made of: operands that are not zero, their terms, merged where two have one
atom, and the constant. -/
lemma total_cases (h : total es = .ok r) :
    (es.filter (fun x => x.range ≠ (0, 0)) = [] ∧ r = num 0) ∨
      es.filter (fun x => x.range ≠ (0, 0)) = [r] ∨
      ∃ flat k ts, flat = termsAll (es.filter (fun x => x.range ≠ (0, 0))) ∧
        Checked.sum (flat.filterMap num?) = .ok k ∧
        ((((flat.filter (fun x => !x.isNum)).map (fun x => x.atomCoeff.1.key)).Nodup ∧
            ts = flat.filter (fun x => !x.isNum)) ∨
          (¬((flat.filter (fun x => !x.isNum)).map (fun x => x.atomCoeff.1.key)).Nodup ∧
            mergeTerms (flat.filter (fun x => !x.isNum)) = .ok ts)) ∧ assemble ts k = .ok r := by
  unfold total at h
  generalize es.filter (fun x => x.range ≠ (0, 0)) = kept at *
  match kept with
  | [] =>
    cases h
    exact .inl ⟨rfl, rfl⟩
  | [e] =>
    cases h
    exact .inr (.inl rfl)
  | e :: e' :: rest =>
    obtain ⟨k, hk, h⟩ := bind_eq_ok.mp h
    by_cases hd : ((((termsAll (e :: e' :: rest)).filter (fun x => !x.isNum)).map
        (fun x => x.atomCoeff.1.key)).Nodup)
    · rw [if_pos (decide_eq_true hd)] at h
      exact .inr (.inr ⟨_, k, _, rfl, hk, .inl ⟨hd, rfl⟩, h⟩)
    · rw [if_neg (by simpa using hd)] at h
      obtain ⟨ts, hts, h⟩ := bind_eq_ok.mp h
      exact .inr (.inr ⟨_, k, ts, rfl, hk, .inr ⟨hd, hts⟩, h⟩)

/-! Multiples of atoms. -/

/-- What linear arithmetic does not open. -/
def Atomic : SymInt → Prop
  | num _ | mul _ _ | sum _ => False
  | _ => True

lemma lo_lt_hi_mul (h : a.lo < a.hi) (hc : c ≠ 0) : (mul a c).lo < (mul a c).hi := by
  obtain ⟨hp, el, eh⟩ | ⟨hp, el, eh⟩ := range_mul a c
  · rw [el, eh]
    exact mul_lt_mul_of_pos_right h (by omega)
  · rw [el, eh]
    exact mul_lt_mul_of_neg_right h hp

lemma Atomic.flat (h : a.Atomic) : a.isSum = false ∧ a.isNum = false ∧
    a.atomCoeff = (a, 1) := by
  cases a with
  | num _ | mul _ _ | sum _ => exact h.elim
  | var _ | div _ _ | mod _ _ | lt _ _ | conj _ => exact ⟨rfl, rfl, rfl⟩

/-- Atoms of one kind, none of them with a single value, and numbers of one kind, words among
them. -/
structure Kind (Q : SymInt → Prop) (C : Int → Prop) : Prop where
  atomic : ∀ {a}, Q a → a.Atomic
  lo_lt_hi : ∀ {a}, Q a → a.lo < a.hi
  word : ∀ {n}, Fits n → C n

/-- A term of a sum that is not a number. -/
inductive Multiple (Q : SymInt → Prop) (C : Int → Prop) : SymInt → Prop
  | one {a : SymInt} : Q a → Multiple Q C a
  | mul {a : SymInt} {c : Int} : Q a → c ≠ 0 → c ≠ 1 → C c → Fits (a.lo * c) →
      Fits (a.hi * c) →
      Multiple Q C (mul a c)

/-- A number, a multiple or a sum of multiples of distinct atoms with the number last. -/
inductive Flat (Q : SymInt → Prop) (C : Int → Prop) : SymInt → Prop
  | num {n : Int} : C n → Flat Q C (num n)
  | term {t : SymInt} : Multiple Q C t → Flat Q C t
  | sum {ts : List SymInt} {k x y : Int} : (∀ t ∈ ts, Multiple Q C t) →
      (ts.map (fun t => t.atomCoeff.1.key)).Nodup → Fits k →
      2 ≤ (withConstant ts k).length →
      Checked.sum ((withConstant ts k).map lo) = .ok x →
      Checked.sum ((withConstant ts k).map hi) = .ok y →
      Flat Q C (sum (withConstant ts k))

/-- An expression with terms of the kind. -/
def Loose (Q : SymInt → Prop) (C : Int → Prop) (e : SymInt) : Prop :=
  ∀ t ∈ e.symbols, Multiple Q C t

def lowEnd (a : SymInt) (c : Int) : Int := min (a.lo * c) (a.hi * c)

lemma lowEnd_add (a : SymInt) (c d : Int) : lowEnd a c + lowEnd a d ≤ lowEnd a (c + d) := by
  unfold lowEnd
  rw [mul_add, mul_add]
  omega

variable {Q : SymInt → Prop} {C : Int → Prop} (hQ : Kind Q C)
include hQ

namespace Multiple

section
variable (h : Multiple Q C t)
include h

lemma flat : t.isSum = false ∧ t.isNum = false := by
  cases h with
  | one ha => exact ⟨(hQ.atomic ha).flat.1, (hQ.atomic ha).flat.2.1⟩
  | mul _ _ _ _ _ _ => exact ⟨rfl, rfl⟩

lemma atomCoeff : Q t.atomCoeff.1 ∧ t.atomCoeff.2 ≠ 0 ∧ C t.atomCoeff.2 := by
  cases h with
  | one ha =>
    rw [(hQ.atomic ha).flat.2.2]
    exact ⟨ha, one_ne_zero, hQ.word fits_one⟩
  | mul ha h0 _ hf _ _ => exact ⟨ha, h0, hf⟩

lemma lo_lt_hi : t.lo < t.hi := by
  cases h with
  | one ha => exact hQ.lo_lt_hi ha
  | mul ha h0 _ _ _ _ => exact lo_lt_hi_mul (hQ.lo_lt_hi ha) h0

lemma lo_eq : t.lo = lowEnd t.atomCoeff.1 t.atomCoeff.2 := by
  have hlt := h.lo_lt_hi hQ
  unfold lowEnd
  cases h with
  | one ha =>
    rw [(hQ.atomic ha).flat.2.2]
    dsimp only
    omega
  | @mul a c _ _ _ _ _ _ =>
    obtain ⟨_, el, eh⟩ | ⟨_, el, eh⟩ :=
      range_mul a c <;> simp only [SymInt.atomCoeff] <;> omega

end

end Multiple

lemma scale_multiple (ha : Q a) (hc : C c) (h0 : c ≠ 0) (h : scale a c = .ok r) :
    Multiple Q C r ∧ r.atomCoeff = (a, c) := by
  unfold scale at h
  rw [if_neg h0] at h
  split at h
  · rename_i h1
    cases h
    rw [(hQ.atomic ha).flat.2.2, h1]
    exact ⟨.one ha, rfl⟩
  · rename_i h1
    simp only [bind_eq_ok, mul_eq_ok, pure_eq_ok] at h
    obtain ⟨_, ⟨hl, _⟩, _, ⟨hh, _⟩, rfl⟩ := h
    have ht : Multiple Q C (mul a c) := .mul ha h0 h1 hc hl hh
    rw [collapse_of_ne (ht.lo_lt_hi hQ).ne]
    exact ⟨ht, rfl⟩

lemma terms_withConstant (hts : ∀ t ∈ ts, Multiple Q C t) (k : Int) :
    (sum (withConstant ts k)).terms = withConstant ts k := by
  refine terms_sum fun p hp => ?_
  obtain hp | rfl := mem_withConstant hp
  · exact ((hts p hp).flat hQ).1
  · rfl

/-- A flat expression is written with its terms and its number. -/
lemma Flat.parts (h : Flat Q C e) : (e.symbols.map (fun t => t.atomCoeff.1.key)).Nodup ∧
    ((e = SymInt.num e.constant ∧ e.symbols = []) ∨ (e.symbols = [e] ∧ e.constant = 0) ∨
      2 ≤ (withConstant e.symbols e.constant).length ∧
      e = SymInt.sum (withConstant e.symbols e.constant)) := by
  cases h with
  | @num n _ => exact ⟨by simp [symbols, terms, isNum, num?],
      .inl (by simp [symbols, constant, terms, isNum, num?])⟩
  | term hm =>
    obtain ⟨hs, hn⟩ := hm.flat hQ
    have hnum : e.num? = none := by simpa [isNum] using hn
    have hsymbols : e.symbols = [e] := by simp [symbols, terms_of_not_sum hs, hn]
    exact ⟨by simp [hsymbols],
      .inr (.inl ⟨hsymbols, by simp [constant, terms_of_not_sum hs, hnum]⟩)⟩
  | @sum ts k _ _ hts hk _ h2 _ _ =>
    obtain ⟨hs, hc⟩ := withConstant_split (fun t ht => ((hts t ht).flat hQ).2) k
    rw [← terms_withConstant hQ hts, ← symbols] at hs
    rw [← terms_withConstant hQ hts, ← constant] at hc
    rw [hs, hc]
    exact ⟨hk, .inr (.inr ⟨h2, rfl⟩)⟩

lemma Flat.loose (h : Flat Q C e) : Loose Q C e := by
  intro t ht
  unfold symbols at ht
  cases h with
  | num _ => simp [terms, isNum, num?] at ht
  | term hm =>
    rw [terms_of_not_sum (hm.flat hQ).1] at ht
    cases mem_singleton.1 (mem_of_mem_filter ht)
    exact hm
  | sum hts _ _ _ _ _ =>
    rw [terms_withConstant hQ hts,
      (withConstant_split (fun t ht => ((hts t ht).flat hQ).2) _).1] at ht
    exact hts t ht

/-! Merging like terms. -/

omit hQ in
/-- A coefficient is added to the entry with the same key, or opens a new entry. -/
lemma addCoeff_cases (h : addCoeff gs a c = .ok gs') :
    (∃ front b d back, gs = front ++ (b, d) :: back ∧ b.key = a.key ∧ Fits (d + c) ∧
      gs' = front ++ (b, d + c) :: back) ∨
      a.key ∉ gs.map (fun g => g.1.key) ∧ gs' = gs ++ [(a, c)] := by
  induction gs generalizing gs' with
  | nil =>
    cases h
    exact .inr ⟨by simp, rfl⟩
  | cons g gs ih =>
    obtain ⟨b, d⟩ := g
    unfold addCoeff at h
    split at h
    · rename_i hk
      simp only [bind_eq_ok, pure_eq_ok, add_eq_ok] at h
      obtain ⟨_, ⟨hf, rfl⟩, rfl⟩ := h
      exact .inl ⟨[], b, d, gs, rfl, of_decide_eq_true hk, hf, rfl⟩
    · rename_i hk
      simp only [bind_eq_ok, pure_eq_ok] at h
      obtain ⟨_, hgs, rfl⟩ := h
      obtain ⟨front, b', d', back, rfl, hkey, hf, rfl⟩ | ⟨hn, rfl⟩ := ih hgs
      · exact .inl ⟨(b, d) :: front, b', d', back, rfl, hkey, hf, rfl⟩
      · refine .inr ⟨?_, rfl⟩
        rw [map_cons, mem_cons, not_or]
        exact ⟨fun he => hk (decide_eq_true he.symm), hn⟩

/-- A count of multiples that does not fall when like terms are merged. -/
structure Grows (Q : SymInt → Prop) (w : SymInt → Int → Int) : Prop where
  same : ∀ {a b}, Q a → Q b → a.key = b.key → w a = w b
  add : ∀ a c d, w a c + w a d ≤ w a (c + d)
  zero : ∀ a, w a 0 = 0

/-- What multiples count together. -/
def load (w : SymInt → Int → Int) (gs : List (SymInt × Int)) : Int :=
  (gs.map (fun g => w g.1 g.2)).sum

/-- The terms are collected in others: none has a new atom, and no count falls. -/
structure Collects (Q : SymInt → Prop) (C : Int → Prop) (ts rs : List SymInt) : Prop where
  terms : ∀ t ∈ rs, Multiple Q C t
  atoms : (rs.map (fun t => t.atomCoeff.1)).Sublist (ts.map (fun t => t.atomCoeff.1))
  grows : ∀ w, Grows Q w → load w (ts.map atomCoeff) ≤ load w (rs.map atomCoeff)

lemma collect_grows (hts : ∀ t ∈ ts, Multiple Q C t) (hg : ∀ g ∈ gs, Q g.1 ∧ C g.2)
    (hk : (gs.map (fun g => g.1.key)).Nodup)
    (h : ts.foldlM (fun gs t => addCoeff gs t.atomCoeff.1 t.atomCoeff.2) gs = .ok gs') :
    (∀ g ∈ gs', Q g.1 ∧ C g.2) ∧ (gs'.map (fun g => g.1.key)).Nodup ∧
      (gs'.map Prod.fst).Sublist (gs.map Prod.fst ++ ts.map (fun t => t.atomCoeff.1)) ∧
      ∀ w, Grows Q w → load w gs + load w (ts.map atomCoeff) ≤ load w gs' := by
  induction ts generalizing gs with
  | nil =>
    rw [foldlM_nil_eq_ok] at h
    subst h
    exact ⟨hg, hk, by simp, fun w _ => by simp [load]⟩
  | cons t ts ih =>
    obtain ⟨ht, hts⟩ := forall_mem_cons.1 hts
    obtain ⟨ha, -, hf⟩ := ht.atomCoeff hQ
    obtain ⟨gs₁, h₁, h⟩ := foldlM_cons_eq_ok.1 h
    obtain ⟨_, b, d, _, rfl, hkey, hfit, rfl⟩ | ⟨hn, rfl⟩ := addCoeff_cases h₁
    · simp only [forall_mem_append, forall_mem_cons] at hg
      obtain ⟨hfront, ⟨hb, hd⟩, hback⟩ := hg
      obtain ⟨hg', hk', hsub, hgrows⟩ := ih hts (by
        simpa only [forall_mem_append, forall_mem_cons] using ⟨hfront,
          ⟨hb, hQ.word hfit⟩, hback⟩)
        (by simpa using hk) h
      refine ⟨hg', hk', hsub.trans ?_, fun w hw => ?_⟩
      · simp
      · have := hgrows w hw
        have := hw.add b d t.atomCoeff.2
        simp only [load, map_append, map_cons, sum_append, sum_cons, ← hw.same hb ha hkey] at *
        omega
    · have hnodup : ((gs ++ [(t.atomCoeff.1, t.atomCoeff.2)]).map (fun g => g.1.key)).Nodup := by
        rw [map_append, nodup_append]
        refine ⟨hk, by simp, ?_⟩
        rintro x hx y hy rfl
        cases mem_singleton.1 hy
        exact hn hx
      obtain ⟨hg', hk', hsub, hgrows⟩ := ih hts
        (forall_mem_append.2 ⟨hg, by simpa using ⟨ha, hf⟩⟩) hnodup h
      refine ⟨hg', hk', hsub.trans (by simp), fun w hw => ?_⟩
      have := hgrows w hw
      simp only [load, map_append, map_cons, sum_append, sum_cons] at *
      simp at *
      omega

lemma mergeTerms_collects (hts : ∀ t ∈ ts, Multiple Q C t) (h : mergeTerms ts = .ok rs) :
    Collects Q C ts rs ∧ (rs.map (fun t => t.atomCoeff.1.key)).Nodup := by
  simp only [mergeTerms, bind_eq_ok] at h
  obtain ⟨gs, hgs, h⟩ := h
  obtain ⟨hg, hk, hsub, hgrows⟩ := collect_grows hQ hts (by simp) (by simp) hgs
  have hscaled : Forall₂ (fun g t => Multiple Q C t ∧ t.atomCoeff = g)
      (gs.filter (fun g => g.2 ≠ 0)) rs :=
    forall₂_of_mapM h fun g hmem t ht =>
      have hmem := mem_filter.1 hmem
      scale_multiple hQ (hg g hmem.1).1 (hg g hmem.1).2 (by simpa using hmem.2) ht
  have hcoeffs : rs.map atomCoeff = gs.filter (fun g => g.2 ≠ 0) := by
    rw [← forall₂_eq_eq_eq, forall₂_map_left_iff]
    exact hscaled.flip.imp fun _ _ h => h.2
  have hatoms : rs.map (fun t => t.atomCoeff.1) =
      (gs.filter (fun g => g.2 ≠ 0)).map Prod.fst := by
    rw [← hcoeffs, map_map]
    rfl
  refine ⟨⟨fun t ht => ?_, ?_, fun w hw => ?_⟩, ?_⟩
  · obtain ⟨_, _, h⟩ := exists_of_mem_right hscaled ht
    exact h.1
  · rw [hatoms]
    exact (filter_sublist.map _).trans (by simpa using hsub)
  · have hfilter : load w (gs.filter (fun g => g.2 ≠ 0)) = load w gs := by
      clear * - hw
      induction gs with
      | nil => rfl
      | cons g gs ih =>
        unfold load at ih ⊢
        by_cases h : g.2 = 0
        · rw [filter_cons_of_neg (by simp [h]), ih, map_cons, sum_cons, h, hw.zero, zero_add]
        · rw [filter_cons_of_pos (by simp [h]), map_cons, sum_cons, ih, map_cons, sum_cons]
    rw [hcoeffs, hfilter]
    simpa [load] using hgrows w hw
  · have hkeys := congrArg (map key) hatoms
    rw [map_map, map_map] at hkeys
    exact hkeys ▸ hk.sublist (filter_sublist.map _)

/-! Sums. -/

lemma assemble_flat (hts : ∀ t ∈ ts, Multiple Q C t)
    (hk : (ts.map (fun t => t.atomCoeff.1.key)).Nodup) (hf : Fits k) (hr : assemble ts k = .ok r) :
    Flat Q C r ∧ r.symbols = ts ∧ r.constant = k := by
  obtain ⟨hsymbols, hconstant⟩ := withConstant_split (fun t ht => ((hts t ht).flat hQ).2) k
  have hflat : ∀ p ∈ withConstant ts k, p.isSum = false := by
    intro p hp
    obtain hp | rfl := mem_withConstant hp
    · exact ((hts p hp).flat hQ).1
    · rfl
  unfold symbols constant
  obtain ⟨hnil, rfl⟩ | hone | ⟨h2, ⟨s, hs⟩, ⟨u, hu⟩, rfl⟩ := assemble_cases hr
  · rw [hnil] at hsymbols hconstant
    exact ⟨.num (hQ.word fits_zero), hsymbols, hconstant⟩
  · rw [terms_of_not_sum (hflat r (by simp [hone])), ← hone]
    refine ⟨?_, hsymbols, hconstant⟩
    obtain hm | rfl := mem_withConstant (hone ▸ mem_singleton_self r)
    · exact .term (hts r hm)
    · exact .num (hQ.word hf)
  · have hlt := lo_lt_hi_withConstant (fun t ht => (hts t ht).lo_lt_hi hQ) h2
    rw [collapse_of_ne hlt.ne, terms_sum hflat]
    exact ⟨.sum hts hk hf h2 hs hu, hsymbols, hconstant⟩

/-- An expression with a single value has no terms but numbers. -/
lemma Loose.closed (h : Loose Q C e) (hr : e.lo = e.hi) : e.symbols = [] ∧ e.constant = e.lo := by
  have hnil : e.symbols = [] := by
    by_contra hne
    obtain ⟨t, ht⟩ := exists_mem_of_ne_nil _ hne
    refine ne_of_lt ?_ hr
    rw [← sum_terms lo_sum, ← sum_terms hi_sum]
    refine sum_lt_sum _ _ (fun p hp => ?_) ⟨t, mem_of_mem_filter ht, (h t ht).lo_lt_hi hQ⟩
    cases hn : p.num? with
    | none => exact ((h p (mem_filter.2 ⟨hp, by simp [isNum, hn]⟩)).lo_lt_hi hQ).le
    | some n => simp [eq_num_of_num? hn]
  refine ⟨hnil, ?_⟩
  rw [← sum_terms lo_sum, sum_split_nums lo lo_num, ← symbols, hnil]
  simp [constant]

lemma kept_loose (h : ∀ e ∈ es, Loose Q C e) :
    (es.filter (fun x => x.range ≠ (0, 0))).flatMap symbols = es.flatMap symbols ∧
      ((es.filter (fun x => x.range ≠ (0, 0))).map constant).sum = (es.map constant).sum := by
  induction es with
  | nil => exact ⟨rfl, rfl⟩
  | cons e es ih =>
    obtain ⟨he, hes⟩ := forall_mem_cons.1 h
    obtain ⟨h1, h2⟩ := ih hes
    by_cases hz : e.range = (0, 0)
    · obtain ⟨hs, hc⟩ := he.closed hQ (by simp [lo, hi, hz])
      rw [filter_cons_of_neg (by simp [hz]), h1, h2, flatMap_cons, hs, map_cons,
        sum_cons, hc, lo, hz]
      simp
    · rw [filter_cons_of_pos (by simp [hz]), flatMap_cons, map_cons, sum_cons, h1, h2]
      exact ⟨rfl, rfl⟩

/-- A sum is one of its operands or flat. Its number is the sum of theirs, and its terms collect
theirs, which stay as they are if their atoms are distinct. -/
lemma total_flat (h : ∀ e ∈ es, Loose Q C e) (hr : total es = .ok r) :
    (r ∈ es ∨ Flat Q C r) ∧ r.constant = (es.map constant).sum ∧
      Collects Q C (es.flatMap symbols) r.symbols ∧
      (((es.flatMap symbols).map (fun t => t.atomCoeff.1.key)).Nodup →
        r.symbols = es.flatMap symbols) := by
  have hterms : ∀ t ∈ es.flatMap symbols, Multiple Q C t := by
    intro t ht
    obtain ⟨e, he, ht⟩ := mem_flatMap.1 ht
    exact h e he t ht
  have hrefl : Collects Q C (es.flatMap symbols) (es.flatMap symbols) :=
    ⟨hterms, .refl _, fun _ _ => le_rfl⟩
  obtain ⟨hsymbols, hconstant⟩ := kept_loose hQ h
  obtain ⟨hnil, rfl⟩ | hone | ⟨flat, k, ts, rfl, hk, hts, hr⟩ := total_cases hr
  · rw [hnil] at hsymbols hconstant
    rw [← hsymbols] at hrefl ⊢
    exact ⟨.inr (.num (hQ.word fits_zero)), hconstant, hrefl, fun _ => rfl⟩
  · rw [hone] at hsymbols hconstant
    have hm : r ∈ es.filter (fun x => x.range ≠ (0, 0)) := hone ▸ mem_singleton_self r
    rw [show r.symbols = es.flatMap symbols by simpa using hsymbols]
    exact ⟨.inl (mem_of_mem_filter hm), by simpa using hconstant, hrefl, fun _ => rfl⟩
  · have hsum := sum_eq hk
    rw [constant_termsAll, hconstant] at hsum
    rw [symbols_termsAll, hsymbols] at hts
    obtain ⟨hd, rfl⟩ | ⟨hdup, hts⟩ := hts
    · obtain ⟨hflat, hs, hc⟩ := assemble_flat hQ hterms hd (sum_fits hk) hr
      rw [hs]
      exact ⟨.inr hflat, hc.trans hsum, hrefl, fun _ => rfl⟩
    · obtain ⟨hcollects, hd⟩ := mergeTerms_collects hQ hterms hts
      obtain ⟨hflat, hs, hc⟩ := assemble_flat hQ hcollects.terms hd (sum_fits hk) hr
      rw [hs]
      exact ⟨.inr hflat, hc.trans hsum, hcollects, fun hd => (hdup hd).elim⟩

omit hQ in
lemma Flat.isNum (h : Flat (fun _ => False) C e) : e.isNum = true := by
  cases h with
  | num _ => rfl
  | term h => cases h <;> contradiction
  | sum hts _ _ h2 _ _ =>
    obtain ⟨t, ht⟩ := exists_mem_of_two_le h2
    cases hts t ht <;> contradiction

omit hQ in
lemma total_nums (h : ∀ t ∈ ts, t.isNum = true) (hr : total ts = .ok r) :
    r = num (ts.map constant).sum := by
  have hnil : ∀ t ∈ ts, t.symbols = [] := by
    intro t ht
    obtain ⟨n, hn⟩ := Option.isSome_iff_exists.1 (h t ht)
    rw [eq_num_of_num? hn]
    rfl
  obtain ⟨hm, hc, _⟩ := total_flat (Q := fun _ => False) (C := Fits)
    ⟨False.elim, False.elim, id⟩ (fun t ht => by simp [Loose, hnil t ht]) hr
  obtain ⟨n, hn⟩ := Option.isSome_iff_exists.1 (hm.elim (h r) Flat.isNum)
  rw [← hc, eq_num_of_num? hn]
  simp [constant, terms, num?]

omit hQ in
lemma plus_num {a b : Int} (hr : (num a).plus (num b) = .ok r) : r = num (a + b) := by
  simpa [constant, terms, num?] using total_nums (by simp [isNum, num?]) hr

/-! What the atoms count. -/

omit hQ in
/-- Atoms that are equal by key count the same. -/
def ByKey (Q : SymInt → Prop) (φ : SymInt → Int) : Prop :=
  ∀ {a b}, Q a → Q b → a.key = b.key → φ a = φ b

def weigh (φ : SymInt → Int) (gs : List (SymInt × Int)) : Int :=
  (gs.map (fun g => φ g.1 * g.2)).sum

def tally (φ : SymInt → Int) (ts : List SymInt) : Int :=
  (ts.filterMap num?).sum + weigh φ ((ts.filter (fun t => !t.isNum)).map atomCoeff)

/-- The number of an index, and what its atoms count. -/
def gauge (φ : SymInt → Int) (e : SymInt) : Int := tally φ e.terms

variable {φ : SymInt → Int}

omit hQ

lemma Collects.weigh (h : Collects Q C ts rs) (hφ : ByKey Q φ) :
    weigh φ (rs.map atomCoeff) = weigh φ (ts.map atomCoeff) := by
  have hgrows (s : Int) : Grows Q (fun a c => s * (φ a * c)) :=
    ⟨fun ha hb hk => by rw [hφ ha hb hk], fun a c d => (by ring : _ = _).le, fun a => by ring⟩
  have hload (s : Int) (ts : List SymInt) :
      load (fun a c => s * (φ a * c)) (ts.map atomCoeff) = s *
        SymInt.weigh φ (ts.map atomCoeff) := by
    rw [load, SymInt.weigh, ← sum_map_mul_left]
  have h1 := h.grows _ (hgrows 1)
  have h2 := h.grows _ (hgrows (-1))
  simp only [hload] at h1 h2
  omega

lemma tally_append (ts us : List SymInt) : tally φ (ts ++ us) = tally φ ts + tally φ us := by
  simp only [tally, weigh, filterMap_append, filter_append, map_append, sum_append]
  ring

lemma tally_termsAll (es : List SymInt) : tally φ (termsAll es) = (es.map (gauge φ)).sum := by
  rw [termsAll_eq]
  induction es with
  | nil => rfl
  | cons e es ih => rw [flatMap_cons, tally_append, ih, map_cons, sum_cons, gauge]

@[simp] lemma gauge_num (n : Int) : (num n).gauge φ = n := by
  simp [gauge, tally, terms, weigh, isNum, num?]

lemma gauge_term (hs : t.isSum = false) (hn : t.isNum = false) :
    t.gauge φ = φ t.atomCoeff.1 * t.atomCoeff.2 := by
  have hnum : t.num? = none := by simpa [isNum] using hn
  simp [gauge, tally, terms_of_not_sum hs, weigh, hn, hnum]

lemma gauge_sum (ps : List SymInt) : (sum ps).gauge φ = (ps.map (gauge φ)).sum := by
  rw [gauge, terms, tally_termsAll]

lemma gauge_congr {ψ : SymInt → Int} (h : ∀ a ∈ e.atoms, φ a = ψ a) :
    e.gauge φ = e.gauge ψ := by
  unfold gauge tally weigh
  congr 2
  refine map_congr_left fun g hg => ?_
  obtain ⟨t, ht, rfl⟩ := mem_map.1 hg
  rw [h _ (mem_map_of_mem (f := fun t => t.atomCoeff.1) ht)]

lemma gauge_value (σ : Variable → Int) (e : SymInt) : e.gauge (value σ) = e.value σ := by
  rw [← sum_terms (f := gauge (value σ)) gauge_sum, ← sum_terms (value_sum σ)]
  refine congrArg List.sum (map_congr_left fun t ht => ?_)
  have hs := isSum_terms e t ht
  cases t with
  | sum _ => cases hs
  | num n => rw [gauge_num, value_num]
  | mul a c => rw [gauge_term rfl rfl, atomCoeff, value]
  | var _ | div _ _ | mod _ _ | lt _ _ | conj _ =>
    rw [gauge_term rfl rfl]
    exact mul_one _

include hQ

lemma total_gauge_of (hφ : ByKey Q φ) (h : ∀ e ∈ es, Loose Q C e) (hr : total es = .ok r) :
    r.gauge φ = (es.map (gauge φ)).sum := by
  obtain ⟨_, hc, hcollects, _⟩ := total_flat hQ h hr
  rw [← tally_termsAll, tally, constant_termsAll, symbols_termsAll,
    ← hcollects.weigh hφ, ← hc]
  rfl

lemma Loose.lo_eq (h : Loose Q C e) :
    e.lo = e.constant + load lowEnd (e.symbols.map atomCoeff) := by
  rw [← sum_terms lo_sum, sum_split_nums lo lo_num, load, map_map]
  exact congrArg (e.constant + ·)
    (congrArg List.sum (map_congr_left fun t ht => (h t ht).lo_eq hQ))

lemma total_lo_of (hkey : ∀ {a b}, Q a → Q b → a.key = b.key → lowEnd a = lowEnd b)
    (h : ∀ e ∈ es, Loose Q C e) (hr : total es = .ok r) : (es.map lo).sum ≤ r.lo := by
  obtain ⟨_, hc, hcollects, _⟩ := total_flat hQ h hr
  have hgrows := hcollects.grows lowEnd ⟨hkey, lowEnd_add, by simp [lowEnd]⟩
  have hsum : (es.map lo).sum = (es.map constant).sum +
      load lowEnd ((es.flatMap symbols).map atomCoeff) := by
    rw [← sum_termsAll lo_sum, sum_split_nums lo lo_num, constant_termsAll, symbols_termsAll,
      load, map_map]
    refine congrArg _ (congrArg List.sum (map_congr_left fun t ht => ?_))
    obtain ⟨e, he, ht⟩ := mem_flatMap.1 ht
    exact (h e he t ht).lo_eq hQ
  rw [hsum, (show Loose Q C r from hcollects.terms).lo_eq hQ, hc]
  omega

/-! Multiples. -/

omit hQ in
lemma times_atomic (ha : a.Atomic) : a.times c = scale a c := by
  cases a with
  | num _ | mul _ _ | sum _ => exact ha.elim
  | var _ | div _ _ | mod _ _ | lt _ _ | conj _ =>
    rw [times.eq_def]
    by_cases h0 : c = 0
    · simp [scale, h0]
    · by_cases h1 : c = 1
      · simp [scale, h1]
      · simp [h0, h1]

/-- The result is the `c`-fold of the expression, or the expression itself. -/
structure Multiplies (Q : SymInt → Prop) (C : Int → Prop) (e : SymInt) (c : Int)
    (r : SymInt) : Prop where
  shape : c = 1 ∧ r = e ∨ Flat Q C r
  atoms : r.atoms.Sublist e.atoms
  gauge : ∀ φ, ByKey Q φ → r.gauge φ = e.gauge φ * c

lemma scale_multiplies (ht : t.isSum = false ∧ t.isNum = false) (ha : Q t.atomCoeff.1)
    (hc : C (t.atomCoeff.2 * c)) (h : scale t.atomCoeff.1 (t.atomCoeff.2 * c) = .ok r) :
    Multiplies Q C t c r := by
  by_cases h0 : t.atomCoeff.2 * c = 0
  · rw [h0] at h
    cases h
    refine ⟨.inr (.num (hQ.word fits_zero)), by simp, fun φ _ => ?_⟩
    rw [gauge_term ht.1 ht.2, mul_assoc, h0, gauge_num, mul_zero]
  · obtain ⟨hr, he⟩ := scale_multiple hQ ha hc h0 h
    obtain ⟨hs, hn⟩ := hr.flat hQ
    refine ⟨.inr (.term hr), ?_, fun φ _ => ?_⟩
    · rw [atoms_term hs hn, atoms_term ht.1 ht.2, he]
    · rw [gauge_term hs hn, gauge_term ht.1 ht.2, he, mul_assoc]

lemma total_multiplies (h1 : c ≠ 1) (hall : Forall₂ (fun p q => Multiplies Q C p c q) ps es)
    (hr : total es = .ok r) : Multiplies Q C (sum ps) c r := by
  have hflat : ∀ q ∈ es, Flat Q C q := by
    intro q hq
    obtain ⟨p, hp, hm⟩ := exists_of_mem_right hall hq
    exact hm.shape.resolve_left fun h => h1 h.1
  have hloose : ∀ q ∈ es, Loose Q C q := fun q hq => (hflat q hq).loose hQ
  obtain ⟨hm, _, hcollects, _⟩ := total_flat hQ hloose hr
  refine ⟨.inr (hm.elim (hflat r) id), ?_, fun φ hφ => ?_⟩
  · rw [atoms_sum]
    refine hcollects.atoms.trans ?_
    rw [← flatMap_atoms]
    clear * - hall
    induction hall with
    | nil => exact .refl _
    | cons hq _ ih =>
      rw [flatMap_cons, flatMap_cons]
      exact hq.atoms.append ih
  · rw [total_gauge_of hQ hφ hloose hr, gauge_sum]
    clear * - hall hφ
    induction hall with
    | nil => simp
    | cons hq _ ih => rw [map_cons, sum_cons, ih, hq.gauge φ hφ, map_cons, sum_cons, add_mul]

omit hQ

mutual

lemma times_multiplies (hQ : Kind Q C) (e : SymInt) {r : SymInt} {c : Int}
    (h : Loose Q C e) (hc : C c) (hr : e.times c = .ok r) : Multiplies Q C e c r := by
  by_cases h0 : c = 0
  · subst h0
    rw [times.eq_def] at hr
    cases hr
    exact ⟨.inr (.num (hQ.word fits_zero)), by simp, by simp⟩
  by_cases h1 : c = 1
  · subst h1
    rw [times.eq_def] at hr
    cases hr
    exact ⟨.inl ⟨rfl, rfl⟩, .refl _, by simp⟩
  by_cases hat : e.Atomic
  · obtain ⟨hs, hn, he⟩ := hat.flat
    have ha := ((h e (by simp [symbols, terms_of_not_sum hs, hn])).atomCoeff hQ).1
    rw [times_atomic hat] at hr
    exact scale_multiplies hQ ⟨hs, hn⟩ ha (by rwa [he, one_mul]) (by rwa [he, one_mul])
  cases e with
  | num n =>
    rw [times, if_neg h0, if_neg h1] at hr
    simp only [bind_eq_ok, pure_eq_ok, mul_eq_ok] at hr
    obtain ⟨_, ⟨hf, rfl⟩, rfl⟩ := hr
    exact ⟨.inr (.num (hQ.word hf)), by simp, by simp⟩
  | mul a d =>
    rw [times, if_neg h0, if_neg h1] at hr
    simp only [bind_eq_ok, mul_eq_ok] at hr
    obtain ⟨_, ⟨hf, rfl⟩, hr⟩ := hr
    have ha : Q a := ((h (mul a d) (by simp [symbols, terms, isNum, num?])).atomCoeff hQ).1
    rw [times_atomic (hQ.atomic ha)] at hr
    exact scale_multiplies hQ ⟨rfl, rfl⟩ ha (hQ.word hf) hr
  | sum ps =>
    rw [times, if_neg h0, if_neg h1] at hr
    simp only [bind_eq_ok] at hr
    obtain ⟨qs, hqs, hr⟩ := hr
    have hps : ∀ p ∈ ps, Loose Q C p := by
      intro p hp t ht
      refine h t ?_
      rw [symbols, terms, symbols_termsAll]
      exact mem_flatMap.2 ⟨p, hp, ht⟩
    exact total_multiplies hQ h1 (timesAll_multiplies hQ ps hps hc hqs) hr
  | var _ | div _ _ | mod _ _ | lt _ _ | conj _ =>
    exact (hat trivial).elim

lemma timesAll_multiplies (hQ : Kind Q C) (ps : List SymInt) {qs : List SymInt} {c : Int}
    (h : ∀ p ∈ ps, Loose Q C p) (hc : C c) (hr : timesAll ps c = .ok qs) :
    Forall₂ (fun p q => Multiplies Q C p c q) ps qs := by
  match ps with
  | [] =>
    cases hr
    exact .nil
  | p :: ps =>
    simp only [timesAll, bind_eq_ok, pure_eq_ok] at hr
    obtain ⟨q, hq, qs', hqs, rfl⟩ := hr
    obtain ⟨hp, hps⟩ := forall_mem_cons.1 h
    exact .cons (times_multiplies hQ p hp hc hq) (timesAll_multiplies hQ ps hps hc hqs)

end

end LazyTensor.SymInt
