import LazyTensor.Proofs.SymInt.Flat

/-! Properties that every operation keeps. Whatever holds of numbers, passes to what linear
arithmetic and the other constructors make of expressions, and passes to operands, holds of all that
is computed from expressions it holds of. -/
namespace LazyTensor.SymInt
open Checked List SymInt
variable {n : Nat} {f : Bool} {e a b r : SymInt} {c : Int} {ps qs : List SymInt} {m : VarMap SymInt}

def operands : SymInt → List SymInt
  | num _ | var _ => []
  | mul a _ | div a _ | mod a _ | lt a _ => [a]
  | sum ps | conj ps => ps

/-- What the operations may build on. Quotients and remainders are of expressions that are not
negative, by more than one, and a remainder is taken only where the quotient varies. -/
structure Closed (Q : SymInt → Prop) : Prop where
  num (n : Int) : Q (num n)
  total {ps : List SymInt} {r : SymInt} : (∀ p ∈ ps, Q p) → total ps = .ok r → Q r
  times {a r : SymInt} {c : Int} : Q a → a.times c = .ok r → Q r
  div {a : SymInt} {c : Int} : Q a → 0 ≤ a.lo → 1 < c → Q (div a c).collapse
  mod {a : SymInt} {c : Int} : Q a → 0 ≤ a.lo → 1 < c → a.lo / c ≠ a.hi / c →
    Q (mod a c).collapse
  lt {a : SymInt} {c : Int} : Q a → Q (lt a c).collapse
  conj {ps : List SymInt} : (∀ p ∈ ps, Q p) → (∀ p ∈ ps, p.lo ≠ p.hi) →
    2 ≤ ps.length → Q (conj ps).collapse
  operands {e : SymInt} : Q e → ∀ p ∈ e.operands, Q p

/-- What the five kinds of steps keep within `n` steps. -/
structure Closed.Steps (Q : SymInt → Prop) (n : Nat) : Prop where
  quotientIn {e r : SymInt} {b : Int} {f : Bool} : Q e → quotientIn n e b f = .ok r → Q r
  quotientPlain {e r : SymInt} {b : Int} : b ≠ 0 → Q e → quotientPlain n e b = .ok r → Q r
  quotientSum {e r : SymInt} {b : Int} {f : Bool} : b ≠ 0 → Q e →
    quotientSum n e b f = .ok r → Q r
  remainderIn {e r : SymInt} {b : Int} : Q e → remainderIn n e b = .ok r → Q r
  remainderPlain {e r : SymInt} {b : Int} : 0 < b → Q e → remainderPlain n e b = .ok r → Q r

namespace Closed
variable {Q : SymInt → Prop} (hQ : Closed Q)
include hQ

lemma operand (h : Q e) (ha : e.operands = [a]) : Q a := hQ.operands h a (by simp [ha])

lemma plus (ha : Q a) (hb : Q b) (h : a.plus b = .ok r) : Q r :=
  hQ.total (by simpa using ⟨ha, hb⟩) h

lemma plusInt (ha : Q a) (h : a.plusInt c = .ok r) : Q r := hQ.plus ha (hQ.num c) h

lemma negate (h : Q e) (hr : e.negate = .ok r) : Q r := hQ.times h hr

lemma minus (ha : Q a) (hb : Q b) (hr : a.minus b = .ok r) : Q r := by
  simp only [SymInt.minus, bind_eq_ok] at hr
  obtain ⟨n, hn, hr⟩ := hr
  exact hQ.plus ha (hQ.negate hb hn) hr

/-! Comparisons and conjunctions. -/

lemma parts (h : Q e) : ∀ p ∈ e.parts, Q p := by
  cases e with
  | sum ps => exact hQ.operands h
  | _ => exact forall_mem_singleton.2 h

lemma lessTerms (h : Q e) (hr : e.lessTerms c = .ok r) : Q r := by
  simp only [SymInt.lessTerms] at hr
  split at hr
  · cases hr
    exact hQ.lt h
  simp only [bind_eq_ok] at hr
  obtain ⟨g, _, _, _, hr⟩ := hr
  split at hr
  · simp only [bind_eq_ok, pure_eq_ok] at hr
    obtain ⟨ds, hds, t, ht, k, _, rfl⟩ := hr
    refine hQ.lt (hQ.total (fun d hd => ?_) ht)
    obtain ⟨m, hm, hd⟩ := exists_of_mapM hds hd
    have hm : Q m := hQ.parts h m (mem_of_mem_filter (by simpa using hm))
    unfold divideCoeff at hd
    split at hd
    · obtain ⟨q, _, hd⟩ := bind_eq_ok.1 hd
      exact hQ.times (hQ.operand hm rfl) hd
    · cases hd
      exact hm
  · cases hr
    exact hQ.lt h

lemma lessThan (h : Q e) (hr : e.lessThan c = .ok r) : Q r := by
  cases e with
  | mul a d =>
    simp only [lessThan] at hr
    split at hr
    · cases hr
      exact hQ.lt h
    · simp only [bind_eq_ok, pure_eq_ok] at hr
      obtain ⟨_, _, s, hs, _, _, _, _, _, _, rfl⟩ := hr
      exact hQ.lt (hQ.times (hQ.operand h rfl) hs)
  | sum ps =>
    simp only [lessThan, bind_eq_ok] at hr
    obtain ⟨_, _, l, hl, hr⟩ := hr
    exact hQ.lessTerms (hQ.total (fun p hp => hQ.operands h p (mem_filter.1 hp).1) hl) hr
  | num _ | var _ | div _ _ | mod _ _ | lt _ _ | conj _ => cases hr; exact hQ.lt h

lemma conditions (h : Q e) : ∀ p ∈ e.conditions, Q p := by
  cases e with
  | conj ps => exact hQ.operands h
  | _ => exact forall_mem_singleton.2 h

lemma conjunction (h : ∀ p ∈ ps, Q p) : Q (conjunction ps) := by
  unfold SymInt.conjunction
  split
  · exact hQ.num 1
  · exact h _ (by simp)
  split
  · exact hQ.num 0
  have hopen : ∀ p ∈ (ps.flatMap SymInt.conditions).filter (fun x => x.lo ≠ x.hi), Q p := by
    intro p hp
    obtain ⟨q, hq, hp⟩ := mem_flatMap.1 (mem_filter.1 hp).1
    exact hQ.conditions (h q hq) p hp
  split
  · exact hQ.num 1
  · next x hx => exact hopen x (hx ▸ mem_singleton_self x)
  · next hnone hone =>
    refine hQ.conj hopen (fun p hp => by simpa using (mem_filter.1 hp).2) ?_
    generalize (ps.flatMap SymInt.conditions).filter (fun x => x.lo ≠ x.hi) =
      kept at hnone hone ⊢
    obtain _ | ⟨q, _ | ⟨q', kept⟩⟩ := kept
    · exact (hnone rfl).elim
    · exact (hone q rfl).elim
    · simp

/-! Quotients and remainders. The steps call each other, so all of them go together by induction on
the number of steps that are left. -/

lemma splitAdd {s s' : Split} {x : SymInt} (hw : ∀ t ∈ s.whole, Q t)
    (hs : ∀ t ∈ s.rest, Q t) (hx : Q x) (h : Split.add c s x = .ok s') :
    (∀ t ∈ s'.whole, Q t) ∧ ∀ t ∈ s'.rest, Q t := by
  have hrest : ∀ t ∈ s.rest ++ [x], Q t := by simpa [or_imp, forall_and] using ⟨hs, hx⟩
  have hwhole (q : SymInt) (hq : Q q) : ∀ t ∈ s.whole ++ [q], Q t := by
    simpa [or_imp, forall_and] using ⟨hw, hq⟩
  cases x with
  | num n =>
    simp only [Split.add, bind_eq_ok] at h
    obtain ⟨_, _, h⟩ := h
    split at h
    · simp only [bind_eq_ok, pure_eq_ok] at h
      obtain ⟨q, _, rfl⟩ := h
      exact ⟨hwhole _ (hQ.num q), hs⟩
    · simp only [bind_eq_ok, pure_eq_ok] at h
      obtain ⟨_, _, rfl⟩ := h
      exact ⟨hw, hrest⟩
  | mul a d =>
    simp only [Split.add, bind_eq_ok] at h
    obtain ⟨_, _, h⟩ := h
    split at h
    · simp only [bind_eq_ok, pure_eq_ok] at h
      obtain ⟨_, _, q, hq, rfl⟩ := h
      exact ⟨hwhole _ (hQ.times (hQ.operand hx rfl) hq), hs⟩
    · obtain ⟨_, _, h⟩ := bind_eq_ok.1 h
      split at h
      · simp only [bind_eq_ok, pure_eq_ok] at h
        obtain ⟨_, _, _, _, rfl⟩ := h
        exact ⟨hw, hrest⟩
      · cases h
        exact ⟨hw, hrest⟩
  | var _ | div _ _ | mod _ _ | lt _ _ | sum _ | conj _ => cases h; exact ⟨hw, hrest⟩

lemma reduceTerm (h : Q e) (hr : reduceTerm c e = .ok r) : Q r := by
  unfold SymInt.reduceTerm at hr
  split at hr
  · simp only [bind_eq_ok, pure_eq_ok] at hr
    obtain ⟨_, _, rfl⟩ := hr
    exact hQ.num _
  · simp only [bind_eq_ok] at hr
    obtain ⟨_, _, hr⟩ := hr
    exact hQ.times (hQ.operand h rfl) hr
  · cases hr
    exact h

section
variable (ih : Steps Q n) {b : Int} (h : Q e)
include ih h

lemma quotientIn_succ (hr : quotientIn (n + 1) e b f = .ok r) : Q r := by
  unfold quotientIn at hr
  split at hr
  · cases hr
  rename_i hb
  cases e with
  | num k =>
    simp only [bind_eq_ok, pure_eq_ok] at hr
    obtain ⟨_, _, rfl⟩ := hr
    exact hQ.num _
  | mul a c =>
    simp only [bind_eq_ok] at hr
    obtain ⟨_, _, hr⟩ := hr
    split at hr
    · obtain ⟨_, _, hr⟩ := bind_eq_ok.1 hr
      exact hQ.times (hQ.operand h rfl) hr
    · obtain ⟨_, _, hr⟩ := bind_eq_ok.1 hr
      split at hr
      · obtain ⟨_, _, hr⟩ := bind_eq_ok.1 hr
        exact ih.quotientIn (hQ.operand h rfl) hr
      · exact ih.quotientPlain hb h hr
  | div a c =>
    simp only [bind_eq_ok] at hr
    obtain ⟨_, _, hr⟩ := hr
    exact ih.quotientIn (hQ.operand h rfl) hr
  | mod a c =>
    simp only [bind_eq_ok] at hr
    obtain ⟨_, _, hr⟩ := hr
    split at hr
    · simp only [bind_eq_ok] at hr
      obtain ⟨q, hq, _, _, hr⟩ := hr
      exact ih.remainderIn (ih.quotientIn (hQ.operand h rfl) hq) hr
    · exact ih.quotientPlain hb h hr
  | lt a c =>
    simp only [bind_eq_ok] at hr
    obtain ⟨q, hq, _, _, hr⟩ := hr
    exact hQ.lessThan (ih.quotientIn (hQ.operand h rfl) hq) hr
  | conj ps =>
    simp only [bind_eq_ok, pure_eq_ok] at hr
    obtain ⟨qs, hqs, rfl⟩ := hr
    refine hQ.conjunction fun q hq => ?_
    obtain ⟨p, hp, hq⟩ := exists_of_mapM hqs hq
    exact ih.quotientIn (hQ.operands h p hp) hq
  | sum ps => exact ih.quotientSum hb h hr
  | var v => exact ih.quotientPlain hb h hr

lemma quotientPlain_succ (hb : b ≠ 0) (hr : quotientPlain (n + 1) e b = .ok r) : Q r := by
  unfold quotientPlain at hr
  split at hr
  · simp only [bind_eq_ok] at hr
    obtain ⟨_, _, q, hq, hr⟩ := hr
    exact hQ.times (ih.quotientIn h hq) hr
  split at hr
  · cases hr
    exact h
  split at hr
  · simp only [bind_eq_ok] at hr
    obtain ⟨_, _, _, _, _, _, m, hm, q, hq, hr⟩ := hr
    exact hQ.plusInt (ih.quotientIn (hQ.plusInt h hm) hq) hr
  · cases hr
    exact hQ.div h (by omega) (by omega)

lemma quotientSum_succ (hb : b ≠ 0) (hr : quotientSum (n + 1) e b f = .ok r) : Q r := by
  unfold quotientSum at hr
  split at hr
  · exact ih.quotientPlain hb h hr
  split at hr
  · cases hr
    exact h
  simp only [bind_eq_ok] at hr
  obtain ⟨s, hs, whole, hwhole, rest, hrest, hr⟩ := hr
  have hsplit : (∀ t ∈ s.whole, Q t) ∧ ∀ t ∈ s.rest, Q t :=
    foldlM_induction (fun s : Split => (∀ t ∈ s.whole, Q t) ∧ ∀ t ∈ s.rest, Q t)
      (fun _ t _ ht hs h' => hQ.splitAdd hs.1 hs.2 (terms_of (fun _ => hQ.operands) h t ht) h')
        ⟨by simp, by simp⟩ hs
  have hw := hQ.total hsplit.1 hwhole
  have hre := hQ.total hsplit.2 hrest
  split at hr
  · simp only [bind_eq_ok] at hr
    obtain ⟨p, hp, q, hq, hr⟩ := hr
    exact hQ.plus hw (ih.quotientIn (ih.quotientIn hre hp) hq) hr
  split at hr
  · simp only [bind_eq_ok] at hr
    obtain ⟨p, hp, q, hq, hr⟩ := hr
    exact hQ.plus hw (ih.quotientIn (ih.quotientIn hre hp) hq) hr
  · simp only [bind_eq_ok] at hr
    obtain ⟨q, hq, hr⟩ := hr
    exact hQ.plus hw (ih.quotientPlain hb hre hq) hr

lemma remainderIn_succ (hr : remainderIn (n + 1) e b = .ok r) : Q r := by
  unfold remainderIn at hr
  split at hr
  · cases hr
  have hb : 0 < b := by omega
  cases e with
  | mul a c =>
    simp only [bind_eq_ok] at hr
    obtain ⟨_, _, t, ht, hr⟩ := hr
    exact ih.remainderPlain hb (hQ.times (hQ.operand h rfl) ht) hr
  | mod a c =>
    simp only [bind_eq_ok] at hr
    obtain ⟨_, _, hr⟩ := hr
    split at hr
    · exact ih.remainderIn (hQ.operand h rfl) hr
    · exact ih.remainderPlain hb h hr
  | sum ps =>
    simp only [bind_eq_ok] at hr
    obtain ⟨qs, hqs, t, ht, hr⟩ := hr
    refine ih.remainderPlain hb (hQ.total (fun q hq => ?_) ht) hr
    obtain ⟨p, hp, hq⟩ := exists_of_mapM hqs hq
    exact hQ.reduceTerm (hQ.operands h p hp) hq
  | num _ | var _ | div _ _ | lt _ _ | conj _ => exact ih.remainderPlain hb h hr

lemma remainderPlain_succ (hb : 0 < b) (hr : remainderPlain (n + 1) e b = .ok r) : Q r := by
  unfold remainderPlain at hr
  split at hr
  · cases hr
    exact hQ.num 0
  split at hr
  · cases hr
    exact h
  simp only [bind_eq_ok] at hr
  obtain ⟨_, hfirst, _, hlast, hr⟩ := hr
  split at hr
  · simp only [bind_eq_ok] at hr
    obtain ⟨k, _, hr⟩ := hr
    exact hQ.minus h (hQ.num k) hr
  split at hr
  · simp only [bind_eq_ok] at hr
    obtain ⟨k, _, m, hm, hr⟩ := hr
    exact ih.remainderIn (hQ.minus h (hQ.num k) hm) hr
  · simp only [bind_eq_ok, pure_eq_ok] at hr
    obtain ⟨_, _, rfl⟩ := hr
    refine hQ.mod h (by omega) (by omega) ?_
    rwa [← floorDiv_pos hb hfirst, ← floorDiv_pos hb hlast]

end

lemma steps (n : Nat) : Steps Q n := by
  induction n with
  | zero =>
    refine ⟨?_, ?_, ?_, ?_, ?_⟩
    all_goals
      intros
      simp_all [quotientIn, quotientPlain, quotientSum, remainderIn, remainderPlain]
  | succ n ih =>
    exact ⟨hQ.quotientIn_succ ih, fun hb h => hQ.quotientPlain_succ ih h hb,
      fun hb h => hQ.quotientSum_succ ih h hb, hQ.remainderIn_succ ih,
      fun hb h => hQ.remainderPlain_succ ih h hb⟩

lemma quotient (h : Q e) (hr : e.quotient c = .ok r) : Q r := (hQ.steps _).quotientIn h hr

lemma remainder (h : Q e) (hr : e.remainder c = .ok r) : Q r := (hQ.steps _).remainderIn h hr

end Closed

/-! Replacing variables. A variable that is replaced may go, whatever held of it. -/

lemma substituteAll_eq (m : VarMap SymInt) (ps : List SymInt) :
    substituteAll m ps = ps.mapM (fun p => p.substitute m) := by
  induction ps with
  | nil => rfl
  | cons p ps ih => rw [substituteAll, ih, mapM_cons]

def image (m : VarMap SymInt) (v : Variable) : SymInt := (VarMap.value? m v).getD (var v)

lemma substituteConj_some {qs : List SymInt} (h : substituteConj m ps = .ok (some qs)) :
    ps.mapM (fun p => p.substitute m) = .ok qs := by
  induction ps generalizing qs with
  | nil =>
    cases h
    rfl
  | cons p ps ih =>
    simp only [substituteConj, bind_eq_ok] at h
    obtain ⟨q, hq, h⟩ := h
    split at h
    · cases h
    · simp only [bind_eq_ok, pure_eq_ok] at h
      obtain ⟨_, hrest, h⟩ := h
      obtain ⟨qs', rfl, rfl⟩ := Option.map_eq_some_iff.1 h
      exact mapM_eq_ok.2 (.cons hq (mapM_eq_ok.1 (ih hrest)))

mutual

lemma Closed.substitute {Q : SymInt → Prop} (hQ : Closed Q) {e r : SymInt}
    (h : ∀ v ∈ e.occurrences, Q (image m v)) (hr : e.substitute m = .ok r) : Q r := by
  cases e with
  | num n =>
    cases hr
    exact hQ.num n
  | var v =>
    cases hr
    exact h v (by simp)
  | mul a c =>
    simp only [SymInt.substitute, bind_eq_ok] at hr
    obtain ⟨b, hb, hr⟩ := hr
    exact hQ.times (hQ.substitute (e := a) h hb) hr
  | div a c =>
    simp only [SymInt.substitute, bind_eq_ok] at hr
    obtain ⟨b, hb, hr⟩ := hr
    exact hQ.quotient (hQ.substitute (e := a) h hb) hr
  | mod a c =>
    simp only [SymInt.substitute, bind_eq_ok] at hr
    obtain ⟨b, hb, hr⟩ := hr
    exact hQ.remainder (hQ.substitute (e := a) h hb) hr
  | lt a c =>
    simp only [SymInt.substitute, bind_eq_ok] at hr
    obtain ⟨b, hb, hr⟩ := hr
    exact hQ.lessThan (hQ.substitute (e := a) h hb) hr
  | sum ps =>
    simp only [SymInt.substitute, substituteAll_eq, bind_eq_ok] at hr
    obtain ⟨qs, hqs, hr⟩ := hr
    exact hQ.total (hQ.substituteAll h hqs) hr
  | conj ps =>
    simp only [SymInt.substitute, bind_eq_ok] at hr
    obtain ⟨qs, hqs, hr⟩ := hr
    cases qs with
    | none =>
      cases hr
      exact hQ.num 0
    | some qs =>
      cases hr
      exact hQ.conjunction (hQ.substituteAll h (substituteConj_some hqs))

lemma Closed.substituteAll {Q : SymInt → Prop} (hQ : Closed Q) {ps qs : List SymInt}
    (h : ∀ v ∈ occurrencesAll ps, Q (image m v))
    (hr : ps.mapM (fun p => p.substitute m) = .ok qs) : ∀ q ∈ qs, Q q := by
  cases ps with
  | nil =>
    cases hr
    simp
  | cons p ps =>
    simp only [mapM_cons, bind_eq_ok, pure_eq_ok] at hr
    obtain ⟨q, hq, qs, hqs, rfl⟩ := hr
    have hp := hQ.substitute (fun v hv => h v (by simp [hv])) hq
    have hps := hQ.substituteAll (fun v hv => h v (by simp [hv])) hqs
    simpa using ⟨hp, hps⟩

end

end LazyTensor.SymInt
