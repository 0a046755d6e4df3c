import LazyTensor.Proofs.SymInt.Built

/-! Division as a recursion without end: the answer does not depend on the steps that are allowed,
from some number on. -/
namespace LazyTensor.SymInt
open Checked SymInt
variable {α β : Type} {e : SymInt} {b : Int}

/-- The first computation runs out of steps, or the second one agrees with it. -/
def Extends (x y : Checked α) : Prop := x = .error .unfinished ∨ x = y

namespace Extends
variable {x y x' y' : Checked α} {f g : α → Checked β}

lemma refl (x : Checked α) : Extends x x := .inr rfl

lemma bind (hx : Extends x y) (hf : ∀ a, Extends (f a) (g a)) : Extends (x >>= f) (y >>= g) := by
  obtain rfl | rfl := hx
  · exact .inl rfl
  · cases x with
    | error _ => exact .inr rfl
    | ok a => exact hf a

lemma ite {c : Prop} [Decidable c] (h : Extends x y) (h' : Extends x' y') :
    Extends (if c then x else x') (if c then y else y') := by
  split
  · exact h
  · exact h'

lemma mapM (hf : ∀ a, Extends (f a) (g a)) (xs : List α) : Extends (xs.mapM f) (xs.mapM g) := by
  induction xs with
  | nil => exact refl _
  | cons a xs ih =>
    rw [List.mapM_cons, List.mapM_cons]
    exact (hf a).bind fun _ => ih.bind fun _ => refl _

lemma eq_of_overflow (h : Extends x y) (hx : OnlyOverflow x) : x = y :=
  h.resolve_left fun he => by cases hx _ he

end Extends

/-- What one more step changes for the five functions: nothing once they come to an end. -/
structure Steady (n : Nat) : Prop where
  quotientIn : ∀ e b f, Extends (quotientIn n e b f) (quotientIn (n + 1) e b f)
  quotientPlain : ∀ e b, Extends (quotientPlain n e b) (quotientPlain (n + 1) e b)
  quotientSum : ∀ e b f, Extends (quotientSum n e b f) (quotientSum (n + 1) e b f)
  remainderIn : ∀ e b, Extends (remainderIn n e b) (remainderIn (n + 1) e b)
  remainderPlain : ∀ e b, Extends (remainderPlain n e b) (remainderPlain (n + 1) e b)

namespace Steady
variable {n : Nat} (ih : Steady n)
include ih

section
variable (e : SymInt) (b : Int)

lemma quotientIn_succ (f : Bool) :
    Extends (SymInt.quotientIn (n + 1) e b f) (SymInt.quotientIn (n + 1 + 1) e b f) := by
  rw [quotientIn.eq_def, quotientIn.eq_def (n + 1 + 1)]
  refine .ite (.refl _) ?_
  cases e with
  | num k => exact .refl _
  | var v => exact ih.quotientPlain _ b
  | mul a c =>
    refine .bind (.refl _) fun r => .ite (.refl _)
      (.bind (.refl _) fun r' => .ite ?_ (ih.quotientPlain _ b))
    exact .bind (.refl _) fun d => ih.quotientIn a d true
  | div a c => exact .bind (.refl _) fun d => ih.quotientIn a d true
  | mod a c =>
    refine .bind (.refl _) fun r => .ite (.bind (ih.quotientIn a b true) fun p => ?_)
      (ih.quotientPlain _ b)
    exact .bind (.refl _) fun d => ih.remainderIn p d
  | lt a c => exact .bind (ih.quotientIn a b true) fun p => .refl _
  | sum ps => exact ih.quotientSum _ b f
  | conj ps => exact .bind (.mapM (fun p => ih.quotientIn p b true) ps) fun qs => .refl _

lemma quotientPlain_succ :
    Extends (SymInt.quotientPlain (n + 1) e b) (SymInt.quotientPlain (n + 1 + 1) e b) := by
  rw [quotientPlain.eq_def, quotientPlain.eq_def (n + 1 + 1)]
  refine .ite (.bind (.refl _) fun c => .bind (ih.quotientIn e c true) fun p => .refl _)
    (.ite (.refl _) ?_)
  refine .ite (.bind (.refl _) fun offset => .bind (.refl _) fun o =>
    .bind (.refl _) fun shift => ?_) (.refl _)
  exact .bind (.refl _) fun moved => .bind (ih.quotientIn moved b false) fun p => .refl _

lemma quotientSum_succ (f : Bool) :
    Extends (SymInt.quotientSum (n + 1) e b f) (SymInt.quotientSum (n + 1 + 1) e b f) := by
  have twice (rest whole : SymInt) (g c : Int) : Extends
      (do let p ← SymInt.quotientIn n rest g true
          let q ← SymInt.quotientIn n p c true
          whole.plus q)
      (do let p ← SymInt.quotientIn (n + 1) rest g true
          let q ← SymInt.quotientIn (n + 1) p c true
          whole.plus q) :=
    .bind (ih.quotientIn rest g true) fun p => .bind (ih.quotientIn p c true) fun q => .refl _
  rw [quotientSum.eq_def, quotientSum.eq_def (n + 1 + 1)]
  refine .ite (ih.quotientPlain e b) (.ite (.refl _) (.bind (.refl _) fun s => ?_))
  refine .bind (.refl _) fun whole => .bind (.refl _) fun rest =>
    .ite (twice _ _ _ _) (.ite (twice _ _ _ _) ?_)
  exact .bind (ih.quotientPlain rest b) fun q => .refl _

lemma remainderIn_succ :
    Extends (SymInt.remainderIn (n + 1) e b) (SymInt.remainderIn (n + 1 + 1) e b) := by
  rw [remainderIn.eq_def, remainderIn.eq_def (n + 1 + 1)]
  refine .ite (.refl _) ?_
  cases e with
  | mul a c => exact .bind (.refl _) fun m => .bind (.refl _) fun r => ih.remainderPlain r b
  | mod a c => exact .bind (.refl _) fun g => .ite (ih.remainderIn a b) (ih.remainderPlain _ b)
  | sum ps => exact .bind (.refl _) fun rs => .bind (.refl _) fun r => ih.remainderPlain r b
  | num _ | var _ | div _ _ | lt _ _ | conj _ => exact ih.remainderPlain _ b

lemma remainderPlain_succ :
    Extends (SymInt.remainderPlain (n + 1) e b) (SymInt.remainderPlain (n + 1 + 1) e b) := by
  rw [remainderPlain.eq_def, remainderPlain.eq_def (n + 1 + 1)]
  refine .ite (.refl _)
    (.ite (.refl _) (.bind (.refl _) fun first => .bind (.refl _) fun last => ?_))
  refine .ite (.refl _) (.ite (.bind (.refl _) fun m => ?_) (.refl _))
  exact .bind (.refl _) fun moved => ih.remainderIn moved b

end

end Steady

lemma steady (n : Nat) : Steady n := by
  induction n with
  | zero =>
    constructor
    · exact fun e b f => .inl (by rw [quotientIn])
    · exact fun e b => .inl (by rw [quotientPlain])
    · exact fun e b f => .inl (by rw [quotientSum])
    · exact fun e b => .inl (by rw [remainderIn])
    · exact fun e b => .inl (by rw [remainderPlain])
  | succ n ih =>
    exact ⟨ih.quotientIn_succ, ih.quotientPlain_succ, ih.quotientSum_succ, ih.remainderIn_succ,
      ih.remainderPlain_succ⟩

/-- A run that never is out of steps from `n` on has one answer from there on. -/
lemma settled {f : Nat → Checked α} {n k : Nat} (hgrow : ∀ i, Extends (f i) (f (i + 1)))
    (hend : ∀ i, n ≤ i → OnlyOverflow (f i)) (hk : n ≤ k) : f k = f n := by
  induction k, hk using Nat.le_induction with
  | base => rfl
  | succ i hi ih => rw [← ih, (hgrow i).eq_of_overflow (hend i hi)]

/-- Division of an index by a positive constant comes to an end: from some number of steps on,
quotient and remainder have an answer that more steps do not change, and that is not the want of
steps. -/
theorem division_ends (he : Index e) (hb : 0 < b) (hf : Fits b) (factoring : Bool) : ∃ q r,
    q ≠ .error .unfinished ∧ r ≠ .error .unfinished ∧
    ∀ n, steps e b ≤ n → quotientIn n e b factoring = q ∧ remainderIn n e b = r := by
  have hA : Assignment.lowest.Nonneg := fun v hv => hv.nonneg
  have hreg : e.Regular Assignment.lowest.scope := he.regular
  have hquotient (n : Nat) (hn : steps e b ≤ n) : OnlyOverflow (quotientIn n e b factoring) := by
    obtain ⟨hcov, hsteps⟩ := rank_le_steps hreg hb
    exact quotientIn_ends hA hreg hb hf hcov le_rfl (hsteps.trans hn)
  have hremainder (n : Nat) (hn : steps e b ≤ n) : OnlyOverflow (remainderIn n e b) :=
    remainderIn_finishes hA hreg hb ((nesting_le_steps hreg).trans hn)
  refine ⟨_, _, fun h => ?_, fun h => ?_, fun n hn =>
    ⟨settled (f := (quotientIn · e b factoring))
      (fun i => (steady i).quotientIn e b factoring) hquotient hn,
      settled (f := (remainderIn · e b)) (fun i => (steady i).remainderIn e b) hremainder hn⟩⟩
  · cases hquotient _ le_rfl _ h
  · cases hremainder _ le_rfl _ h

/-- A sum whose terms share no divisor with four. -/
theorem uneven_division_ends : ∃ e q r,
    (sum [var ⟨"x", 0, 7⟩, mul (var ⟨"y", 0, 8⟩) 6]) = e ∧
    q ≠ .error .unfinished ∧ r ≠ .error .unfinished ∧
    ∀ n, steps e 4 ≤ n → quotientIn n e 4 true = q ∧ remainderIn n e 4 = r := by
  have hx : Index (ofVariable ⟨"x", 0, 7⟩) := .var (v := ⟨"x", 0, 7⟩) rfl (by decide)
  have hy : Index (ofVariable ⟨"y", 0, 8⟩) := .var (v := ⟨"y", 0, 8⟩) rfl (by decide)
  have hsum : Index (sum [var ⟨"x", 0, 7⟩, mul (var ⟨"y", 0, 8⟩) 6]) :=
    .plus hx (.times hy (c := 6) (by decide) rfl) rfl
  obtain ⟨q, r, h⟩ := division_ends (b := 4) hsum (by decide) (by decide) true
  exact ⟨_, q, r, rfl, h⟩

end LazyTensor.SymInt
