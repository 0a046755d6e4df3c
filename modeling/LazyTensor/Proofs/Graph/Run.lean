import LazyTensor.Graph.Build
import LazyTensor.Proofs.View.Movement

/-! Runs of changes of a graph. A change that fails keeps what it has done so far, so a statement
about a run says what holds of the graph afterwards in any case, and what more holds if it gives a
value. -/
namespace LazyTensor

namespace GraphM
variable {α β : Type} {R : β → Graph → Prop}
variable {x : GraphM α} {g : Graph}

def runOn (x : GraphM α) (g : Graph) : Except Failure α × Graph := x.run.run g

lemma runOn_pure (a : α) (g : Graph) : (pure a : GraphM α).runOn g = (.ok a, g) := rfl

lemma runOn_bind (x : GraphM α) (f : α → GraphM β) (g : Graph) :
    (x >>= f).runOn g = match x.runOn g with
      | (.ok a, g') => (f a).runOn g'
      | (.error e, g') => (.error e, g') := by
  unfold runOn
  simp only [ExceptT.run_bind, StateT.run_bind]
  rcases h : (ExceptT.run x).run g with ⟨_ | a, g'⟩ <;> rfl

lemma runOn_bind_eq_ok {f : α → GraphM β} {g' : Graph} {b : β} :
    (x >>= f).runOn g = (.ok b, g') ↔ ∃ a g1, x.runOn g = (.ok a, g1) ∧
      (f a).runOn g1 = (.ok b, g') := by
  rw [runOn_bind]
  rcases x.runOn g with ⟨_ | a, g1⟩
  · simp
  · simp

lemma runOn_of_toOption {a : α} (h : (x.runOn g).1.toOption = some a) :
    ∃ g', x.runOn g = (.ok a, g') := by
  rcases hx : x.runOn g with ⟨_ | b, g'⟩
  · rw [hx] at h
    cases h
  · rw [hx] at h
    cases h
    exact ⟨g', rfl⟩

lemma runOn_throw (e : Failure) (g : Graph) : (throw e : GraphM α).runOn g = (.error e, g) := rfl

lemma runOn_get (g : Graph) : (get : GraphM Graph).runOn g = (.ok g, g) := rfl

lemma runOn_set (g g' : Graph) : (set g' : GraphM Unit).runOn g = (.ok (), g') := rfl

lemma runOn_modify (f : Graph → Graph) (g : Graph) :
    (modify f : GraphM Unit).runOn g = (.ok (), f g) := rfl

lemma runOn_fallible (x : Fallible α) (g : Graph) : (liftM x : GraphM α).runOn g = (x, g) := rfl

lemma runOn_checked (x : Checked α) (g : Graph) :
    (liftM x : GraphM α).runOn g = (x.mapError .abort, g) := rfl

lemma runOn_see (f : Graph → Checked α) (g : Graph) :
    (see f).runOn g = ((f g).mapError .abort, g) := rfl

lemma runOn_change {id : Nat} {t : Tensor} {f : Tensor → Tensor} (h : g.find? id = some t) :
    (change id f).runOn g = (.ok (), { g with tensors := g.tensors.set id (some (f t)) }) := by
  have hup : g.update id f = .ok { g with tensors := g.tensors.set id (some (f t)) } := by
    simp only [Graph.update, Graph.tensor, h]
    rfl
  rw [change, runOn_bind, runOn_get]
  dsimp only
  rw [runOn_bind, runOn_checked, hup]
  rfl

end GraphM

/-- Steps from graph to graph that can be put one after another. A graph that was reached by one
may also stay as it is. -/
class Steps (K : Graph → Graph → Prop) : Prop where
  trans {g g' g'' : Graph} : K g g' → K g' g'' → K g g''
  stay {g g' : Graph} : K g g' → K g' g'

/-- The change makes a step in any case, and if it gives a value then this is as said. -/
structure Yields {α : Type} (K : Graph → Graph → Prop) (g : Graph) (x : GraphM α)
    (Q : α → Graph → Prop) : Prop where
  step : K g (x.runOn g).2
  gives : ∀ a, (x.runOn g).1 = .ok a → Q a (x.runOn g).2

namespace Yields
open GraphM
variable {α β : Type} {K : Graph → Graph → Prop} {g : Graph} {P Q : α → Graph → Prop}
variable {a : α} {x : GraphM α} {g' : Graph} {e : Failure} {f : α → GraphM β} {γ : Type}

lemma pure (hk : K g g) (h : Q a g) : Yields K g (Pure.pure a : GraphM α) Q :=
  ⟨hk, fun b hb => by cases hb; exact h⟩

lemma of_run (h : x.runOn g = (.ok a, g')) (hk : K g g') (hq : Q a g') : Yields K g x Q :=
  ⟨by rw [h]; exact hk, fun b hb => by rw [h] at hb ⊢; cases hb; exact hq⟩

lemma of_ok (hx : Yields K g x Q) (h : x.runOn g = (.ok a, g')) : K g g' ∧ Q a g' := by
  have hstep := hx.step
  have hgives := hx.gives a (by rw [h])
  rw [h] at hstep hgives
  exact ⟨hstep, hgives⟩

lemma throw (hk : K g g) : Yields K g (MonadExcept.throw e : GraphM α) Q :=
  ⟨hk, fun b hb => by cases hb⟩

lemma bind [Steps K] (hx : Yields K g x P)
    (hf : ∀ a g', K g g' → P a g' → Yields K g' (f a) R) : Yields K g (x >>= f) R := by
  have he := runOn_bind x f g
  rcases hr : x.runOn g with ⟨e | a, g'⟩
  · rw [hr] at he
    have hk := hx.step
    rw [hr] at hk
    exact ⟨by rw [he]; exact hk, fun b hb => by rw [he] at hb; cases hb⟩
  · rw [hr] at he
    have hk := hx.step
    rw [hr] at hk
    have hp := hx.gives a (by rw [hr])
    rw [hr] at hp
    have hy := hf a g' hk hp
    exact ⟨by rw [he]; exact Steps.trans hk hy.step, by rw [he]; exact hy.gives⟩

lemma map [Steps K] {f : α → β}
    (hx : Yields K g x (fun a g' => R (f a) g')) : Yields K g (f <$> x) R := by
  exact bind hx fun a g' h hq => pure (Steps.stay h) hq

lemma weaken (hx : Yields K g x P) (h : ∀ a g', K g g' → P a g' → Q a g') : Yields K g x Q :=
  ⟨hx.step, fun a ha => h a _ hx.step (hx.gives a ha)⟩

lemma coarsen {K' : Graph → Graph → Prop} (hx : Yields K g x P)
    (h : ∀ g', K g g' → K' g g') :
    Yields K' g x (fun a g' => K g g' ∧ P a g') :=
  ⟨h _ hx.step, fun a ha => ⟨hx.step, hx.gives a ha⟩⟩

lemma see {f : Graph → Checked α} (hk : K g g) (h : ∀ a, f g = .ok a → Q a g) :
    Yields K g (see f) Q :=
  ⟨hk, fun a ha => h a (Checked.lift_eq_ok.1 ha)⟩

lemma checked {x : Checked α} (hk : K g g) (h : ∀ a, x = .ok a → Q a g) :
    Yields K g (liftM x : GraphM α) Q :=
  ⟨hk, fun a ha => h a (Checked.lift_eq_ok.1 ha)⟩

lemma fallible {x : Fallible α} (hk : K g g) (h : ∀ a, x = .ok a → Q a g) :
    Yields K g (liftM x : GraphM α) Q :=
  ⟨hk, fun a ha => h a ha⟩

lemma lookup {x : Nat} {Q : Tensor → Graph → Prop} (hk : K g g)
    (h : ∀ t, g.find? x = some t → Q t g) : Yields K g (lookup x) Q := by
  refine ⟨hk, fun t ht => h t ?_⟩
  change g.named x = .ok t at ht
  unfold Graph.named at ht
  split at ht
  · cases ht
    assumption
  · cases ht

lemma get {Q : Graph → Graph → Prop} (hk : K g g) (h : Q g g) :
    Yields K g (MonadState.get : GraphM Graph) Q :=
  ⟨hk, fun a ha => by cases ha; exact h⟩

lemma modify {f : Graph → Graph} {Q : Unit → Graph → Prop} (hk : K g (f g)) (h : Q () (f g)) :
    Yields K g (modifyGet (fun s => ((), f s)) : GraphM Unit) Q :=
  ⟨hk, fun a _ => by cases a; exact h⟩

lemma set {Q : Unit → Graph → Prop} (hk : K g g') (h : Q () g') :
    Yields K g (MonadStateOf.set g' : GraphM Unit) Q :=
  ⟨hk, fun a _ => by cases a; exact h⟩

section
variable [Steps K] {R : β → Graph → Prop} (hk : K g g)
variable {f : α → GraphM β}
include hk

/-! Reading the graph leaves it as it is. -/

lemma bind_get {f : Graph → GraphM β} (h : Yields K g (f g) R) :
    Yields K g (MonadState.get >>= f) R :=
  bind (get (Q := fun a b => a = g ∧ b = g) hk ⟨rfl, rfl⟩) fun _ _ _ hq => by
    obtain ⟨rfl, rfl⟩ := hq
    exact h

lemma bind_see {c : Graph → Checked α} (h : ∀ a, c g = .ok a → Yields K g (f a) R) :
    Yields K g (GraphM.see c >>= f) R :=
  bind (see (Q := fun a b => b = g ∧ c g = .ok a) hk fun _ ha => ⟨rfl, ha⟩) fun a _ _ hq => by
    obtain ⟨rfl, ha⟩ := hq
    exact h a ha

lemma bind_checked {c : Checked α} (h : ∀ a, c = .ok a → Yields K g (f a) R) :
    Yields K g ((liftM c : GraphM α) >>= f) R :=
  bind (checked (Q := fun a b => b = g ∧ c = .ok a) hk fun _ ha => ⟨rfl, ha⟩)
    fun a _ _ hq => by
    obtain ⟨rfl, ha⟩ := hq
    exact h a ha

lemma bind_fallible {c : Fallible α} (h : ∀ a, c = .ok a → Yields K g (f a) R) :
    Yields K g ((liftM c : GraphM α) >>= f) R :=
  bind (fallible (Q := fun a b => b = g ∧ c = .ok a) hk fun _ ha => ⟨rfl, ha⟩)
    fun a _ _ hq => by
    obtain ⟨rfl, ha⟩ := hq
    exact h a ha

lemma bind_lookup {x : Nat} {f : Tensor → GraphM β}
    (h : ∀ t, g.find? x = some t → Yields K g (f t) R) : Yields K g (GraphM.lookup x >>= f) R :=
  bind (lookup (Q := fun t b => b = g ∧ g.find? x = some t) hk fun _ ht => ⟨rfl, ht⟩)
    fun t _ _ hq => by
      obtain ⟨rfl, ht⟩ := hq
      exact h t ht

end

/-- The members of a list one after another. What was found for one of them has to stay true. -/
lemma mapM [Steps K] {f : γ → GraphM α} {R : γ → α → Graph → Prop} {xs : List γ}
    (hk : K g g) (stays : ∀ x a g' g'', K g' g'' → R x a g' → R x a g'')
    (hf : ∀ x ∈ xs, ∀ g', K g g' → Yields K g' (f x) (R x)) :
    Yields K g (xs.mapM f) (fun ys g' => List.Forall₂ (fun x y => R x y g') xs ys) := by
  induction xs generalizing g with
  | nil => exact pure hk .nil
  | cons x xs ih =>
    rw [List.mapM_cons]
    refine bind (hf x (by simp) g hk) fun y g1 h1 hy => ?_
    refine bind (ih (Steps.stay h1) fun z hz g' h' =>
      hf z (by simp [hz]) g' (Steps.trans h1 h')) fun ys g2 h2 hys => ?_
    exact pure (Steps.stay h2) (.cons (stays x y g1 g2 h2 hy) hys)

lemma forM [Steps K] {f : γ → GraphM Unit} {xs : List γ} (hk : K g g)
    (hf : ∀ x ∈ xs, ∀ g', K g g' → Yields K g' (f x) (fun _ _ => True)) :
    Yields K g (xs.forM f) (fun _ _ => True) := by
  induction xs generalizing g with
  | nil => exact pure hk trivial
  | cons x xs ih =>
    refine bind (hf x (by simp) g hk) fun _ g1 h1 _ => ?_
    exact ih (Steps.stay h1) fun z hz g' h' => hf z (by simp [hz]) g' (Steps.trans h1 h')

lemma lookupAll {xs : List Nat} [Steps K] (hk : K g g) :
    Yields K g (xs.forM fun x => discard (GraphM.lookup x))
      (fun _ g' => g' = g ∧ ∀ x ∈ xs, ∃ t, g.find? x = some t) := by
  induction xs with
  | nil => exact pure hk ⟨rfl, by simp⟩
  | cons x xs ih =>
    refine bind (P := fun _ g' => g' = g ∧ ∃ t, g.find? x = some t)
      (bind_lookup hk fun t ht => pure hk ⟨rfl, t, ht⟩) fun _ g1 _ hq => ?_
    obtain ⟨rfl, hx⟩ := hq
    exact ih.weaken fun _ g2 _ hq => ⟨hq.1, List.forall_mem_cons.2 ⟨hx, hq.2⟩⟩

lemma choice [Steps K] {c : Prop} [Decidable c] {y : GraphM α}
    (hx : c → Yields K g x P) (hy : ¬c → Yields K g y P)
    (hf : ∀ a g', K g g' → P a g' → Yields K g' (f a) R) :
    Yields K g (if c then x >>= f else y >>= f) R := by
  by_cases hc : c
  · rw [if_pos hc]
    exact bind (hx hc) hf
  · rw [if_neg hc]
    exact bind (hy hc) hf

lemma guard [Steps K] {c : Bool} {rest : Unit → GraphM α} (hk : K g g)
    (h : c = false → Yields K g (rest ()) Q) :
    Yields K g (if c = true then (do let r ← MonadExcept.throw e; rest r) else rest ()) Q := by
  by_cases hc : c = true
  · rw [if_pos hc]
    exact bind (P := fun _ _ => False) (throw hk) fun _ _ _ h => h.elim
  · rw [if_neg hc]
    exact h (by simpa using hc)

end Yields

end LazyTensor
