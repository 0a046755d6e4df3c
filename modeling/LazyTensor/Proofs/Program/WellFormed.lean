import LazyTensor.Program.Machine
import LazyTensor.Proofs.Program.Linearize
import LazyTensor.Proofs.Program.Prune

/-! The programs of kernels are well formed, whatever axes are local, grouped or upcasted, and the
machine takes every well-formed program. -/
namespace LazyTensor
open Option

namespace Machine

open Program

variable {code : List Instr} {u : Instr} {c : Check} {i : Nat}

def Check.scan (c : Check) (code : List Instr) : Fallible Check :=
  code.zipIdx.foldlM (fun (c : Check) (u, i) => c.step u i) c

lemma Check.scan_snoc (c : Check) (code : List Instr) (u : Instr) :
    c.scan (code ++ [u]) = (c.scan code >>= fun c => c.step u code.length) := by
  simp [scan, List.zipIdx_append, List.foldlM_append]

lemma Check.step_of_enter {ls ls' : List Nat} (hc : c.depth = ls.length)
    (h : enter ls u i = some ls') : ∃ c', c.step u i = .ok c' ∧ c'.depth = ls'.length := by
  by_cases hplain : u.kind.isPlain
  · rw [enter_plain hplain] at h
    cases h
    unfold Check.step
    split
    · simp_all
    · simp_all
    · simp_all
    · simp_all
    · exact ⟨_, rfl, hc⟩
    · exact ⟨_, rfl, hc⟩
    · exact ⟨_, rfl, hc⟩
  · cases hk : u.kind with
    | loop =>
      simp only [enter, hk, some.injEq] at h
      subst h
      exact ⟨_, by simp only [Check.step, hk]; rfl, by simp [hc]⟩
    | endLoop =>
      cases ls with
      | nil => simp [enter, hk] at h
      | cons l ls =>
        simp only [enter, hk, ite_none_right_eq_some, some.injEq] at h
        obtain ⟨hinputs, rfl⟩ := h
        have hdepth : c.depth ≠ 0 := by simp [hc]
        refine ⟨_, by simp only [Check.step, hk, hdepth, hinputs]; rfl, by simp [hc]⟩
    | barrier =>
      cases ls with
      | nil =>
        simp only [enter, hk, some.injEq] at h
        subst h
        have hdepth : ¬0 < c.depth := by simp [hc]
        refine ⟨_, by simp only [Check.step, hk, hdepth]; rfl, ?_⟩
        exact hc
      | cons l ls => simp [enter, hk] at h
    | matrix => simp [enter, hk] at h
    | _ => simp [hk] at hplain

lemma Check.scan_of_nesting {stack : List Nat} (hc : c.depth = 0)
    (h : nesting code = some stack) : ∃ c', c.scan code = .ok c' ∧ c'.depth = stack.length := by
  induction code using List.reverseRecOn generalizing stack with
  | nil =>
    cases h
    exact ⟨c, rfl, hc⟩
  | append_singleton code u ih =>
    rw [nesting_snoc] at h
    obtain ⟨_, hbefore, henter⟩ := bind_eq_some_iff.1 h
    obtain ⟨c₁, hscan, hdepth⟩ := ih hbefore
    rw [scan_snoc, hscan]
    exact step_of_enter hdepth henter

lemma load_eq (device : String) (p : Program) : load device p =
      (Check.scan { loaded := { device, name := p.name, code := p.code.toArray } }
        p.code >>= fun c =>
        if c.depth = 0 then
          pure { c.loaded with phases := c.loaded.phases ++ [(c.start, p.code.length)] }
        else fail (.device device (.unclosedLoops c.depth))) := rfl

/-- The machine takes every program whose loops are nested and have come to their end. -/
lemma load_of_nesting {p : Program} (device : String) (h : nesting p.code = some []) :
    ∃ l, load device p = .ok l := by
  have hscan := Check.scan_of_nesting
    (c := { loaded := { device, name := p.name, code := p.code.toArray } }) rfl h
  obtain ⟨c, hscan, hdepth⟩ := hscan
  rw [load_eq, hscan]
  exact ⟨_, if_pos hdepth⟩

end Machine

namespace Kernel

open Program Build

/-- Operands come before their readers, every end closes the innermost loop, and no barrier stands
inside of a loop. So the machine takes the program. -/
theorem linearize_wellFormed {k : Kernel} {limit : Nat} {names names' : Names} {p : Program}
    (h : k.linearize limit names = .ok (p, names')) :
    Ordered p.code ∧ nesting p.code = some [] ∧ ∀ device, ∃ l,
      Machine.load device p = .ok l := by
  obtain ⟨b, hrun⟩ := run_of_linearize h
  have hw := program_run hrun
  have hnested : nesting p.code = some [] := hw.pruned ▸ nesting_prune hw.ordered hw.nested
  exact ⟨hw.pruned ▸ hw.ordered.prune, hnested, fun device =>
    Machine.load_of_nesting device hnested⟩

def leaf (slot : Nat) (layout : Layout) : Source :=
  .apply (.buffer .mem) (.mem { slot, element := .float32, layout }) []

def groupedSum : Fallible Kernel := do
  let rows ← Layout.ofShape [.num 2, .num 8]
  let k ← ofTree { op := .reduce .sum, arg := .shape [.num 2, .num 1], srcs := [leaf 1 rows] } {}
  let k ← k.shift 1 4 true (some 1)
  pure { k with groups := [4] }

theorem groupedSum_wellFormed : ∃ k p names, groupedSum = .ok k ∧
    k.linearize 0 [] = .ok (p, names) ∧ p.code.countP (·.kind == .loop) = 2 ∧
    p.code.countP (·.kind == .barrier) = 1 ∧ Ordered p.code ∧ nesting p.code = some [] ∧
    ∀ device, ∃ l, Machine.load device p = .ok l := by
  have hrun : (groupedSum >>= fun k => liftM (k.linearize 0 [])).toOption.any (fun r =>
      r.1.code.countP (·.kind == .loop) == 2 && r.1.code.countP (·.kind == .barrier) == 1) := by
    decide +kernel
  obtain ⟨⟨p, names⟩, hrun, hcode⟩ := Checked.exists_of_any hrun
  obtain ⟨k, hk, hp⟩ := Checked.bind_eq_ok.1 hrun
  have hp := Checked.lift_eq_ok.1 hp
  simp only [Bool.and_eq_true, beq_iff_eq] at hcode
  exact ⟨k, p, names, hk, hp, hcode.1, hcode.2, linearize_wellFormed hp⟩

end Kernel

end LazyTensor
