import LazyTensor.Proofs.Program.WellFormed

/-! What leaves a loop. Equal instructions are made once for the whole program, so one that stands
inside of a loop may be read after its end; but nothing that depends on the counter of the loop
is. -/
namespace LazyTensor
open Checked

def InstrKind.isValue : InstrKind → Bool
  | .load | .alu | .cast => true
  | _ => false

namespace Program

/-- Nothing after the end of a loop reads a value that is computed inside of it. -/
def Contained (code : List Instr) : Prop :=
  ∀ (e i j l : Nat) (u w v : Instr), code[e]? = some u → u.kind = .endLoop →
    l ∈ u.inputs →
    code[i]? = some w → w.kind.isValue → l < i → i < e → code[j]? = some v → e < j →
    i ∉ v.inputs

end Program

namespace Kernel

open Program Build

variable {k k' : Kernel}

lemma groups_permuteAll {axes : List Nat} (h : k.permuteAll axes = .ok k') :
    k'.groups = k.groups := by
  obtain ⟨_, _, h⟩ := bind_eq_ok.1 h
  cases h
  rfl

lemma groups_reshapeAll {f : Shape → Checked Shape} (h : k.reshapeAll f = .ok k') :
    k'.groups = k.groups := by
  obtain ⟨_, _, h⟩ := bind_eq_ok.1 h
  cases h
  rfl

lemma groups_withoutOnes (h : k.withoutOnes = .ok k') : k'.groups = k.groups := by
  obtain ⟨⟨k₁, any⟩, hdrop, h⟩ := bind_eq_ok.1 h
  cases h
  obtain ⟨n, _, hdrop⟩ := bind_eq_ok.1 hdrop
  split at hdrop
  · cases hdrop
    rfl
  · simp only [bind_eq_ok] at hdrop
    obtain ⟨_, _, _, _, _, _, _, _, _, _, _, _, _, _, _, _, k₂, hreshape, hdrop⟩ := hdrop
    cases hdrop
    exact (groups_reshapeAll hreshape).trans rfl

lemma groups_mergeAxes (h : k.mergeAxes = .ok k') : k'.groups = k.groups := by
  obtain ⟨n, _, h⟩ := bind_eq_ok.1 h
  split at h
  · cases h
    rfl
  · simp only [bind_eq_ok] at h
    obtain ⟨_, _, _, _, _, _, _, _, _, _, h⟩ := h
    cases h
    rfl

lemma groups_ofTree {tree : OpTree} {target : Target} (h : ofTree tree target = .ok k) :
    k.groups = [] := by
  obtain ⟨_, _, h⟩ := bind_eq_ok.1 h
  dsimp only at h
  split at h
  · obtain ⟨_, herr, _⟩ := bind_eq_ok.1 h
    cases herr
  obtain ⟨_, _, h⟩ := bind_eq_ok.1 h
  obtain ⟨_, _, h⟩ := bind_eq_ok.1 h
  split at h
  · obtain ⟨_, herr, _⟩ := bind_eq_ok.1 h
    cases herr
  obtain ⟨_, _, h⟩ := bind_eq_ok.1 h
  obtain ⟨k₁, hpermute, h⟩ := bind_eq_ok.1 h
  obtain ⟨k₂, hones, h⟩ := bind_eq_ok.1 h
  rw [groups_mergeAxes (lift_eq_ok.1 h), groups_withoutOnes (lift_eq_ok.1 hones),
    groups_permuteAll (lift_eq_ok.1 hpermute)]

/-- In the program of a new kernel, nothing after the end of a loop depends on its counter, as long
as no leaf outside of the reduce occurs below it too. A buffer can be read in both places, through
two layouts. -/
theorem counters_stay_inside {tree : OpTree} {target : Target} {limit : Nat} {names names' : Names}
    {p : Program} (hk : ofTree tree target = .ok k) (hlate : OuterLate k)
    (h : k.linearize limit names = .ok (p, names')) : Sealed p.code := by
  obtain ⟨b, hrun⟩ := run_of_linearize h
  have hw := program_run hrun
  rw [hw.pruned]
  exact (hw.isSealed (groups_ofTree hk) hlate).prune hw.ordered

def columnSum : Fallible OpTree := do
  let cells ← Layout.ofShape [.num 4, .num 2]
  let column ← (← cells.shrink [(0, 4), (0, 1)]).permute [1, 0]
  let copies ← column.expand [.var { name := "n", lo := 0, hi := 4 }, .num 4]
  let total := Source.apply (.reduce .sum) (.shape [.num 1, .num 4]) [leaf 1 copies]
  pure { op := .binary .add, srcs := [total, leaf 1 column] }

/-- The column itself does not depend on the counter. It is loaded inside of the loop, and read
again after its end. -/
theorem columnSum_not_contained : ∃ tree k p names, columnSum = .ok tree ∧
    ofTree tree {} = .ok k ∧ k.linearize 0 [] = .ok (p, names) ∧ ¬Contained p.code := by
  have hrun : (columnSum >>= fun tree => ofTree tree {}).toOption.any (fun k =>
      (k.linearize 0 []).toOption.any (fun r =>
        r.1.code[12]?.any (fun u => u.kind == .endLoop && u.inputs.contains 6) &&
        r.1.code[9]?.any (fun w => w.kind.isValue) &&
        r.1.code[13]?.any (fun v => v.inputs.contains 9))) := by
    decide +kernel
  obtain ⟨k, hrun, htest⟩ := Checked.exists_of_any hrun
  obtain ⟨tree, htree, hk⟩ := Checked.bind_eq_ok.1 hrun
  obtain ⟨⟨p, names⟩, hp, htest⟩ := Checked.exists_of_any htest
  refine ⟨tree, k, p, names, htree, hk, hp, fun hcontained => ?_⟩
  simp only [Bool.and_eq_true, Option.any_eq_true, beq_iff_eq, List.contains_iff_mem] at htest
  obtain ⟨⟨⟨u, hu, hend, hl⟩, w, hw, hvalue⟩, v, hv, hread⟩ := htest
  exact hcontained 12 9 13 6 u w v hu hend hl hw hvalue (by decide) (by decide) hv (by decide) hread

end Kernel

end LazyTensor
