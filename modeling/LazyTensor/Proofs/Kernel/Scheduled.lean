import LazyTensor.Proofs.Graph.Scheduled
import LazyTensor.Proofs.Kernel.OfTree

/-! Kernels of schedules: a kernel is made of every program of a schedule, as long as the shapes in
all requests were numbers and every operation was given the sources that it reads. -/
namespace LazyTensor
open Checked GraphM LazyTensor.Graph Kernel

/-- An elementwise operation is asked for with as many sources as it reads. -/
def Request.Fed : Request → Prop
  | .call (.elementwise op srcs _) => op.Fed srcs.length
  | _ => True

lemma Request.Fed.admits {r : Request} (h : r.Fed) : (Reading.shapes Op.Fed).AdmitsRequest r := by
  cases r with
  | call c =>
    cases c with
    | elementwise => exact h
    | reduce | move => trivial
  | _ => trivial

lemma Graph.SlotLeaf.reads_layout {R : Reading} {g : Graph} {inputs : List Nat} {ds : List Int}
    {s : Source} (hg : R.Sound g) (hty : R.typed) (h : g.SlotLeaf inputs ds s) : s.Reads ds := by
  have simple {b : Nat} {t : Tensor} {layout : Layout} (find : g.find? b = some t)
      (dims : t.shape.Sized ds) (hs : t.layout.simplify = .ok layout) : layout.Suits False ds := by
    obtain ⟨ds', hl⟩ := (hg.at_id find).plain hty
    obtain rfl : ds' = ds := hl.sized.unique dims
    obtain hstop | ⟨l, hl, hsuits⟩ := Layout.simplify_returns (hl.weaken fun h => h.elim)
    · cases hs.symm.trans hstop
    · cases hs.symm.trans hl
      exact hsuits
  cases h with
  | mem find dims hs => exact .mem (simple find dims hs)
  | const find dims hs => exact .const (simple find dims hs)

/-- Whatever was asked of a graph in numbers, a kernel is made of every program of its schedules,
and all its layouts have one rank. A word that overflows is the only failure. -/
theorem schedule_makes_kernels {g g' : Graph} {x : Nat} {items : List Item} (target : Target)
    (hg : Reached (fun g r => r.Concrete g ∧ r.Fed) g)
    (h : (schedule x).runOn g = (.ok items, g')) :
    ∀ item ∈ items, item.tree.op.kind ≠ .load →
      ofTree item.tree target = .error (.abort .arithmetic) ∨
      ∃ k, ofTree item.tree target = .ok k ∧ ∃ rank, ∀ l ∈ k.layouts, l.rank = rank := by
  have hu (u : UnaryOp) : Op.Fed (.unary u) 1 := le_rfl
  have hsound := hg.sound (Reading.shapes_lasting hu) fun g r hr => ⟨hr.1, hr.2.admits⟩
  have hyields := Reading.schedule_programs (R := .shapes Op.Fed) (x := x) hu trivial hsound
  have hsound' : (Reading.shapes Op.Fed).Sound g' := by simpa only [h] using hyields.step.1
  have hitems : (Reading.shapes Op.Fed).Programmed g' items := by
    simpa only [h] using hyields.gives items (by rw [h])
  intro item hitem hkind
  obtain ⟨_, _, dt, _, _, hd, _, hf⟩ := hitems item hitem hkind
  exact ofTree_returns hd (hf.imp fun _ _ hl => hl.reads_layout hsound' trivial) target

/-- The rows' sums are added to a vector in one kernel of two axes. -/
theorem rowSums_makes_kernels : Reached (fun g r => r.Concrete g ∧ r.Fed) rowSums ∧
    ∃ items g', (schedule 4).runOn rowSums = (.ok items, g') ∧
      items.map (fun item => (ofTree item.tree {}).toOption.map (·.layouts.map Layout.rank)) =
        [none, none, some [2, 2, 2]] ∧ ∀ item ∈ items, item.tree.op.kind ≠ .load →
        ofTree item.tree {} = .error (.abort .arithmetic) ∨
        ∃ k, ofTree item.tree {} = .ok k ∧ ∃ rank, ∀ l ∈ k.layouts, l.rank = rank := by
  have hmatrix : ∃ ds, Shape.Sized [.num 2, .num 3] ds := ⟨[2, 3], rfl, by decide⟩
  have hcolumn : ∃ ds, Shape.Sized [.num 2, .num 1] ds := ⟨[2, 1], rfl, by decide⟩
  have hvector : ∃ ds, Shape.Sized [.num 2] ds := ⟨[2], rfl, by decide⟩
  have hreach : Reached (fun g r => r.Concrete g ∧ r.Fed) rowSums :=
    .request
      (.request (.request (.request (.request (.start _) _ ⟨⟨hmatrix, by simp⟩, trivial⟩)
      _ ⟨hcolumn, trivial⟩) _ ⟨hvector, trivial⟩) _ ⟨⟨hvector, by
      simp⟩, trivial⟩) _ ⟨trivial, le_rfl⟩
  have hrun : ((schedule 4).runOn rowSums).1.toOption.map (fun items => items.map (fun item =>
      (ofTree item.tree {}).toOption.map (·.layouts.map Layout.rank))) =
        some [none, none, some [2, 2, 2]] := by decide +kernel
  obtain ⟨items, hitems, hrun⟩ := Option.map_eq_some_iff.1 hrun
  obtain ⟨g', hres⟩ := runOn_of_toOption hitems
  exact ⟨hreach, items, g', hres, hrun, schedule_makes_kernels {} hreach hres⟩

def someRows : Shape := [.var { name := "n", lo := 1, hi := 8 }, .num 2]

def shiftedRows : Graph :=
  [.load .empty [.num 8] .float32 "VM" .none none [],
   .call (.move (.reshape someRows) 0),
   .full "VM" someRows .float32 ⟨0x4008000000000000⟩,
   .call (.elementwise (.binary .add) [1, 4] .none)].foldl
    (fun g (r : Request) => (r.perform.runOn g).2) {}

def failedStep? : Fallible Kernel → Option String
  | .error (.abort (.kernelStep step _)) => some step
  | _ => none

/-- Rows of a vector and of a constant are walked as one axis, but a layout of a variable number of
rows that is not contiguous refuses the reshape. -/
theorem shiftedRows_makes_no_kernel :
    ∃ items g', (schedule 5).runOn shiftedRows = (.ok items, g') ∧
    ∃ item ∈ items, item.tree.op.kind ≠ .load ∧
      ∃ reason, ofTree item.tree {} = .error (.abort (.kernelStep "merge" reason)) := by
  have hrun : (((schedule 5).runOn shiftedRows).1.toOption.bind (·[1]?)).map (fun item =>
      (item.tree.op.kind, failedStep? (ofTree item.tree {}))) =
        some (.elementwise, some "merge") := by decide +kernel
  obtain ⟨item, hitem, hprofile⟩ := Option.map_eq_some_iff.1 hrun
  obtain ⟨items, hitems, hitem⟩ := Option.bind_eq_some_iff.1 hitem
  obtain ⟨g', hres⟩ := runOn_of_toOption hitems
  obtain ⟨hkind, hstep⟩ := Prod.mk.inj hprofile
  refine ⟨items, g', hres, item, List.mem_of_getElem? hitem, by simp [hkind], ?_⟩
  unfold failedStep? at hstep
  split at hstep
  · rename_i step reason hfail
    cases hstep
    exact ⟨reason, hfail⟩
  · cases hstep

end LazyTensor
