import LazyTensor.Proofs.Graph.Items
import LazyTensor.Proofs.Layout.Merge

/-! Every program that a schedule holds fits the kernels, as long as the shapes in all requests
were numbers. -/
namespace LazyTensor
open Checked GraphM LazyTensor.Graph Source Option List Shape

namespace Reading
variable {accepts : Op → Nat → Prop}

lemma shapes_lasting (hu : ∀ u, accepts (.unary u) 1) : (shapes accepts).Lasting where
  call hg hc ha :=
    stays_of_keeps (perform_keeps hg trivial (fun hex => hex) (hc trivial) (ha trivial))
  schedule hg := stays_of_keeps (schedule_programs hu trivial hg)
  casts _ := hu .cast

end Reading

/-- The graphs that allowed requests lead to, whether they are granted or fail. -/
inductive Reached (allowed : Graph → Request → Prop) : Graph → Prop
  | start (config : Config) : Reached allowed { config }
  | request {g : Graph} (h : Reached allowed g) (r : Request) (hr : allowed g r) :
      Reached allowed (r.perform.runOn g).2
  | collect {g : Graph} (h : Reached allowed g) (roots : List Nat) :
      Reached allowed (g.collect roots).1
  | surroundings {g : Graph} (h : Reached allowed g) (devices : List Device) (stats : Stats)
      (memory : Memory) : Reached allowed { g with devices, stats, memory }

lemma Reached.sound {allowed : Graph → Request → Prop} {R : Reading} {g : Graph}
    (h : Reached allowed g) (hR : R.Lasting)
    (hall : ∀ g r, allowed g r → r.Concrete g ∧ R.AdmitsRequest r) : R.Sound g := by
  induction h with
  | start config => exact .empty R config
  | request _ r hr ih =>
    exact (Reading.request_stays hR ih r (fun _ => (hall _ r hr).1) fun _ => (hall _ r hr).2).sound
  | collect _ roots ih => exact ih.trim (ih.trims_collect roots)
  | surroundings _ _ _ _ ih => exact ih.same rfl rfl

def OpTree.ReadsAs (t : OpTree) (ds : List Int) : Prop :=
  ∃ layout, t.arg.layout? = some layout ∧ layout.shape = ofInts ds

/-- Both shapes are numbers, and they have equally many elements. -/
def Graph.Counts (g : Graph) (x : Nat) (ds : List Int) : Prop :=
  ∃ t es, g.find? x = some t ∧ t.shape = ofInts es ∧ es.prod = ds.prod

/-- A tree that kernels can be made of: above its one reduce all leaves have the shape of the
result, which has as many elements as the output, and below it they have the shape that is
reduced. -/
structure Item.Fits (item : Item) (g : Graph) : Prop where
  slotted : item.tree.buffers = []
  ops : ∀ t ∈ item.tree.trees, t.op.kind ≠ .movement ∧ t.op.kind ≠ .load
  once : ∀ r ∈ item.tree.trees, ∀ r' ∈ item.tree.trees, r.op.kind = .reduce →
    r'.op.kind = .reduce →
    r' = r
  reduced : ∀ r ∈ item.tree.trees, r.op.kind = .reduce → ∃ ds dt body,
    r.arg = .shape (ofInts dt) ∧ r.srcs = [body] ∧ Reduces ds dt ∧
    g.Counts item.out dt ∧
    (∀ t ∈ body.trees, t.op.kind = .buffer → t.ReadsAs ds) ∧
    ∀ t ∈ (Source.ofTree item.tree).outer, t.op.kind = .buffer → t.ReadsAs dt
  flat : (∀ t ∈ item.tree.trees, t.op.kind ≠ .reduce) → ∃ dt, g.Counts item.out dt ∧
    ∀ t ∈ item.tree.trees, t.op.kind = .buffer → t.ReadsAs dt
  slots : ∀ t ∈ item.tree.trees, t.op.kind = .buffer → ∀ m, t.arg = .mem m →
    ∃ b tb, g.find? b = some tb ∧
    tb.layout.simplify = .ok m.layout ∧ 1 ≤ m.slot ∧
    item.inputs[m.slot - 1]? = some (tb.base.getD b)

namespace Graph
variable {g : Graph} {inputs : List Nat} {ds dt : List Int} {s : Source} {t : OpTree} {item : Item}
  {accepts : Op → Nat → Prop} {leaf : Source → Prop}

namespace SlotLeaf

section
variable (h : g.SlotLeaf inputs ds s)
include h

lemma mem_trees (ht : t ∈ s.trees) : g.SlotLeaf inputs ds (.ofTree t) := by
  cases id h with
  | mem | const => exact mem_singleton.1 ht ▸ h

lemma mem_outer (ht : t ∈ s.outer) : g.SlotLeaf inputs ds (.ofTree t) := by
  cases id h with
  | mem | const => exact mem_singleton.1 ht ▸ h

lemma buffers : s.buffers = [] := by
  cases h <;> rfl

end

section
variable (h : g.SlotLeaf inputs ds (.ofTree t))
include h

lemma kind : t.op.kind = .buffer := by
  obtain ⟨op, arg, _⟩ := t
  cases h <;> rfl

lemma reads : t.ReadsAs ds := by
  obtain ⟨op, arg, _⟩ := t
  cases h with
  | mem _ dims simple => exact ⟨_, rfl, (Layout.simplify_shape simple).trans dims.1⟩
  | const _ dims simple => exact ⟨_, rfl, (Layout.simplify_shape simple).trans dims.1⟩

lemma slot {m : SlotRef} (hm : t.arg = .mem m) :
    ∃ b tb, g.find? b = some tb ∧ tb.layout.simplify = .ok m.layout ∧ 1 ≤ m.slot ∧
      inputs[m.slot - 1]? = some (tb.base.getD b) := by
  obtain ⟨op, arg, _⟩ := t
  cases h with
  | mem find _ simple slot =>
    cases hm
    exact ⟨_, _, find, simple, by simp, slot⟩
  | const => cases hm

end

end SlotLeaf

lemma slotted_of_over (h : Over accepts leaf s) (hl : ∀ l, leaf l → l.buffers = []) :
    s.buffers = [] := by
  refine eq_nil_iff_forall_not_mem.2 fun b hb => ?_
  obtain ⟨l, hleaf, hb⟩ := h.mem_buffers hb
  simp [hl l hleaf] at hb

lemma leaf_of_over (h : Over accepts (g.SlotLeaf inputs ds) s) (ht : t ∈ s.trees) :
    t.op.kind = .elementwise ∨ g.SlotLeaf inputs ds (.ofTree t) := by
  refine (h.mem_trees ht).imp (fun he => of_decide_eq_true he) fun ⟨l, hl, ht⟩ => ?_
  exact hl.mem_trees ht

lemma Programmed.fits (h : g.Programmed accepts item) : item.Fits g := by
  obtain ⟨out, es, dt, hout, hes, _, hprod, hf⟩ := h
  have hcount : g.Counts item.out dt := ⟨out, es, hout, hes.1, hprod.symm⟩
  obtain above | ⟨r, ds, body, _, hr, below, above, hin⟩ := hf.flat_or_reduced
  · have hall (t : OpTree) (ht : t ∈ item.tree.trees) := leaf_of_over above ht
    have hnone : ∀ t ∈ item.tree.trees, t.op.kind ≠ .reduce := by
      intro t ht hkind
      obtain he | hl := hall t ht
      · cases hkind.symm.trans he
      · cases hkind.symm.trans hl.kind
    refine ⟨slotted_of_over above fun l hl => hl.buffers, fun t ht => ?_,
      fun r hr _ _ hkind => (hnone r hr hkind).elim, fun r hr hkind => (hnone r hr hkind).elim,
      fun _ => ⟨dt, hcount, fun t ht hkind => ?_⟩, fun t ht hkind m hm => ?_⟩
    · obtain he | hl := hall t ht
      · simp [he]
      · simp [hl.kind]
    · obtain he | hl := hall t ht
      · cases hkind.symm.trans he
      · exact hl.reads
    · obtain he | hl := hall t ht
      · cases hkind.symm.trans he
      · exact hl.slot hm
  · let node : OpTree := { op := .reduce r, arg := .shape (ofInts dt), srcs := [body] }
    have hnode : node ∈ item.tree.trees := hin node (by simp [node])
    have hall (t : OpTree) (ht : t ∈ item.tree.trees) : t.op.kind = .elementwise ∨
        g.SlotLeaf item.inputs dt (.ofTree t) ∨ t = node ∨
        g.SlotLeaf item.inputs ds (.ofTree t) := by
      obtain he | ⟨l, hl | rfl, ht⟩ := above.mem_trees ht
      · exact .inl (of_decide_eq_true he)
      · exact .inr (.inl (hl.mem_trees ht))
      · obtain rfl | ht : t = node ∨ t ∈ body.trees := by
          simpa [node] using ht
        · exact .inr (.inr (.inl rfl))
        · exact (leaf_of_over below ht).imp_right fun hl => .inr (.inr hl)
    have honce (t : OpTree) (ht : t ∈ item.tree.trees) (hkind : t.op.kind = .reduce) :
        t = node := by
      obtain he | hl | rfl | hl := hall t ht
      · cases hkind.symm.trans he
      · cases hkind.symm.trans hl.kind
      · rfl
      · cases hkind.symm.trans hl.kind
    refine ⟨?_, fun t ht => ?_, fun a ha b hb hka hkb =>
      (honce b hb hkb).trans (honce a ha hka).symm,
      fun a ha hka => ?_, fun hflat => (hflat node hnode rfl).elim, fun t ht hkind m hm => ?_⟩
    · refine slotted_of_over above fun l hl => ?_
      obtain hl | rfl := hl
      · exact hl.buffers
      · simp [slotted_of_over below fun l hl => hl.buffers]
    · obtain he | hl | rfl | hl := hall t ht
      · simp [he]
      · simp [hl.kind]
      · simp [node, Op.kind]
      · simp [hl.kind]
    · obtain rfl := honce a ha hka
      refine ⟨ds, dt, body, rfl, rfl, hr, hcount, fun t ht hkind => ?_, fun t ht hkind => ?_⟩
      · obtain he | hl := leaf_of_over below ht
        · cases hkind.symm.trans he
        · exact hl.reads
      · obtain he | ⟨l, hl | rfl, ht⟩ := above.mem_outer ht
        · cases hkind.symm.trans (of_decide_eq_true he)
        · exact (hl.mem_outer ht).reads
        · obtain rfl : t = node := by simpa [outer] using ht
          cases hkind
    · obtain he | hl | rfl | hl := hall t ht
      · cases hkind.symm.trans he
      · exact hl.slot hm
      · cases hkind
      · exact hl.slot hm

end Graph

/-- Whatever was asked of a graph in numbers, the trees of its schedules fit the kernels. -/
theorem schedule_fits_kernels {g g' : Graph} {x : Nat} {items : List Item}
    (hg : Reached (fun g r => r.Concrete g) g) (h : (schedule x).runOn g = (.ok items, g')) :
    ∀ item ∈ items, item.tree.op.kind ≠ .load → item.Fits g' := by
  have hR : (Reading.shapes fun _ _ => True).Lasting := Reading.shapes_lasting fun _ => trivial
  have hsound := hg.sound hR fun g r hr => ⟨hr, .all (fun _ _ => trivial) r⟩
  have hyields := Reading.schedule_programs (x := x) (fun _ => trivial) trivial hsound
  have hitems : (Reading.shapes fun _ _ => True).Programmed g' items := by
    simpa only [h] using hyields.gives items (by rw [h])
  exact fun item hitem hkind => (hitems item hitem hkind).fits

def rowSums : Graph :=
  [.load .empty [.num 2, .num 3] .float32 "CPU" .none none [],
   .call (.reduce .sum 0 [.num 2, .num 1]),
   .call (.move (.reshape [.num 2]) 1),
   .load .empty [.num 2] .float32 "CPU" .none none [],
   .call (.elementwise (.binary .add) [2, 3] .none)].foldl
    (fun g (r : Request) => (r.perform.runOn g).2) {}

/-- The sum is computed inside of the addition, in the shape of the sum. -/
theorem rowSums_fits_kernels : Reached (fun g r => r.Concrete g) rowSums ∧
    ∃ items g', (schedule 4).runOn rowSums = (.ok items, g') ∧
      items.map
        (fun item => (item.out, item.inputs, item.tree.trees.countP (·.op.kind = .reduce))) =
        [(0, [], 0), (3, [], 0), (4, [0, 3], 1)] ∧
      ∀ item ∈ items, item.tree.op.kind ≠ .load → item.Fits g' := by
  have hmatrix : ∃ ds, Shape.Sized [.num 2, .num 3] ds := ⟨[2, 3], rfl, by decide⟩
  have hcolumn : ∃ ds, Shape.Sized [.num 2, .num 1] ds := ⟨[2, 1], rfl, by decide⟩
  have hvector : ∃ ds, Shape.Sized [.num 2] ds := ⟨[2], rfl, by decide⟩
  have hreach : Reached (fun g r => r.Concrete g) rowSums :=
    .request (.request (.request (.request (.request (.start _) _ ⟨hmatrix, by simp⟩) _ hcolumn)
      _ hvector) _ ⟨hvector, by simp⟩) _ trivial
  have hrun : ((schedule 4).runOn rowSums).1.toOption.map (fun items => items.map (fun item =>
      (item.out, item.inputs, item.tree.trees.countP (·.op.kind = .reduce)))) =
        some [(0, [], 0), (3, [], 0), (4, [0, 3], 1)] := by decide +kernel
  obtain ⟨items, hitems, hrun⟩ := map_eq_some_iff.1 hrun
  obtain ⟨g', hres⟩ := runOn_of_toOption hitems
  exact ⟨hreach, items, g', hres, hrun, schedule_fits_kernels hreach hres⟩

/-- A copy that is asked for in another shape than that of what it copies. -/
def wrongCopy : Graph :=
  [.load .empty [.num 2, .num 3] .float32 "CPU" .none none [],
   .call (.move (.shrink [(0, 2), (0, 2)]) 0),
   .load .contiguous [.num 5] .float32 "CPU" .none (some 1) []].foldl
    (fun g (r : Request) => (r.perform.runOn g).2) {}

/-- The operations of a program by kind, the leaves with their dimensions. -/
def Item.profile (item : Item) : Nat × List (OpKind × Option (List Int)) :=
  (item.out, item.tree.trees.map (fun t => (t.op.kind, t.arg.layout?.bind (·.shape.ints?))))

/-- The copy is granted, and its program reads four elements for five. -/
theorem wrongCopy_fits_not : ∃ items g', (schedule 2).runOn wrongCopy = (.ok items, g') ∧
    ∃ item ∈ items, item.tree.op.kind ≠ .load ∧ ¬item.Fits g' := by
  have hrun : (((schedule 2).runOn wrongCopy).1.toOption.bind (·[1]?)).map Item.profile =
      some (2, [(.elementwise, none), (.buffer, some [2, 2])]) := by
    decide +kernel
  have hout : (((schedule 2).runOn wrongCopy).2.find? 2).bind (·.shape.ints?) = some [5] := by
    decide +kernel
  obtain ⟨item, hitem, hprofile⟩ := map_eq_some_iff.1 hrun
  obtain ⟨items, hitems, hitem⟩ := bind_eq_some_iff.1 hitem
  obtain ⟨g', hres⟩ := runOn_of_toOption hitems
  rw [hres] at hout
  obtain ⟨hid, htrees⟩ := Prod.mk.inj hprofile
  have hkinds (t : OpTree) (ht : t ∈ item.tree.trees) :
      t.op.kind = .elementwise ∨ t.op.kind = .buffer := by
    have hpair : (t.op.kind, t.arg.layout?.bind (·.shape.ints?)) ∈
        [(_, none), (_, some [2, 2])] :=
      htrees ▸ mem_map.2 ⟨t, ht, rfl⟩
    obtain h | h := mem_cons.1 hpair
    · exact .inl (congrArg Prod.fst h)
    · exact .inr (congrArg Prod.fst (mem_singleton.1 h))
  refine ⟨items, g', hres, item, mem_of_getElem? hitem, ?_, fun hfits => ?_⟩
  · obtain h | h := hkinds item.tree mem_cons_self <;> simp [h]
  · obtain ⟨dt, ⟨out, es, hfind, hes, hprod⟩, hleaf⟩ := hfits.flat fun t ht => by
      obtain h | h := hkinds t ht <;> simp [h]
    have hmem : (OpKind.buffer, some [2, 2]) ∈ item.profile.2 := by
      rw [hprofile]
      simp
    obtain ⟨t, ht, hpair⟩ := mem_map.1 hmem
    obtain ⟨hkind, hdims⟩ := Prod.mk.inj hpair
    obtain ⟨layout, hlayout, hshape⟩ := hleaf t ht hkind
    rw [hlayout, bind_some, ints?_eq_some.2 hshape] at hdims
    rw [← hid, hfind, bind_some, ints?_eq_some.2 hes] at hout
    cases hdims
    cases hout
    exact absurd hprod (by decide)

def chosenItems : GraphM (List Item) := do
  let c ← load .empty [.num 2] .float32 "CPU"
  let a ← load .empty [.num 2] .int32 "CPU"
  let b ← load .empty [.num 2] .int32 "CPU"
  schedule (← perform (.elementwise (.ternary .select) [c, a, b] .none))

/-- The graph takes in the type of the condition, and the estimate does not. -/
theorem chosenItems_two_types : ∃ items g', chosenItems.runOn {} = (.ok items, g') ∧
    ∃ item ∈ items, ∃ i, g'.element item.out = .ok .float32 ∧ item.tree.estimate = .ok i ∧
      i.element = .int32 := by
  have hrun : (((chosenItems.runOn {}).1.toOption.bind (·[3]?)).bind (fun item =>
      item.tree.estimate.toOption.map (fun i => (item.out, i.element)))) = some (3, .int32) := by
    decide +kernel
  have helement : (chosenItems.runOn {}).2.element 3 = .ok .float32 := by decide +kernel
  obtain ⟨item, hitem, hrun⟩ := bind_eq_some_iff.1 hrun
  obtain ⟨items, hitems, hitem⟩ := bind_eq_some_iff.1 hitem
  obtain ⟨g', hres⟩ := runOn_of_toOption hitems
  rw [hres] at helement
  obtain ⟨i, hi, hprofile⟩ := map_eq_some_iff.1 hrun
  obtain ⟨hout, hint⟩ := Prod.mk.inj hprofile
  refine ⟨items, g', hres, item, mem_of_getElem? hitem, i, hout ▸ helement, ?_, hint⟩
  cases hestimate : item.tree.estimate with
  | error e =>
    rw [hestimate] at hi
    cases hi
  | ok j =>
    rw [hestimate] at hi
    exact congrArg Except.ok (some.inj hi)

end LazyTensor
