import LazyTensor.Proofs.Graph.Fusion

/-! The items of a schedule. -/
namespace LazyTensor
open Checked GraphM LazyTensor.Graph List Source Steps

namespace Graph
variable {g g' : Graph} {inputs : List Nat} {accepts : Op → Nat → Prop} {ds dt : List Int}
  {s : Source} {op tree : OpTree} {item : Item}

/-- A leaf of a scheduled tree: the slot of the base of a tensor, or a constant, read through the
layout of a tensor of these dimensions. -/
inductive SlotLeaf (g : Graph) (inputs : List Nat) (ds : List Int) : Source → Prop
  | mem {b i : Nat} {t : Tensor} {e : Element} {layout : Layout} (find : g.find? b = some t)
      (dims : t.shape.Sized ds) (simple : t.layout.simplify = .ok layout)
      (slot : inputs[i]? = some (t.base.getD b)) : SlotLeaf g inputs ds
        (.ofTree (.mem (i + 1) e layout))
  | const {b : Nat} {t : Tensor} {v : Double} {e : Element} {layout : Layout}
      (find : g.find? b = some t) (dims : t.shape.Sized ds)
        (simple : t.layout.simplify = .ok layout) :
      SlotLeaf g inputs ds (.ofTree (.const v e layout))

lemma SlotLeaf.mono (h : g.SlotLeaf inputs ds s) (hk : g.Extends g') : g'.SlotLeaf inputs ds s := by
  cases h with
  | mem find dims simple slot =>
    obtain ⟨t', ht', ha⟩ := hk.keeps find
    exact .mem ht' (ha.shape ▸ dims) (ha.layout ▸ simple) (ha.base ▸ slot)
  | const find dims simple =>
    obtain ⟨t', ht', ha⟩ := hk.keeps find
    exact .const ht' (ha.shape ▸ dims) (ha.layout ▸ simple)

lemma leafOf_slotLeaf {b : Nat} (hd : g.Dims b ds) (h : g.leafOf inputs b = .ok s) :
    g.SlotLeaf inputs ds s := by
  obtain ⟨t, ht, hs⟩ := hd
  simp only [leafOf, bind_eq_ok, lift_eq_ok, tensor_eq_ok, baseOf_eq_ok] at h
  obtain ⟨t', ht', _, hlayout, _, ⟨t'', ht'', rfl⟩, e, _, h⟩ := h
  cases ht.symm.trans ht'
  cases ht.symm.trans ht''
  split at h
  · rename_i i hi
    cases h
    refine .mem ht hs hlayout ?_
    obtain ⟨hlt, heq, _⟩ := idxOf?_eq_some_iff.1 hi
    rw [getElem?_eq_getElem hlt, heq]
  · obtain ⟨o, _, h⟩ := bind_eq_ok.1 h
    split at h
    · cases h
      exact .const ht hs hlayout
    · cases h

lemma slotTree_fused (h : g.slotTree op = .ok (tree, inputs))
    (hf : Fused accepts g.Leaf dt (.ofTree op.unreshaped)) :
    Fused accepts (g.SlotLeaf inputs) dt (.ofTree tree) := by
  simp only [slotTree, bind_eq_ok, pure_eq_ok] at h
  obtain ⟨_, _, leaves, hleaves, h⟩ := h
  cases h
  refine hf.mapBuffers fun es l hl hsub => ?_
  obtain ⟨b, rfl, hd⟩ := hl
  have hb : b ∈ op.buffers := OpTree.mem_unreshaped (hsub b (by simp))
  have hsome : (leaves.lookup b).isSome = true := by
    obtain ⟨p, hp, hpb⟩ := exists_of_mem_mapM hleaves hb
    obtain ⟨s, _, hs⟩ := bind_eq_ok.1 hpb
    exact lookup_isSome_iff.2 ⟨p, hp, by rw [← pure_eq_ok.1 hs]; exact beq_self_eq_true b⟩
  obtain ⟨s, hs⟩ := Option.isSome_iff_exists.1 hsome
  obtain ⟨c, _, hc⟩ := exists_of_mapM hleaves (mem_of_lookup hs)
  obtain ⟨s', hs', hc⟩ := bind_eq_ok.1 hc
  cases pure_eq_ok.1 hc
  rw [mapBuffers, hs, Option.getD_some]
  exact leafOf_slotLeaf hd hs'

/-- A program that computes its output: its tree ends in as many elements as the output has. -/
def Programmed (g : Graph) (accepts : Op → Nat → Prop) (item : Item) : Prop :=
  ∃ t ds dt, g.find? item.out = some t ∧ t.shape.Sized ds ∧ Extents dt ∧
    dt.prod = ds.prod ∧
    Source.Fused accepts (g.SlotLeaf item.inputs) dt (.ofTree item.tree)

lemma Programmed.mono (h : g.Programmed accepts item) (hk : g.Extends g') :
    g'.Programmed accepts item := by
  obtain ⟨t, ds, dt, ht, hs, hd, hprod, hf⟩ := h
  obtain ⟨t', ht', ha⟩ := hk.keeps ht
  exact ⟨t', ds, dt, ht', ha.shape ▸ hs, hd, hprod, hf.imp fun _ _ hl => hl.mono hk⟩

end Graph

namespace Reading
variable {R : Reading} {g g' : Graph} {x : Nat} {t : Tensor} {own op : OpTree} {ds : List Int}
  {next : Nat → Scheduler (List Item)} {seen : List Nat}

def Programmed (R : Reading) (g : Graph) (items : List Item) : Prop :=
  ∀ item ∈ items, item.tree.op.kind ≠ .load → g.Programmed R.Accepts item

lemma Programmed.append {items items2 : List Item} (h : R.Programmed g items)
    (hk : g.Extends g') (h2 : R.Programmed g' items2) : R.Programmed g' (items ++ items2) := by
  intro item hitem hkind
  obtain hitem | hitem := mem_append.1 hitem
  · exact (h item hitem hkind).mono hk
  · exact h2 item hitem hkind

/-- Visits schedule nothing but loads and programs. -/
def Programs (R : Reading) (next : Nat → Scheduler (List Item)) : Prop :=
  ∀ {g seen x}, R.Sound g → Walks R.Keeps g seen (next x)
    (fun items _ g' => R.Programmed g' items)

section
variable (hu : ∀ u, R.Accepts (.unary u) 1) (hty : R.typed)
include hu hty

lemma pendingTree_computes (hg : R.Sound g) (ht : g.find? x = some t) (hb : t.base = none)
    (hop : t.op = some own) (hs : t.shape.Sized ds)
    (hload : own.op.kind = .load → own.op = .load .contiguous) :
    Yields R.Keeps g (pendingTree x own)
      (fun op g' => (own.op = .load .contiguous → own.srcs ≠ []) →
        g'.Computes R.Accepts ds op) := by
  have hat := hg.at_id ht
  refine pendingTree_rule hg ht (fun hcopy hne => .of_root (by simp [Op.kind]) hs.2 ?_)
    (fun hkind => ?_) (fun hkind op hred _ => ?_) (fun hnocopy hnoelementwise hnoreduce _ => ?_)
    fun hk hop hne => ((hop hne).mono hk).float (hu .cast)
  · obtain ⟨src, ho, hsrcs, _, hshape, _⟩ := (hat.made own hop).of_load hcopy
    cases src with
    | none => exact (hne hcopy (by simpa using hsrcs)).elim
    | some y =>
      have hmem : y ∈ own.buffers := by
        simp [OpTree.buffers, hsrcs, buffersAll, buffers]
      obtain ⟨_, ty, hty'⟩ := hat.sources own hop y hmem
      have hleaf : g.Leaf ds (.buffer y) :=
        ⟨y, rfl, ty, hty', hshape hty rfl y rfl ty hty' ▸ hs⟩
      rw [hsrcs]
      exact .unary (hu .noop) (.flat (.leaf hleaf))
  · have he := hat.elementwise hop hkind
    exact (elementwiseTree_computes hg hty ht hop he hs).weaken fun _ _ _ hop _ => hop
  · obtain ⟨r, es, body, hes, hr, hbody, rfl⟩ := reduceTree_reduces hg hty ht hop hkind hs hred
    exact .of_root (by simp [Op.kind]) hs.2 (.reduced r es body hes hr hbody (.leaf (.inr rfl)))
  · cases hat.made own hop with
    | elementwise he =>
      refine (hnoelementwise ?_).elim
      rw [hat.kind own hop]
      exact of_decide_eq_true he
    | reduce r y heq =>
      refine (hnoreduce ?_).elim
      rw [hat.kind own hop, heq]
      rfl
    | move m y c _ hbase => simp [hb] at hbase
    | load o src ho => exact (hnocopy (hload (by rw [ho]; rfl))).elim

omit hu hty in
lemma kernelItem_programmed (hg : R.Sound g) (ht : g.find? x = some t) (hs : t.shape.Sized ds)
    (hop : g.Computes R.Accepts ds op) :
    Yields R.Keeps g (kernelItem x op) (fun item g' => g'.Programmed R.Accepts item) := by
  refine kernelItem_rule hg fun {g1 tree inputs vals} hk _ hslots => ?_
  obtain ⟨dt, hd, hprod, hf⟩ := hop.mono hk
  obtain ⟨t', ht', ha⟩ := hk.keeps ht
  exact ⟨t', ds, dt, ht', ha.shape ▸ hs, hd, hprod, slotTree_fused hslots hf⟩

omit hu hty in
lemma visitAll_programs (hnext : R.Programs next) {ids : List Nat} (hg : R.Sound g) :
    Walks R.Keeps g seen (visitAll next ids) (fun items _ g' => R.Programmed g' items) := by
  have hk : R.Keeps g g := .refl hg
  induction ids generalizing g seen with
  | nil => exact .pure hk (by simp [Programmed])
  | cons b ids ih =>
    have hsplit : visitAll next (b :: ids) =
        (do let items ← next b; let rest ← visitAll next ids; pure (items ++ rest)) := by
      simp [visitAll, mapM_cons]
    rw [hsplit]
    refine .bind (hnext hg) fun items seen1 g1 h1 hitems => ?_
    exact .bind (ih h1.1 (stay h1)) fun rest seen2 g2 h2 hrest =>
      .pure (stay h2) (hitems.append h2.2 hrest)

lemma Programs.visit (hnext : R.Programs next) : R.Programs (visit next) := by
  intro g seen x hg
  have hk : R.Keeps g g := .refl hg
  refine .bind_get (.bind_see hk fun done _ => ?_)
  cases done with
  | true => exact .pure hk (by simp [Programmed])
  | false =>
    refine .bind_set (.bind_see hk fun t ht => ?_)
    replace ht := tensor_eq_ok.1 ht
    have hat := hg.at_id ht
    have load {g : Graph} {seen : List Nat} {own : OpTree} {inputs : List Nat} {before : List Item}
        (hg : R.Sound g) (hbefore : R.Programmed g before) (hload : own.op.kind = .load) :
        Walks R.Keeps g seen (do return before ++ [← loadItem x own inputs])
          (fun items _ g' => R.Programmed g' items) := by
      have hk : R.Keeps g g := .refl hg
      refine .bind_lift (P := fun item _ => item.tree = own)
        (.bind_see hk fun vals _ => .pure hk rfl) fun item g1 h1 hitem => .pure (stay h1) ?_
      exact hbefore.append h1.2 (forall_mem_singleton.2 fun hne => (hne (hitem ▸ hload)).elim)
    split
    · exact hnext hg
    · rename_i hkind
      have hb : t.base = none := by simpa using mt hat.movement.2 hkind
      split
      · exact .throw hk
      · rename_i own hop
        split
        · rename_i hload
          simp only [Bool.and_eq_true, decide_eq_true_eq] at hload
          exact .bind (visitAll_programs hnext hg) fun items seen' g1 h1 hitems =>
            load h1.1 hitems hload.1
        · rename_i hload
          obtain ⟨ds, hs⟩ := hg.sized ht hty
          have hcopy : own.op.kind = .load → own.op = .load .contiguous := fun hk => by
            simpa [hk] using hload
          refine .bind_lift (pendingTree_computes hu hty hg ht hb hop hs hcopy)
            fun op g1 h1 hop1 => ?_
          obtain ⟨t1, ht1, ha⟩ := h1.2.keeps ht
          have hk1 := stay h1
          have kernel (hne : own.op = .load .contiguous → own.srcs ≠ []) :
              Walks R.Keeps g1 (x :: seen) (do
              let before ← visitAll next op.buffers
              return before ++ [← kernelItem x op])
              (fun items _ g' => R.Programmed g' items) := by
            refine .bind (visitAll_programs hnext h1.1) fun items seen' g2 h2 hitems => ?_
            obtain ⟨t2, ht2, ha2⟩ := h2.2.keeps ht1
            refine .bind_lift (kernelItem_programmed h2.1 ht2 ((ha.trans ha2).shape ▸ hs)
              ((hop1 hne).mono h2.2)) fun item g3 h3 hitem => .pure (stay h3) ?_
            exact hitems.append h3.2 (forall_mem_singleton.2 fun _ => hitem)
          split
          · rename_i hcontiguous
            refine .bind_see hk1 fun copied hcopied => ?_
            have hne : own.srcs ≠ [] := by
              intro hnil
              obtain ⟨s, hs, _⟩ := bind_eq_ok.1 hcopied
              simp [nth_eq_ok, hnil] at hs
            cases copied with
            | none => exact kernel fun _ => hne
            | some src =>
              refine .bind (hnext h1.1) fun items seen' g2 h2 hitems => load h2.1 hitems ?_
              rw [eq_of_beq hcontiguous]
              rfl
          · rename_i hcontiguous
            exact kernel fun hop => (hcontiguous (by simp [hop])).elim

lemma visitWithin_programs (n : Nat) : R.Programs (visitWithin n) := by
  induction n with
  | zero => exact fun hg => .throw (.refl hg)
  | succ n ih => exact ih.visit hu hty

lemma schedule_programs (hg : R.Sound g) :
    Yields R.Keeps g (schedule x) (fun items g' => R.Programmed g' items) := by
  exact (schedule_rule (.refl hg) fun n _ => visitWithin_programs hu hty n hg).weaken
    fun _ _ _ ⟨_, _, h⟩ => h

end

end Reading

end LazyTensor
