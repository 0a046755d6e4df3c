import LazyTensor.Proofs.Graph.Fusion
import LazyTensor.Proofs.Kernel.Estimate
import LazyTensor.Proofs.Kernel.Merge
import LazyTensor.Proofs.Kernel.Same

/-! A kernel can be made of every tree that one program computes: elementwise operations over leaves
of numbers, with at most one reduce among them. -/
namespace LazyTensor
open Checked List Shape Source Option Slot

namespace Kernel
variable {α : Type} [BEq α]

lemma foldl_distinct [ReflBEq α] (xs seen : List α) : ∃ rest,
    xs.foldl (fun seen x => if seen.contains x then seen else seen ++ [x]) seen = seen ++ rest ∧
      (∀ y ∈ rest, y ∈ xs) ∧ ∀ x ∈ xs, ∃ y ∈ seen ++ rest, (x == y) = true := by
  induction xs generalizing seen with
  | nil => exact ⟨[], by simp, by simp, by simp⟩
  | cons x xs ih =>
    rw [foldl_cons]
    split
    · rename_i hx
      obtain ⟨rest, heq, hsub, hcover⟩ := ih seen
      refine ⟨rest, heq, fun y hy => mem_cons_of_mem _ (hsub y hy),
        forall_mem_cons.2 ⟨?_, hcover⟩⟩
      obtain ⟨y, hy, hxy⟩ := contains_iff_exists_mem_beq.1 hx
      exact ⟨y, mem_append_left _ hy, hxy⟩
    · obtain ⟨rest, heq, hsub, hcover⟩ := ih (seen ++ [x])
      rw [append_assoc, singleton_append] at heq hcover
      refine ⟨x :: rest, heq, fun y hy =>
        ?_, forall_mem_cons.2 ⟨⟨x, by simp, BEq.rfl⟩, hcover⟩⟩
      obtain rfl | hy := mem_cons.1 hy
      · exact mem_cons_self
      · exact mem_cons_of_mem _ (hsub y hy)

lemma distinct_cons [ReflBEq α] (x : α) (xs : List α) :
    ∃ rest, distinct (x :: xs) = x :: rest ∧
    (∀ y ∈ rest, y ∈ xs) ∧ ∀ z ∈ xs, ∃ y ∈ x :: rest, (z == y) = true := by
  obtain ⟨rest, heq, hsub, hcover⟩ := foldl_distinct xs [x]
  exact ⟨rest, heq, hsub, hcover⟩

lemma distinct_copies [ReflBEq α] {x : α} {xs : List α} (h : ∀ y ∈ xs, y = x)
    (hx : x ∈ xs) :
    distinct xs = [x] := by
  have fold (xs : List α) (h : ∀ y ∈ xs, y = x) :
      xs.foldl (fun seen x => if seen.contains x then seen else seen ++ [x]) [x] = [x] := by
    induction xs with
    | nil => rfl
    | cons y ys ih =>
      obtain ⟨rfl, hys⟩ := forall_mem_cons.1 h
      rw [foldl_cons, if_pos (by simp)]
      exact ih hys
  cases xs with
  | nil => cases hx
  | cons y ys =>
    obtain ⟨rfl, hys⟩ := forall_mem_cons.1 h
    exact fold ys hys

end Kernel

namespace Source

inductive Reads (ds : List Int) : Source → Prop
  | mem {slot : Nat} {e : Element} {layout : Layout} (h : layout.Suits False ds) :
      Reads ds (.ofTree (.mem slot e layout))
  | const {v : Double} {e : Element} {layout : Layout} (h : layout.Suits False ds) :
      Reads ds (.ofTree (.const v e layout))

lemma Reads.estimable {ds : List Int} {s : Source} (h : s.Reads ds) : s.Estimable ds := by
  cases h with
  | mem h => exact .mem h
  | const h => exact .const h

lemma Fused.estimable {dt : List Int} {s : Source} (h : Fused Op.Fed Reads dt s) :
    s.Estimable dt := by
  cases h with
  | flat above => exact above.estimable fun _ hl => hl.estimable
  | reduced r ds _ _ _ below above =>
    refine above.estimable fun l hl => ?_
    obtain hl | rfl := hl
    · exact hl.estimable
    · exact (below.estimable fun _ hl => hl.estimable).reduce

end Source

namespace Slot
variable {s s' : Slot} {ds ds' : List Int}

def Spans (ds : List Int) : Slot → Prop
  | mem m => m.layout.Suits False ds
  | const c => c.layout.Suits False ds
  | shared _ _ _ => False

lemma Spans.leafLayout_returns (h : s.Spans ds) :
    Returns .arithmetic (Kernel.leafLayout s) (·.Suits False ds) := by
  cases s with
  | mem m | const c => exact Layout.simplify_returns h
  | shared => exact h.elim

lemma Spans.unique (h : s.Spans ds) (h' : s'.Spans ds') (heq : (s == s') = true) : ds = ds' := by
  have same {l l' : Layout} (hl : l.Suits False ds) (hl' : l'.Suits False ds')
      (heq : (l == l') = true) : ds = ds' := by
    have hshape := Layout.shape_beq heq
    rw [hl.sized.1, hl'.sized.1] at hshape
    exact eq_of_beq hshape
  cases s with
  | mem m =>
    cases s' with
    | mem m' => exact same h h' (OpArg.layout?_of_same (a := .mem m) (b := .mem m') heq rfl rfl)
    | const => cases heq
    | shared => exact h'.elim
  | const c =>
    cases s' with
    | const c' =>
      exact same h h' (OpArg.layout?_of_same (a := .constBuf c) (b := .constBuf c') heq rfl rfl)
    | mem => cases heq
    | shared => exact h'.elim
  | shared => exact h.elim

lemma ofLeaf?_of_kind {t : OpTree} (h : t.op.kind ≠ .buffer) : ofLeaf? t = none := by
  unfold ofLeaf?
  split
  · rename_i hop _
    exact (h (by rw [hop]; rfl)).elim
  · rename_i hop _
    exact (h (by rw [hop]; rfl)).elim
  · rfl

end Slot

def OpTree.IsLeaf (t : OpTree) (ds : List Int) : Prop :=
  t.op.kind = .buffer ∧ ∃ s, ofLeaf? t = some s ∧ s.Spans ds

namespace Source
variable {ds dt : List Int} {s : Source} {t : OpTree}

lemma Reads.leaf (h : s.Reads ds) : ∃ t, s.trees = [t] ∧ t.IsLeaf ds := by
  cases h with
  | mem h | const h => exact ⟨_, rfl, rfl, _, rfl, h⟩

lemma Reads.mem_trees (h : s.Reads ds) (ht : t ∈ s.trees) : t.IsLeaf ds := by
  obtain ⟨t', htrees, hleaf⟩ := h.leaf
  rw [htrees] at ht
  exact mem_singleton.1 ht ▸ hleaf

lemma Over.leaf_or_elementwise {accepts : Op → Nat → Prop} (h : Over accepts (Reads ds) s)
    (ht : t ∈ s.trees) : t.op.kind = .elementwise ∨ t.IsLeaf ds :=
  (h.mem_trees ht).imp (fun he => of_decide_eq_true he) fun ⟨_, hl, ht⟩ => hl.mem_trees ht

end Source

namespace OpTree
variable {tree : OpTree} {full dt : List Int}
variable {t : OpTree} {ds : List Int}

/-- All buffers of the tree are as long as the full shape along every axis, or have length one
there; those below its one reduce have the full shape. -/
structure Shaped (tree : OpTree) (full dt : List Int) : Prop where
  reduces : Reduces full dt
  leaves : ∀ t ∈ tree.trees, ∀ s, ofLeaf? t = some s → ∃ ds, s.Spans ds ∧
    Reduces full ds
  whole : (∀ t ∈ tree.trees, t.op.kind ≠ .reduce) ∧ full = dt ∨
    ∃ r ∈ tree.trees, r.op.kind = .reduce ∧
      (∀ t ∈ tree.trees, t.op.kind = .reduce → t = r) ∧
      (∀ t ∈ r.trees, t ∈ tree.trees) ∧
      (∃ t ∈ r.trees, ∃ s, ofLeaf? t = some s) ∧
      ∀ t ∈ r.trees, ∀ s, ofLeaf? t = some s → s.Spans full

lemma IsLeaf.spans {s : Slot} (h : t.op.kind = .elementwise ∨ t.IsLeaf ds)
    (hs : ofLeaf? t = some s) : s.Spans ds := by
  obtain he | ⟨_, s', hs', hspans⟩ := h
  · rw [ofLeaf?_of_kind (by simp [he])] at hs
    cases hs
  · cases hs.symm.trans hs'
    exact hspans

lemma IsLeaf.ne_reduce (h : t.op.kind = .elementwise ∨ t.IsLeaf ds) : t.op.kind ≠ .reduce := by
  obtain he | hl := h
  · simp [he]
  · simp [hl.1]

lemma exists_shaped (h : Fused Op.Fed Reads dt (.ofTree tree)) : ∃ full, tree.Shaped full dt := by
  obtain above | ⟨r, ds, body, _, hr, below, above, hin⟩ := h.flat_or_reduced
  · have hall (t : OpTree) (ht : t ∈ tree.trees) := above.leaf_or_elementwise ht
    exact ⟨dt, .refl dt, fun t ht s hs => ⟨dt, IsLeaf.spans (hall t ht) hs, .refl dt⟩,
      .inl ⟨fun t ht => IsLeaf.ne_reduce (hall t ht), rfl⟩⟩
  · let node : OpTree := { op := .reduce r, arg := .shape (ofInts dt), srcs := [body] }
    have hnode (t : OpTree) : t ∈ node.trees ↔ t = node ∨ t ∈ body.trees := by
      simp [OpTree.trees, treesAll, node]
    have hbelow (t : OpTree) (ht : t ∈ node.trees) : t = node ∨ t.op.kind = .elementwise ∨
        t.IsLeaf ds :=
      ((hnode t).1 ht).imp_right below.leaf_or_elementwise
    have hall (t : OpTree) (ht : t ∈ tree.trees) :
        t ∈ node.trees ∨ t.op.kind = .elementwise ∨ t.IsLeaf dt := by
      obtain he | ⟨l, hl | rfl, ht⟩ := above.mem_trees ht
      · exact .inr (.inl (of_decide_eq_true he))
      · exact .inr (.inr (hl.mem_trees ht))
      · exact .inl ht
    have hspans (t : OpTree) (ht : t ∈ node.trees) (s : Slot) (hs : ofLeaf? t = some s) :
        s.Spans ds := by
      obtain rfl | hl := hbelow t ht
      · cases hs
      · exact IsLeaf.spans hl hs
    refine ⟨ds, hr, fun t ht s hs => ?_,
      .inr ⟨node, hin node (by simp [Source.trees, node]), rfl,
      fun t ht hkind => ?_, hin, ?_, hspans⟩⟩
    · obtain ht | hl := hall t ht
      · exact ⟨ds, hspans t ht s hs, .refl ds⟩
      · exact ⟨dt, IsLeaf.spans hl hs, hr⟩
    · obtain ht | hl := hall t ht
      · exact (hbelow t ht).resolve_right fun hl => IsLeaf.ne_reduce hl hkind
      · exact (IsLeaf.ne_reduce hl hkind).elim
    · obtain ⟨l, hl, hsub⟩ := below.exists_leaf
      obtain ⟨t, htrees, _, s, hs, _⟩ := hl.leaf
      exact ⟨t, (hnode t).2 (.inr (hsub t (by simp [htrees]))), s, hs⟩

end OpTree

namespace Kernel
variable {tree : OpTree} {full dt : List Int} {output : Slot}

lemma slots_span (h : tree.Shaped full dt) (hout : output.Spans dt) :
    ∀ s ∈ distinct (output :: tree.trees.filterMap ofLeaf?), ∃ ds, s.Spans ds ∧
      Reduces full ds := by
  intro s hs
  obtain ⟨_, heq, hsub, _⟩ := distinct_cons output (tree.trees.filterMap ofLeaf?)
  rw [heq] at hs
  obtain rfl | hs := mem_cons.1 hs
  · exact ⟨dt, hout, h.reduces⟩
  · obtain ⟨t, ht, hs⟩ := mem_filterMap.1 (hsub s hs)
    exact h.leaves t ht s hs

lemma reduces_cases (h : tree.Shaped full dt) :
    distinct (tree.trees.filter (fun t => t.op.kind == .reduce)) = [] ∧ full = dt ∨
    ∃ r, distinct (tree.trees.filter (fun t => t.op.kind == .reduce)) = [r] ∧
      (∀ t ∈ r.trees, t ∈ tree.trees) ∧
      (∃ t ∈ r.trees, ∃ s, ofLeaf? t = some s) ∧
      ∀ t ∈ r.trees, ∀ s, ofLeaf? t = some s → s.Spans full := by
  obtain ⟨hnone, hfull⟩ | ⟨r, hr, hkind, honly, hrest⟩ := h.whole
  · have hfilter : tree.trees.filter (fun t => t.op.kind == .reduce) = [] := by simpa using hnone
    exact .inl ⟨by rw [hfilter]; rfl, hfull⟩
  · refine .inr
      ⟨r, distinct_copies (fun t ht => ?_) (mem_filter.2 ⟨hr, by simp [hkind]⟩), hrest⟩
    obtain ⟨ht, hkind⟩ := mem_filter.1 ht
    exact honly t ht (eq_of_beq hkind)

lemma fullIndex_spans {reduces : List OpTree} (h : tree.Shaped full dt) (hout : output.Spans dt)
    (hreduces : distinct (tree.trees.filter (fun t => t.op.kind == .reduce)) = reduces) :
    let slots := distinct (output :: tree.trees.filterMap ofLeaf?)
    let early := (reduces.head?.map (fun r => r.trees.filterMap ofLeaf?)).getD []
    ∃ s, slots[(early.head?.bind (fun e => slots.findIdx? (· == e))).getD 0]? = some s ∧
      s.Spans full := by
  intro slots early
  obtain ⟨_, heq, _, hcover⟩ := distinct_cons output (tree.trees.filterMap ofLeaf?)
  obtain ⟨hnone, rfl⟩ | ⟨r, hone, hin, ⟨t, ht, s, hs⟩, hspans⟩ := reduces_cases h
  · have hearly : early = [] := by simp [early, ← hreduces, hnone]
    exact ⟨output, by simp [hearly, slots, heq], hout⟩
  · have hearly : early = r.trees.filterMap ofLeaf? := by simp [early, ← hreduces, hone]
    obtain ⟨e, he⟩ : ∃ e, early.head? = some e := by
      refine isSome_iff_exists.1 (isSome_head?.2 ?_)
      exact ne_nil_of_mem (hearly ▸ mem_filterMap.2 ⟨t, ht, hs⟩)
    obtain ⟨te, hte, hte'⟩ := mem_filterMap.1 (hearly ▸ mem_of_mem_head? he)
    obtain ⟨y, hy, hey⟩ := hcover e (mem_filterMap.2 ⟨te, hin te hte, hte'⟩)
    obtain ⟨i, hi⟩ : ∃ i, slots.findIdx? (· == e) = some i := by
      refine isSome_iff_exists.1 ?_
      rw [findIdx?_isSome, List.any_eq_true]
      exact ⟨y, by rw [← heq] at hy; exact hy, by rw [beq_comm]; exact hey⟩
    obtain ⟨hlt, hsame, _⟩ := findIdx?_eq_some_iff_getElem.1 hi
    obtain ⟨ds, hds, _⟩ := slots_span h hout slots[i] (getElem_mem hlt)
    refine ⟨slots[i], ?_, hds.unique (hspans te hte e hte') hsame ▸ hds⟩
    rw [he, bind_some, hi, getD_some, getElem?_eq_getElem hlt]

lemma layouts_returns {slots : List Slot}
    (h : ∀ s ∈ slots, ∃ ds, s.Spans ds ∧ Reduces full ds) :
    Returns .arithmetic (slots.mapM leafLayout) (Forall₂ (fun s l =>
      ∃ ds, s.Spans ds ∧ Reduces full ds ∧ l.Suits False ds) slots) := by
  refine .mapM fun s hs => ?_
  obtain ⟨ds, hds, hr⟩ := h s hs
  exact hds.leafLayout_returns.weaken fun l hl => ⟨ds, hds, hr, hl⟩

/-- A kernel is made of a tree, unless a word overflows, and its layouts have one rank. -/
lemma ofTree_returns (hd : Extents dt) (hf : Fused Op.Fed Reads dt (.ofTree tree))
    (target : Target) : Returns (.abort .arithmetic) (ofTree tree target)
      (fun k => ∃ rank, ∀ l ∈ k.layouts, l.rank = rank) := by
  obtain ⟨full, hshaped⟩ := OpTree.exists_shaped hf
  have hestimate : Returns .arithmetic tree.estimate (fun e => e.shape = ofInts dt) :=
    (OpTree.estimate_once hf.estimable).weaken fun _ hr => hr.1
  refine hestimate.lift.bind fun estimate _ hshape => ?_
  dsimp only
  generalize hreduces : distinct (tree.trees.filter (fun t => t.op.kind == .reduce)) = reduces
  split
  · rename_i hmany
    obtain ⟨hnone, _⟩ | ⟨r, hone, _⟩ := reduces_cases hshaped
    · simp [← hreduces, hnone] at hmany
    · simp [← hreduces, hone] at hmany
  rw [hshape]
  refine (Layout.ofShape_returns hd).bind fun outLayout _ hout => ?_
  have hout' : (mem { slot := 0, element := estimate.element, layout := outLayout }).Spans
    dt := hout
  refine (layouts_returns (slots_span hshaped hout')).lift.bind fun layouts _ hlayouts => ?_
  split
  · rename_i hrank
    obtain ⟨l, hl, hne⟩ := any_eq_true.1 hrank
    obtain ⟨s, _, ds, _, hds, hs⟩ := exists_of_mem_right hlayouts hl
    simp [Layout.rank, hs.sized.1, hout.sized.1, ofInts, ← hds.length_eq,
      ← hshaped.reduces.length_eq] at hne
  generalize hk : ({
    target, tree, estimate, reduceOp := _, slots := _, layouts, early := _, fullIndex :=
    _ } : Kernel) = k
  have haligned : k.Aligned full := by
    obtain ⟨s, hs, hfull⟩ := fullIndex_spans hshaped hout' hreduces
    obtain ⟨_, hslots, _⟩ := distinct_cons
      (mem { slot := 0, element := estimate.element, layout := outLayout })
      (tree.trees.filterMap ofLeaf?)
    subst hk
    refine ⟨?_, fun l hl => ?_, by simp [hslots], rfl, rfl⟩
    · obtain ⟨l, hl, ds, hds, _, hsuits⟩ := exists_of_getElem? hlayouts hs
      exact ⟨l, hl, hds.unique hfull BEq.rfl ▸ hsuits⟩
    · obtain ⟨_, _, ds, _, hr, hsuits⟩ := exists_of_mem_right hlayouts hl
      exact ⟨ds, hsuits, hr⟩
  refine haligned.reduceLast_returns.lift.bind fun axes _ hp => ?_
  refine (haligned.permuteAll_returns hp).lift.bind fun k' _ hk' => ?_
  refine hk'.withoutOnes_returns.lift.bind fun k'' _ hk'' => ?_
  obtain ⟨_, hk''⟩ := hk''
  exact (mergeAxes_returns hk'').lift

end Kernel

end LazyTensor
