import LazyTensor.Proofs.Graph.Shapes
import LazyTensor.Proofs.OpTree

/-! The tree of a program before its sources become slots: elementwise operations over tensors of
one shape, and at most one reduce among them, which ends in that shape. -/
namespace LazyTensor
open Checked GraphM LazyTensor.Graph List Shape Source

lemma Reduces.eq_of_prod {ds dt : List Int} (h : Reduces ds dt) (hd : ∀ d ∈ ds, 0 < d)
    (hprod : dt.prod = ds.prod) : dt = ds := by
  have least {ds dt : List Int} (h : Reduces ds dt) (hd : ∀ d ∈ ds, 0 < d) :
      0 < dt.prod ∧ dt.prod ≤ ds.prod := by
    induction h with
    | nil => simp
    | @cons d d' ds dt hdd _ ih =>
      obtain ⟨hpos, hds⟩ := forall_mem_cons.1 hd
      obtain ⟨h0, hle⟩ := ih hds
      rw [prod_cons, prod_cons]
      obtain rfl | rfl := hdd
      · exact ⟨mul_pos hpos h0, mul_le_mul_of_nonneg_left hle hpos.le⟩
      · exact ⟨by omega, by nlinarith⟩
  induction h with
  | nil => rfl
  | @cons d d' ds dt hdd hrest ih =>
    obtain ⟨hpos, hds⟩ := forall_mem_cons.1 hd
    obtain ⟨h0, hle⟩ := least hrest hds
    rw [prod_cons, prod_cons] at hprod
    obtain rfl | rfl := hdd
    · rw [ih hds (Int.eq_of_mul_eq_mul_left hpos.ne' hprod)]
    · have hone : d = 1 := by nlinarith
      subst hone
      rw [ih hds (by omega)]

namespace Source
variable {accepts : Op → Nat → Prop} {leaf leaf' : List Int → Source → Prop} {dt : List Int}
  {s : Source}

/-- What one program computes: elementwise operations over leaves of dimensions `dt`, and over a
reduce to these dimensions of such operations. -/
inductive Fused (accepts : Op → Nat → Prop) (leaf : List Int → Source → Prop)
    (dt : List Int) (s : Source) : Prop
  | flat (above : Over accepts (leaf dt) s)
  | reduced (r : ReduceOp) (ds : List Int) (body : Source) (extents : Extents ds)
      (reduces : Reduces ds dt) (below : Over accepts (leaf ds) body)
      (above : Over accepts
        (fun l => leaf dt l ∨ l = .apply (.reduce r) (.shape (Shape.ofInts dt)) [body]) s)

section
variable (h : Fused accepts leaf dt s)
include h

lemma Fused.imp (hl : ∀ ds l, leaf ds l → leaf' ds l) : Fused accepts leaf' dt s := by
  cases h with
  | flat above => exact .flat (above.imp (hl dt))
  | reduced r ds body he hr below above =>
    exact .reduced r ds body he hr (below.imp (hl ds)) (above.imp fun l => Or.imp_left (hl dt l))

lemma Fused.flat_or_reduced : Over accepts (leaf dt) s ∨
    ∃ r ds body, Extents ds ∧ Reduces ds dt ∧ Over accepts (leaf ds) body ∧
      Over accepts (fun l => leaf dt l ∨ l = .apply (.reduce r) (.shape (ofInts dt)) [body]) s ∧
      ∀ t ∈ (apply (.reduce r) (.shape (ofInts dt)) [body]).trees, t ∈ s.trees := by
  cases h with
  | flat above => exact .inl above
  | reduced r ds body he hr below above =>
    exact above.or_eq.imp_right fun hin => ⟨r, ds, body, he, hr, below, above, hin.2⟩

lemma Fused.mapBuffers {f : Nat → Option Source}
    (hl : ∀ ds l, leaf ds l → (∀ b ∈ l.buffers, b ∈ s.buffers) →
      leaf' ds (l.mapBuffers f)) :
    Fused accepts leaf' dt (s.mapBuffers f) := by
  have flat (above : Over accepts (leaf dt) s) : Fused accepts leaf' dt (s.mapBuffers f) :=
    .flat (above.mapBuffers fun l hleaf hsub => .leaf (hl dt l hleaf hsub))
  cases h with
  | flat above => exact flat above
  | reduced r ds body he hr below above =>
    obtain h | hin := above.or_eq
    · exact flat h
    have hbody : ∀ b ∈ body.buffers, b ∈ s.buffers := fun b hb =>
      hin.1 b (by simpa using hb)
    refine .reduced r ds (body.mapBuffers f) he hr
      (below.mapBuffers fun l hleaf hsub => .leaf (hl ds l hleaf fun b hb => hbody b (hsub b hb)))
      (above.mapBuffers fun l hleaf hsub => .leaf ?_)
    obtain hleaf | rfl := hleaf
    · exact .inl (hl dt l hleaf hsub)
    · exact .inr rfl

end

lemma Fused.unary {op : UnaryOp} {arg : OpArg} (ho : accepts (.unary op) 1)
    (h : Fused accepts leaf dt s) : Fused accepts leaf dt (.apply (.unary op) arg [s]) := by
  have wrap {leaf : Source → Prop} (h : Over accepts leaf s) :
      Over accepts leaf (.apply (.unary op) arg [s]) :=
    .apply rfl (by simp) ho (by simpa using h)
  cases h with
  | flat above => exact .flat (wrap above)
  | reduced r ds body he hr below above => exact .reduced r ds body he hr below (wrap above)

mutual

lemma Full.over {leaf : Source → Prop} {s : Source} (h : s.Full accepts)
    (hl : ∀ b ∈ s.buffers, leaf (.buffer b)) : Over accepts leaf s := by
  cases s with
  | buffer b => exact .leaf (hl b (by simp))
  | apply op arg srcs =>
    obtain ⟨⟨he, hne, hc⟩, hsrcs⟩ := h
    exact .apply he hne hc (FullAll.over hsrcs fun b hb => hl b (by rwa [buffers]))

lemma FullAll.over {leaf : Source → Prop} {ss : List Source} (h : FullAll accepts ss)
    (hl : ∀ b ∈ buffersAll ss, leaf (.buffer b)) : ∀ s ∈ ss, Over accepts leaf s := by
  cases ss with
  | nil => simp
  | cons s ss =>
    exact forall_mem_cons.2 ⟨Full.over h.1 fun b hb => hl b (by simp [hb]),
      FullAll.over h.2 fun b hb => hl b (by simp [hb])⟩

end

end Source

namespace OpTree
variable {tree : OpTree}

lemma mem_unreshaped {b : Nat} (h : b ∈ tree.unreshaped.buffers) : b ∈ tree.buffers := by
  unfold unreshaped at h
  split at h
  · exact mem_append_left _ h
  · exact h

lemma unreshaped_of_kind (h : tree.op.kind ≠ .movement) : tree.unreshaped = tree := by
  unfold unreshaped
  split
  · exact (h rfl).elim
  · rfl

end OpTree

namespace Graph
variable {g g' : Graph} {accepts : Op → Nat → Prop} {ds : List Int} {tree : OpTree}

def Leaf (g : Graph) (ds : List Int) (s : Source) : Prop := ∃ b, s = .buffer b ∧ g.Dims b ds

lemma Leaf.mono {s : Source} (h : g.Leaf ds s) (hk : g.Extends g') : g'.Leaf ds s := by
  obtain ⟨b, rfl, hd⟩ := h
  exact ⟨b, rfl, hk.dims hd⟩

/-- One program computes the tree, and it gives as many elements as the dimensions have. -/
def Computes (g : Graph) (accepts : Op → Nat → Prop) (ds : List Int) (tree : OpTree) : Prop :=
  ∃ dt, Extents dt ∧ dt.prod = ds.prod ∧ Source.Fused accepts g.Leaf dt
    (.ofTree tree.unreshaped)

lemma Computes.mono (h : g.Computes accepts ds tree) (hk : g.Extends g') :
    g'.Computes accepts ds tree := by
  obtain ⟨dt, he, hprod, hf⟩ := h
  exact ⟨dt, he, hprod, hf.imp fun _ _ hl => hl.mono hk⟩

lemma Computes.of_root (hkind : tree.op.kind ≠ .movement) (hd : Extents ds)
    (h : Fused accepts g.Leaf ds (.ofTree tree)) : g.Computes accepts ds tree :=
  ⟨ds, hd, rfl, by rwa [OpTree.unreshaped_of_kind hkind]⟩

lemma Computes.float (hc : accepts (.unary .cast) 1) (h : g.Computes accepts ds tree) :
    g.Computes accepts ds (floatTree tree) := by
  obtain ⟨dt, he, hprod, hf⟩ := h
  refine ⟨dt, he, hprod, ?_⟩
  have whole (hu : tree.unreshaped = tree) (hft : floatTree tree =
      { op := .unary .cast, arg := .cast .float32 false, srcs := [.ofTree tree] }) :
      Fused accepts g.Leaf dt (.ofTree (floatTree tree).unreshaped) := by
    rw [hft, OpTree.unreshaped_of_kind (by simp [Op.kind])]
    exact (hu ▸ hf).unary hc
  obtain ⟨op, arg, srcs⟩ := tree
  by_cases hop : op = .movement .reshape
  · subst hop
    cases srcs with
    | nil => exact whole rfl rfl
    | cons src rest =>
      cases src with
      | apply o a ss => exact Fused.unary hc hf
      | buffer b =>
        -- a reshape of a tensor is no such tree
        have hnot {leaf : Source → Prop} (h : ∀ l, leaf l → l ≠ .ofTree
            { op := .movement .reshape, arg, srcs := .buffer b :: rest }) :
            ¬Over accepts leaf
              (.ofTree { op := .movement .reshape, arg, srcs := .buffer b :: rest }) := by
          intro hover
          cases hover with
          | leaf hl => exact h _ hl rfl
          | apply he => cases he
        cases hf with
        | flat above =>
          refine (hnot ?_ above).elim
          rintro _ ⟨b, rfl, _⟩ heq
          cases heq
        | reduced r es _ _ _ _ above =>
          refine (hnot ?_ above).elim
          rintro _ (⟨b, rfl, _⟩ | rfl) heq <;> cases heq
  · refine whole ?_ ?_
    · unfold OpTree.unreshaped
      split
      · rename_i heq
        exact (hop (congrArg OpTree.op heq)).elim
      · rfl
    · unfold floatTree
      dsimp only
      split
      · exact (hop rfl).elim
      · rfl

end Graph

namespace Reading
variable {R : Reading} {g g' : Graph} {x : Nat} {t : Tensor} {own tree : OpTree} {ds dt : List Int}

section
variable (hg : R.Sound g) (hty : R.typed)
include hg hty

lemma elementwise_leaves (ht : g.find? x = some t)
    (hop : t.op = some own) (he : own.op.isElementwise = true) (hs : t.shape.Sized ds) :
    (ofTree own).Full R.Accepts ∧ ∀ b ∈ own.buffers, g.Dims b ds := by
  have hat := hg.at_id ht
  obtain ⟨_, _, hshape, _⟩ := (hat.made own hop).of_elementwise he
  refine ⟨(hshape hty).1, fun b hb => ?_⟩
  obtain ⟨_, tb, htb⟩ := hat.sources own hop b hb
  exact ⟨tb, htb, (hshape hty).2 b hb tb htb ▸ hs⟩

lemma reduceTree_reduces (ht : g.find? x = some t)
    (hop : t.op = some own) (hkind : t.kind = .reduce) (hs : t.shape.Sized dt)
    (h : g.reduceTree own = .ok tree) : ∃ r es body, Extents es ∧ Reduces es dt ∧
      Over R.Accepts (g.Leaf es) body ∧
      tree = { op := .reduce r, arg := .shape (ofInts dt), srcs := [body] } := by
  obtain ⟨r, y, ty, body, _, _, hy, hshape, rfl, hbody⟩ := reduceTree_eq_ok hg ht hop hkind h
  obtain ⟨es, dt', hes, hdt', hr⟩ := hshape hty
  obtain rfl : dt = dt' := ofInts_inj (hs.1.symm.trans hdt'.1)
  refine ⟨r, es, body, hes.2, hr, ?_, by rw [hs.1]⟩
  obtain rfl | ⟨_, hinner, he, rfl⟩ := hbody
  · exact .leaf ⟨y, rfl, ty, hy, hes⟩
  · obtain ⟨hfull, hleaf⟩ := elementwise_leaves hg hty hy hinner he hes
    exact hfull.over fun b hb => ⟨b, rfl, hleaf b hb⟩

lemma reshapeAll_yields {keys : List Nat} {srcs : List (Nat × Source)}
    (hd : Extents dt) (hkeys : ∀ k ∈ keys, ∃ ds, g.Dims k ds ∧ ds.prod = dt.prod) :
    Yields R.Keeps g (keys.foldlM (fun (srcs : List (Nat × Source)) k => do
        if (srcs.lookup k).isSome then pure srcs
        else return (k, buffer (← Graph.move (.reshape (ofInts dt)) k)) :: srcs) srcs)
      (fun out g' => (∀ k s, out.lookup k = some s → srcs.lookup k = some s ∨
        g'.Leaf dt s) ∧
        ∀ k, k ∈ keys ∨ (srcs.lookup k).isSome = true → (out.lookup k).isSome = true) := by
  induction keys generalizing g srcs with
  | nil => exact .pure (.refl hg) ⟨fun _ _ h => .inl h, by simp⟩
  | cons k keys ih =>
    obtain ⟨⟨es, hes, hprod⟩, hkeys⟩ := forall_mem_cons.1 hkeys
    rw [foldlM_cons]
    split
    · rename_i hsome
      refine (ih hg hkeys).weaken fun out g1 _ hq => ⟨hq.1, fun k' hk' => hq.2 k' ?_⟩
      obtain hk' | hk' := hk'
      · obtain rfl | hk' := mem_cons.1 hk'
        · exact .inr hsome
        · exact .inl hk'
      · exact .inr hk'
    · simp only [bind_assoc, pure_bind]
      have hcall : (Call.move (.reshape (ofInts dt)) k).Typed R.exact g.Dims dt :=
        ⟨es, hes, .of_takes ⟨rfl, hprod⟩, hd⟩
      refine .bind
        (perform_performs g (.move (.reshape (ofInts dt)) k) hg (fun _ => ⟨dt, hcall⟩)
        fun _ => trivial) fun y g1 h1 hy => ?_
      have hyd : g1.Dims y dt := hy.dims dt hty hcall
      refine (ih h1.1 fun k' hk' => ?_).weaken fun out g2 h2 hq =>
        ⟨fun k' s hk' => ?_, fun k' hk' => hq.2 k' ?_⟩
      · obtain ⟨es, hes, hprod⟩ := hkeys k' hk'
        exact ⟨es, h1.2.dims hes, hprod⟩
      · obtain hl | hl := hq.1 k' s hk'
        · by_cases hkk : k' = k
          · subst hkk
            rw [lookup_cons_self] at hl
            cases hl
            exact .inr ⟨y, rfl, h2.2.dims hyd⟩
          · rw [lookup_cons, beq_false_of_ne hkk] at hl
            exact .inl hl
        · exact .inr hl
      · by_cases hkk : k' = k
        · exact .inr (by rw [hkk, lookup_cons_self]; rfl)
        · obtain hk' | hk' := hk'
          · exact .inl ((mem_cons.1 hk').resolve_left hkk)
          · rw [lookup_cons, beq_false_of_ne hkk]
            exact .inr hk'

lemma elementwiseTree_computes (ht : g.find? x = some t)
    (hop : t.op = some own) (he : own.op.isElementwise = true) (hs : t.shape.Sized ds) :
    Yields R.Keeps g (elementwiseTree own t.shape)
      (fun tree g' => g'.Computes R.Accepts ds tree) := by
  obtain ⟨hfull, hleaf⟩ := elementwise_leaves hg hty ht hop he hs
  -- every leaf is replaced, by a tensor of the dimensions `dt` or by the reduce
  have rest (start : List (Nat × Source) × Shape) (dt : List Int) (hinner : start.2 = ofInts dt)
      (hd : Extents dt) (hprod : dt.prod = ds.prod) (leaf : Graph → Source → Prop)
      (hof : ∀ g' s, g'.Leaf dt s → leaf g' s)
        (hmono : ∀ g' s, g.Extends g' → leaf g s → leaf g' s)
      (hstart : ∀ k ∈ own.buffers, ∀ s, start.1.lookup k = some s → leaf g s)
      (hall : ∀ g' s, g.Extends g' → Over R.Accepts (leaf g') s →
        Fused R.Accepts g'.Leaf dt s) :
      Yields R.Keeps g (finishTree own t.shape start)
        (fun tree g' => g'.Computes R.Accepts ds tree) := by
    unfold finishTree
    rw [hinner]
    refine .bind (reshapeAll_yields hg hty hd fun k hkm => ⟨ds, hleaf k (mem_eraseDups.1 hkm),
      hprod.symm⟩) fun srcs g2 h2 hq => .pure (Steps.stay h2) ?_
    have hover : Over R.Accepts (leaf g2) (.ofTree (own.mapBuffers (srcs.lookup ·))) := by
      have hleaves : Over R.Accepts (fun l => ∃ b ∈ own.buffers, l = .buffer b)
          (.ofTree own) := hfull.over fun b hb => ⟨b, hb, rfl⟩
      refine hleaves.mapBuffers fun l hl _ => ?_
      obtain ⟨b, hb, rfl⟩ := hl
      obtain ⟨s, hs⟩ := Option.isSome_iff_exists.1 (hq.2 b (.inl (mem_eraseDups.2 hb)))
      rw [mapBuffers, hs, Option.getD_some]
      obtain hl | hl := hq.1 b s hs
      · exact .leaf (hmono g2 s h2.2 (hstart b hb s hl))
      · exact .leaf (hof g2 s hl)
    refine ⟨dt, hd, hprod, ?_⟩
    split
    · rw [OpTree.unreshaped_of_kind]
      · exact hall g2 _ h2.2 hover
      · rw [OpTree.mapBuffers, of_decide_eq_true he]
        decide
    · exact hall g2 _ h2.2 hover
  refine elementwiseTree_rule hg (rest ([], t.shape) ds hs.1 hs.2 rfl (fun g' => g'.Leaf ds)
    (fun _ _ h => h) (fun _ _ hk h => h.mono hk) (by simp) fun _ _ _ h => .flat h)
    fun {k r tr reduce top ks} hkey hf hrop htop hks => ?_
  obtain ⟨dt, hdt⟩ := hg.sized hf.find hty
  obtain ⟨ro, es, body, hes, hred, hbody, rfl⟩ :=
    reduceTree_reduces hg hty hf.find hrop hf.kind hdt htop
  have hks' : ks = ofInts ds := by
    obtain ⟨tk, htk, rfl⟩ := shape_eq_ok.1 hks
    obtain ⟨tk', htk', hsk⟩ := hleaf k hkey
    cases htk.symm.trans htk'
    exact hsk.1
  have hprod : dt.prod = ds.prod := by
    obtain ⟨s, a, b, hsk, ha, hb, hsame⟩ := hf.same
    cases hks.symm.trans hsk
    rw [hks'] at ha
    rw [hdt.1] at hb
    rw [product_ofInts ha, product_ofInts hb] at hsame
    exact (SymInt.eq_of_num_beq hsame).symm
  refine rest (_, _) dt ?_ hdt.2 hprod
    (fun g' s => g'.Leaf dt s ∨ s = .apply (.reduce ro) (.shape (ofInts dt)) [body])
    (fun _ _ h => .inl h) (fun _ _ hk h => h.imp_left fun h => h.mono hk) (fun c hc s hl => ?_)
    fun g' s hk h => .reduced ro es body hes hred (hbody.imp fun _ h => h.mono hk) h
  · split
    · rename_i hbeq
      rw [hks', hdt.1] at hbeq
      rw [hs.1, eq_of_beq hbeq]
    · exact hdt.1
  · have hmem := mem_of_lookup hl
    obtain hmem | hmem := mem_append.1 hmem
    · -- a leaf of the reduce that the tree reads as well: nothing is reduced
      obtain ⟨c', hc', heq⟩ := mem_map.1 (mem_reverse.1 hmem)
      cases heq
      refine .inl ⟨c, rfl, ?_⟩
      have hcb : c ∈ body.buffers := by
        simpa using hc'
      obtain ⟨l, ⟨b, rfl, hb⟩, hcl⟩ := hbody.mem_buffers hcb
      obtain rfl : c = b := by simpa using hcl
      have hsame : es = ds := hb.unique (hleaf c hc)
      subst hsame
      rw [hred.eq_of_prod (fun d hd => (hes d hd).1) hprod]
      exact hb
    · exact .inr (congrArg Prod.snd (mem_singleton.1 hmem))

end

end Reading

end LazyTensor
