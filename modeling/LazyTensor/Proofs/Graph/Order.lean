import LazyTensor.Graph.Schedule
import LazyTensor.Proofs.Graph.Depth

/-! The order of a schedule. What a tensor reads is visited first and lies below it: less deep, or
as deep and older. So no tensor is met again while it waits. -/
namespace LazyTensor
open Checked GraphM LazyTensor.Graph List Source Steps

lemma Yields.foldlM {α β : Type} {K : Graph → Graph → Prop} [Steps K]
    {f : β → α → GraphM β} {xs : List α} {P : β → Graph → Prop} {g : Graph} {b : β}
    (hk : K g g) (hb : P b g)
    (hf : ∀ x ∈ xs, ∀ b g', K g g' → P b g' → Yields K g' (f b x) P) :
    Yields K g (xs.foldlM f b) P := by
  induction xs generalizing g b with
  | nil => exact .pure hk hb
  | cons x xs ih =>
    refine .bind (hf x (by simp) b g hk hb) fun c g1 h1 hc => ?_
    exact ih (stay h1) hc fun y hy d g' h' hd =>
      hf y (by simp [hy]) d g' (trans h1 h') hd

namespace Source

mutual

lemma mem_mapBuffers {f : Nat → Option Source} {s : Source} {c : Nat}
    (h : c ∈ (s.mapBuffers f).buffers) :
    ∃ b ∈ s.buffers, c ∈ ((f b).getD (.buffer b)).buffers := by
  cases s with
  | buffer b => exact ⟨b, by simp, h⟩
  | apply op arg srcs =>
    exact mem_mapBuffersAll h

lemma mem_mapBuffersAll {f : Nat → Option Source} {ss : List Source} {c : Nat}
    (h : c ∈ buffersAll (mapBuffersAll f ss)) :
    ∃ b ∈ buffersAll ss, c ∈ ((f b).getD (.buffer b)).buffers := by
  cases ss with
  | nil => simp [mapBuffersAll] at h
  | cons s ss =>
    rw [mapBuffersAll, buffersAll, mem_append] at h
    obtain h | h := h
    · obtain ⟨b, hb, hc⟩ := mem_mapBuffers h
      exact ⟨b, by simp [hb], hc⟩
    · obtain ⟨b, hb, hc⟩ := mem_mapBuffersAll h
      exact ⟨b, by simp [hb], hc⟩

end

end Source

def OpTree.Runs (t : OpTree) : Prop := t.unreshaped.op.kind ≠ .load

lemma OpTree.runs_of_kind {t : OpTree}
    (h : t.op.kind = .elementwise ∨ t.op.kind = .reduce ∨ t.op.kind = .buffer) :
    t.Runs := by
  unfold OpTree.Runs unreshaped
  split
  · simp [Op.kind] at h
  · intro hload
    simp [hload] at h

namespace Graph
variable {g : Graph}

lemma floatTree_runs (op : OpTree) : (floatTree op).Runs := by
  unfold floatTree
  split
  · next src rest hop hsrcs =>
    unfold OpTree.Runs OpTree.unreshaped
    simp [hop, ofTree, Op.kind]
  · exact OpTree.runs_of_kind (.inl rfl)

end Graph

namespace Reading
variable {g g' : Graph} {x y z b : Nat} {t : Tensor} {tree : OpTree}
variable {n root k r : Nat} {R : Reading} {own : OpTree} {shape : Shape}
  {Q : OpTree → Graph → Prop}

def Shallower (g : Graph) (a b : Nat) : Prop :=
  ∀ val : Nat → Nat, depth.Denotes g val → val a < val b

/-- The first tensor lies less deep, or as deep and is older. -/
def Below (g : Graph) (a b : Nat) : Prop :=
  ∀ val : Nat → Nat, depth.Denotes g val → val a < val b ∨ val a = val b ∧ a < b

lemma Shallower.below (h : Shallower g x y) : Below g x y := fun val hv => .inl (h val hv)

lemma Shallower.mono (h : Shallower g x y) (hk : g.Extends g') : Shallower g' x y :=
  fun val hv => h val (hv.anti hk)

lemma Below.mono (h : Below g x y) (hk : g.Extends g') : Below g' x y :=
  fun val hv => h val (hv.anti hk)

lemma Below.trans (h : Below g x y) (h' : Below g y z) : Below g x z := by
  intro val hv
  have h1 := h val hv
  have h2 := h' val hv
  omega

lemma Below.irrefl (hg : depth.Sound g) : ¬Below g x x := by
  intro h
  obtain ⟨val, hv⟩ := exists_depth hg
  have hx := h val hv
  omega

lemma below_of_le (hlt : x < y)
    (h : ∀ val : Nat → Nat, depth.Denotes g val → val x ≤ val y) :
    Below g x y := by
  intro val hv
  have := h val hv
  omega

lemma below_base (hg : depth.Sound g) (ht : g.find? x = some t) (hb : t.base = some b) :
    Below g b x :=
  below_of_le ((hg.at_id ht).base b hb).1 fun val hv => (show val x = val b from hv.view ht hb).ge

mutual

lemma depth_source {val : Nat → Nat} {s : Source} (h : b ∈ s.buffers) :
    val b ≤ depth.source val s := by
  cases s with
  | buffer c =>
    obtain rfl : b = c := by simpa using h
    exact le_refl (val b)
  | apply op arg srcs =>
    have hle : val b ≤ deepest (depth.sources val srcs) := depth_sources h
    change val b ≤ 1 + deepest (depth.sources val srcs)
    omega

lemma depth_sources {val : Nat → Nat} {ss : List Source} (h : b ∈ buffersAll ss) :
    val b ≤ deepest (depth.sources val ss) := by
  cases ss with
  | nil => cases h
  | cons s ss =>
    rw [buffersAll, mem_append] at h
    obtain h | h := h
    · exact Nat.le_trans (depth_source h) (Nat.le_max_left _ _)
    · exact Nat.le_trans (depth_sources h) (Nat.le_max_right _ _)

end

lemma depth_tree {val : Nat → Nat} (h : b ∈ tree.buffers) :
    val b < (depth.source val (.ofTree tree) : Nat) := by
  have hle : val b ≤ deepest (depth.sources val tree.srcs) := depth_sources h
  change val b < 1 + deepest (depth.sources val tree.srcs)
  omega

section
variable (hg : depth.Sound g)
include hg

lemma shallower_source (ht : g.find? x = some t) (hop : t.op = some tree)
    (he : tree.op.isElementwise = true) (h : b ∈ tree.buffers) : g.Has b ∧ Shallower g b x := by
  have hat := hg.at_id ht
  have hlive : ∀ c ∈ tree.buffers, g.Has c := fun c hc => (hat.sources tree hop c hc).2
  refine ⟨hlive b h, fun val hv => ?_⟩
  obtain ⟨_, hb, _⟩ := (hat.made tree hop).of_elementwise he
  have hval : val x = depth.source val (.ofTree tree) :=
    (hv.own ht hb (.inl hop) hlive).trans (own_elementwise (R := depth) val he)
  rw [hval]
  exact depth_tree h

lemma below_source (ht : g.find? x = some t) (hb : t.base = none)
    (hop : t.op = some tree) (h : b ∈ tree.buffers) : g.Has b ∧ Below g b x := by
  have hat := hg.at_id ht
  have hlive : ∀ c ∈ tree.buffers, g.Has c := fun c hc => (hat.sources tree hop c hc).2
  refine ⟨hlive b h, ?_⟩
  have hlt := (hat.sources tree hop b h).1
  have hval (val : Nat → Nat) (hv : depth.Denotes g val) : val x = depth.own val x tree :=
    hv.own ht hb (.inl hop) hlive
  cases hat.made tree hop with
  | elementwise he => exact (shallower_source hg ht hop he h).2.below
  | reduce r y heq =>
    refine below_of_le hlt fun val hv => ?_
    subst heq
    obtain rfl : b = y := by simpa using h
    rw [hval val hv]
    exact le_refl (val b)
  | move m y c _ hbase => simp [hb] at hbase
  | load o src ho hsrcs =>
    refine below_of_le hlt fun val hv => ?_
    rw [hval val hv]
    obtain ⟨op, arg, _⟩ := tree
    cases ho
    cases hsrcs
    cases src with
    | none => cases h
    | some y =>
      obtain rfl : b = y := by simpa using h
      cases o with
      | contiguous => exact le_refl (val b)
      | empty | rand | const | custom | copy =>
        exact Nat.le_max_left _ _

lemma rootWithin_depth {copies : Bool} (hx : g.Has x) (h : g.rootWithin copies n x = .ok root) :
    g.Has root ∧ ∀ val : Nat → Nat, depth.Denotes g val → val root = val x := by
  induction n generalizing x with
  | zero => cases h
  | succ n ih =>
    obtain ⟨o, ho, h⟩ := bind_eq_ok.1 h
    split at h
    · rename_i mo arg src rest
      obtain ⟨src', m, hm, _, heq⟩ := pendingMove_of_pending hg ho rfl
      obtain ⟨_, hsrc, _, hval, _⟩ := pendingMove_spec hg hm
      have hs : src = src' := by
        have := congrArg OpTree.srcs heq
        simp at this
        exact this.1
      subst hs
      obtain ⟨hhas, hroot⟩ := ih hsrc h
      exact ⟨hhas, fun val hv => (hroot val hv).trans (hval val hv).symm⟩
    · obtain ⟨ts, _, h⟩ := bind_eq_ok.1 h
      split at h
      · have hst := (pending_copy hg ho).2
        obtain ⟨hhas, hroot⟩ := ih hst.has h
        exact ⟨hhas, fun val hv => (hroot val hv).trans (hst.value val hv)⟩
      · cases h
        exact ⟨hx, fun _ _ => rfl⟩
    · cases h
      exact ⟨hx, fun _ _ => rfl⟩

lemma contiguousRoot_depth (hx : g.Has x) (h : g.contiguousRootWithin n x = .ok root) :
    g.Has root ∧ ∀ val : Nat → Nat, depth.Denotes g val → val root = val x := by
  induction n generalizing x with
  | zero => cases h
  | succ n ih =>
    obtain ⟨o, ho, h⟩ := bind_eq_ok.1 h
    split at h
    · cases h
    · have hst := (pending_copy hg ho).2
      obtain ⟨hhas, hroot⟩ := ih hst.has h
      exact ⟨hhas, fun val hv => (hroot val hv).trans (hst.value val hv)⟩
    · obtain ⟨t, _, h⟩ := bind_eq_ok.1 h
      split at h
      · exact rootWithin_depth hg hx h
      · cases h
        exact ⟨hx, fun _ _ => rfl⟩

end

lemma reduceTree_eq_ok (hg : R.Sound g) (ht : g.find? x = some t) (hop : t.op = some own)
    (hkind : t.kind = .reduce) (h : g.reduceTree own = .ok tree) :
    ∃ r y ty body, own = { op := .reduce r, arg := .shape t.shape, srcs := [.buffer y] } ∧
      t.base = none ∧ g.find? y = some ty ∧
      (R.typed → ∃ ds dt, ty.shape.Sized ds ∧ t.shape.Sized dt ∧ Reduces ds dt) ∧
      tree = { op := .reduce r, arg := .shape t.shape, srcs := [body] } ∧ (body = .buffer y ∨
        ∃ inner, ty.op = some inner ∧ inner.op.isElementwise = true ∧
        body = .ofTree inner) := by
  have hat := hg.at_id ht
  obtain ⟨r, y, rfl, hb, hshape, _⟩ :=
    (hat.made own hop).of_reduce ((hat.kind own hop).symm.trans hkind)
  obtain ⟨_, ty, hty⟩ := hat.sources _ hop y (by simp)
  obtain ⟨s, hs, h⟩ := bind_eq_ok.1 h
  cases nth_eq_ok.1 hs
  obtain ⟨o, ho, h⟩ := bind_eq_ok.1 h
  cases o with
  | none =>
    cases h
    exact ⟨r, y, ty, _, rfl, hb, hty, fun h => hshape h ty hty, rfl, .inl rfl⟩
  | some inner =>
    obtain ⟨ty', hty', h⟩ := bind_eq_ok.1 h
    cases h
    cases hty.symm.trans (tensor_eq_ok.1 hty')
    refine ⟨r, y, ty, _, rfl, hb, hty, fun h => hshape h ty hty, rfl, ?_⟩
    split
    · rename_i hmerge
      simp only [Bool.and_eq_true, decide_eq_true_eq] at hmerge
      obtain ⟨_, ty', hty', hinner⟩ := pending?_eq_ok.1 ho
      cases hty.symm.trans hty'
      exact .inr ⟨inner, hinner, (hg.at_id hty).elementwise hinner hmerge.1.2, rfl⟩
    · exact .inl rfl

lemma reduceTree_leaves (hg : depth.Sound g) (ht : g.find? x = some t) (hop : t.op = some own)
    (hkind : t.kind = .reduce) (h : g.reduceTree own = .ok tree) :
    ∀ b ∈ tree.buffers, g.Has b ∧ Below g b x ∧
      ∀ val : Nat → Nat, depth.Denotes g val → val b ≤ val x := by
  obtain ⟨r, y, ty, _, rfl, hb, hy, _, rfl, hbody⟩ := reduceTree_eq_ok hg ht hop hkind h
  have hlive := (hg.at_id ht).sources _ hop
  obtain ⟨_, hbelow⟩ := below_source (b := y) hg ht hb hop
    (by simp [OpTree.buffers, buffersAll, buffers])
  have hval (val : Nat → Nat) (hv : depth.Denotes g val) : val x = val y :=
    hv.own ht hb (.inl hop) fun c hc => (hlive c hc).2
  intro c hc
  obtain rfl | ⟨inner, hinner, he, rfl⟩ := hbody
  · obtain rfl : c = y := by simpa [OpTree.buffers, buffersAll, buffers] using hc
    exact ⟨⟨ty, hy⟩, hbelow, fun val hv => (hval val hv).ge⟩
  · have hc' : c ∈ inner.buffers := by
      simpa [OpTree.buffers, buffersAll, buffers, ofTree] using hc
    obtain ⟨hhas, hshallow⟩ := shallower_source hg hy hinner he hc'
    refine ⟨hhas, hshallow.below.trans hbelow, fun val hv => ?_⟩
    have := hshallow val hv
    have := hval val hv
    omega

/-- The reduce that is found behind a source: one that is not computed yet, of as many elements. -/
structure Fuses (g : Graph) (k r : Nat) (t : Tensor) : Prop where
  root : g.contiguousRoot k = .ok r
  find : g.find? r = some t
  kind : t.kind = .reduce
  same : ∃ s a b, g.shape k = .ok s ∧ s.product = .ok a ∧ t.shape.product = .ok b ∧
    (a == b) = true

lemma fusable?_some (h : g.fusable? k = .ok (some r)) : ∃ t, Fuses g k r t := by
  simp only [fusable?, bind_eq_ok] at h
  obtain ⟨r', hr', t, ht, _, _, h⟩ := h
  split at h
  · rename_i hcond
    simp only [Bool.and_eq_true, decide_eq_true_eq] at hcond
    simp only [bind_eq_ok, pure_eq_ok] at h
    obtain ⟨s, hs, a, ha, b, hb, _, _, h⟩ := h
    split at h
    · rename_i hall
      cases h
      simp only [Bool.and_eq_true] at hall
      exact ⟨t, hr', tensor_eq_ok.1 ht, hcond.1, s, a, b, hs, ha, hb, hall.1.1⟩
    · cases h
  · cases h

lemma fusedReduce_mem {keys : List Nat} (h : g.fusedReduce keys = .ok (some (k, r))) :
    k ∈ keys ∧ ∃ t, Fuses g k r t := by
  induction keys with
  | nil => cases h
  | cons key keys ih =>
    obtain ⟨o, ho, h⟩ := bind_eq_ok.1 h
    cases o with
    | none =>
      obtain ⟨hk, hr⟩ := ih h
      exact ⟨mem_cons_of_mem _ hk, hr⟩
    | some r' =>
      cases h
      exact ⟨mem_cons_self, fusable?_some ho⟩

/-- How an elementwise tree ends: the sources that nothing stands for yet are brought to a shape,
and the tree to the shape of its tensor. -/
def finishTree (own : OpTree) (shape : Shape) (start : List (Nat × Source) × Shape) :
    GraphM OpTree := do
  let srcs ← own.buffers.eraseDups.foldlM (fun (srcs : List (Nat × Source)) k => do
    if (srcs.lookup k).isSome then pure srcs
    else return (k, Source.buffer (← Graph.move (.reshape start.2) k)) :: srcs) start.1
  let tree := own.mapBuffers (srcs.lookup ·)
  pure (if start.2 == shape then tree
    else { op := .movement .reshape, arg := .shape shape, srcs := [.ofTree tree] })

/-- An elementwise tree starts from nothing, or from the leaves of a reduce, each standing for
itself, and the reduce for the source that it is found behind. -/
lemma elementwiseTree_rule (hg : R.Sound g)
    (hflat : Yields R.Keeps g (finishTree own shape ([], shape)) Q)
    (hfused : ∀ {k r tr reduce top ks}, k ∈ own.buffers → Fuses g k r tr →
      tr.op = some reduce →
      g.reduceTree reduce = .ok top → g.shape k = .ok ks →
      Yields R.Keeps g (finishTree own shape
        ((top.buffers.map fun b => (b, .buffer b)).reverse ++ [(k, .ofTree top)],
          if ks == tr.shape then shape else tr.shape)) Q) :
    Yields R.Keeps g (elementwiseTree own shape) Q := by
  have hk : R.Keeps g g := .refl hg
  refine .bind_get hk ?_
  refine .choice (P := fun o g' => g' = g ∧
      ∀ k r, o = some (k, r) → g.fusedReduce own.buffers.eraseDups = .ok (some (k, r)))
    (fun _ => .see hk fun o ho => ⟨rfl, fun k r hkr => hkr ▸ ho⟩)
      (fun _ => .pure hk ⟨rfl, by simp⟩)
    fun fused g1 _ hq => ?_
  obtain ⟨rfl, hfound⟩ := hq
  cases fused with
  | none => exact hflat
  | some kr =>
    obtain ⟨k, r⟩ := kr
    obtain ⟨hkey, tr, hf⟩ := fusedReduce_mem (hfound k r rfl)
    refine .bind_see hk fun o ho => ?_
    cases o with
    | none => exact hflat
    | some reduce =>
      refine .bind_see hk fun top htop => .bind_see hk fun target htarget =>
        .bind_see hk fun ks hks => ?_
      obtain ⟨_, tr', htr', hrop⟩ := pending?_eq_ok.1 ho
      cases hf.find.symm.trans htr'
      obtain ⟨tr', htr', rfl⟩ := shape_eq_ok.1 htarget
      cases hf.find.symm.trans htr'
      exact hfused (mem_eraseDups.1 hkey) hf hrop htop hks

def Under (g : Graph) (x : Nat) (s : Source) : Prop :=
  ∀ b ∈ s.buffers, g.Has b ∧ Shallower g b x

lemma Under.mono {s : Source} (h : Under g x s) (hk : g.Extends g') : Under g' x s :=
  fun b hb => ⟨hk.has (h b hb).1, (h b hb).2.mono hk⟩

lemma elementwiseTree_yields (hg : depth.Sound g) (ht : g.find? x = some t)
    (hop : t.op = some own) (he : own.op.isElementwise = true) :
    Yields depth.Keeps g (elementwiseTree own shape)
      (fun tree g' => Under g' x (.ofTree tree) ∧ tree.Runs) := by
  have hk : depth.Keeps g g := .refl hg
  have hleaf : ∀ {b}, b ∈ own.buffers → g.Has b ∧ Shallower g b x :=
    fun hb => shallower_source hg ht hop he hb
  have rest (start : List (Nat × Source) × Shape) (hstart : ∀ e ∈ start.1, Under g x e.2) :
      Yields depth.Keeps g (finishTree own shape start)
        (fun tree g' => Under g' x (.ofTree tree) ∧ tree.Runs) := by
    refine .bind (Yields.foldlM (P := fun srcs g' => ∀ e ∈ srcs, Under g' x e.2) hk hstart
      fun k hkm srcs g' h' hsrcs => ?_) fun srcs g2 h2 hsrcs => ?_
    · split
      · exact .pure (stay h') hsrcs
      · obtain ⟨_, hkless⟩ := hleaf (mem_eraseDups.1 hkm)
        refine .bind (perform_performs g' (.move (.reshape start.2) k) h'.1 (fun hty => hty.elim)
          fun _ => trivial)
          fun y g'' h'' hy => .pure (stay h'') (forall_mem_cons.2 ⟨fun b hb => ?_,
            fun e he => (hsrcs e he).mono h''.2⟩)
        obtain rfl : b = y := by simpa using hb
        refine ⟨hy.has, fun val hv => ?_⟩
        have hval : val b = val k := hy.value val hv
        rw [hval]
        exact hkless val ((hv.anti h''.2).anti h'.2)
    · have htree : Under g2 x (.ofTree (own.mapBuffers (srcs.lookup ·))) := by
        intro c hc
        obtain ⟨b, hb, hc⟩ := mem_mapBuffersAll hc
        cases hl : srcs.lookup b with
        | none =>
          rw [hl] at hc
          obtain rfl : c = b := by simpa using hc
          exact ⟨h2.2.has (hleaf hb).1, (hleaf hb).2.mono h2.2⟩
        | some s =>
          rw [hl] at hc
          obtain ⟨_, _, heq, _⟩ := lookup_eq_some_iff.1 hl
          exact hsrcs (b, s) (by simp [heq]) c hc
      refine .pure (stay h2) ?_
      have hkind : own.op.kind = .elementwise := of_decide_eq_true he
      split
      · exact ⟨htree, OpTree.runs_of_kind (.inl hkind)⟩
      · refine ⟨fun c hc => htree c ?_, ?_⟩
        · simpa [ofTree] using hc
        · show own.op.kind ≠ .load
          simp [hkind]
  refine elementwiseTree_rule hg (rest ([], shape) (by simp))
    fun {k r tr reduce top ks} hkey hf hrop htop _ => rest (_, _) fun e he => ?_
  have hunder : ∀ c ∈ top.buffers, g.Has c ∧ Shallower g c x := by
    intro c hc
    obtain ⟨hchas, _, hle⟩ := reduceTree_leaves hg hf.find hrop hf.kind htop c hc
    refine ⟨hchas, fun val hv => ?_⟩
    have h1 := hle val hv
    have h2 := (contiguousRoot_depth hg (hleaf hkey).1 hf.root).2 val hv
    have h3 := (hleaf hkey).2 val hv
    omega
  obtain he | he := mem_append.1 he
  · obtain ⟨c, hc, rfl⟩ := mem_map.1 (mem_reverse.1 he)
    intro b hb
    obtain rfl : b = c := by simpa using hb
    exact hunder b hc
  · obtain rfl : e = (k, .ofTree top) := by simpa using he
    exact fun b hb => hunder b hb

lemma mem_floatTree {op : OpTree} (h : b ∈ (floatTree op).buffers) : b ∈ op.buffers := by
  unfold floatTree at h
  split at h
  · rename_i src rest _ hsrcs
    rw [OpTree.buffers, hsrcs, buffersAll]
    refine mem_append_left _ ?_
    simpa [OpTree.buffers, buffersAll, buffers, ofTree] using h
  · simpa [OpTree.buffers, buffersAll, buffers, ofTree] using h

lemma pendingTree_rule (hg : R.Sound g) (ht : g.find? x = some t)
    (hcopy : own.op = .load .contiguous → Q { op := .unary .noop, srcs := own.srcs } g)
    (helementwise : t.kind = .elementwise → Yields R.Keeps g (elementwiseTree own t.shape) Q)
    (hreduce : t.kind = .reduce → ∀ op, g.reduceTree own = .ok op → Q op g)
    (hother : own.op ≠ .load .contiguous → t.kind ≠ .elementwise →
      t.kind ≠ .reduce → Q own g)
    (hfloat : ∀ {op g g'}, g.Extends g' → Q op g → Q (floatTree op) g') :
    Yields R.Keeps g (pendingTree x own) Q := by
  have hk : R.Keeps g g := .refl hg
  have rest {op : OpTree} {g1 : Graph} (hk1 : R.Keeps g1 g1) (hop : Q op g1) : Yields R.Keeps g1 (do
        if ← see (·.misfitsImage x) then
          if t.base.isSome then throw (.abort .basedElement)
          change x (fun t => { t with element := .float32 })
          pure (floatTree op)
        else pure op) Q := by
    refine .bind_see hk1 fun misfits _ => ?_
    split
    · refine .guard hk1 fun _ => ?_
      have hchange : Yields R.Relinks g1 (change x (fun t => { t with element := .float32 }))
          (fun _ _ => True) :=
        change_yields hk1.1 (fun _ => ⟨rfl, rfl, rfl, rfl, rfl, rfl⟩) (fun _ => rfl)
          (fun _ _ => .inl)
      exact .bind (hchange.coarsen fun _ h => h.keeps) fun _ g2 h2 _ =>
        .pure (stay h2) (hfloat h2.2 hop)
    · exact .pure hk1 hop
  refine .bind_see hk fun t' ht' => ?_
  cases ht.symm.trans (tensor_eq_ok.1 ht')
  dsimp only
  split
  · next hop => exact rest hk (hcopy hop)
  · next hkind _ => exact .bind (helementwise hkind) fun op g1 h1 hop => rest (stay h1) hop
  · next hkind _ => exact .bind_see hk fun op hred => rest hk (hreduce hkind op hred)
  · next hne helem hred => exact rest hk (hother hne helem hred)

lemma pendingTree_yields (hg : depth.Sound g) (ht : g.find? x = some t) (hb : t.base = none)
    (hop : t.op = some own) (hload : own.op.kind = .load → own.op = .load .contiguous) :
    Yields depth.Keeps g (pendingTree x own)
      (fun op g' => (∀ b ∈ op.buffers, g'.Has b ∧ Below g' b x) ∧ op.Runs) := by
  have hown := (hg.at_id ht).kind own hop
  have hdirect : ∀ b ∈ own.buffers, g.Has b ∧ Below g b x :=
    fun b hbm => below_source hg ht hb hop hbm
  refine pendingTree_rule hg ht (fun _ => ⟨hdirect, OpTree.runs_of_kind (.inl rfl)⟩)
    (fun hkind => ?_)
    (fun hkind op hred => ⟨fun b hbm => ?_, ?_⟩) (fun hne helem hred => ⟨hdirect, ?_⟩)
    fun hk hop => ⟨fun b hbm => ?_, floatTree_runs _⟩
  · have he := (hg.at_id ht).elementwise hop hkind
    exact (elementwiseTree_yields hg ht hop he).weaken fun op g1 _ hop =>
      ⟨fun b hbm => ⟨(hop.1 b hbm).1, (hop.1 b hbm).2.below⟩, hop.2⟩
  · obtain ⟨hbhas, hbelow, _⟩ := reduceTree_leaves hg ht hop hkind hred b hbm
    exact ⟨hbhas, hbelow⟩
  · obtain ⟨_, _, _, _, _, _, _, _, rfl, _⟩ := reduceTree_eq_ok hg ht hop hkind hred
    exact OpTree.runs_of_kind (.inr (.inl rfl))
  · refine OpTree.runs_of_kind ?_
    cases hk : own.op.kind with
    | elementwise => exact (helem (hown.trans hk)).elim
    | reduce => exact (hred (hown.trans hk)).elim
    | buffer => exact .inr (.inr rfl)
    | movement =>
      simp [(hg.at_id ht).movement.1 (hown.trans hk), ← Option.not_isSome_iff_eq_none] at hb
    | load => exact (hne (hload hk)).elim
  · obtain ⟨hbhas, hbelow⟩ := hop.1 b (mem_floatTree hbm)
    exact ⟨hk.has hbhas, hbelow.mono hk⟩

end Reading

end LazyTensor
