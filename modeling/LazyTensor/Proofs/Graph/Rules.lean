import LazyTensor.Proofs.Graph.Push

/-! Every rule that builds a graph gives the value that is asked for. -/
namespace LazyTensor
open Checked GraphM LazyTensor.Graph List Movement Source Layout

lemma Movement.ofOp?_op_arg (m : Movement) : ofOp? m.op m.arg = some m := by
  cases m <;> rfl

namespace Reading
variable {R : Reading} {g g' : Graph} {p : Rules.Performer} {x y src : Nat} {tree : OpTree}
variable {moves : List Movement} {device : String} {element : Element} {vals : Bindings}
  {op : LoadOp} {shape : Shape} {arg : OpArg} {xs : List Nat}

/-- The second tensor may be read in place of the first. -/
structure Stands (R : Reading) (g : Graph) (x y : Nat) : Prop where
  source : g.Has x
  has : g.Has y
  value : ∀ val, R.Denotes g val → val y = val x
  dims : ∀ ds, R.typed → g.Dims x ds → g.Dims y ds

lemma Stands.refl (h : g.Has x) : R.Stands g x x := ⟨h, h, fun _ _ => rfl, fun _ _ h => h⟩

lemma Stands.mono (h : R.Stands g x y) (hk : g.Extends g') : R.Stands g' x y where
  source := hk.has h.source
  has := hk.has h.has
  value val hv := h.value val (hv.anti hk)
  dims ds hty hd := hk.dims (h.dims ds hty (hk.dims_back h.source hd))

lemma made_of_pending (hg : R.Sound g) (h : g.pending? x = .ok (some tree)) :
    ∃ t, g.find? x = some t ∧ t.op = some tree ∧ R.SoundAt g x t ∧ R.Made g t tree := by
  obtain ⟨_, t, ht, hop⟩ := pending?_eq_ok.1 h
  exact ⟨t, ht, hop, hg.at_id ht, (hg.at_id ht).made tree hop⟩

lemma pending_elementwise (hg : R.Sound g) (h : g.pending? x = .ok (some tree))
    (he : tree.op.isElementwise = true) : (∀ b ∈ tree.buffers, g.Has b) ∧
      (∀ val, R.Denotes g val → val x = R.source val (.ofTree tree)) ∧
      (R.typed → (ofTree tree).Full R.Accepts) ∧
      ∀ ds, R.typed → g.Dims x ds → ∀ b ∈ tree.buffers, g.Dims b ds := by
  obtain ⟨t, ht, hop, hat, hmade⟩ := made_of_pending hg h
  have hlive : ∀ b ∈ tree.buffers, g.Has b := fun b hb => (hat.sources tree hop b hb).2
  obtain ⟨_, hb, hshape, _⟩ := hmade.of_elementwise he
  refine ⟨hlive, fun val hv => ?_, fun hty => (hshape hty).1, fun ds hty hd b hbm => ?_⟩
  · rw [hv.own ht hb (.inl hop) hlive, own_elementwise val he]
  · obtain ⟨tb, htb⟩ := hlive b hbm
    obtain ⟨t', ht', hs⟩ := hd
    cases ht.symm.trans ht'
    exact ⟨tb, htb, (hshape hty).2 b hbm tb htb ▸ hs⟩

lemma pendingMove_spec {m : Movement} (hg : R.Sound g)
    (h : g.pendingMove? x = .ok (some (src, m))) :
    g.pending? x = .ok (some (m.tree src)) ∧ g.Has src ∧ src < x ∧
      (∀ val, R.Denotes g val → val x = R.move m (val src)) ∧
      (R.typed → ∃ ds ds', g.Dims src ds ∧ g.Dims x ds' ∧ m.Suits R.exact ds ds') := by
  simp only [pendingMove?, bind_eq_ok] at h
  obtain ⟨o, ho, h⟩ := h
  split at h
  · rename_i mo arg src' rest
    obtain ⟨m', hm', heq⟩ := Option.map_eq_some_iff.1 (pure_eq_ok.1 h)
    cases heq
    obtain ⟨t, ht, hop, hat, hmade⟩ := made_of_pending hg ho
    obtain ⟨m'', y, b, heq, hb, hsrc, _⟩ := hmade.of_movement rfl
    obtain ⟨hmo, harg, hsrcs⟩ : mo = m''.op ∧ arg = m''.arg ∧ src = y ∧ rest = [] := by
      simpa using heq
    obtain ⟨rfl, rfl⟩ := hsrcs
    subst hmo harg
    rw [ofOp?_op_arg] at hm'
    cases hm'
    obtain ⟨hlt, tx, htx⟩ := hat.sources _ hop src (by simp)
    obtain ⟨hbase, hl, htyped⟩ := hsrc tx htx
    refine ⟨heq ▸ ho, ⟨tx, htx⟩, hlt, fun val hv => ?_, fun hty => ?_⟩
    · exact hv.moved hg ht htx (hb.trans (congrArg some hbase.symm)) hl htyped
    · obtain ⟨ds, ds', hs, hs', hm⟩ := htyped hty
      exact ⟨ds, ds', ⟨tx, htx, hs⟩, ⟨t, ht, hs'⟩, hm⟩
  · cases h

lemma movesWithin_chain {n start : Nat} {out : List Movement} (hg : R.Sound g) (hx : g.Has x)
    (h : g.movesWithin n x moves = .ok (out, start)) :
    ∃ before, out = before ++ moves ∧ g.Has start ∧
      (∀ val, R.Denotes g val → val x = R.moveAll before (val start)) ∧
      (R.typed → ∀ ds', g.Dims x ds' → ∃ ds, g.Dims start ds ∧
        SuitAll R.exact before ds ds') := by
  induction n generalizing x moves with
  | zero => cases h
  | succ n ih =>
    simp only [movesWithin, bind_eq_ok] at h
    obtain ⟨o, ho, h⟩ := h
    have stop : (moves, x) = (out, start) → ∃ before, out = before ++ moves ∧ g.Has start ∧
        (∀ val, R.Denotes g val → val x = R.moveAll before (val start)) ∧
        (R.typed → ∀ ds', g.Dims x ds' →
          ∃ ds, g.Dims start ds ∧ SuitAll R.exact before ds ds') := by
      intro he
      cases he
      exact ⟨[], rfl, hx, fun _ _ => rfl, fun _ ds' hd => ⟨ds', hd, rfl⟩⟩
    cases o with
    | none => exact stop (pure_eq_ok.1 h)
    | some o =>
      obtain ⟨src, m⟩ := o
      simp only [bind_eq_ok] at h
      obtain ⟨_, _, h⟩ := h
      split at h
      · exact stop (pure_eq_ok.1 h)
      · obtain ⟨_, hsrc, _, hval, hdims⟩ := pendingMove_spec hg ho
        obtain ⟨before, rfl, hstart, hchain, htakes⟩ := ih hsrc h
        refine ⟨before ++ [m], by simp, hstart, fun val hv => ?_, fun hty ds' hd => ?_⟩
        · rw [hval val hv, hchain val hv, moveAll_append]
          rfl
        · obtain ⟨es, es', hs, hs', hm⟩ := hdims hty
          cases hs'.unique hd
          obtain ⟨ds, hd, ht⟩ := htakes hty es hs
          obtain ⟨_, _, hex⟩ := hs'
          exact ⟨ds, hd, ht.append ⟨ds', hm, hex.2, rfl⟩⟩

lemma pushable?_some (h : g.pushable? x = .ok (some (moves, tree))) :
    ∃ start, g.movesWithin g.limit x [] = .ok (moves, start) ∧
      g.pending? start = .ok (some tree) ∧ tree.op.isElementwise = true := by
  simp only [pushable?, bind_eq_ok] at h
  obtain ⟨⟨out, start⟩, hmoves, h⟩ := h
  split at h
  · cases h
  obtain ⟨o, hpend, h⟩ := bind_eq_ok.1 h
  cases o with
  | none => cases h
  | some op =>
    obtain ⟨_, _, h⟩ := bind_eq_ok.1 h
    split at h
    · rename_i hif
      rw [Bool.and_eq_true] at hif
      have hsome := pure_eq_ok.1 h
      split at hsome
      · cases hsome
      · cases hsome
        exact ⟨start, hmoves, hpend, hif.1⟩
    · cases h

lemma pushMoves_yields (hp : R.Performs p) (hg : R.Sound g) (hx : g.Has x) :
    Yields R.Keeps g (Rules.pushMoves p x) (fun y g' => R.Stands g' x y) := by
  have hk : R.Keeps g g := .refl hg
  refine .bind_see hk fun o ho => ?_
  cases o with
  | none => exact .pure hk (.refl hx)
  | some o =>
    obtain ⟨moves, op⟩ := o
    obtain ⟨_, hmoves, hpend, he⟩ := pushable?_some ho
    obtain ⟨before, hout, _, hchain, htakes⟩ := movesWithin_chain hg hx hmoves
    obtain rfl : moves = before := by simpa using hout
    obtain ⟨hlive, hvalue, hfull, hdims⟩ := pending_elementwise hg hpend he
    have hleaves : ∀ ds', R.typed → g.Dims x ds' → ∃ ds, Extents ds ∧
        (∀ b ∈ op.buffers, g.Dims b ds) ∧ SuitAll R.exact moves ds ds' := by
      intro ds' hty hd
      obtain ⟨ds, hs, ht⟩ := htakes hty ds' hd
      obtain ⟨_, _, hsz⟩ := id hs
      exact ⟨ds, hsz.2, hdims ds hty hs, ht⟩
    refine (pushInto_yields hp (.ofTree op) hg hlive hfull fun hty => ?_).weaken
      fun y g1 h1 hy => ?_
    · obtain ⟨t, ht⟩ := hx
      obtain ⟨ds', hplain⟩ := (hg.at_id ht).plain hty
      obtain ⟨ds, hex, hl, hm⟩ := hleaves ds' hty ⟨t, ht, hplain.1⟩
      exact ⟨ds, ds', hex, hl, hm⟩
    · refine ⟨h1.2.has hx, hy.has, fun val hv => ?_, fun ds' hty hd => ?_⟩
      · have hv0 := hv.anti h1.2
        rw [hy.value val hv, hchain val hv0, hvalue val hv0]
      · obtain ⟨ds, _, hl, hm⟩ := hleaves ds' hty (h1.2.dims_back hx hd)
        exact hy.dims ds ds' hty hl hm

lemma Fresh.of_shape (op : OpTree) {s : Shape} {layout : Layout}
    (hl : ofShape s = .ok layout) (hs : R.typed → ∃ ds, s.Sized ds)
    (hkind : op.op.kind ≠ .movement) (hlive : ∀ b ∈ op.buffers, g.Has b)
    (hmade : ∀ t : Tensor, t.base = none → t.shape = s → R.Made g t op) :
    Fresh R g
      { device, layout, kind := op.op.kind, op := some op, element, base := none, vals } where
  made tree ht := by
    cases ht
    exact hmade _ rfl (ofShape_shape hl)
  kind tree ht := by
    cases ht
    rfl
  sources tree ht := by
    cases ht
    exact hlive
  movement := ⟨fun h => (hkind h).elim, fun h => by cases h⟩
  base b hb := by cases hb
  loaded h := by cases h
  pending _ := rfl
  whole _ := by
    change ofShape layout.shape = .ok layout
    rw [ofShape_shape hl]
    exact hl
  plain hty := by
    obtain ⟨ds, hs⟩ := hs hty
    exact ⟨ds, .ofShape hs hl⟩
  views := rfl
  children := rfl

lemma load_yields {src : Option Nat} (hg : R.Sound g) (hs : R.typed → ∃ ds, shape.Sized ds)
    (hcopy : R.typed → op = .contiguous → ∀ x, src = some x →
      ∀ tx, g.find? x = some tx →
      tx.shape = shape) :
    Yields R.Keeps g (Graph.load op shape element device arg src vals) (fun id g' =>
      R.Answers g' { op := .load op, arg, srcs := (src.map buffer).toList } id ∧
        ∀ x, src = some x → g.Has x) := by
  have hk : R.Keeps g g := .refl hg
  have make (hlive : ∀ x, src = some x → g.Has x) : Yields R.Keeps g (do
      let layout ← ofShape shape
      create device layout { op := .load op, arg, srcs := (src.map buffer).toList } element
        vals none) (fun id g' =>
      R.Answers g' { op := .load op, arg, srcs := (src.map buffer).toList } id ∧
        ∀ x, src = some x → g.Has x) := by
    refine .bind_fallible hk fun layout hl => ?_
    refine (create_yields hg (.of_shape _ hl hs (by simp [Op.kind]) (fun b hb => ?_)
      fun t hb ht => ?_)).weaken fun id g1 _ ha => ⟨ha, hlive⟩
    · cases src with
      | none => cases hb
      | some x =>
        obtain rfl : b = x := by
          simpa using hb
        exact hlive b rfl
    · exact .load op src rfl rfl hb fun hty hc x hx tx htx =>
        (hcopy hty hc x hx tx htx).trans ht.symm
  refine .bind_get hk (.bind (P := fun _ g' => g' = g)
    (.bind_fallible hk fun _ _ => .pure hk rfl) fun _ g1 _ hq => ?_)
  subst hq
  cases src with
  | none => exact make (by simp)
  | some x =>
    refine .bind (P := fun _ g' => g' = g1 ∧ g1.Has x)
      (.bind_lookup hk fun t ht => .pure hk ⟨rfl, t, ht⟩) fun _ g2 _ hq => ?_
    obtain ⟨rfl, hx⟩ := hq
    exact make fun y hy => by cases hy; exact hx

lemma load_fresh (hop : isShared (.load op) = false) (hg : R.Sound g)
    (hs : R.typed → ∃ ds, shape.Sized ds) :
    Yields R.Keeps g (Graph.load op shape element device arg none vals) (fun id g' =>
      id = g.tensors.length ∧ ∃ t, g'.find? id = some t ∧ t.shape = shape ∧
        t.base = none ∧
        t.op = some { op := .load op, arg, srcs := [] }) := by
  have hk : R.Keeps g g := .refl hg
  refine .bind_get hk (.bind (P := fun _ g' => g' = g)
    (.bind_fallible hk fun _ _ => .pure hk rfl) fun _ g1 _ hq => ?_)
  subst hq
  refine .bind_fallible hk fun layout hl => ?_
  refine .bind_get hk ?_
  simp only [hop, Bool.and_false, Bool.false_eq_true, if_false, Option.filter_none]
  refine .bind (insert_yields hg (.of_shape ⟨.load op, arg, []⟩ hl hs (by simp [Op.kind])
    (by simp) fun t hb _ => ?_) rfl) fun id g2 h2 hq => ?_
  · exact .load op none rfl rfl hb (by simp)
  · exact .pure (Steps.stay h2) ⟨hq.1, _, hq.2.1, ofShape_shape hl, rfl, rfl⟩

lemma contiguous_yields (hg : R.Sound g) :
    Yields R.Keeps g (contiguous x) (fun y g' => R.Stands g' x y) := by
  have hk : R.Keeps g g := .refl hg
  refine .bind_lookup hk fun t ht => .bind_see hk fun o _ => ?_
  split
  · exact .pure hk (.refl ⟨t, ht⟩)
  · refine .bind_see hk fun vals _ => .bind_see hk fun element _ => ?_
    refine (load_yields hg (fun hty => ?_) fun _ _ y hy ty hty => ?_).weaken fun y g1 h1 hq => ?_
    · obtain ⟨ds, hp⟩ := (hg.at_id ht).plain hty
      exact ⟨ds, hp.1⟩
    · cases hy
      cases ht.symm.trans hty
      rfl
    · have hx1 : g1.Has x := h1.2.has ⟨t, ht⟩
      obtain ⟨hval, hdims⟩ := hq.1.copy rfl hx1
      exact ⟨hx1, hq.1.has, hval, hdims⟩

lemma pending_copy {rest : List Source} (hg : R.Sound g)
    (h : g.pending? x = .ok (some { op := .load .contiguous, arg, srcs := .buffer src :: rest })) :
    src < x ∧ R.Stands g x src := by
  obtain ⟨t, ht, hop, hat, hmade⟩ := made_of_pending hg h
  obtain ⟨s, ho, hsrcs, hb, hshape, _⟩ := hmade.of_load rfl
  cases s with
  | none => cases hsrcs
  | some y =>
    cases hsrcs
    obtain ⟨hlt, tx, htx⟩ := hat.sources _ hop src (by simp)
    refine ⟨hlt, ⟨t, ht⟩, ⟨tx, htx⟩, fun val hv => ?_, fun ds hty hd => ?_⟩
    · rw [hv.own ht hb (.inl hop) fun b hbm => (hat.sources _ hop b hbm).2]
      rfl
    · obtain ⟨t', ht', hs⟩ := hd
      cases ht.symm.trans ht'
      exact ⟨tx, htx, hshape hty rfl src rfl tx htx ▸ hs⟩

lemma skipCopy_yields (hg : R.Sound g) (hx : g.Has x) :
    Yields R.Keeps g (Rules.skipCopy x) (fun y g' => R.Stands g' x y) := by
  have hk : R.Keeps g g := .refl hg
  refine .bind_see hk fun o ho => ?_
  cases o with
  | none => exact .pure hk (.refl hx)
  | some src =>
    have hstands : R.Stands g x src := by
      simp only [pushableCopy?, bind_eq_ok] at ho
      obtain ⟨o, hpend, ho⟩ := ho
      split at ho
      · cases ho
      · simp only [bind_eq_ok, pure_eq_ok] at ho
        obtain ⟨_, _, ho⟩ := ho
        split at ho
        · cases ho
          exact (pending_copy hg hpend).2
        · cases ho
      · cases ho
    refine .bind ((removeChild_yields hg).coarsen fun _ h => h.keeps) fun _ g1 h1 _ => ?_
    exact .pure (Steps.stay h1) (hstands.mono h1.2)

/-- How an elementwise operation reads a source. -/
structure Reads (R : Reading) (g : Graph) (x : Nat) (s : Source) : Prop where
  live : ∀ b ∈ s.buffers, g.Has b
  value : ∀ val, R.Denotes g val → R.source val s = val x
  dims : ∀ ds, R.typed → g.Dims x ds → s.Full R.Accepts ∧ ∀ b ∈ s.buffers, g.Dims b ds

lemma elementwiseSource_reads {s : Source} (hg : R.Sound g) (h : g.elementwiseSource x = .ok s) :
    R.Reads g x s := by
  simp only [elementwiseSource, bind_eq_ok, tensor_eq_ok] at h
  obtain ⟨t, ht, h⟩ := h
  have direct : R.Reads g x (.buffer x) := by
    refine ⟨fun b hb => ?_, fun _ _ => rfl, fun ds _ hd => ⟨trivial, fun b hb => ?_⟩⟩
    · obtain rfl : b = x := by simpa using hb
      exact ⟨t, ht⟩
    · obtain rfl : b = x := by simpa using hb
      exact hd
  cases hop : t.op with
  | none =>
    rw [hop] at h
    cases h
    exact direct
  | some op =>
    rw [hop] at h
    obtain ⟨r, hr, h⟩ := bind_eq_ok.1 h
    split at h
    · rename_i hif
      simp only [Bool.and_eq_true, decide_eq_true_eq, Bool.not_eq_true'] at hif
      obtain ⟨⟨⟨_, hkind⟩, _⟩, rfl⟩ := hif
      cases h
      have he := (hg.at_id ht).elementwise hop hkind
      obtain ⟨hlive, hval, hfull, hdims⟩ :=
        pending_elementwise hg (pending?_eq_ok.2 ⟨hr, t, ht, hop⟩) he
      exact ⟨hlive, fun val hv => (hval val hv).symm, fun ds hty hd =>
        ⟨hfull hty, hdims ds hty hd⟩⟩
    · cases h
      exact direct

lemma reads_all {ss : List Source} (h : Forall₂ (R.Reads g) xs ss) :
    (∀ b ∈ buffersAll ss, g.Has b) ∧
      (∀ val, R.Denotes g val → R.sources val ss = xs.map val) ∧
      ∀ ds, R.typed → (∀ x ∈ xs, g.Dims x ds) → FullAll R.Accepts ss ∧
        ∀ b ∈ buffersAll ss, g.Dims b ds := by
  induction h with
  | nil => exact ⟨by simp, fun _ _ => rfl, by simp [FullAll]⟩
  | @cons x s xs ss hx _ ih =>
    obtain ⟨hlive, hval, hdims⟩ := ih
    refine ⟨fun b hb => ?_, fun val hv => ?_, fun ds hty hd => ?_⟩
    · rw [buffersAll, mem_append] at hb
      exact hb.elim (hx.live b) (hlive b)
    · rw [sources, map_cons, hx.value val hv, hval val hv]
    · obtain ⟨hdx, hdxs⟩ := forall_mem_cons.1 hd
      obtain ⟨hfull, hleaf⟩ := hx.dims ds hty hdx
      refine ⟨⟨hfull, (hdims ds hty hdxs).1⟩, fun b hb => ?_⟩
      rw [buffersAll, mem_append] at hb
      exact hb.elim (hleaf b) ((hdims ds hty hdxs).2 b)

lemma stands_all {ys : List Nat} (h : Forall₂ (R.Stands g) xs ys) :
    (∀ y ∈ ys, g.Has y) ∧ (∀ val, R.Denotes g val → ys.map val = xs.map val) ∧
      ∀ ds, R.typed → (∀ x ∈ xs, g.Dims x ds) → ∀ y ∈ ys, g.Dims y ds := by
  induction h with
  | nil => exact ⟨by simp, fun _ _ => rfl, by simp⟩
  | @cons x y xs ys hx _ ih =>
    obtain ⟨hlive, hval, hdims⟩ := ih
    refine ⟨forall_mem_cons.2 ⟨hx.has, hlive⟩, fun val hv => ?_, fun ds hty hd => ?_⟩
    · rw [map_cons, map_cons, hx.value val hv, hval val hv]
    · obtain ⟨hdx, hdxs⟩ := forall_mem_cons.1 hd
      exact forall_mem_cons.2 ⟨hx.dims ds hty hdx, hdims ds hty hdxs⟩

lemma checkShapes_yields {K : Graph → Graph → Prop} [Steps K] {op : Op} (hk : K g g) :
    Yields K g (Rules.checkShapes op shape xs) (fun _ g' => g' = g ∧
      ∀ x ∈ xs, ∃ s, g.shape x = .ok s ∧ (s == shape) = true) := by
  induction xs with
  | nil => exact .pure hk ⟨rfl, by simp⟩
  | cons x xs ih =>
    refine .bind (P := fun _ g' => g' = g ∧ ∃ s, g.shape x = .ok s ∧ (s == shape) = true)
      (.bind_see hk fun s hs => ?_) fun _ g1 _ hq => ?_
    · split
      · exact .throw hk
      · rename_i hsame
        exact .pure hk ⟨rfl, s, hs, by simpa using hsame⟩
    · obtain ⟨rfl, hx⟩ := hq
      exact ih.weaken fun _ g2 _ hq => ⟨hq.1, forall_mem_cons.2 ⟨hx, hq.2⟩⟩

lemma elementwise_yields {op : Op} {srcs : List Nat} (hp : R.Performs p) (hg : R.Sound g)
    (htyped : R.typed → ∃ ds, (Call.elementwise op srcs arg).Typed R.exact g.Dims ds)
    (hadmits : R.typed → R.Admits (.elementwise op srcs arg)) :
    Yields R.Keeps g (Rules.elementwise p op srcs arg)
      (fun id g' => R.Gives g g' (.elementwise op srcs arg) id) := by
  have hk : R.Keeps g g := .refl hg
  unfold Rules.elementwise
  refine .guard hk fun hop => ?_
  cases srcs with
  | nil => exact .throw hk
  | cons first others =>
    dsimp only
    refine .bind (.lookupAll hk) fun _ g0 _ hq => ?_
    obtain ⟨rfl, hlive⟩ := hq
    refine .bind_see hk fun shape hshape => ?_
    refine .bind (checkShapes_yields hk) fun _ g1 _ hq => ?_
    obtain ⟨rfl, _⟩ := hq
    refine .bind_see hk fun vals _ => .bind_get hk ?_
    refine .choice (P := fun ys g' => Forall₂ (R.Stands g') (first :: others) ys)
      (fun _ => .mapM hk (fun _ _ _ _ h hs => hs.mono h.2)
        fun x hx g' h' => pushMoves_yields hp h'.1 (h'.2.has (hlive x hx)))
      (fun _ => .pure hk (forall₂_same.2 fun x hx => .refl (hlive x hx)))
      fun srcs g2 h2 hs => ?_
    have hk2 := Steps.stay h2
    refine .bind_see hk2 fun head _ => .bind_see hk2 fun element _ => ?_
    refine .choice (P := fun _ g' => g' = g2) (fun _ => .see hk2 fun _ _ => rfl)
      (fun _ => .pure hk2 rfl) fun copies g3 _ hq => ?_
    subst hq
    obtain ⟨hlive3, hvals, hdims⟩ := stands_all hs
    have hdims3 : ∀ ds, R.typed → (∀ x ∈ first :: others, g1.Dims x ds) →
        ∀ y ∈ srcs, g3.Dims y ds :=
      fun ds hty hd => hdims ds hty fun x hx => h2.2.dims (hd x hx)
    split
    · refine .bind
        (.mapM hk2 (R := fun x y g' => R.Stands g' x y) (fun _ _ _ _ h hs => hs.mono h.2)
        fun x hx g' h' => skipCopy_yields h'.1 (h'.2.has (hlive3 x hx))) fun ys g4 h4 hys => ?_
      obtain ⟨_, hvals4, hdims4⟩ := stands_all hys
      refine .bind (hp g4 (.elementwise op ys arg) h4.1 (fun hty => ?_) fun hty => ?_)
        fun e g5 h5 he => ?_
      · obtain ⟨ds, hd⟩ := htyped hty
        exact ⟨ds, hdims4 ds hty fun y hy => h4.2.dims (hdims3 ds hty hd y hy)⟩
      · change R.Accepts op ys.length
        rw [← hys.length_eq, ← hs.length_eq]
        exact hadmits hty
      refine (contiguous_yields h5.1).weaken fun id g6 h6 hst => ?_
      refine ⟨hst.has, fun val hv => ?_, fun ds hty hd => ?_, fun _ _ _ h => by cases h; simp⟩
      · have hv5 := hv.anti h6.2
        have hv4 := hv5.anti h5.2
        rw [hst.value val hv, he.value val hv5, call, hvals4 val hv4, hvals val (hv4.anti h4.2)]
        rfl
      · exact hst.dims ds hty (h6.2.dims (he.dims ds hty (hdims4 ds hty fun y hy =>
          h4.2.dims (hdims3 ds hty hd y hy))))
    · refine .bind_see hk2 fun lazySrcs hlazy => .bind_fallible hk2 fun layout hl => ?_
      have hreads : Forall₂ (R.Reads g3) srcs lazySrcs :=
        (mapM_eq_ok.1 hlazy).imp fun _ _ h => elementwiseSource_reads h2.1 h
      obtain ⟨hsl, hsv, hsd⟩ := reads_all hreads
      have hne : lazySrcs ≠ [] := by
        rintro rfl
        cases hreads
        cases hs
      have hshape1 : ∀ ds, R.typed → g1.Dims first ds → shape.Sized ds := by
        intro ds _ hd
        obtain ⟨t, ht, rfl⟩ := shape_eq_ok.1 hshape
        obtain ⟨t', ht', hs'⟩ := hd
        cases ht.symm.trans ht'
        exact hs'
      refine (create_yields h2.1 (.of_shape { op, arg, srcs := lazySrcs } hl (fun hty => ?_) ?_
        hsl fun t hb ht => ?_)).weaken fun id g4 h4 ha => ?_
      · obtain ⟨ds, hd⟩ := htyped hty
        exact ⟨ds, hshape1 ds hty (hd first (by simp))⟩
      · simp only [Op.isElementwise, Bool.not_eq_false', decide_eq_true_eq] at hop
        simp [hop]
      · refine .elementwise (by simpa using hop) hb fun hty => ?_
        obtain ⟨ds, hd⟩ := htyped hty
        obtain ⟨hfull, hbd⟩ := hsd ds hty (hdims3 ds hty hd)
        have haccepts : R.Accepts op lazySrcs.length := by
          rw [← hreads.length_eq, ← hs.length_eq]
          exact hadmits hty
        refine ⟨⟨⟨by simpa using hop, hne, haccepts⟩, hfull⟩, fun b hbm tb htb => ?_⟩
        obtain ⟨tb', htb', hsz⟩ := hbd b hbm
        cases htb.symm.trans htb'
        rw [ht, hsz.1, (hshape1 ds hty (hd first (by simp))).1]
      · obtain ⟨hval, hdim⟩ := ha.elementwise (by simpa using hop) fun b hb =>
          h4.2.has (hsl b hb)
        refine ⟨ha.has, fun val hv => ?_, fun ds hty hd => ?_, fun _ _ _ h => by cases h; simp⟩
        · have hv3 := hv.anti h4.2
          rw [hval val hv, ofTree, source, hsv val hv3, hvals val hv3]
          rfl
        · exact hdim ds hty fun b hb => h4.2.dims ((hsd ds hty (hdims3 ds hty hd)).2 b hb)

end Reading

end LazyTensor
