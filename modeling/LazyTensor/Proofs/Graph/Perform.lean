import LazyTensor.Proofs.Graph.Place

/-! Permutations that are done before the operation that they move, and with them all calls: every
call gives the value that it asks for, under every configuration. -/
namespace LazyTensor
open Checked GraphM LazyTensor.Graph Shape Movement SymInt Option List Steps

namespace Reading
variable {R : Reading} {g g' : Graph} {p : Rules.Performer} {x : Nat} {m : Movement}
variable {op : OpTree} {shape target : Shape}

lemma pendingMove_of_pending {mo : MovementOp} (hg : R.Sound g)
    (h : g.pending? x = .ok (some op)) (hop : op.op = .movement mo) :
    ∃ src m, g.pendingMove? x = .ok (some (src, m)) ∧ m.op = mo ∧ op = m.tree src := by
  obtain ⟨t, _, _, _, hmade⟩ := made_of_pending hg h
  obtain ⟨m, y, b, heq, _⟩ := hmade.of_movement (by rw [hop]; rfl)
  refine ⟨y, m, ?_, by simpa [heq] using hop, heq⟩
  simp only [pendingMove?, bind_eq_ok]
  refine ⟨some (m.tree y), heq ▸ h, ?_⟩
  simp only [tree, ofOp?_op_arg]
  rfl

lemma pending_reduce {r : ReduceOp} (hg : R.Sound g) (h : g.pending? x = .ok (some op))
    (hop : op.op = .reduce r) : ∃ t src, g.find? x = some t ∧ g.Has src ∧ src < x ∧
      op = { op := .reduce r, arg := .shape t.shape, srcs := [.buffer src] } ∧
      (∀ val, R.Denotes g val → val x = R.reduce r t.shape (val src)) ∧
      (R.typed → ∃ ds dt, g.Dims src ds ∧ t.shape.Sized dt ∧ Reduces ds dt) := by
  obtain ⟨t, ht, hto, hat, hmade⟩ := made_of_pending hg h
  obtain ⟨r', src, heq, hb, hshape, _⟩ := hmade.of_reduce (by rw [hop]; rfl)
  obtain rfl : r' = r := by simpa [heq] using hop
  have hmem : src ∈ op.buffers := by simp [heq]
  obtain ⟨hlt, tx, htx⟩ := hat.sources op hto src hmem
  refine ⟨t, src, ht, ⟨tx, htx⟩, hlt, heq, fun val hv => ?_, fun hty => ?_⟩
  · rw [hv.own ht hb (.inl hto) fun b hbm => (hat.sources op hto b hbm).2, heq]
    rfl
  · obtain ⟨ds, dt, hs, hst, hr⟩ := hshape hty tx htx
    exact ⟨ds, dt, ⟨tx, htx, hs⟩, hst, hr⟩

lemma reordered_sized {s s' : Shape} {axes : List Nat} {dt : List Int}
    (h : Rules.reordered s axes = .ok s') (hs : s.Sized dt)
    (hp : axes.Perm (range dt.length)) :
    s'.Sized (axes.map (fun i => dt.getD i 0)) := by
  refine ⟨?_, hs.2.reorder hp⟩
  rw [reordered_eq (a := num 0) h, hs.1, ofInts_map]

section
variable {axes : List Nat}
variable {src : Nat} {target s s' : Shape} {axes' : List Nat} {exact : Prop} {ds dt : List Int}
  {t : Tensor}

lemma pushReduce_yields {r : ReduceOp} {target' : Shape} (hp : R.Performs p) (hg : R.Sound g)
    (hval : ∀ val, R.Denotes g val → val x = R.reduce r target (val src))
    (hdims : R.typed → ∃ ds dt, g.Dims src ds ∧ g.Dims x dt ∧ target.Sized dt ∧
      Reduces ds dt)
    (htarget : Rules.reordered target axes = .ok target')
    (htyped : R.typed → ∃ ds, (Call.move (.permute axes) x).Typed R.exact g.Dims ds) :
    Yields R.Keeps g (do
        let y ← p (.move (.permute axes) src)
        some <$> p (.reduce r y target'))
      (fun o g' => ∀ id, o = some id → R.Gives g g' (.move (.permute axes) x) id) := by
  have hboth : R.typed → ∀ ds', (Call.move (.permute axes) x).Typed R.exact g.Dims ds' →
      ∃ ds dt, g.Dims src ds ∧
      Extents ds ∧ target.Sized dt ∧ Reduces ds dt ∧ axes.Perm (range ds.length) ∧
      ds' = axes.map (fun i => dt.getD i 0) := by
    intro hty ds' ⟨dt, hd, hm, he⟩
    obtain ⟨ds, dt', hs, hx, hst, hr⟩ := hdims hty
    cases hx.unique hd
    obtain ⟨_, _, hsz⟩ := id hs
    exact ⟨ds, dt, hs, hsz.2, hst, hr, hr.length_eq ▸ hm.1.1, hm.1.2⟩
  refine .bind (hp g (.move (.permute axes) src) hg (fun hty => ?_) fun _ => trivial)
    fun y g1 h1 hy => ?_
  · obtain ⟨ds', h⟩ := htyped hty
    obtain ⟨ds, dt, hd, he, _, _, hperm, _⟩ := hboth hty ds' h
    exact ⟨_, ds, hd, .reorder hperm, he.reorder hperm⟩
  refine .map ((hp.instead (c := .reduce r y target') h1.1 .intro htyped (fun hty ds' h => ?_)
    fun val hv => ?_).weaken ?_)
  · obtain ⟨ds, dt, hd, he, hst, hr, hperm, rfl⟩ := hboth hty ds' h
    exact ⟨_, hy.dims _ hty ⟨ds, hd, .reorder hperm, he.reorder hperm⟩,
      reordered_sized htarget hst (hr.length_eq ▸ hperm), Forall₂.reorder hr hperm⟩
  · have hv0 := hv.anti h1.2
    change R.reduce r target' (val y) = R.move (.permute axes) (val x)
    rw [hy.value val hv, hval val hv0]
    refine R.reduce_permute htarget fun hty => ?_
    obtain ⟨ds', h⟩ := htyped hty
    obtain ⟨ds, dt, ⟨ts, hts, hsz⟩, he, hst, hr, hperm, _⟩ := hboth hty ds' h
    exact ⟨ds, dt, he, hst, hr, hr.length_eq ▸ hperm, hv0.fits hty hts hsz⟩
  · rintro id g2 _ hq _ ⟨⟩
    exact hq

lemma pushMove_yields {first : Movement} {second : Shape → Movement} (target : Checked Shape)
    (hp : R.Performs p) (hg : R.Sound g) (hx : Moved R g x src first)
    (htakes : ∀ ds dt, g.Dims src ds → g.Dims x dt → first.Suits R.exact ds dt →
      Extents ds → Extents dt →
      axes.Perm (range dt.length) → axes'.Perm (range ds.length) ∧ ∀ s, target = .ok s →
        (second s).Suits R.exact (axes'.map (fun i => ds.getD i 0))
        (axes.map (fun i => dt.getD i 0)))
    (hlaw : ∀ s, target = .ok s → ∀ v,
      (R.typed → ∃ ds dt, g.Dims src ds ∧ g.Dims x dt ∧
      first.Suits R.exact ds dt ∧ Extents ds ∧ Extents dt ∧ axes.Perm
      (range dt.length) ∧ R.Fits v ds) →
      R.move (second s) (R.move (.permute axes') v) = R.move (.permute axes) (R.move first v))
    (htyped : R.typed → ∃ ds, (Call.move (.permute axes) x).Typed R.exact g.Dims ds) :
    Yields R.Keeps g (do
        let y ← p (.move (.permute axes') src)
        let s ← (liftM target : GraphM Shape)
        some <$> p (.move (second s) y))
      (fun o g' => ∀ id, o = some id → R.Gives g g' (.move (.permute axes) x) id) := by
  have hboth : R.typed → ∀ ds', (Call.move (.permute axes) x).Typed R.exact g.Dims ds' →
      ∃ ds dt, g.Dims src ds ∧
      g.Dims x dt ∧ first.Suits R.exact ds dt ∧ Extents ds ∧ Extents dt ∧
      axes.Perm (range dt.length) ∧
      ds' = axes.map (fun i => dt.getD i 0) := by
    intro hty ds' ⟨dt, hd, hm, he⟩
    obtain ⟨ds, dt', hs, hx, hf⟩ := hx.dims hty
    cases hx.unique hd
    obtain ⟨_, _, hsz⟩ := id hs
    obtain ⟨_, _, hszt⟩ := id hd
    exact ⟨ds, dt, hs, hd, hf, hsz.2, hszt.2, hm.1.1, hm.1.2⟩
  refine .bind (hp g (.move (.permute axes') src) hg (fun hty => ?_) fun _ => trivial)
    fun y g1 h1 hy => ?_
  · obtain ⟨ds', h⟩ := htyped hty
    obtain ⟨ds, dt, hd, hdx, hf, he, het, hperm, _⟩ := hboth hty ds' h
    obtain ⟨hperm', _⟩ := htakes ds dt hd hdx hf he het hperm
    exact ⟨_, ds, hd, .reorder hperm', he.reorder hperm'⟩
  refine .bind_checked (stay h1) fun s hs => ?_
  refine .map ((hp.instead (c := .move (second s) y) h1.1 .intro htyped (fun hty ds' h => ?_)
    fun val hv => ?_).weaken ?_)
  · obtain ⟨ds, dt, hd, hdx, hf, he, het, hperm, rfl⟩ := hboth hty ds' h
    obtain ⟨hperm', hsecond⟩ := htakes ds dt hd hdx hf he het hperm
    exact ⟨_, hy.dims _ hty ⟨ds, hd, .reorder hperm', he.reorder hperm'⟩, hsecond s hs,
      het.reorder hperm⟩
  · have hv0 := hv.anti h1.2
    change R.move (second s) (val y) = R.move (.permute axes) (val x)
    rw [hy.value val hv, hx.value val hv0]
    refine hlaw s hs _ fun hty => ?_
    obtain ⟨ds', h⟩ := htyped hty
    obtain ⟨ds, dt, hd, hdx, hf, he, het, hperm, _⟩ := hboth hty ds' h
    refine ⟨ds, dt, hd, hdx, hf, he, het, hperm, ?_⟩
    obtain ⟨ts, hts, hsz⟩ := hd
    exact hv0.fits hty hts hsz
  · rintro id g2 _ hq _ ⟨⟩
    exact hq

lemma expand_suits (h : Rules.reordered s axes = .ok s')
    (hf : (Movement.expand s).Suits exact ds dt) (hp : axes.Perm (range dt.length)) :
    axes.Perm (range ds.length) ∧ (Movement.expand s').Suits exact
        (axes.map (fun i => ds.getD i 0)) (axes.map (fun i => dt.getD i 0)) := by
  have hperm : axes.Perm (range ds.length) := hf.1.2 ▸ hp
  have hs' : s' = ofInts (axes.map (fun i => dt.getD i 0)) := by
    rw [reordered_eq (a := num 0) h, hf.1.1, ofInts_map]
  exact ⟨hperm, ⟨hs', by simp⟩, fun he => ⟨hs', Forall₂.reorder (hf.2 he).2 hperm⟩⟩

lemma reshape_suits (h : Rules.reordered s axes = .ok s') (hs : s = ofInts dt)
    (hprod : ds.prod = dt.prod) (hp : axes.Perm (range dt.length))
    (hp' : axes'.Perm (range ds.length)) : (reshape s').Suits exact
      (axes'.map (fun i => ds.getD i 0)) (axes.map (fun i => dt.getD i 0)) := by
  refine .of_takes ⟨?_, ?_⟩
  · rw [reordered_eq (a := num 0) h, hs, ofInts_map]
  · rw [prod_reorder hp', prod_reorder hp, hprod]

lemma reshape_prod_of_pending (hg : R.Sound g)
    (h : g.pendingMove? x = .ok (some (src, .reshape target))) (hd : g.Dims src ds)
    (htarget : target = ofInts dt) : ds.prod = dt.prod := by
  obtain ⟨hpend, _⟩ := pendingMove_spec hg h
  obtain ⟨t, ht, hop, _, hmade⟩ := made_of_pending hg hpend
  obtain ⟨ts, hts, hs⟩ := hd
  obtain ⟨m, y, b, heq, hb, hsrc, _⟩ := hmade.of_movement rfl
  obtain ⟨hmo, harg, rfl⟩ : MovementOp.reshape = m.op ∧ OpArg.shape target = m.arg ∧
      src = y := by
    simpa [op, arg] using heq
  cases m <;> simp [op] at hmo
  cases harg
  obtain ⟨_, hl, _⟩ := hsrc ts hts
  exact Layout.reshape_prod hs.1 (htarget ▸ hl)

section
variable (hp : R.Performs p) (hg : R.Sound g) (ht : g.find? x = some t)
  (htyped : R.typed → ∃ ds, (Call.move (.permute axes) x).Typed R.exact g.Dims ds)
include hp hg ht htyped

lemma pushPermute_yields : Yields R.Keeps g (Rules.pushPermute p x t.shape axes)
      (fun o g' => ∀ id, o = some id → R.Gives g g' (.move (.permute axes) x) id) := by
  have hk : R.Keeps g g := .refl hg
  have later {g1 : Graph} (h1 : R.Keeps g g1) {y : GraphM (Option Nat)} (hy : Yields R.Keeps g1 y
      (fun o g' => ∀ id, o = some id → R.Gives g1 g' (.move (.permute axes) x) id)) :
      Yields R.Keeps g1 y (fun o g' => ∀ id, o = some id →
        R.Gives g g' (.move (.permute axes) x) id) :=
    hy.weaken fun o g2 _ hq id hid => (hq id hid).sooner h1.2
  have typed1 {g1 : Graph} (h1 : R.Keeps g g1) (hty : R.typed) :
      ∃ ds, (Call.move (.permute axes) x).Typed R.exact g1.Dims ds := by
    obtain ⟨ds, h⟩ := htyped hty
    exact ⟨ds, Call.Typed.imp h h1.2.dims⟩
  have unchanged : Yields R.Keeps g (pure none)
      (fun o g' => ∀ id, o = some id → R.Gives g g' (.move (.permute axes) x) id) :=
    .pure hk (by simp)
  refine .bind_get hk (.bind_see hk fun o ho => ?_)
  cases o with
  | none => exact unchanged
  | some op =>
    refine .bind_checked hk fun s hs => ?_
    split
    · rename_i r target src hop harg hsrc
      split
      · obtain ⟨t', src', ht', _, _, heq, hval, hdims⟩ := pending_reduce hg ho hop
        cases ht.symm.trans ht'
        subst heq
        cases harg
        obtain rfl : src' = src := by
          cases nth_eq_ok.1 hs
          exact some.inj hsrc
        refine .bind_checked hk fun target' htarget => ?_
        refine .bind ((removeChild_yields hg).coarsen fun _ h => h.keeps) fun _ g1 h1 _ => ?_
        refine later h1 (pushReduce_yields hp h1.1 (fun val hv => hval val (hv.anti h1.2))
          (fun hty => ?_) htarget (typed1 h1))
        obtain ⟨ds, dt, hd, hst, hr⟩ := hdims hty
        exact ⟨ds, dt, h1.2.dims hd, h1.2.dims ⟨t, ht, hst⟩, hst, hr⟩
      · exact unchanged
    · rename_i target src hop harg hsrc
      obtain ⟨src', m, hm, hmo, heq⟩ := pendingMove_of_pending hg ho hop
      subst heq
      obtain rfl : src' = src := by
        cases nth_eq_ok.1 hs
        exact some.inj hsrc
      have hme : m = .expand target := by
        cases m <;> simp [op] at hmo
        simpa [arg] using harg
      subst hme
      refine .bind_checked hk fun target' htarget => ?_
      refine pushMove_yields (.ok target') hp hg (moved_of_pending hg hm)
        (fun ds dt _ _ hf _ _ hperm => ?_) (fun s hs v hv => ?_) htyped
      · obtain ⟨hperm', htakes⟩ := expand_suits htarget hf hperm
        exact ⟨hperm', fun s hs => Except.ok.inj hs ▸ htakes⟩
      · cases hs
        refine R.expand_permute htarget fun hty => ?_
        obtain ⟨ds, dt, _, _, hf, he, het, hperm, hfit⟩ := hv hty
        exact ⟨ds, dt, he, het, hf, hperm, hfit⟩
    · rename_i src hop hsrc
      obtain ⟨src', m, hm, hmo, heq⟩ := pendingMove_of_pending hg ho hop
      subst heq
      obtain rfl : src' = src := by
        cases nth_eq_ok.1 hs
        exact some.inj hsrc
      obtain ⟨target, rfl⟩ : ∃ target, m = .reshape target := by
        cases m <;> simp [op] at hmo
        exact ⟨_, rfl⟩
      have hmoved := moved_of_pending hg hm
      split
      · refine .bind_see hk fun old hold => .bind_checked hk fun groups hgroups => ?_
        cases groups with
        | none => exact unchanged
        | some groups =>
          refine .bind ((removeChild_yields hg).coarsen fun _ h => h.keeps) fun _ g1 h1 _ => ?_
          have hk1 := stay h1
          refine .bind_checked hk1 fun flat hflat => ?_
          have hold1 : ∀ {ds dt}, g1.Dims src' ds → g1.Dims x dt →
              (reshape target).Suits R.exact ds dt → old.Sized ds ∧ target = t.shape := by
            intro ds dt hd hdx hf
            obtain ⟨_, hto, rfl⟩ := shape_eq_ok.1 hold
            obtain ⟨_, hto', hs⟩ := h1.2.dims_back hmoved.has hd
            obtain ⟨tt', htt', hst⟩ := h1.2.dims_back hmoved.source hdx
            cases hto.symm.trans hto'
            cases ht.symm.trans htt'
            exact ⟨hs, hf.1.trans hst.1.symm⟩
          have hprod : ∀ {ds dt}, g1.Dims src' ds → (reshape target).Suits R.exact ds dt →
              ds.prod = dt.prod :=
            fun hd hf => reshape_prod_of_pending hg hm (h1.2.dims_back hmoved.has hd) hf.1
          refine later h1 (pushMove_yields _ hp h1.1 (hmoved.mono h1.2)
            (fun ds dt hd hdx hf he het hperm => ?_) (fun s hs v hv => ?_) (typed1 h1))
          · obtain ⟨hos, rfl⟩ := hold1 hd hdx hf
            rw [hos.1, show t.shape = _ from hf.1] at hgroups
            have hperm' := flatten_perm he het (hprod hd hf) hgroups hflat hperm
            exact ⟨hperm', fun s hs => reshape_suits hs hf.1 (hprod hd hf) hperm hperm'⟩
          · have hcongr : R.move (.reshape target) v = R.move (.reshape t.shape) v := by
              refine R.move_congr fun hty => ?_
              obtain ⟨ds, dt, hd, hdx, hf, _⟩ := hv hty
              rw [(hold1 hd hdx hf).2]
            rw [hcongr]
            refine R.reshape_permute hgroups hflat hs fun hty => ?_
            obtain ⟨ds, dt, hd, hdx, hf, he, het, hperm, hfit⟩ := hv hty
            obtain ⟨hos, rfl⟩ := hold1 hd hdx hf
            exact ⟨ds, dt, hos, het, hf, hperm, hfit⟩
      · exact unchanged
    · exact unchanged

lemma permute_yields : Yields R.Keeps g (Rules.permute p x t.shape axes)
      (fun id g' => R.Gives g g' (.move (.permute axes) x) id) := by
  have hk : R.Keeps g g := .refl hg
  have hdims : R.typed → ∀ ds', (Call.move (.permute axes) x).Typed R.exact g.Dims ds' →
      ∃ ds, g.Dims x ds ∧
      t.shape.Sized ds ∧ axes.Perm (range ds.length) ∧
      ds' = axes.map (fun i => ds.getD i 0) := by
    intro _ ds' ⟨ds, hd, hm, _⟩
    obtain ⟨t', ht', hs⟩ := id hd
    cases ht.symm.trans ht'
    exact ⟨ds, hd, hs, hm.1.1, hm.1.2⟩
  refine .bind_fallible hk fun ones hones => ?_
  split
  · rename_i h1
    subst h1
    refine .bind_checked hk fun s' hs' => ?_
    refine hp.instead hg .intro htyped (fun hty ds' h => ?_) fun val hv => ?_
    · obtain ⟨ds, hd, hs, hperm, rfl⟩ := hdims hty ds' h
      have hsz := reordered_sized hs' hs hperm
      exact ⟨ds, hd, .of_takes ⟨hsz.1, (prod_reorder hperm).symm⟩, hsz.2⟩
    · refine R.permute_ones hones hs' fun hty => ?_
      obtain ⟨ds', h⟩ := htyped hty
      obtain ⟨ds, _, hs, hperm, _⟩ := hdims hty ds' h
      exact ⟨ds, hs, hperm, hv.fits hty ht hs⟩
  · refine .bind_see hk fun o ho => ?_
    cases o with
    | some o =>
      obtain ⟨_, hfirst, hjoin⟩ := merged?_some ho
      exact joined_yields hp hg (moved_of_pending hg hfirst) hjoin htyped
    | none =>
      refine .bind (pushPermute_yields hp hg ht htyped) fun o g1 h1 ho => ?_
      cases o with
      | some y => exact .pure (stay h1) (ho y rfl)
      | none =>
        refine (place_yields hp h1.1 fun hty => ?_).weaken fun id g2 _ hq => hq.sooner h1.2
        obtain ⟨ds, h⟩ := htyped hty
        exact ⟨ds, Call.Typed.imp h h1.2.dims⟩

end

end

lemma bindTarget_yields (hg : R.Sound g) :
    Yields R.Relinks g (bindTarget x shape target) (fun _ _ => True) := by
  have hk : R.Relinks g g := .refl hg
  unfold bindTarget
  dsimp only
  split
  · exact .pure hk trivial
  split
  · refine .bind_checked hk fun total _ => .bind_checked hk fun rest _ => ?_
    split
    · exact .throw hk
    refine .bind_checked hk fun left _ => ?_
    split
    · exact .throw hk
    refine .bind_checked hk fun value _ => .bind_see hk fun base _ => .bind_see hk fun tb _ => ?_
    split
    · split
      · exact change_yields hg (fun _ => ⟨rfl, rfl, rfl, rfl, rfl, rfl⟩) (fun _ => rfl)
          (fun _ _ => .inl)
      · exact .throw hk
    · split
      · exact .throw hk
      · exact .pure hk trivial
  · exact .throw hk

lemma reshape_yields (hp : R.Performs p) (hg : R.Sound g)
    (htyped : R.typed → ∃ ds, (Call.move (.reshape target) x).Typed R.exact g.Dims ds) :
    Yields R.Keeps g (Rules.reshape p x shape target)
      (fun id g' => R.Gives g g' (.move (.reshape target) x) id) := by
  have typed1 {g1 : Graph} (h1 : R.Keeps g g1) (hty : R.typed) :
      ∃ ds, (Call.move (.reshape target) x).Typed R.exact g1.Dims ds := by
    obtain ⟨ds, h⟩ := htyped hty
    exact ⟨ds, Call.Typed.imp h h1.2.dims⟩
  refine .bind ((bindTarget_yields hg).coarsen fun _ h => h.keeps) fun _ g1 h1 _ => ?_
  refine .bind_see (stay h1) fun o ho => ?_
  cases o with
  | some o =>
    obtain ⟨_, hfirst, hjoin⟩ := merged?_some ho
    refine .bind ((removeChild_yields h1.1).coarsen fun _ h => h.keeps) fun _ g2 h2 _ => ?_
    exact (joined_yields hp h2.1 ((moved_of_pending h1.1 hfirst).mono h2.2) hjoin
      (typed1 (trans h1 h2))).weaken fun id g3 _ hq => hq.sooner (h1.2.trans h2.2)
  | none =>
    exact (place_yields hp h1.1 (typed1 h1)).weaken fun id g2 _ hq => hq.sooner h1.2

section
variable (hp : R.Performs p) (hg : R.Sound g)
  (htyped : R.typed → ∃ ds, (Call.move m x).Typed R.exact g.Dims ds)
include hp hg htyped

lemma mergedOrPlaced_yields : Yields R.Keeps g (do
      match ← see (·.merged? x m) with
      | some (src, m) => p (.move m src)
      | none => Rules.place p x m) (fun id g' => R.Gives g g' (.move m x) id) := by
  refine .bind_see (.refl hg) fun o ho => ?_
  cases o with
  | some o =>
    obtain ⟨_, hfirst, hjoin⟩ := merged?_some ho
    exact joined_yields hp hg (moved_of_pending hg hfirst) hjoin htyped
  | none => exact place_yields hp hg htyped

lemma move_yields :
    Yields R.Keeps g (Rules.move p m x) (fun id g' => R.Gives g g' (.move m x) id) := by
  have hk : R.Keeps g g := .refl hg
  have trivial {t : Tensor} (ht : g.find? x = some t) (h : m.isTrivial t.shape = .ok true) :
      R.Gives g g (.move m x) x := by
    have hdims : ∀ ds', (Call.move m x).Typed R.exact g.Dims ds' → ∃ ds, g.Dims x ds ∧
        t.shape.Sized ds ∧
        m.Suits R.exact ds ds' := by
      intro ds' ⟨ds, hd, hm, _⟩
      obtain ⟨t', ht', hs⟩ := id hd
      cases ht.symm.trans ht'
      exact ⟨ds, hd, hs, hm⟩
    refine ⟨⟨t, ht⟩, fun val hv => ?_, fun ds' hty h' => ?_, fun _ _ _ h => by cases h⟩
    · refine (R.move_trivial h fun hty => ?_).symm
      obtain ⟨ds', h'⟩ := htyped hty
      obtain ⟨ds, _, hs, hm⟩ := hdims ds' h'
      exact ⟨ds, ds', hs, hm, hv.fits hty ht hs⟩
    · obtain ⟨ds, hd, hs, hm⟩ := hdims ds' h'
      exact hm.1.trivial hs h ▸ hd
  refine .bind_lookup hk fun t ht => .bind_fallible hk fun _ _ => ?_
  have nontrivial {rest : GraphM Nat}
      (h : Yields R.Keeps g rest (fun id g' => R.Gives g g' (.move m x) id)) :
      Yields R.Keeps g (do if ← m.isTrivial t.shape then pure x else rest)
        (fun id g' => R.Gives g g' (.move m x) id) := by
    refine .bind_checked hk fun b hb => ?_
    split
    · rename_i htrue
      exact .pure hk (trivial ht (htrue ▸ hb))
    · exact h
  cases m with
  | permute _ => exact .guard hk fun _ => nontrivial (permute_yields hp hg ht htyped)
  | reshape _ => exact nontrivial (reshape_yields hp hg htyped)
  | expand _ | pad _ | shrink _ | stride _ => exact nontrivial (mergedOrPlaced_yields hp hg htyped)

end

/-- A rule gives what its call asks for, if the calls that it makes do. -/
lemma apply_performs (hp : R.Performs p) : R.Performs (Rules.apply p) := by
  intro g call hg htyped hadmits
  cases call with
  | elementwise op _ arg => exact elementwise_yields hp hg htyped hadmits
  | reduce op x _ => exact reduce_yields hp hg htyped
  | move m x => exact move_yields hp hg htyped

lemma performWithin_performs (n : Nat) : R.Performs (performWithin n) := by
  induction n with
  | zero => exact fun g call hg _ _ => .throw (.refl hg)
  | succ n ih => exact apply_performs ih

/-- Every call gives the value that it asks for. -/
lemma perform_performs : R.Performs perform := by
  intro g call hg htyped hadmits
  exact .bind_get (.refl hg) (performWithin_performs _ g call hg htyped hadmits)

end Reading

end LazyTensor
