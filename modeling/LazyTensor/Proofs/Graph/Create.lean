import LazyTensor.Proofs.Graph.Sound
import LazyTensor.Proofs.OpTree

/-! Putting tensors into a graph, and finding again those that were made before. -/
namespace LazyTensor
open Checked GraphM Source LazyTensor.Graph Steps
variable {ss ts : List Source} {a b : OpTree} {g g' : Graph} {x : Nat} {ds : List Int}

lemma mem_insertAsc {n m : Nat} {ns : List Nat} : m ∈ insertAsc n ns ↔ m = n ∨ m ∈ ns := by
  induction ns with
  | nil => simp [insertAsc]
  | cons k ks ih =>
    rw [insertAsc]
    split
    · simp
    · split
      · rename_i h
        subst h
        simp
      · simp only [List.mem_cons, ih]
        tauto

lemma Source.buffersAll_of_same (h : sameAll ss ts = true) : buffersAll ss = buffersAll ts := by
  have hall {ss ts : List Source} (h : List.Forall₂ (fun s t => s.buffers = t.buffers) ss ts) :
      buffersAll ss = buffersAll ts := by
    induction h with
    | nil => rfl
    | cons h _ ih => rw [buffersAll, buffersAll, h, ih]
  exact hall (of_sameAll (P := fun s t => s.buffers = t.buffers) (fun _ => rfl)
    (fun _ _ _ _ _ _ h => hall h) h)

/-- Trees that are taken for the same one when a tensor is looked up. -/
structure OpTree.Matches (a b : OpTree) : Prop where
  op : a.op = b.op
  arg : a.arg = b.arg ∨ (a.arg == b.arg) = true
  srcs : a.srcs = b.srcs ∨ Source.sameAll a.srcs b.srcs = true

lemma OpTree.Matches.refl (a : OpTree) : a.Matches a := ⟨rfl, .inl rfl, .inl rfl⟩

lemma OpTree.matches_of_beq (h : (a == b) = true) : a.Matches b := by
  change (ofTree a).same (ofTree b) = true at h
  rw [ofTree, ofTree, same, Bool.and_eq_true, Bool.and_eq_true] at h
  exact ⟨eq_of_beq h.1.1, .inr h.1.2, .inr h.2⟩

lemma OpTree.Matches.buffers (h : a.Matches b) : a.buffers = b.buffers := by
  rw [OpTree.buffers, OpTree.buffers]
  obtain h | h := h.srcs
  · rw [h]
  · exact buffersAll_of_same h

lemma CacheKey.op_of_beq {a b : CacheKey} (h : (a == b) = true) : (a.op == b.op) = true := by
  obtain ⟨d, e, o, v, p⟩ := a
  obtain ⟨d', e', o', v', p'⟩ := b
  change (d == d' && (e == e' && (o == o' && (v == v' && p == p')))) = true at h
  simp only [Bool.and_eq_true] at h
  exact h.2.2.1

namespace Reading
variable {R : Reading}

lemma sources_of_same (val : Nat → R.Value) (h : sameAll ss ts = true) :
    R.sources val ss = R.sources val ts := by
  have hall {ss ts : List Source}
      (h : List.Forall₂ (fun s t => R.source val s = R.source val t) ss ts) :
      R.sources val ss = R.sources val ts := by
    induction h with
    | nil => rfl
    | cons h _ ih => rw [sources, sources, h, ih]
  refine hall (of_sameAll (P := fun s t => R.source val s = R.source val t) (fun _ => rfl)
    (fun op _ _ _ _ harg h => ?_) h)
  rw [source, source, hall h, R.elementwise_congr harg]

lemma source_of_matches (val : Nat → R.Value) (h : a.Matches b) :
    R.source val (.ofTree a) = R.source val (.ofTree b) := by
  rw [ofTree, ofTree, source, source, h.op]
  have harg (vs : List R.Value) : R.elementwise b.op a.arg vs = R.elementwise b.op b.arg vs := by
    obtain h | h := h.arg
    · rw [h]
    · exact R.elementwise_congr h
  have hsrcs : R.sources val a.srcs = R.sources val b.srcs := by
    obtain h | h := h.srcs
    · rw [h]
    · exact sources_of_same val h
  rw [hsrcs, harg]

/-- Only links, bindings and element types change. -/
structure Relinks (R : Reading) (g g' : Graph) : Prop where
  keeps : R.Keeps g g'
  length : g'.tensors.length = g.tensors.length
  cache : g'.cache = g.cache

instance : Steps R.Relinks where
  trans h h' := ⟨trans h.keeps h'.keeps, h'.length.trans h.length, h'.cache.trans h.cache⟩
  stay h := ⟨stay h.keeps, rfl, rfl⟩

lemma Relinks.refl (hg : R.Sound g) : R.Relinks g g := ⟨.refl hg, rfl, rfl⟩

section
variable {g : Graph} {id x : Nat} {t : Tensor}
variable {f : Tensor → Tensor} {base : Option Nat}

lemma change_yields (hg : R.Sound g) (hf : ∀ t : Tensor, t.Alike (f t))
    (hviews : ∀ t : Tensor, (f t).views = t.views)
    (hchildren : ∀ t : Tensor, ∀ c ∈ (f t).children, c ∈ t.children ∨ g.Has c) :
    Yields R.Relinks g (change id f) (fun _ _ => True) := by
  refine .bind_get (.refl hg) (.bind_checked (.refl hg) fun g' hup => ?_)
  have hk := hg.update hf hviews hchildren hup
  obtain ⟨_, _, rfl⟩ := update_eq_ok.1 hup
  exact .set ⟨hk, by simp, rfl⟩ trivial

lemma addChild_yields (hg : R.Sound g) (hx : g.Has x) :
    Yields R.Relinks g (addChild id x) (fun _ _ => True) := by
  refine change_yields hg (fun _ => ⟨rfl, rfl, rfl, rfl, rfl, rfl⟩) (fun _ => rfl)
    fun t c hc => ?_
  obtain rfl | hc := mem_insertAsc.1 hc
  · exact .inr hx
  · exact .inl hc

lemma removeChild_yields (hg : R.Sound g) :
    Yields R.Relinks g (removeChild id x) (fun _ _ => True) :=
  change_yields hg (fun _ => ⟨rfl, rfl, rfl, rfl, rfl, rfl⟩) (fun _ => rfl)
    fun _ _ hc => .inl (List.mem_filter.1 hc).1

lemma Announces.change (ht : g.find? id = some t) (hf : ∀ t : Tensor, t.Alike (f t))
    (hchildren : ∀ c ∈ (f t).children, c ∈ t.children ∨ c = g.tensors.length)
    (hviews : ∀ v, v ∈ (f t).views ↔ v ∈ t.views ∨ v = g.tensors.length ∧
      base = some id)
    (hbase : ∀ x, base = some x → x = id) :
    Announces base g { g with tensors := g.tensors.set id (some (f t)) } := by
  refine ⟨.update hf (update_eq_ok.2 ⟨t, ht, rfl⟩), by simp, rfl,
    fun {x tx tx'} hx hx' => ?_⟩
  rw [find?_set (lt_of_find? ht)] at hx'
  by_cases hid : x = id
  · subst hid
    rw [if_pos rfl] at hx'
    cases hx'
    cases ht.symm.trans hx
    exact ⟨hchildren, hviews⟩
  · rw [if_neg hid] at hx'
    cases hx.symm.trans hx'
    refine ⟨fun _ hc => .inl hc, fun v =>
      ⟨.inl, fun hv => hv.elim (fun h => h) fun h => ?_⟩⟩
    exact (hid (hbase x h.2)).elim

lemma announce_run {ids : List Nat} (hids : ∀ b ∈ ids, g.Has b) :
    ∃ g', Announces none g g' ∧ (ids.forM (addChild · g.tensors.length)).runOn g =
      (.ok (), g') := by
  induction ids generalizing g with
  | nil => exact ⟨g, .refl g, rfl⟩
  | cons b ids ih =>
    obtain ⟨⟨tb, htb⟩, hids⟩ := List.forall_mem_cons.1 hids
    have h1 : Announces none g _ := .change (f := fun t =>
        { t with children := insertAsc g.tensors.length t.children }) htb
      (fun _ => ⟨rfl, rfl, rfl, rfl, rfl, rfl⟩) (fun c hc => (mem_insertAsc.1 hc).symm)
        (by simp) (by simp)
    obtain ⟨g2, h2, hrun⟩ := ih fun c hc => h1.grows.has (hids c hc)
    refine ⟨g2, h1.trans h2, ?_⟩
    rw [h1.length] at hrun
    change (addChild b _ >>= fun _ => ids.forM _).runOn g = _
    rw [runOn_bind, addChild, runOn_change htb]
    exact hrun

lemma insert_run (hg : R.Sound g) (hn : Fresh R g t) : ∃ g', Announces t.base g g' ∧
    (insert t).runOn g = (.ok g.tensors.length, { g' with tensors := g'.tensors ++ [some t] }) := by
  have hsources : ∀ b ∈ (t.op.map OpTree.buffers).getD [], g.Has b := by
    cases hop : t.op with
    | none => simp
    | some tree => exact hn.sources tree hop
  obtain ⟨g1, h1, hrun⟩ := announce_run hsources
  rw [GraphM.insert, runOn_bind, runOn_get]
  dsimp only
  rw [runOn_bind, hrun]
  cases hb : t.base with
  | none =>
    have hkind : t.kind ≠ .movement := fun hm => by simpa [hb] using hn.movement.1 hm
    refine ⟨g1, h1, ?_⟩
    simp only [hkind, if_false, Layout.ofShape_contiguous (hn.whole hb)]
    rfl
  | some b =>
    obtain ⟨tb, htb, hnone, _⟩ := hn.base b hb
    obtain ⟨tb1, htb1, ha⟩ := h1.grows.keeps htb
    have hkind : tb1.kind ≠ .movement := by
      rw [ha.kind]
      intro hm
      simpa [hnone] using (hg.at_id htb).movement.1 hm
    have h2 : Announces (some b) g1 _ := .change (f := fun t =>
        { t with views := insertAsc g.tensors.length t.views }) htb1
      (fun _ => ⟨rfl, rfl, rfl, rfl, rfl, rfl⟩) (fun _ => .inl)
      (fun v => by rw [mem_insertAsc, h1.length]; simp [or_comm]) (by simp)
    refine ⟨_, h1.trans h2, ?_⟩
    rw [if_pos (hn.movement.2 (by simp [hb]))]
    dsimp only
    rw [runOn_bind, runOn_see, tensor_eq_ok.2 htb1]
    dsimp only [Except.mapError]
    rw [if_neg hkind, runOn_bind, runOn_change htb1]
    rfl

lemma insert_yields (hg : R.Sound g) (hn : Fresh R g t) (hnew : t.realized = none) :
    Yields R.Keeps g (insert t) (fun id g' => id = g.tensors.length ∧ g'.find? id = some t ∧
      g'.cache = g.cache) := by
  obtain ⟨g', ha, hrun⟩ := insert_run hg hn
  refine .of_run hrun (.append (hg.append ha hn) ha hnew) ⟨rfl, ?_, ha.cache⟩
  rw [find?_append, if_pos ha.length.symm]

lemma Sound.cache_cons {key : CacheKey} (hg : R.Sound g) (ht : g.find? id = some t)
    (hop : t.op.isSome = true) (hk : R.KeyedAt g key id t) (hnew : ∀ k, (k, id) ∉ g.cache) :
    R.Keeps g { g with cache := (key, id) :: g.cache } := by
  have he : g.Extends { g with cache := (key, id) :: g.cache } :=
    ⟨rfl, rfl, le_rfl, fun h => ⟨_, h, .refl _⟩, fun _ h => ⟨_, h, .refl _⟩,
      fun _ h => List.mem_cons_of_mem _ h⟩
  have hid := lt_of_find? ht
  refine .of_length ⟨fun h => (hg.at_id h).mono he (.refl _), hg.linked.same rfl,
    fun {k x tx} hmem hx => ?_,
    fun {k x} hmem => ?_, fun {k k' x} hmem hmem' => ?_⟩ he rfl fun {k x} hmem => ?_
  · obtain heq | hmem := List.mem_cons.1 hmem
    · cases heq
      cases ht.symm.trans hx
      exact hk.mono he (.refl _) hid
    · exact (hg.keyed hmem hx).mono he (.refl _) (hg.fresh hmem)
  · obtain heq | hmem := List.mem_cons.1 hmem
    · cases heq
      exact hid
    · exact hg.fresh hmem
  · obtain heq | hmem := List.mem_cons.1 hmem <;> obtain heq' | hmem' := List.mem_cons.1 hmem'
    · cases heq
      cases heq'
      rfl
    · cases heq
      exact (hnew _ hmem').elim
    · cases heq'
      exact (hnew _ hmem).elim
    · exact hg.once hmem hmem'
  · obtain heq | hmem := List.mem_cons.1 hmem
    · cases heq
      exact .inr ⟨t, ht, hop⟩
    · exact .inl hmem

/-- The tensor was made by a tree that matches the one asked for. -/
def Answers (R : Reading) (g : Graph) (op : OpTree) (id : Nat) : Prop :=
  ∃ t tree, g.find? id = some t ∧ Records g id t tree ∧ tree.Matches op ∧
    R.Made g t tree ∧
    t.kind = op.op.kind

lemma create_yields {device : String} {layout : Layout} {op : OpTree} {element : Element}
    {vals : Bindings} (hg : R.Sound g)
    (hn : Fresh R g { device, layout, kind := op.op.kind, op := some op, element, base,
                      vals := if base.isSome then [] else vals }) :
    Yields R.Keeps g (create device layout op element vals base)
      (fun id g' => R.Answers g' op id) := by
  have hk : R.Keeps g g := .refl hg
  refine .bind_get hk ?_
  dsimp only
  split
  · rename_i k id hhit
    obtain ⟨hfind, hlive⟩ := Option.filter_eq_some_iff.1 hhit
    have hshared : (g.config.cache && isShared op.op) = true := by
      by_contra hno
      rw [if_neg hno] at hfind
      cases hfind
    rw [if_pos hshared] at hfind
    have hmem := List.mem_of_find?_eq_some hfind
    have hsame := List.find?_some hfind
    have hmatch := OpTree.matches_of_beq (CacheKey.op_of_beq hsame)
    obtain ⟨t, ht⟩ := Option.isSome_iff_exists.1 hlive
    have hkeyed := hg.keyed hmem ht
    refine .bind ((Yields.forM (K := R.Relinks) (.refl hg)
      (fun b _ g' h' => addChild_yields h'.keeps.1 (h'.keeps.grows.has ⟨t, ht⟩))).coarsen
        fun _ h => h.keeps) fun _ g1 h1 _ => ?_
    obtain ⟨t', ht', ha⟩ := h1.2.keeps ht
    have hkeyed' := hkeyed.mono h1.2 ha (hg.fresh hmem)
    refine .pure (stay h1) ⟨t', k.op, ht', .inr ⟨k, h1.2.cache _ hmem, rfl⟩,
      hmatch, hkeyed'.made, ?_⟩
    rw [hkeyed'.kind, hmatch.op]
  · refine .bind (insert_yields hg hn rfl) fun id g1 h1 hq => ?_
    obtain ⟨hid, ht, hcache⟩ := hq
    have hat := h1.1.at_id ht
    have hans : ∀ g', R.Keeps g1 g' → R.Answers g' op id := by
      intro g' h'
      obtain ⟨t', ht', ha⟩ := h'.2.keeps ht
      have hop : t'.op = some op := ha.op
      exact ⟨t', op, ht', .inl hop, .refl op, (h'.1.at_id ht').made op hop, ha.kind⟩
    split
    · have hnew : ∀ k, (k, id) ∉ g1.cache := by
        intro k hmem
        have := hg.fresh (hcache ▸ hmem)
        omega
      refine .bind (.modify (Q := fun _ _ => True) (h1.1.cache_cons ht rfl
        ⟨hat.made op rfl, rfl, fun b hb => (hat.sources op rfl b hb).1, fun tree htree => ?_⟩
          hnew) trivial) fun _ g2 h2 _ => ?_
      · cases htree
        rfl
      · exact .pure (stay h2) (hans g2 h2)
    · exact .pure (stay h1) (hans g1 (stay h1))

end

end Reading

def Graph.Dims (g : Graph) (x : Nat) (ds : List Int) : Prop :=
  ∃ t, g.find? x = some t ∧ t.shape.Sized ds

lemma Graph.Extends.dims (h : g.Extends g') (hx : g.Dims x ds) : g'.Dims x ds := by
  obtain ⟨t, ht, hs⟩ := hx
  obtain ⟨t', ht', ha⟩ := h.keeps ht
  exact ⟨t', ht', ha.shape ▸ hs⟩

lemma Graph.Extends.dims_back (h : g.Extends g')
    (hx : g.Has x) (hd : g'.Dims x ds) : g.Dims x ds := by
  obtain ⟨t, ht⟩ := hx
  obtain ⟨t', ht', hs⟩ := hd
  obtain ⟨t0, ht0, ha⟩ := h.back (lt_of_find? ht) ht'
  exact ⟨t0, ht0, ha.shape ▸ hs⟩

lemma Graph.Dims.unique {ds' : List Int} (h : g.Dims x ds) (h' : g.Dims x ds') : ds = ds' := by
  obtain ⟨t, ht, hs⟩ := h
  obtain ⟨t', ht', hs'⟩ := h'
  cases ht.symm.trans ht'
  exact hs.unique hs'

namespace Reading
variable {R : Reading} {g : Graph} {id x : Nat} {t tx : Tensor} {op : OpTree}
variable {val : Nat → R.Value} {m : Movement}

section
variable (hg : R.Sound g) (hv : R.Denotes g val) (ht : g.find? id = some t)
include hg hv ht

lemma Denotes.through : val id = R.look t.layout (val (t.base.getD id)) := by
  cases hb : t.base with
  | some b => exact hv.view ht hb
  | none =>
    refine (R.look_whole ((hg.at_id ht).whole hb) fun hty => ?_).symm
    obtain ⟨ds, hp⟩ := (hg.at_id ht).plain hty
    exact ⟨ds, hp.1, hv.fits hty ht hp.1⟩

lemma Denotes.moved (hx : g.find? x = some tx) (hb : t.base = some (tx.base.getD x))
    (hl : m.apply tx.layout = .ok t.layout)
    (htyped : R.typed → ∃ ds ds', tx.shape.Sized ds ∧ t.shape.Sized ds' ∧
      m.Suits R.exact ds ds') :
    val id = R.move m (val x) := by
  rw [hv.view ht hb, hv.through hg hx]
  refine R.look_move hl fun hty => ?_
  obtain ⟨ds, ds', hs, hs', hm⟩ := htyped hty
  obtain ⟨es, hp⟩ := (hg.at_id hx).plain hty
  cases hp.1.unique hs
  exact ⟨ds, ds', hp, hm, hs'.2⟩

end

lemma Answers.has (h : R.Answers g op id) : g.Has id := by
  obtain ⟨t, _, ht, _⟩ := h
  exact ⟨t, ht⟩

lemma Answers.elementwise (h : R.Answers g op id) (he : op.op.isElementwise = true)
    (hlive : ∀ b ∈ op.buffers, g.Has b) :
    (∀ val, R.Denotes g val → val id = R.source val (.ofTree op)) ∧
      ∀ ds, R.typed → (∀ b ∈ op.buffers, g.Dims b ds) → g.Dims id ds := by
  obtain ⟨t, _, ht, hrec, hmatch, hmade, _⟩ := h
  obtain ⟨he', hb, hshape, _⟩ := hmade.of_elementwise (hmatch.op ▸ he)
  refine ⟨fun val hv => ?_, fun ds hty hdims => ?_⟩
  · rw [hv.own ht hb hrec (hmatch.buffers ▸ hlive), own_elementwise val he',
      source_of_matches val hmatch]
  · obtain ⟨hfull, hall⟩ := hshape hty
    obtain ⟨b, hbm⟩ := List.exists_mem_of_ne_nil _ hfull.buffers_ne_nil
    obtain ⟨tb, htb, hs⟩ := hdims b (hmatch.buffers ▸ hbm)
    exact ⟨t, ht, hall b hbm tb htb ▸ hs⟩

lemma Answers.reduce {r : ReduceOp} {s : Shape} (hg : R.Sound g) (h : R.Answers g op id)
    (heq : op = { op := .reduce r, arg := .shape s, srcs := [.buffer x] }) (hx : g.Has x) :
    (∀ val, R.Denotes g val → (R.typed → ∃ ds, s.Sized ds) →
      val id = R.reduce r s (val x)) ∧
      ∀ ds, R.typed → s.Sized ds → g.Dims id ds := by
  obtain ⟨t, _, ht, hrec, hmatch, hmade, _⟩ := h
  subst heq
  obtain ⟨r', x', heq, hb, _, _⟩ := hmade.of_reduce (by rw [hmatch.op]; rfl)
  subst heq
  obtain rfl : r' = r := by simpa using hmatch.op
  obtain rfl : x' = x := by
    have := hmatch.srcs
    simpa using this
  have hsame : ∀ ds, R.typed → s.Sized ds → t.shape = s := by
    intro ds hty hs
    obtain ⟨es, hp⟩ := (hg.at_id ht).plain hty
    obtain harg | harg := hmatch.arg
    · exact OpArg.shape.inj harg
    · exact Shape.Sized.eq hp.1 hs harg
  refine ⟨fun val hv hty => ?_, fun ds hty hs => ⟨t, ht, hsame ds hty hs ▸ hs⟩⟩
  rw [hv.own ht hb hrec (by simpa using hx)]
  exact R.reduce_congr fun h => (hty h).elim fun ds hs => hsame ds h hs

lemma Answers.copy {arg : OpArg} (h : R.Answers g op id)
    (heq : op = { op := .load .contiguous, arg, srcs := [.buffer x] }) (hx : g.Has x) :
    (∀ val, R.Denotes g val → val id = val x) ∧ ∀ ds, R.typed → g.Dims x ds →
      g.Dims id ds := by
  obtain ⟨t, tree, ht, hrec, hmatch, hmade, _⟩ := h
  subst heq
  obtain ⟨src, ho, hsrcs, hb, hshape, _⟩ := hmade.of_load hmatch.op
  obtain rfl : src = some x := by
    have hs := hmatch.srcs
    rw [hsrcs] at hs
    cases src with
    | none => simp at hs
    | some y => simpa using hs
  have hs : tree.srcs = [.buffer x] := hsrcs
  refine ⟨fun val hv => ?_, fun ds hty hdims => ?_⟩
  · rw [hv.own ht hb hrec (by simpa [OpTree.buffers, hs, buffersAll, buffers] using hx)]
    obtain ⟨o, a, ss⟩ := tree
    cases ho
    cases hs
    rfl
  · obtain ⟨tx, htx, hsz⟩ := hdims
    exact ⟨t, ht, hshape hty rfl x rfl tx htx ▸ hsz⟩

lemma Answers.move (hg : R.Sound g) (h : R.Answers g (m.tree x) id) (hx : g.Has x)
    (htyped : R.typed → ∃ ds ds', g.Dims x ds ∧ m.Suits R.exact ds ds') :
    (∀ val, R.Denotes g val → val id = R.move m (val x)) ∧
      ∀ ds ds', R.typed → g.Dims x ds → m.Suits R.exact ds ds' → g.Dims id ds' := by
  obtain ⟨t, tree, ht, _, hmatch, hmade, _⟩ := h
  have hop := hmatch.op
  obtain ⟨m', x', b, heq, hb, hsrc, _⟩ := hmade.of_movement (by rw [hop]; rfl)
  subst heq
  obtain rfl : x' = x := by
    have := hmatch.srcs
    simpa using this
  obtain ⟨tx, htx⟩ := hx
  obtain ⟨hbase, hl, htakes⟩ := hsrc tx htx
  have hsame : R.typed → m' = m := by
    intro hty
    obtain ⟨_, _, _, hm⟩ := htyped hty
    obtain ⟨_, _, _, _, hm'⟩ := htakes hty
    exact hm'.1.same hm.1 (by simpa using hop) hmatch.arg
  refine ⟨fun val hv => ?_, fun ds ds' hty hdims hm => ?_⟩
  · rw [hv.moved hg ht htx (hb.trans (congrArg some hbase.symm)) hl htakes]
    exact R.move_congr hsame
  · cases hsame hty
    obtain ⟨es, es', hs, hs', hm'⟩ := htakes hty
    cases Dims.unique ⟨tx, htx, hs⟩ hdims
    exact ⟨t, ht, hm'.1.det hm.1 ▸ hs'⟩

end Reading

end LazyTensor
