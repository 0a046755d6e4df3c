import LazyTensor.Proofs.Graph.Reading

/-! What holds of every graph that is built by calls: each tensor stands for what its operation
reads, the operation reads older tensors only, and a tensor found again was made by the operation
that asks for it. -/
namespace LazyTensor
open Checked List Source LazyTensor.Graph

namespace Source

section
variable (accepts : Op → Nat → Prop)
variable {g : Graph} {b : Nat}

mutual

/-- Every operation inside is elementwise and has sources, as many as it accepts. -/
def Full : Source → Prop
  | .buffer _ => True
  | .apply op _ srcs => (op.isElementwise = true ∧ srcs ≠ [] ∧ accepts op srcs.length) ∧
      FullAll srcs

def FullAll : List Source → Prop
  | [] => True
  | s :: ss => s.Full ∧ FullAll ss

end

end

variable {accepts accepts' : Op → Nat → Prop}

mutual

lemma Full.imp (hacc : ∀ op n, accepts op n → accepts' op n) {s : Source} (h : s.Full accepts) :
    s.Full accepts' := by
  cases s with
  | buffer b => exact h
  | apply op arg srcs => exact ⟨⟨h.1.1, h.1.2.1, hacc _ _ h.1.2.2⟩, FullAll.imp hacc h.2⟩

lemma FullAll.imp (hacc : ∀ op n, accepts op n → accepts' op n) {ss : List Source}
    (h : FullAll accepts ss) : FullAll accepts' ss := by
  cases ss with
  | nil => exact h
  | cons s ss => exact ⟨Full.imp hacc h.1, FullAll.imp hacc h.2⟩

end

mutual

lemma Full.buffers_ne_nil {s : Source} (h : s.Full accepts) : s.buffers ≠ [] := by
  cases s with
  | buffer b => simp
  | apply op arg srcs => exact FullAll.buffers_ne_nil h.2 h.1.2.1

lemma FullAll.buffers_ne_nil {ss : List Source} (h : FullAll accepts ss) (hne : ss ≠ []) :
    buffersAll ss ≠ [] := by
  cases ss with
  | nil => exact absurd rfl hne
  | cons s ss =>
    rw [buffersAll]
    exact append_ne_nil_of_left_ne_nil (Full.buffers_ne_nil h.1) _

end

end Source

namespace Reading
variable (R : Reading)

mutual

def source (val : Nat → R.Value) : Source → R.Value
  | .buffer b => val b
  | .apply op arg srcs => R.elementwise op arg (sources val srcs)

def sources (val : Nat → R.Value) : List Source → List R.Value
  | [] => []
  | s :: ss => source val s :: sources val ss

end

def own (val : Nat → R.Value) (id : Nat) (tree : OpTree) : R.Value :=
  match tree with
  | { op := .reduce r, arg := .shape s, srcs := [.buffer x] } => R.reduce r s (val x)
  | { op := .load .contiguous, srcs := [.buffer x], .. } => val x
  | { op := .load _, .. } => R.load id tree (tree.buffers.map val)
  | { op, arg, srcs } => R.elementwise op arg (R.sources val srcs)

/-- How a tensor follows from its operation. Sources that were dropped from the graph say nothing
any more. -/
inductive Made (g : Graph) (t : Tensor) (tree : OpTree) : Prop
  | elementwise (isElementwise : tree.op.isElementwise = true) (base : t.base = none)
      (shapes : R.typed → (Source.ofTree tree).Full R.Accepts ∧
        ∀ b ∈ tree.buffers, ∀ tb, g.find? b = some tb → tb.shape = t.shape)
  | reduce (r : ReduceOp) (x : Nat)
      (eq : tree = { op := .reduce r, arg := .shape t.shape, srcs := [.buffer x] })
      (base : t.base = none)
      (shapes : R.typed → ∀ tx, g.find? x = some tx →
        ∃ ds dt, tx.shape.Sized ds ∧ t.shape.Sized dt ∧ Reduces ds dt)
  | move (m : Movement) (x b : Nat) (eq : tree = m.tree x) (base : t.base = some b)
      (source : ∀ tx, g.find? x = some tx → tx.base.getD x = b ∧
        m.apply tx.layout = .ok t.layout ∧
        (R.typed → ∃ ds ds', tx.shape.Sized ds ∧ t.shape.Sized ds' ∧
          m.Suits R.exact ds ds'))
  | load (op : LoadOp) (src : Option Nat) (op_eq : tree.op = .load op)
      (srcs_eq : tree.srcs = (src.map Source.buffer).toList) (base : t.base = none)
      (shapes : R.typed → op = .contiguous → ∀ x, src = some x →
        ∀ tx, g.find? x = some tx → tx.shape = t.shape)

structure SoundAt (g : Graph) (id : Nat) (t : Tensor) : Prop where
  made : ∀ tree, t.op = some tree → R.Made g t tree
  kind : ∀ tree, t.op = some tree → t.kind = tree.op.kind
  sources : ∀ tree, t.op = some tree → ∀ b ∈ tree.buffers, b < id ∧ g.Has b
  movement : t.kind = .movement ↔ t.base.isSome
  base : ∀ b, t.base = some b → b < id ∧ ∃ tb, g.find? b = some tb ∧ tb.base = none ∧
    tb.device = t.device
  dropped : t.op = none → g.isRealized id = .ok true
  pending : t.op.isSome → t.realized = none
  whole : t.base = none → Layout.ofShape t.shape = .ok t.layout
  plain : R.typed → ∃ ds, t.layout.Suits R.exact ds

/-- An entry of the cache was made by the operation under which it is found. -/
structure KeyedAt (g : Graph) (key : CacheKey) (id : Nat) (t : Tensor) : Prop where
  made : R.Made g t key.op
  kind : t.kind = key.op.op.kind
  sources : ∀ b ∈ key.op.buffers, b < id
  op : ∀ tree, t.op = some tree → tree = key.op

structure Sound (g : Graph) : Prop where
  at_id : ∀ {id t}, g.find? id = some t → R.SoundAt g id t
  linked : g.Linked
  keyed : ∀ {key id t}, (key, id) ∈ g.cache → g.find? id = some t → R.KeyedAt g key id t
  fresh : ∀ {key id}, (key, id) ∈ g.cache → id < g.tensors.length
  once : ∀ {key key' id}, (key, id) ∈ g.cache → (key', id) ∈ g.cache → key.op = key'.op

/-- The graph grew by tensors without contents and is still sound. -/
structure Keeps (g g' : Graph) : Prop where
  sound : R.Sound g'
  grows : g.Extends g'
  pending : ∀ {id t}, g.tensors.length ≤ id → g'.find? id = some t → t.realized = none
  /-- What came into the cache still has its operation. -/
  cached : ∀ {key id}, (key, id) ∈ g'.cache → (key, id) ∈ g.cache ∨
    ∃ t, g'.find? id = some t ∧ t.op.isSome = true

variable {R} in
lemma Keeps.of_length {g' : Graph} (hg : R.Sound g') (he : g.Extends g')
    (h : g'.tensors.length = g.tensors.length)
    (hcache : ∀ {key id}, (key, id) ∈ g'.cache → (key, id) ∈ g.cache ∨
      ∃ t, g'.find? id = some t ∧ t.op.isSome = true) : R.Keeps g g' := by
  refine ⟨hg, he, fun hid ht => ?_, hcache⟩
  have := lt_of_find? ht
  omega

variable {R} in
lemma Keeps.refl (hg : R.Sound g) : R.Keeps g g := .of_length hg (.refl g) rfl .inl

instance : Steps R.Keeps where
  trans {g g' g''} h h' := by
    refine ⟨h'.sound, h.grows.trans h'.grows, fun {id t} hid ht => ?_, fun {key id} hk => ?_⟩
    · by_cases hlt : id < g'.tensors.length
      · obtain ⟨t', ht', ha⟩ := h'.grows.back hlt ht
        exact ha.realized.trans (h.pending hid ht')
      · exact h'.pending (not_lt.1 hlt) ht
    · obtain hk | hnew := h'.cached hk
      · refine (h.cached hk).imp_right fun ⟨t, ht, hop⟩ => ?_
        obtain ⟨t', ht', ha⟩ := h'.grows.keeps ht
        exact ⟨t', ht', ha.op ▸ hop⟩
      · exact .inr hnew
  stay h := .refl h.sound

def Records (g : Graph) (id : Nat) (t : Tensor) (tree : OpTree) : Prop :=
  t.op = some tree ∨ ∃ key, (key, id) ∈ g.cache ∧ key.op = tree

/-- Values for all tensors of a graph that agree with its operations and layouts. -/
structure Denotes (g : Graph) (val : Nat → R.Value) : Prop where
  view : ∀ {id t b}, g.find? id = some t → t.base = some b → val id = R.look t.layout (val b)
  own : ∀ {id t tree}, g.find? id = some t → t.base = none → Records g id t tree →
    (∀ b ∈ tree.buffers, g.Has b) → val id = R.own val id tree
  fits : R.typed → ∀ {id t ds}, g.find? id = some t → t.shape.Sized ds → R.Fits (val id) ds

variable {R} {g g' : Graph} {t t' : Tensor} {tree : OpTree} {id : Nat}

lemma SoundAt.elementwise (h : R.SoundAt g id t) (hop : t.op = some tree)
    (hkind : t.kind = .elementwise) : tree.op.isElementwise = true := by
  rw [Op.isElementwise, ← h.kind tree hop, hkind]
  rfl

section
variable {R' : Reading} (hty : R'.typed → R.typed) (hex : R'.exact → R.exact)
  (hacc : R'.typed → ∀ op n, R.Accepts op n → R'.Accepts op n)
include hty hex hacc

/-! A reading enters the invariant only by what it wants to know of dimensions. -/

lemma Made.weaken (h : R.Made g t tree) : R'.Made g t tree := by
  cases h with
  | elementwise he hb hshape =>
    exact .elementwise he hb fun h => ⟨(hshape (hty h)).1.imp (hacc h), (hshape (hty h)).2⟩
  | reduce r x heq hb hshape => exact .reduce r x heq hb fun h => hshape (hty h)
  | move m x b heq hb hsrc =>
    refine .move m x b heq hb fun tx htx => ?_
    obtain ⟨hbase, hl, hdims⟩ := hsrc tx htx
    refine ⟨hbase, hl, fun h => ?_⟩
    obtain ⟨ds, ds', hs, hs', hm⟩ := hdims (hty h)
    exact ⟨ds, ds', hs, hs', hm.weaken hex⟩
  | load op src ho hsrcs hb hshape => exact .load op src ho hsrcs hb fun h => hshape (hty h)

lemma Sound.weaken (hg : R.Sound g) : R'.Sound g := by
  refine ⟨fun ht => ?_, hg.linked, fun hk ht => ?_, hg.fresh, hg.once⟩
  · have hat := hg.at_id ht
    refine ⟨fun tree h => (hat.made tree h).weaken hty hex hacc, hat.kind, hat.sources,
      hat.movement, hat.base, hat.dropped, hat.pending, hat.whole, fun h => ?_⟩
    obtain ⟨ds, hp⟩ := hat.plain (hty h)
    exact ⟨ds, hp.weaken hex⟩
  · have hkeyed := hg.keyed hk ht
    exact ⟨hkeyed.made.weaken hty hex hacc, hkeyed.kind, hkeyed.sources, hkeyed.op⟩

end

/-! The operation tells how a tensor was made. -/

section
variable (h : R.Made g t tree)
include h

lemma Made.of_elementwise (hop : tree.op.isElementwise = true) :
    ∃ he hb hshapes, h = .elementwise he hb hshapes := by
  cases h with
  | elementwise he hb hshapes => exact ⟨he, hb, hshapes, rfl⟩
  | reduce r x heq => simp [heq, Op.isElementwise, Op.kind] at hop
  | move m x b heq => simp [heq, Op.isElementwise, Op.kind] at hop
  | load op src ho => simp [ho, Op.isElementwise, Op.kind] at hop

lemma Made.of_reduce (hop : tree.op.kind = .reduce) :
    ∃ r x heq hb hshapes, h = .reduce r x heq hb hshapes := by
  cases h with
  | elementwise he => simp [Op.isElementwise, hop] at he
  | reduce r x heq hb hshapes => exact ⟨r, x, heq, hb, hshapes, rfl⟩
  | move m x b heq => simp [heq, Op.kind] at hop
  | load op src ho => simp [ho, Op.kind] at hop

lemma Made.of_movement (hop : tree.op.kind = .movement) :
    ∃ m x b heq hb hsrc, h = .move m x b heq hb hsrc := by
  cases h with
  | elementwise he => simp [Op.isElementwise, hop] at he
  | reduce r x heq => simp [heq, Op.kind] at hop
  | move m x b heq hb hsrc => exact ⟨m, x, b, heq, hb, hsrc, rfl⟩
  | load op src ho => simp [ho, Op.kind] at hop

lemma Made.of_load {o : LoadOp} (hop : tree.op = .load o) :
    ∃ src ho hsrcs hb hshapes, h = .load o src ho hsrcs hb hshapes := by
  cases h with
  | elementwise he => simp [Op.isElementwise, Op.kind, hop] at he
  | reduce r x heq => simp [heq] at hop
  | move m x b heq => simp [heq] at hop
  | load op src ho hsrcs hb hshapes =>
    cases ho.symm.trans hop
    exact ⟨src, ho, hsrcs, hb, hshapes, rfl⟩

end

lemma own_elementwise (val : Nat → R.Value) (h : tree.op.isElementwise = true) :
    R.own val id tree = R.source val (.ofTree tree) := by
  obtain ⟨op, arg, _⟩ := tree
  cases op with
  | unary _ | binary _ | ternary _ => rfl
  | reduce _ | movement _ | load _ | buffer _ => simp [Op.isElementwise, Op.kind] at h

lemma Denotes.anti {val : Nat → R.Value} (h : g.Extends g') (hv : R.Denotes g' val) :
    R.Denotes g val where
  view ht hb := by
    obtain ⟨t', ht', ha⟩ := h.keeps ht
    rw [hv.view ht' (ha.base.trans hb), ha.layout]
  own ht hb hr hs := by
    obtain ⟨t', ht', ha⟩ := h.keeps ht
    refine hv.own ht' (ha.base.trans hb) ?_ (fun b hb => h.has (hs b hb))
    exact hr.imp (fun ho => ha.op.trans ho) fun ⟨key, hk, he⟩ => ⟨key, h.cache _ hk, he⟩
  fits hty id t ds ht hs := by
    obtain ⟨t', ht', ha⟩ := h.keeps ht
    exact hv.fits hty ht' (ha.shape ▸ hs)

lemma Made.trim (h : R.Made g t tree) (ht : t.Trimmed t')
    (hback : ∀ {b tb'}, b ∈ tree.buffers →
    g'.find? b = some tb' → ∃ tb, g.find? b = some tb ∧ tb.Trimmed tb') :
    R.Made g' t' tree := by
  cases h with
  | elementwise he hb hshape =>
    refine .elementwise he (ht.base.trans hb) fun hty =>
      ⟨(hshape hty).1, fun b hbm tb' htb' => ?_⟩
    obtain ⟨tb, htb, htr⟩ := hback hbm htb'
    rw [htr.shape, ht.shape]
    exact (hshape hty).2 b hbm tb htb
  | reduce r x he hb hshape =>
    refine .reduce r x (by rw [ht.shape]; exact he) (ht.base.trans hb) fun hty tx' htx' => ?_
    obtain ⟨tx, htx, htr⟩ := hback (by simp [he, OpTree.buffers, buffersAll, buffers]) htx'
    rw [htr.shape, ht.shape]
    exact hshape hty tx htx
  | move m x b he hb hsrc =>
    refine .move m x b he (ht.base.trans hb) fun tx' htx' => ?_
    obtain ⟨tx, htx, htr⟩ := hback (by simp [he, OpTree.buffers, buffersAll, buffers]) htx'
    rw [htr.base, htr.layout, ht.layout, htr.shape, ht.shape]
    exact hsrc tx htx
  | load op src ho hsrcs hb hshape =>
    refine .load op src ho hsrcs (ht.base.trans hb) fun hty hc x hx tx' htx' => ?_
    obtain ⟨tx, htx, htr⟩ :=
      hback (by simp [OpTree.buffers, hsrcs, hx, buffersAll, buffers]) htx'
    rw [htr.shape, ht.shape]
    exact hshape hty hc x hx tx htx

lemma Made.mono (hm : R.Made g t tree) (h : g.Extends g') (ha : t.Alike t')
    (hs : ∀ b ∈ tree.buffers, b < g.tensors.length) : R.Made g' t' tree := by
  refine hm.trim ha.trimmed fun {b tb'} hb htb' => ?_
  obtain ⟨tb, htb, hab⟩ := h.back (hs b hb) htb'
  exact ⟨tb, htb, hab.trimmed⟩

lemma SoundAt.mono (hs : R.SoundAt g id t) (h : g.Extends g') (ha : t.Alike t') :
    R.SoundAt g' id t' where
  made tree ht := by
    rw [ha.op] at ht
    refine (hs.made tree ht).mono h ha fun b hb => ?_
    obtain ⟨tb, htb⟩ := (hs.sources tree ht b hb).2
    exact lt_of_find? htb
  kind tree ht := ha.kind.trans (hs.kind tree (ha.op ▸ ht))
  sources tree ht b hb := by
    obtain ⟨hlt, hhas⟩ := hs.sources tree (ha.op ▸ ht) b hb
    exact ⟨hlt, h.has hhas⟩
  movement := by
    rw [ha.kind, ha.base]
    exact hs.movement
  base b hb := by
    obtain ⟨hlt, tb, htb, hnone, hdev⟩ := hs.base b (ha.base ▸ hb)
    obtain ⟨tb', htb', hab⟩ := h.keeps htb
    exact ⟨hlt, tb', htb', hab.base.trans hnone, by rw [hab.device, ha.device, hdev]⟩
  dropped hd := h.isRealized (hs.dropped (ha.op ▸ hd))
  pending hp := ha.realized.trans (hs.pending (ha.op ▸ hp))
  whole hb := by
    rw [ha.shape, ha.layout]
    exact hs.whole (ha.base ▸ hb)
  plain hty := by
    rw [ha.layout]
    exact hs.plain hty

lemma KeyedAt.mono {key : CacheKey} (hk : R.KeyedAt g key id t) (h : g.Extends g')
    (ha : t.Alike t') (hid : id < g.tensors.length) : R.KeyedAt g' key id t' where
  made := hk.made.mono h ha fun b hb => (hk.sources b hb).trans hid
  kind := ha.kind.trans hk.kind
  sources := hk.sources
  op tree ht := hk.op tree (ha.op ▸ ht)

lemma Sound.empty (R : Reading) (config : Config) : R.Sound { config } :=
  ⟨by simp [Graph.find?],
    ⟨by simp [Graph.find?], by simp [Graph.find?], by simp [Graph.find?]⟩,
    by simp, by simp, by simp⟩

section
variable (hg : R.Sound g) (ht : g.find? id = some t)
include hg ht

lemma Sound.base :
    ∃ tb, g.find? (t.base.getD id) = some tb ∧ tb.base = none ∧ tb.device = t.device := by
  cases hb : t.base with
  | none => exact ⟨t, ht, hb, rfl⟩
  | some b => exact ((hg.at_id ht).base b hb).2

lemma Sound.has_base (hb : t.base = some b) : g.Has b := by
  obtain ⟨_, tb, htb, _⟩ := (hg.at_id ht).base b hb
  exact ⟨tb, htb⟩

lemma Sound.op_of_realized {raw : Buffer} (h : t.realized = some raw) : t.op = none := by
  by_contra hop
  cases h.symm.trans ((hg.at_id ht).pending (Option.isSome_iff_ne_none.2 hop))

end

/-! A tensor and its base have the same contents. -/

section
variable (hg : R.Sound g) (hb : g.baseOf id = .ok b)
include hg hb

lemma Sound.baseTensor : g.baseTensor b = g.baseTensor id := by
  obtain ⟨t, ht, rfl⟩ := baseOf_eq_ok.1 hb
  obtain ⟨tb, htb, hnone, _⟩ := hg.base ht
  rw [baseTensor_eq_ok.2 ⟨t, ht, htb⟩, baseTensor_eq_ok.2
    ⟨tb, htb, by rw [hnone]; exact htb⟩]

lemma Sound.realized? : g.realized? b = g.realized? id := by
  rw [Graph.realized?, hg.baseTensor hb, Graph.realized?]

lemma Sound.isRealized : g.isRealized b = g.isRealized id := by
  rw [Graph.isRealized, hg.realized? hb, Graph.isRealized]

end

lemma Sound.of_extends (hg : R.Sound g) (he : g.Extends g')
    (hlen : g'.tensors.length = g.tensors.length) (hcache : g'.cache = g.cache)
    (hlinked : g'.Linked) : R.Sound g' := by
  refine ⟨fun {x t} ht => ?_, hlinked, fun {key x t} hk ht => ?_,
    fun hk => by rw [hlen]; exact hg.fresh (hcache ▸ hk), by rw [hcache]; exact hg.once⟩
  · obtain ⟨t0, ht0, ha⟩ := he.back (hlen ▸ lt_of_find? ht) ht
    exact (hg.at_id ht0).mono he ha
  · have hid := hg.fresh (hcache ▸ hk)
    obtain ⟨t0, ht0, ha⟩ := he.back hid ht
    exact (hg.keyed (hcache ▸ hk) ht0).mono he ha hid

lemma Sound.update {f : Tensor → Tensor} (hg : R.Sound g) (hf : ∀ t : Tensor, t.Alike (f t))
    (hviews : ∀ t : Tensor, (f t).views = t.views)
    (hchildren : ∀ t : Tensor, ∀ c ∈ (f t).children, c ∈ t.children ∨ g.Has c)
    (h : g.update id f = .ok g') : R.Keeps g g' := by
  have he := Extends.update hf h
  have hlinked := hg.linked.update hf hviews hchildren h
  obtain ⟨tid, _, rfl⟩ := update_eq_ok.1 h
  exact .of_length (hg.of_extends he (by simp) rfl hlinked) he (by simp) .inl

structure Fresh (R : Reading) (g : Graph) (t : Tensor) : Prop where
  made : ∀ tree, t.op = some tree → R.Made g t tree
  kind : ∀ tree, t.op = some tree → t.kind = tree.op.kind
  sources : ∀ tree, t.op = some tree → ∀ b ∈ tree.buffers, g.Has b
  movement : t.kind = .movement ↔ t.base.isSome
  base : ∀ b, t.base = some b → ∃ tb, g.find? b = some tb ∧ tb.base = none ∧
    tb.device = t.device
  loaded : t.op = none → t.base = none ∧ t.realized.isSome = true
  pending : t.op.isSome → t.realized = none
  whole : t.base = none → Layout.ofShape t.shape = .ok t.layout
  plain : R.typed → ∃ ds, t.layout.Suits R.exact ds
  views : t.views = []
  children : t.children = []

lemma Fresh.mono (hn : Fresh R g t) (h : g.Extends g') : Fresh R g' t where
  made tree ht := (hn.made tree ht).mono h (.refl t) fun b hb => by
    obtain ⟨tb, htb⟩ := hn.sources tree ht b hb
    exact lt_of_find? htb
  kind := hn.kind
  sources tree ht b hb := h.has (hn.sources tree ht b hb)
  movement := hn.movement
  base b hb := by
    obtain ⟨tb, htb, hnone, hdev⟩ := hn.base b hb
    obtain ⟨tb', htb', hab⟩ := h.keeps htb
    exact ⟨tb', htb', hab.base.trans hnone, hab.device.trans hdev⟩
  loaded := hn.loaded
  pending := hn.pending
  whole := hn.whole
  plain := hn.plain
  views := hn.views
  children := hn.children

lemma extends_append (g : Graph) (t : Tensor) :
    g.Extends { g with tensors := g.tensors ++ [some t] } where
  config := rfl
  devices := rfl
  length := by simp
  keeps {id t0} h := by
    refine ⟨t0, ?_, .refl t0⟩
    rw [Graph.find?_append, if_neg (lt_of_find? h).ne]
    exact h
  back {id t0} hid h := by
    rw [Graph.find?_append, if_neg hid.ne] at h
    exact ⟨t0, h, .refl t0⟩
  cache _ h := h

/-- The tensor that will stand behind all others was announced: to tensors that it reads, and to
its base. -/
structure Announces (base : Option Nat) (g g' : Graph) : Prop where
  grows : g.Extends g'
  length : g'.tensors.length = g.tensors.length
  cache : g'.cache = g.cache
  links : ∀ {x t t'}, g.find? x = some t → g'.find? x = some t' →
    (∀ c ∈ t'.children, c ∈ t.children ∨ c = g.tensors.length) ∧
      ∀ v, v ∈ t'.views ↔ v ∈ t.views ∨ v = g.tensors.length ∧ base = some x

lemma Announces.refl (g : Graph) : Announces none g g :=
  ⟨.refl g, rfl, rfl, fun ht ht' => by
    cases ht.symm.trans ht'
    exact ⟨fun _ h => .inl h, by simp⟩⟩

lemma Announces.trans {base : Option Nat} {g'' : Graph} (h : Announces none g g')
    (h' : Announces base g' g'') : Announces base g g'' := by
  refine ⟨h.grows.trans h'.grows, h'.length.trans h.length, h'.cache.trans h.cache,
    fun {x t t''} ht ht'' => ?_⟩
  obtain ⟨t', ht', _⟩ := h.grows.keeps ht
  obtain ⟨hc, hv⟩ := h.links ht ht'
  obtain ⟨hc', hv'⟩ := h'.links ht' ht''
  rw [h.length] at hc' hv'
  refine ⟨fun c hmem => ?_, fun v => ?_⟩
  · exact (hc' c hmem).elim (hc c) .inr
  · rw [hv' v, hv v]
    simp

lemma Sound.append (hg : R.Sound g) (hm : Announces t.base g g') (hn : Fresh R g t) :
    R.Sound { g' with tensors := g'.tensors ++ [some t] } := by
  have he := hm.grows
  have hlen := hm.length
  have hcache := hm.cache
  have hend := extends_append g' t
  have hall := he.trans hend
  have hfresh := hn.mono hall
  have hnew : ({ g' with tensors := g'.tensors ++ [some t] } : Graph).find? g.tensors.length
      = some t := by rw [Graph.find?_append, if_pos hlen.symm]
  -- a tensor of the new graph is the fresh one, or one of the old graph
  have hcases : ∀ {x tx}, ({ g' with tensors := g'.tensors ++ [some t] } : Graph).find?
    x = some tx →
      x = g.tensors.length ∧ tx = t ∨ ∃ t0, g.find? x = some t0 ∧ t0.Alike tx ∧
        (∀ c ∈ tx.children, c ∈ t0.children ∨ c = g.tensors.length) ∧
        ∀ v, v ∈ tx.views ↔ v ∈ t0.views ∨ v = g.tensors.length ∧ t.base = some x := by
    intro x tx hx
    by_cases hxn : x = g.tensors.length
    · subst hxn
      rw [hnew] at hx
      cases hx
      exact .inl ⟨rfl, rfl⟩
    · rw [Graph.find?_append, if_neg (by rw [hlen]; exact hxn)] at hx
      obtain ⟨t0, ht0, ha⟩ := he.back (hlen ▸ lt_of_find? hx) hx
      obtain ⟨hc, hv⟩ := hm.links ht0 hx
      exact .inr ⟨t0, ht0, ha, hc, hv⟩
  refine ⟨fun {x tx} hx =>
    ?_, ⟨fun hx c hc => ?_, fun hx v hv => ?_, fun {x tx b} hx hb => ?_⟩,
    fun {key x tx} hk hx => ?_, fun {key x} hk => ?_, by rw [hcache]; exact hg.once⟩
  · obtain ⟨rfl, rfl⟩ | ⟨t0, ht0, ha, _⟩ := hcases hx
    · refine ⟨hfresh.made, hfresh.kind, fun tree ht b hb =>
        ⟨?_, hfresh.sources tree ht b hb⟩,
        hfresh.movement, fun b hb => ?_, fun hop => ?_, hfresh.pending, hfresh.whole,
        hfresh.plain⟩
      · obtain ⟨tb, htb⟩ := hn.sources tree ht b hb
        exact lt_of_find? htb
      · obtain ⟨tb, htb, _⟩ := hn.base b hb
        exact ⟨lt_of_find? htb, hfresh.base b hb⟩
      · obtain ⟨hb, hr⟩ := hn.loaded hop
        exact isRealized_eq_ok.2 ⟨_, _, hnew, by rw [hb]; exact hnew, hr⟩
    · exact (hg.at_id ht0).mono hall ha
  · obtain ⟨rfl, rfl⟩ | ⟨t0, ht0, _, hc0, _⟩ := hcases hx
    · rw [hn.children] at hc
      cases hc
    · obtain hc | rfl := hc0 c hc
      · exact hall.has (hg.linked.children ht0 c hc)
      · exact ⟨t, hnew⟩
  · obtain ⟨rfl, rfl⟩ | ⟨t0, ht0, _, _, hv0⟩ := hcases hx
    · rw [hn.views] at hv
      cases hv
    · obtain hv | ⟨rfl, hb⟩ := (hv0 v).1 hv
      · obtain ⟨tv, htv, hbase⟩ := hg.linked.views ht0 v hv
        obtain ⟨tv', htv', ha⟩ := hall.keeps htv
        exact ⟨tv', htv', ha.base.trans hbase⟩
      · exact ⟨t, hnew, hb⟩
  · have hknown : ∀ {tb}, g.find? b = some tb →
        (t.base = some b ∧ x = g.tensors.length ∨ x ∈ tb.views) →
        ∃ tb', ({ g' with tensors := g'.tensors ++ [some t] } : Graph).find? b = some tb' ∧
          x ∈ tb'.views := by
      intro tb htb hmem
      obtain ⟨tb', htb', _⟩ := hall.keeps htb
      obtain ⟨rfl, _⟩ | ⟨tb0, htb0, _, _, hv0⟩ := hcases htb'
      · exact absurd (lt_of_find? htb) (lt_irrefl _)
      · cases htb.symm.trans htb0
        refine ⟨tb', htb', (hv0 x).2 ?_⟩
        exact hmem.elim (fun ⟨hb, hx⟩ => .inr ⟨hx, hb⟩) .inl
    obtain ⟨rfl, rfl⟩ | ⟨t0, ht0, ha, _⟩ := hcases hx
    · obtain ⟨tb, htb, _⟩ := hn.base b hb
      exact hknown htb (.inl ⟨hb, rfl⟩)
    · obtain ⟨tb, htb, hmem⟩ := hg.linked.listed ht0 (ha.base ▸ hb)
      exact hknown htb (.inr hmem)
  · have hid := hg.fresh (hcache ▸ hk)
    obtain ⟨t0, ht0, ha⟩ := hall.back hid hx
    exact (hg.keyed (hcache ▸ hk) ht0).mono hall ha hid
  · have hmem : (key, x) ∈ g.cache := hcache ▸ hk
    have := hg.fresh hmem
    simp
    omega

lemma Keeps.append (hg : R.Sound { g' with tensors := g'.tensors ++ [some t] })
    (hm : Announces t.base g g') (hnew : t.realized = none) :
    R.Keeps g { g' with tensors := g'.tensors ++ [some t] } := by
  have hlen := hm.length
  refine ⟨hg, hm.grows.trans (extends_append g' t), fun {x tx} hx ht => ?_,
    fun hk => .inl (hm.cache ▸ hk)⟩
  have hlt := lt_of_find? ht
  simp only [length_append, length_cons, length_nil] at hlt
  rw [Graph.find?_append, if_pos (by omega)] at ht
  cases ht
  exact hnew

end Reading

end LazyTensor
