import LazyTensor.Proofs.Graph.Create

/-! Calls, and movements that are done on the leaves of an elementwise tree instead of on its
result. -/
namespace LazyTensor
open Checked GraphM LazyTensor.Graph List Movement Source

/-- Dimensions along movements that are done one after another. -/
def Movement.SuitAll (exact : Prop) : List Movement → List Int → List Int → Prop
  | [], ds, ds' => ds = ds'
  | m :: ms, ds, ds'' => ∃ ds', m.Suits exact ds ds' ∧ Extents ds' ∧ SuitAll exact ms ds' ds''

lemma Movement.SuitAll.append {exact : Prop} {ms ms' : List Movement} {ds ds' ds'' : List Int}
    (h : SuitAll exact ms ds ds') (h' : SuitAll exact ms' ds' ds'') :
    SuitAll exact (ms ++ ms') ds ds'' := by
  induction ms generalizing ds with
  | nil =>
    cases h
    exact h'
  | cons m ms ih =>
    obtain ⟨d, hm, he, h⟩ := h
    exact ⟨d, hm, he, ih h⟩

/-- The call fits the dimensions that are known of the tensors it names, and gives these dimensions.
An exact call reads no padding and skips nothing. -/
def Call.Typed (exact : Prop) (known : Nat → List Int → Prop) (ds' : List Int) : Call → Prop
  | .elementwise _ srcs _ => ∀ x ∈ srcs, known x ds'
  | .reduce _ x s => ∃ ds, known x ds ∧ s.Sized ds' ∧ Reduces ds ds'
  | .move m x => ∃ ds, known x ds ∧ m.Suits exact ds ds' ∧ Extents ds'

namespace Reading
variable {s : Source} {id : Nat} {ss : List Source} {ids : List Nat}

def moveAll (R : Reading) (ms : List Movement) (v : R.Value) : R.Value :=
  ms.foldl (fun v m => R.move m v) v

def call (R : Reading) (val : Nat → R.Value) : Call → R.Value
  | .elementwise op srcs arg => R.elementwise op arg (srcs.map val)
  | .reduce op x s => R.reduce op s (val x)
  | .move m x => R.move m (val x)

structure Gives (R : Reading) (g g' : Graph) (call : Call) (id : Nat) : Prop where
  has : g'.Has id
  value : ∀ val, R.Denotes g' val → val id = R.call val call
  dims : ∀ ds, R.typed → call.Typed R.exact g.Dims ds → g'.Dims id ds
  srcs : ∀ op srcs arg, call = .elementwise op srcs arg → srcs ≠ []

def Admits (R : Reading) : Call → Prop
  | .elementwise op srcs _ => R.Accepts op srcs.length
  | .reduce _ _ _ | .move _ _ => True

lemma Admits.all {R : Reading} (h : ∀ op n, R.Accepts op n) (call : Call) : R.Admits call := by
  cases call with
  | elementwise op srcs arg => exact h op srcs.length
  | reduce op x s | move m x => trivial

/-- The calls that rules make are answered as they should be. -/
def Performs (R : Reading) (p : Rules.Performer) : Prop :=
  ∀ g call, R.Sound g → (R.typed → ∃ ds, call.Typed R.exact g.Dims ds) →
    (R.typed → R.Admits call) →
    Yields R.Keeps g (p call) (fun id g' => R.Gives g g' call id)

variable {R : Reading} {g g' g'' : Graph} {p : Rules.Performer} {moves : List Movement}

lemma Performs.instead {c : Call} {m : Movement} {x : Nat} (hp : R.Performs p)
    (hg : R.Sound g') (hcall : R.Admits c)
    (htyped : R.typed → ∃ ds, (Call.move m x).Typed R.exact g.Dims ds)
    (hdims : R.typed → ∀ ds, (Call.move m x).Typed R.exact g.Dims ds →
      c.Typed R.exact g'.Dims ds)
    (hval : ∀ val, R.Denotes g' val → R.call val c = R.move m (val x)) :
    Yields R.Keeps g' (p c) (fun id g'' => R.Gives g g'' (.move m x) id) := by
  refine (hp g' c hg (fun hty => ?_) fun _ => hcall).weaken fun id g2 h2 hq => ?_
  · obtain ⟨ds, h⟩ := htyped hty
    exact ⟨ds, hdims hty ds h⟩
  · exact ⟨hq.has, fun val hv => (hq.value val hv).trans (hval val (hv.anti h2.2)),
      fun ds hty h => hq.dims ds hty (hdims hty ds h), fun _ _ _ h => by cases h⟩

lemma moveAll_append (ms ms' : List Movement) (v : R.Value) :
    R.moveAll (ms ++ ms') v = R.moveAll ms' (R.moveAll ms v) := foldl_append

lemma moveAll_elementwise {op : Op} {arg : OpArg} {vs : List R.Value}
    (h : R.typed → vs ≠ [] ∧ ∃ ds ds', Extents ds ∧ SuitAll R.exact moves ds ds' ∧
      ∀ v ∈ vs, R.Fits v ds) :
    R.moveAll moves (R.elementwise op arg vs) = R.elementwise op arg
      (vs.map (R.moveAll moves)) := by
  induction moves generalizing vs with
  | nil =>
    change R.elementwise op arg vs = R.elementwise op arg (vs.map id)
    rw [map_id]
  | cons m ms ih =>
    have hm : R.move m (R.elementwise op arg vs) = R.elementwise op arg (vs.map (R.move m)) := by
      refine R.move_elementwise fun hty => ?_
      obtain ⟨hne, ds, ds', hd, ⟨d, hm, he, _⟩, hv⟩ := h hty
      exact ⟨hne, ds, d, hd, he, hm, hv⟩
    change R.moveAll ms (R.move m _) = _
    rw [hm, ih]
    · rw [map_map]
      rfl
    · intro hty
      obtain ⟨hne, ds, ds', hd, ⟨d, hm, he, hms⟩, hv⟩ := h hty
      refine ⟨by simpa using hne, d, ds', he, hms, fun w hw => ?_⟩
      obtain ⟨v, hvm, rfl⟩ := mem_map.1 hw
      exact R.fits_move hty hd hm (hv v hvm)

lemma foldMoves_yields (hp : R.Performs p) {b : Nat} (hg : R.Sound g) (hb : g.Has b)
    (htyped : R.typed → ∃ ds ds', g.Dims b ds ∧ SuitAll R.exact moves ds ds') :
    Yields R.Keeps g (moves.foldlM (fun y m => p (.move m y)) b) (fun id g' => g'.Has id ∧
      (∀ val, R.Denotes g' val → val id = R.moveAll moves (val b)) ∧
      ∀ ds ds', R.typed → g.Dims b ds → SuitAll R.exact moves ds ds' → g'.Dims id ds') := by
  induction moves generalizing b g with
  | nil =>
    refine .pure (.refl hg) ⟨hb, fun _ _ => rfl, fun ds ds' _ hd h => ?_⟩
    cases h
    exact hd
  | cons m ms ih =>
    refine .bind (hp g (.move m b) hg (fun hty => ?_) fun _ => trivial) fun y g1 h1 hy => ?_
    · obtain ⟨ds, _, hd, d, hm, he, _⟩ := htyped hty
      exact ⟨d, ds, hd, hm, he⟩
    · have hdims : ∀ {ds d}, R.typed → g.Dims b ds → m.Suits R.exact ds d → Extents d →
          g1.Dims y d :=
        fun hty hd hm he => hy.dims _ hty ⟨_, hd, hm, he⟩
      refine (ih h1.1 hy.has fun hty => ?_).weaken fun id g2 h2 hq => ?_
      · obtain ⟨ds, ds', hd, d, hm, he, hms⟩ := htyped hty
        exact ⟨d, ds', hdims hty hd hm he, hms⟩
      · obtain ⟨hhas, hval, hd2⟩ := hq
        refine ⟨hhas, fun val hv => ?_, fun ds ds' hty hd h => ?_⟩
        · rw [hval val hv, hy.value val (hv.anti h2.2)]
          rfl
        · obtain ⟨d, hm, he, hms⟩ := h
          exact hd2 d ds' hty (hdims hty hd hm he) hms

/-- A source with movements pushed to its leaves. -/
structure Pushed (R : Reading) (moves : List Movement) (g g' : Graph) (s : Source) (id : Nat) :
    Prop where
  has : g'.Has id
  value : ∀ val, R.Denotes g' val → val id = R.moveAll moves (R.source val s)
  fits : ∀ val ds, R.typed → R.Denotes g' val → (∀ b ∈ s.buffers, g.Dims b ds) →
    R.Fits (R.source val s) ds
  dims : ∀ ds ds', R.typed → (∀ b ∈ s.buffers, g.Dims b ds) →
    Movement.SuitAll R.exact moves ds ds' →
    g'.Dims id ds'

lemma Pushed.mono (h : Pushed R moves g g' s id) (hk : g'.Extends g'') :
    Pushed R moves g g'' s id where
  has := hk.has h.has
  value val hv := h.value val (hv.anti hk)
  fits val ds hty hv hd := h.fits val ds hty (hv.anti hk) hd
  dims ds ds' hty hd hm := hk.dims (h.dims ds ds' hty hd hm)

lemma Pushed.sooner (h : Pushed R moves g' g'' s id) (hk : g.Extends g') :
    Pushed R moves g g'' s id where
  has := h.has
  value := h.value
  fits val ds hty hv hd := h.fits val ds hty hv fun b hb => hk.dims (hd b hb)
  dims ds ds' hty hd hm := h.dims ds ds' hty (fun b hb => hk.dims (hd b hb)) hm

lemma pushed_values {val : Nat → R.Value} (hv : R.Denotes g' val)
    (h : Forall₂ (Pushed R moves g g') ss ids) :
    ids.map val = (R.sources val ss).map (R.moveAll moves) ∧
      ∀ ds, R.typed → (∀ b ∈ buffersAll ss, g.Dims b ds) →
      ∀ v ∈ R.sources val ss, R.Fits v ds := by
  induction h with
  | nil => exact ⟨rfl, fun _ _ _ v hv => by cases hv⟩
  | @cons s id ss ids hs _ ih =>
    refine ⟨?_, fun ds hty hd v hvm => ?_⟩
    · rw [map_cons, sources, map_cons, hs.value val hv, ih.1]
    · obtain rfl | hvm := mem_cons.1 hvm
      · exact hs.fits val ds hty hv fun b hb => hd b (by simp [hb])
      · exact ih.2 ds hty (fun b hb => hd b (by simp [hb])) v hvm

lemma pushed_dims {ds ds' : List Int} (hty : R.typed)
    (h : Forall₂ (Pushed R moves g g') ss ids) (hd : ∀ b ∈ buffersAll ss, g.Dims b ds)
    (hm : SuitAll R.exact moves ds ds') : ∀ x ∈ ids, g'.Dims x ds' := by
  induction h with
  | nil => simp
  | @cons s id ss ids hs _ ih =>
    refine forall_mem_cons.2 ⟨hs.dims ds ds' hty (fun b hb => hd b ?_) hm,
      ih fun b hb => hd b ?_⟩
    · simp [hb]
    · simp [hb]

mutual

lemma pushInto_yields (hp : R.Performs p) (s : Source) {g : Graph} (hg : R.Sound g)
    (hlive : ∀ b ∈ s.buffers, g.Has b) (hfull : R.typed → s.Full R.Accepts)
    (htyped : R.typed → ∃ ds ds', Extents ds ∧ (∀ b ∈ s.buffers, g.Dims b ds) ∧
      SuitAll R.exact moves ds ds') :
    Yields R.Keeps g (Rules.pushInto p moves s) (fun id g' => Pushed R moves g g' s id) := by
  cases s with
  | buffer b =>
    refine (foldMoves_yields hp hg (hlive b (by simp)) fun hty => ?_).weaken
      fun id g1 h1 hq => ?_
    · obtain ⟨ds, ds', _, hd, hm⟩ := htyped hty
      exact ⟨ds, ds', hd b (by simp), hm⟩
    · obtain ⟨hhas, hval, hdims⟩ := hq
      refine ⟨hhas, hval, fun val ds hty hv hd => ?_, fun ds ds' hty hd hm => ?_⟩
      · obtain ⟨tb, htb, hs⟩ := h1.2.dims (hd b (by simp))
        exact hv.fits hty htb hs
      · exact hdims ds ds' hty (hd b (by simp)) hm
  | apply op arg srcs =>
    rw [Rules.pushInto]
    refine .guard (.refl hg) fun _ => ?_
    refine .bind (pushIntoAll_yields hp srcs hg hlive (fun hty => (hfull hty).2) htyped)
      fun xs g1 h1 hxs => ?_
    refine (hp g1 (.elementwise op xs arg) h1.1 (fun hty => ?_) fun hty => ?_).weaken
      fun id g2 h2 hq => ?_
    · obtain ⟨ds, ds', _, hd, hm⟩ := htyped hty
      exact ⟨ds', pushed_dims hty hxs hd hm⟩
    · change R.Accepts op xs.length
      rw [← hxs.length_eq]
      exact (hfull hty).1.2.2
    · have hxs2 : Forall₂ (Pushed R moves g g2) srcs xs := hxs.imp fun _ _ h => h.mono h2.2
      have hne : srcs ≠ [] := by
        intro h0
        subst h0
        cases hxs
        exact hq.srcs op [] arg rfl rfl
      have hsne : ∀ val : Nat → R.Value, R.sources val srcs ≠ [] := by
        cases srcs with
        | nil => exact (hne rfl).elim
        | cons s ss => simp [sources]
      refine ⟨hq.has, fun val hv => ?_, fun val ds hty hv hd => ?_, fun ds ds' hty hd hm => ?_⟩
      · obtain ⟨hvals, hfits⟩ := pushed_values hv hxs2
        rw [hq.value val hv, call, hvals, source, moveAll_elementwise]
        intro hty
        obtain ⟨ds, ds', he, hd, hm⟩ := htyped hty
        exact ⟨hsne val, ds, ds', he, hm, hfits ds hty hd⟩
      · exact R.fits_elementwise hty (hsne val) ((pushed_values hv hxs2).2 ds hty hd)
      · exact hq.dims ds' hty (pushed_dims hty hxs hd hm)

lemma pushIntoAll_yields (hp : R.Performs p) (ss : List Source) {g : Graph} (hg : R.Sound g)
    (hlive : ∀ b ∈ buffersAll ss, g.Has b) (hfull : R.typed → FullAll R.Accepts ss)
    (htyped : R.typed → ∃ ds ds', Extents ds ∧ (∀ b ∈ buffersAll ss, g.Dims b ds) ∧
      SuitAll R.exact moves ds ds') : Yields R.Keeps g (Rules.pushIntoAll p moves ss)
      (fun ids g' => Forall₂ (Pushed R moves g g') ss ids) := by
  cases ss with
  | nil => exact .pure (.refl hg) .nil
  | cons s ss =>
    refine .bind (pushInto_yields hp s hg (fun b hb => hlive b (by simp [hb]))
      (fun hty => (hfull hty).1) fun hty => ?_) fun x g1 h1 hx => ?_
    · obtain ⟨ds, ds', he, hd, hm⟩ := htyped hty
      exact ⟨ds, ds', he, fun b hb => hd b (by simp [hb]), hm⟩
    refine .bind (pushIntoAll_yields hp ss h1.1
      (fun b hb => h1.2.has (hlive b (by simp [hb]))) (fun hty => (hfull hty).2)
      fun hty => ?_) fun xs g2 h2 hxs => ?_
    · obtain ⟨ds, ds', he, hd, hm⟩ := htyped hty
      exact ⟨ds, ds', he, fun b hb => h1.2.dims (hd b (by simp [hb])), hm⟩
    exact .pure (Steps.stay h2) (.cons (hx.mono h2.2) (hxs.imp fun _ _ h => h.sooner h1.2))

end

end Reading

/-- Both can stand below a pad, but the remainder of zeros is no number or one, and the negative of
zero has a sign. -/
theorem remainder_of_zeros_lost :
    Graph.breaksPads (.binary .mod) = false ∧ Graph.breaksPads (.unary .neg) = false ∧
    ((Op.binary .mod).exec .float32 [0.0, 0.0]).toOption.any Double.isNaN = true ∧
    (Op.binary .mod).exec .bool [0.0, 0.0] = .ok 1.0 ∧
    ((Op.unary .neg).exec .float32 [0.0]).toOption.map (·.bits) = some 0x8000000000000000 :=
  ⟨rfl, rfl, rfl, rfl, rfl⟩

end LazyTensor
