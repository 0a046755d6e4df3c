import LazyTensor.Graph.Replay
import LazyTensor.Proofs.Graph.Running
import LazyTensor.Proofs.Graph.Schedule

/-! What can be asked of a graph. Whether it is granted or fails, the graph stays sound and ids of
dropped tensors stay unused. -/
namespace LazyTensor
open Checked GraphM LazyTensor.Graph Shape Steps
variable {α : Type} {m : GraphM α} {Q : α → Graph → Prop} {device : String}
  {element : Element} {inputs : List Nat}

/-- The shapes in a movement are numbers, and the dimensions it gives are positive. -/
def Movement.Concrete : Movement → Prop
  | reshape s | expand s => ∃ ds, s.Sized ds
  | shrink ranges => ∀ r ∈ ranges, r.1 < r.2
  | permute _ | pad _ | stride _ => True

def Call.Concrete : Call → Prop
  | elementwise _ _ _ => True
  | reduce _ _ s => ∃ ds, s.Sized ds
  | move m _ => m.Concrete

/-- What can be asked of a graph. -/
inductive Request
  | load (op : LoadOp) (shape : Shape) (element : Element) (device : String) (arg : OpArg)
      (src : Option Nat) (vals : Bindings)
  | bytes (device : String) (shape : List Int) (element : Element) (contents : List UInt8)
  | full (device : String) (shape : Shape) (element : Element) (value : Double)
  | constLike (x : Nat) (value : Double)
  | contiguous (x : Nat)
  | copyTo (x : Nat) (device : String)
  | call (call : Call)
  | schedule (x : Nat)
  | run (items : List Item)
  | realize (x : Nat)
  | toHost (x : Nat)
  | capture (root : Nat) (inputs : List Nat)
  | replay (recording : Recording) (inputs : List Buffer) (vals : Bindings)

namespace Request

def perform : Request → GraphM Unit
  | load op shape element device arg src vals =>
    discard (Graph.load op shape element device arg src vals)
  | bytes device shape element contents => discard (Graph.ofBytes device shape element contents)
  | full device shape element value => discard (Graph.full device shape element value)
  | constLike x value => discard (Graph.constLike x value)
  | contiguous x => discard (Graph.contiguous x)
  | copyTo x device => discard (Graph.copyTo x device)
  | call c => discard (Graph.perform c)
  | schedule x => discard (Graph.schedule x)
  | run items => Graph.run items
  | realize x => Graph.realize x
  | toHost x => discard (Graph.toHost x)
  | capture root inputs => discard (Graph.capture root inputs)
  | replay recording inputs vals => discard (recording.replay inputs vals)

/-- All shapes in the request are numbers, and a copy is asked for in the shape of what it
copies. -/
def Concrete (g : Graph) : Request → Prop
  | load op shape _ _ _ src _ => (∃ ds, shape.Sized ds) ∧
    (op = .contiguous → ∀ x, src = some x → ∀ t, g.find? x = some t → t.shape = shape)
  | bytes _ shape _ _ => Extents shape
  | full _ shape _ _ => ∃ ds, shape.Sized ds
  | call c => c.Concrete
  | _ => True

end Request

namespace Reading
variable {R : Reading} {g g' : Graph} {x : Nat} {t : Tensor}

/-- Whatever happened, the graph is sound, and tensors keep their bases and contents. -/
structure Stays (R : Reading) (g g' : Graph) : Prop where
  sound : R.Sound g'
  ages : g.Ages g'
  base : ∀ {x b}, g.baseOf x = .ok b → g'.baseOf x = .ok b
  realized : ∀ {x}, g.isRealized x = .ok true → g'.isRealized x = .ok true

lemma Stays.refl (hg : R.Sound g) : R.Stays g g := ⟨hg, .refl g, id, id⟩

instance : Steps R.Stays where
  trans h h' := ⟨h'.sound, h.ages.trans h'.ages, h'.base ∘ h.base, h'.realized ∘ h.realized⟩
  stay h := .refl h.sound

lemma Stays.trim (hg : R.Sound g) (h : g.Trims g') (hhas : ∀ {id}, g.Has id → g'.Has id) :
    R.Stays g g' := by
  refine ⟨hg.trim h, h.ages, fun {x b} hb => ?_, fun {x} hr => ?_⟩
  · obtain ⟨t, ht, rfl⟩ := baseOf_eq_ok.1 hb
    obtain ⟨t', ht'⟩ := hhas ⟨t, ht⟩
    obtain ⟨t0, ht0, htrim, _⟩ := h.back ht'
    cases ht.symm.trans ht0
    exact baseOf_eq_ok.2 ⟨t', ht', by rw [htrim.base]⟩
  · obtain ⟨t, _, ht, _⟩ := isRealized_eq_ok.1 hr
    exact h.realized (hhas ⟨t, ht⟩) hr

lemma Stays.same (hg : R.Sound g) (ht : g'.tensors = g.tensors) (hc : g'.cache = g.cache) :
    R.Stays g g' :=
  .trim hg (hg.trims_same ht hc) fun ⟨t, h⟩ => ⟨t, by rw [find?, ht]; exact h⟩

lemma Stays.grows (hg : R.Sound g') (h : g.Extends g') : R.Stays g g' :=
  ⟨hg, h.ages, h.baseOf, h.isRealized⟩

/-- The graph grew by tensors that are not found again. -/
structure Fills (R : Reading) (g g' : Graph) : Prop where
  sound : R.Sound g'
  grows : g.Extends g'
  cache : g'.cache = g.cache

lemma Fills.refl (hg : R.Sound g) : R.Fills g g := ⟨hg, .refl g, rfl⟩

instance : Steps R.Fills where
  trans h h' := ⟨h'.sound, h.grows.trans h'.grows, h'.cache.trans h.cache⟩
  stay h := .refl h.sound

lemma stays_of_fills (h : Yields R.Fills g m Q) : Yields R.Stays g m (fun _ _ => True) :=
  ⟨.grows h.step.sound h.step.grows, fun _ _ => trivial⟩

lemma stays_of_keeps (h : Yields R.Keeps g m Q) : Yields R.Stays g m (fun _ _ => True) :=
  ⟨.grows h.step.sound h.step.grows, fun _ _ => trivial⟩

lemma runs_stays : Runs R.Stays where
  around hk ha := .same hk.sound ha.tensors ha.cache
  fill hk ha _ ht hb :=
    have hg := hk.sound.same ha.tensors ha.cache
    .trim hg (hg.trims_fill ht hb) (has_fill _ ht)

lemma ofBytes_yields {shape : List Int}
    {contents : List UInt8} (hg : R.Sound g) (hs : R.typed → Extents shape) :
    Yields R.Fills g (ofBytes device shape element contents) (fun id g' =>
      id = g.tensors.length ∧ ∃ t, g'.find? id = some t ∧ t.shape = ofInts shape ∧
        t.base = none ∧ t.op = none) := by
  have hk : R.Fills g g := .refl hg
  refine .bind_get hk (.bind_fallible hk fun d _ => .bind_fallible hk fun r _ => ?_)
  refine .bind (P := fun _ g' => g'.tensors = g.tensors)
    (.modify ⟨hg.same rfl rfl, .same rfl rfl rfl rfl, rfl⟩ rfl) fun _ g1 h1 htensors => ?_
  have hk1 := stay h1
  refine .bind_checked hk1 fun size _ => .guard hk1 fun _ => .bind_fallible hk1 fun layout hl => ?_
  have hn : Fresh R g1 { device, layout, kind := .load, op := none, element := r.1.element
                         realized := some r.1 } :=
    ⟨by simp, by simp, by simp, by simp, by simp, by simp, by simp,
      fun _ => by rw [Tensor.shape, Layout.ofShape_shape hl]; exact hl,
      fun hty => ⟨shape, .ofShape ⟨rfl, hs hty⟩ hl⟩, rfl, rfl⟩
  obtain ⟨g2, h2, hrun⟩ := insert_run h1.sound hn
  exact .of_run hrun ⟨h1.sound.append h2 hn, h2.grows.trans (extends_append g2 _), h2.cache⟩
    ⟨by rw [htensors], _, find?_append.trans (if_pos h2.length.symm),
      Layout.ofShape_shape hl, rfl, rfl⟩

lemma Sound.sized (hg : R.Sound g) (ht : g.find? x = some t) (hty : R.typed) :
    ∃ ds, t.shape.Sized ds := by
  obtain ⟨ds, hp⟩ := (hg.at_id ht).plain hty
  exact ⟨ds, hp.1⟩

/-- Calls with shapes that are numbers, and schedules, keep graphs sound in this reading. -/
structure Lasting (R : Reading) : Prop where
  call : ∀ {g c}, R.Sound g → (R.typed → c.Concrete) → (R.typed → R.Admits c) →
    Yields R.Stays g (perform c) (fun _ _ => True)
  schedule : ∀ {g x}, R.Sound g → Yields R.Stays g (schedule x) (fun _ _ => True)
  casts : R.typed → R.Accepts (.unary .cast) 1

def AdmitsRequest (R : Reading) : Request → Prop
  | .call c => R.Admits c
  | _ => True

lemma AdmitsRequest.all (h : ∀ op n, R.Accepts op n) (r : Request) : R.AdmitsRequest r := by
  cases r with
  | call c => exact Admits.all h c
  | _ => trivial

/-- What requests are made of takes steps of this kind, as long as the shapes are numbers where this
reading asks for it. -/
structure Parts (R : Reading) (K : Graph → Graph → Prop) : Prop extends Runs K where
  sound : ∀ {g}, K g g → R.Sound g
  load : ∀ {g op shape element device arg src vals}, K g g →
    (R.typed → ∃ ds, shape.Sized ds) →
    (R.typed → op = .contiguous → ∀ x, src = some x → ∀ t, g.find? x = some t →
      t.shape = shape) →
    Yields K g (Graph.load op shape element device arg src vals) (fun _ _ => True)
  contiguous : ∀ {g x}, K g g → Yields K g (Graph.contiguous x) (fun _ _ => True)
  bytes : ∀ {g device shape element contents}, K g g → (R.typed → Extents shape) →
    Yields K g (ofBytes device shape element contents) (fun _ _ => True)
  call : ∀ {g c}, K g g → (R.typed → c.Concrete) → (R.typed → R.Admits c) →
    Yields K g (perform c) (fun _ _ => True)
  schedule : ∀ {g x}, K g g → Yields K g (schedule x) (fun _ _ => True)
  casts : R.typed → R.Accepts (.unary .cast) 1

section
variable {K : Graph → Graph → Prop} [Steps K] (hK : R.Parts K) (hk : K g g)
include hK hk

lemma full_steps {shape : Shape} {value : Double} (hs : R.typed → ∃ ds, shape.Sized ds) :
    Yields K g (full device shape element value) (fun _ _ => True) := by
  have hones : Sized (shape.map fun _ => .num 1) (shape.map fun _ => 1) :=
    ⟨by simp [ofInts], fun d hd => by
      obtain ⟨_, _, rfl⟩ := List.mem_map.1 hd
      decide⟩
  refine .bind (hK.load hk (fun _ => ⟨[], rfl, by simp [Extents]⟩) (by simp)) fun _ _ h1 _ => ?_
  exact .bind (hK.call (stay h1) (fun _ => ⟨_, hones⟩) fun _ => trivial) fun _ _ h2 _ =>
    hK.call (stay h2) hs fun _ => trivial

lemma realize_steps : Yields K g (realize x) (fun _ _ => True) := by
  refine .bind (P := fun _ _ => True) (.bind_lookup hk fun _ _ => .pure hk trivial)
    fun _ g1 h1 _ => ?_
  have hk1 := stay h1
  refine .bind_see hk1 fun filled _ => ?_
  split
  · exact .bind (hK.schedule hk1) fun _ _ h2 _ => run_steps hK.toRuns (stay h2)
  · exact .pure hk1 trivial

lemma readBack_steps (count : Int) : Yields K g (do
    let c ← contiguous x
    realize c
    match ← see (·.realized? c) with
    | none => throw (.error (.realize c .notRealized))
    | some raw =>
      let g ← get
      discard (liftM (g.device (← see (·.tensor c)).device) : GraphM Device)
      pure ((g.memory.read raw).take count.toNat)) (fun _ _ => True) := by
  refine .bind (hK.contiguous hk) fun c g1 h1 _ =>
    .bind (realize_steps hK (stay h1)) fun _ g2 h2 _ => ?_
  have hk2 := stay h2
  refine .bind_see hk2 fun found _ => ?_
  split
  · exact .throw hk2
  · refine .bind_get hk2 (.bind_see hk2 fun t _ => ?_)
    exact .bind (P := fun _ _ => True) (.bind_fallible hk2 fun _ _ => .pure hk2 trivial)
      fun _ _ h3 _ => .pure (stay h3) trivial

lemma toHost_steps : Yields K g (toHost x) (fun _ _ => True) := by
  refine .bind_lookup hk fun t _ => ?_
  dsimp only
  split
  · exact .throw hk
  · refine .bind_checked hk fun count _ => .bind_see hk fun element _ => ?_
    split
    · exact .bind (hK.call hk (fun _ => trivial) hK.casts) fun y _ h1 _ =>
        readBack_steps hK (stay h1) count
    · exact readBack_steps hK hk count

lemma recordItem_steps {item : Item} : Yields K g (recordItem item) (fun _ _ => True) := by
  refine .bind_see hk fun t _ => ?_
  split
  · exact .bind (runItem_steps hK.toRuns hk) fun _ _ h1 _ => .pure (stay h1) trivial
  · refine .bind_get hk (.bind_fallible hk fun inputs _ => ?_)
    refine .bind (runItem_steps hK.toRuns hk) fun _ g1 h1 _ => ?_
    have hk1 := stay h1
    exact .bind_see hk1 fun out _ => .bind_checked hk1 fun e _ => .pure hk1 trivial

lemma recordInputs_steps {found : List Buffer} :
    Yields K g (recordInputs inputs found) (fun _ _ => True) := by
  induction inputs generalizing g found with
  | nil => exact .pure hk trivial
  | cons x inputs ih =>
    refine .bind (realize_steps hK hk) fun _ g1 h1 _ => .bind_see (stay h1) fun raw _ => ?_
    split
    · exact .throw (stay h1)
    · split
      · exact .throw (stay h1)
      · exact ih (stay h1)

lemma capture_steps {root : Nat} : Yields K g (capture root inputs) (fun _ _ => True) := by
  refine .bind (recordInputs_steps hK hk) fun inputs g1 h1 _ => ?_
  refine .bind (hK.schedule (stay h1)) fun items g2 h2 _ => ?_
  refine .bind (.mapM (R := fun _ _ _ => True) (stay h2) (fun _ _ _ _ _ h => h)
    fun item _ _ h => recordItem_steps hK (stay h)) fun launches g3 h3 _ => ?_
  have hk3 := stay h3
  refine .bind_see hk3 fun output _ => ?_
  split
  · exact .throw hk3
  · exact .bind_fallible hk3 fun places _ => .pure hk3 trivial

lemma replay_steps {recording : Recording} {inputs : List Buffer} {vals : Bindings} :
    Yields K g (recording.replay inputs vals) (fun _ _ => True) := by
  refine .bind_fallible hk fun _ _ => .bind (.forM hk fun e _ g1 h1 => ?_) fun _ _ h2 _ =>
    .pure (stay h2) trivial
  have hk1 := stay h1
  refine .bind_checked hk1 fun buffers _ => ?_
  split
  · exact .throw hk1
  · exact .bind (hK.yields hk1 exec_around) fun _ _ h2 _ =>
      (hK.yields (stay h2) record_around).weaken fun _ _ _ _ => trivial

/-- Every request is made of such parts. -/
lemma request_steps (r : Request) (hr : R.typed → r.Concrete g)
    (ha : R.typed → R.AdmitsRequest r) :
    K g (r.perform.runOn g).2 := by
  have quiet {α : Type} {m : GraphM α} (h : Yields K g m (fun _ _ => True)) :
      K g ((discard m).runOn g).2 :=
    (Yields.bind h fun _ _ h1 _ => .pure (stay h1) trivial : Yields K g (discard m)
      (fun _ _ => True)).step
  cases r with
  | load => exact quiet (hK.load hk (fun hty => (hr hty).1) fun hty => (hr hty).2)
  | bytes => exact quiet (hK.bytes hk hr)
  | full => exact quiet (full_steps hK hk hr)
  | constLike x _ =>
    exact quiet (.bind_lookup hk fun t ht => .bind_see hk fun element _ =>
      full_steps hK hk ((hK.sound hk).sized ht))
  | contiguous => exact quiet (hK.contiguous hk)
  | copyTo x _ =>
    refine quiet (.bind (hK.contiguous hk) fun src g1 h1 _ => ?_)
    have hk1 := stay h1
    refine .bind_see hk1 fun shape hs => .bind_see hk1 fun element _ => ?_
    obtain ⟨t, ht, rfl⟩ := shape_eq_ok.1 hs
    exact hK.load hk1 ((hK.sound hk1).sized ht) (by simp)
  | call => exact quiet (hK.call hk hr ha)
  | schedule => exact quiet (hK.schedule hk)
  | run => exact (run_steps hK.toRuns hk).step
  | realize => exact (realize_steps hK hk).step
  | toHost => exact quiet (toHost_steps hK hk)
  | capture => exact quiet (capture_steps hK hk)
  | replay => exact quiet (replay_steps hK hk)

end

/-- No request leaves the graph unsound. -/
lemma request_stays (hR : R.Lasting) (hg : R.Sound g) (r : Request) (hr : R.typed → r.Concrete g)
    (ha : R.typed → R.AdmitsRequest r) : R.Stays g (r.perform.runOn g).2 := by
  have hparts : R.Parts R.Stays := { runs_stays with
      sound := fun hk => hk.sound
      load := fun hk hs hcopy => stays_of_keeps (load_yields hk.sound hs hcopy)
      contiguous := fun hk => stays_of_keeps (contiguous_yields hk.sound)
      bytes := fun hk hs => stays_of_fills (ofBytes_yields hk.sound hs)
      call := fun hk => hR.call hk.sound
      schedule := fun hk => hR.schedule hk.sound
      casts := hR.casts }
  exact request_steps hparts (.refl hg) r hr ha

end Reading

end LazyTensor
