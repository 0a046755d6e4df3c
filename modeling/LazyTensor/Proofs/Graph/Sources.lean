import LazyTensor.Proofs.Graph.Reachable

/-! What the items of a schedule read has contents by the time they run, unless a load reads a
constant that is written into programs. -/
namespace LazyTensor
open Checked GraphM LazyTensor.Graph Reading List Item

/-- The computation does not fail for want of an input. -/
def Quiet {α : Type} (x : Fallible α) : Prop :=
  ∀ i o, x ≠ .error (.error (.schedule (.unrealizedInput i o)))

namespace Quiet
variable {α β : Type}
variable {x : Fallible α} {f : α → Fallible β}

@[simp] lemma ok (a : α) : Quiet (.ok a) := by simp [Quiet]

@[simp] lemma pure (a : α) : Quiet (Pure.pure a) := ok a

@[simp] lemma abort (a : Abort) : Quiet (.error (.abort a) : Fallible α) := by simp [Quiet]

@[simp] lemma device (name : String) (fault : DeviceFault) :
    Quiet (LazyTensor.fail (.device name fault) : Fallible α) := by simp [Quiet, LazyTensor.fail]

@[simp] lemma realize (x : Nat) (fault : RealizeFault) :
    Quiet (LazyTensor.fail (.realize x fault) : Fallible α) := by simp [Quiet, LazyTensor.fail]

@[simp] lemma lift (x : Checked α) : Quiet (liftM x : Fallible α) := by
  intro i o h
  cases x <;> cases h

lemma bind (hx : Quiet x) (hf : ∀ a, Quiet (f a)) : Quiet (x >>= f) := by
  intro i o h
  cases x with
  | error e =>
    cases h
    exact hx i o rfl
  | ok a => exact hf a i o h

lemma map {f : α → β} (hx : Quiet x) : Quiet (f <$> x) := by
  rw [map_eq_pure_bind]
  exact hx.bind fun _ => .pure _

lemma mapM {xs : List α} (hf : ∀ a ∈ xs, Quiet (f a)) : Quiet (xs.mapM f) := by
  induction xs with
  | nil => exact ok []
  | cons x xs ih =>
    rw [mapM_cons]
    exact .bind (hf x mem_cons_self) fun _ =>
      .bind (ih fun a ha => hf a (mem_cons_of_mem _ ha)) fun _ => .pure _

lemma foldlM {f : β → α → Fallible β} (xs : List α) (s : β) (hf : ∀ s a, Quiet (f s a)) :
    Quiet (xs.foldlM f s) := by
  induction xs generalizing s with
  | nil => exact ok s
  | cons x xs ih =>
    rw [foldlM_cons]
    exact .bind (hf s x) ih

lemma forM {f : α → Fallible Unit} (xs : List α) (hf : ∀ a, Quiet (f a)) :
    Quiet (xs.forM f) := by
  induction xs with
  | nil => exact ok ()
  | cons x xs ih => exact .bind (hf x) fun _ => ih

@[simp] lemma choice {c : Prop} [Decidable c] {x y : Fallible α} (hx : Quiet x) (hy : Quiet y) :
    Quiet (if c then x else y) := by
  split <;> assumption

lemma guard {c : Prop} [Decidable c] {a : Abort} {f : PUnit → Fallible α} (hx : Quiet x) :
    Quiet (if c then .error (.abort a) >>= f else x) :=
  .choice (.abort a) hx

end Quiet

namespace Machine

lemma load_quiet (device : String) (p : Program) : Quiet (load device p) := by
  refine .bind (.foldlM _ _ fun c u => ?_) fun c => by simp
  unfold Check.step
  dsimp only
  split
  case h_2 => exact .choice (.device _ _) (.bind (.lift _) fun _ => .pure _)
  all_goals simp

namespace Loaded
variable {p : Loaded} {t : Thread} {u : Instr}
variable {s : Store} {idx : Reg}

lemma spot_quiet : Quiet (p.spot s u idx) := by
  refine .bind (.lift _) fun _ => .bind (.lift _) fun _ => .bind (.lift _) fun _ =>
    .bind ?_ fun _ => .pure _
  unfold region refuse
  repeat' split
  all_goals simp

lemma loadMemory_quiet {lanes : Nat} : Quiet (p.loadMemory s u idx lanes) := by
  refine .bind spot_quiet fun r => ?_
  dsimp only
  split <;> simp [refuse]

lemma storeMemory_quiet {v : Reg} : Quiet (p.storeMemory s u idx v) := by
  refine .bind spot_quiet fun r => ?_
  dsimp only
  split
  · exact .pure _
  · refine .choice (.device _ _) (.choice ?_ (.device _ _))
    split <;> exact .pure _

lemma value_quiet {s : State} : Quiet (p.value t u s) := by
  unfold value
  split
  case h_2 => split <;> simp
  case h_9 =>
    refine .map (.bind (.lift _) fun _ => .bind (.lift _) fun _ => .choice ?_ loadMemory_quiet)
    exact .bind (.lift _) fun _ => .bind (.lift _) fun _ => .pure _
  case h_10 => exact .bind (.lift _) fun _ => .pure _
  case h_11 => exact .bind (.lift _) fun _ => .pure _
  all_goals simp [refuse]

lemma step_quiet (pc : Nat) (s : State) : Quiet (p.step t pc s) := by
  refine .bind (.lift _) fun u => ?_
  unfold exec
  split
  · refine .bind (.lift _) fun _ => .bind (.lift _) fun _ => .choice ?_ (.pure _)
    split <;> simp
  · refine .bind (.lift _) fun _ => .bind (.lift _) fun _ => .bind (.lift _) fun _ => ?_
    exact .bind (.lift _) fun _ => .bind (.lift _) fun _ => .bind (.lift _) fun _ =>
      .choice (.pure _) (.pure _)
  · refine .bind (.choice ?_ ?_) fun _ => .pure _
    · exact .bind (.lift _) fun _ => .bind (.lift _) fun _ => .bind (.lift _) fun _ => .pure _
    · exact .bind (.lift _) fun _ => .bind (.lift _) fun _ =>
        .bind storeMemory_quiet fun _ => .pure _
  · refine .bind value_quiet fun v => ?_
    split <;> exact .pure _

lemma runSteps_quiet (stop n pc : Nat) (s : State) : Quiet (p.runSteps t stop n pc s) := by
  induction n generalizing pc s with
  | zero => exact .abort _
  | succ n ih => exact .choice (.bind (step_quiet pc s) fun _ => ih _ _) (.ok _)

lemma runPhase_quiet (phase : Nat × Nat) (ts : List (Thread × Array Reg)) (s : Store) :
    Quiet (p.runPhase phase ts s) := by
  induction ts generalizing s with
  | nil => exact .ok _
  | cons t ts ih => exact .bind (runSteps_quiet _ _ _ _) fun _ => .bind (ih _) fun _ => .pure _

lemma run_quiet (m : Memory) (buffers : List Buffer) (globalSize localSize : Option (List Int))
    (vals : Bindings) : Quiet (p.run m buffers globalSize localSize vals) := by
  refine .bind (.lift _) fun _ => .bind (.lift _) fun threads =>
    .bind (.foldlM _ _ fun globals group => ?_) fun _ => .pure _
  exact .bind (.forM _ fun _ => .lift _) fun _ =>
    .bind (.foldlM _ _ fun _ _ => runPhase_quiet _ _ _)
    fun _ => .pure _

end Loaded

end Machine

namespace Source
variable {env : Dense.Env}

lemma leaf_quiet {layout : Layout} {element : Element} {read : Int → Double} :
    Quiet (Dense.leaf env layout element read) := by
  refine .bind (.lift _) fun _ => ?_
  split
  · exact .device _ _
  · exact .bind (.lift _) fun _ => .bind (.lift _) fun _ => .bind (.lift _) fun _ => .pure _

lemma boundShape_quiet {shape : Shape} {fault : DeviceFault} :
    Quiet (Dense.boundShape env shape fault) := by
  refine .bind (.lift _) fun _ => ?_
  split
  · exact .pure _
  · exact .device _ _

mutual

lemma dense_quiet (s : Source) : Quiet (s.dense env) := by
  cases s with
  | buffer id => exact .device _ _
  | apply op arg srcs =>
    unfold Source.dense
    split
    · split
      · exact .device _ _
      · split
        · exact leaf_quiet
        · exact .device _ _
    · exact leaf_quiet
    · exact .bind (denseNext_quiet srcs) fun _ => .pure _
    · exact .bind (denseNext_quiet srcs) fun _ => .lift _
    · split
      · exact .abort _
      · next s rest =>
        exact .bind (dense_quiet s) fun _ => .bind (denseNext_quiet rest) fun _ => .lift _
    · split
      · exact .abort _
      · next s => exact .bind (dense_quiet s) fun _ => .abort _
      · next s t rest =>
        exact .bind (dense_quiet s) fun _ => .bind (dense_quiet t) fun _ =>
          .bind (denseNext_quiet rest) fun _ => .lift _
    · exact .bind (denseNext_quiet srcs) fun _ => .bind boundShape_quiet fun _ => .lift _
    · exact .bind (denseNext_quiet srcs) fun _ => .bind boundShape_quiet fun _ =>
        .bind (.lift _) fun _ =>
        .choice (.pure _) (.device _ _)
    · exact .device _ _

lemma denseNext_quiet (ss : List Source) : Quiet (denseNext env ss) := by
  cases ss with
  | nil => exact .abort _
  | cons s ss => exact dense_quiet s

end

end Source

lemma Layout.ofShape_quiet (shape : Shape) : Quiet (Layout.ofShape shape) := by
  have hcreate (fault : MovementFault) : Quiet
      (fail (.movement "create" shape fault) : Fallible View) := by
    simp [Quiet, fail]
  refine .bind (.choice (.bind (.lift _) fun strides => ?_) (hcreate _)) fun _ => .pure _
  split
  · exact .lift _
  · exact hcreate _

lemma Compiler.shape_quiet (c : Compiler) (t : OpTree) : Quiet (c.shape t) := by
  refine .bind ?_ fun k => .choice (.lift _) (.lift _)
  refine .bind (.lift _) fun e => .guard
    (.bind (Layout.ofShape_quiet _) fun _ => .bind (.lift _) fun _ => .guard ?_)
  exact .bind (.lift _) fun _ => .bind (.lift _) fun _ => .bind (.lift _) fun _ => .lift _

lemma Compiler.fetch_quiet (c : Compiler) (device : String) (t : OpTree) :
    Quiet (c.fetch device t).1 := by
  have hbuild : Quiet (c.build device t).1 := by
    unfold build
    dsimp only
    split
    · next h =>
      intro i o he
      cases he
      refine (?_ : Quiet _) i o h
      exact .bind (c.shape_quiet t) fun _ => .bind (.lift _) fun _ => .bind (.lift _) fun _ =>
        .bind (.lift _) fun _ => .pure _
    · exact .map (Machine.load_quiet _ _)
  unfold fetch
  dsimp only
  split
  · exact .ok _
  · split
    · exact .ok _
    · next h =>
      rw [h] at hbuild
      exact hbuild

lemma Runner.sizes_quiet (device : String) (dims : Option (List SymInt)) (vals : Bindings) :
    Quiet (Runner.sizes device dims vals) := by
  unfold sizes
  split
  · exact .ok _
  · refine .bind (.mapM fun d _ => .bind (.lift _) fun n => ?_) fun _ => .pure _
    split <;> simp

lemma Device.exec_quiet (d : Device) (t : OpTree) (m : Memory) (output : Buffer)
    (inputs : List Buffer) (vals : Bindings) : Quiet (d.exec t m output inputs vals).1 := by
  unfold exec
  split
  · exact .bind (Source.dense_quiet _) fun _ => .choice (.device _ _) (.pure _)
  · exact .bind (Compiler.fetch_quiet _ _ _) fun r => .bind (Runner.sizes_quiet _ _ _) fun _ =>
      .bind (Runner.sizes_quiet _ _ _) fun _ => Machine.Loaded.run_quiet _ _ _ _ _

namespace GraphM
variable {α β : Type} {g : Graph}

/-- On this graph the change does not fail for want of an input. -/
def QuietOn (g : Graph) (x : GraphM α) : Prop := Quiet (x.runOn g).1

namespace QuietOn
variable {f : α → GraphM β}

lemma throw {e : Failure} (h : ∀ i o, e ≠ .error (.schedule (.unrealizedInput i o))) :
    QuietOn g (MonadExcept.throw e : GraphM α) :=
  fun i o he => h i o (Except.error.inj he)

lemma bind {x : GraphM α} (hx : QuietOn g x)
    (hf : ∀ a g', x.runOn g = (.ok a, g') → QuietOn g' (f a)) : QuietOn g (x >>= f) := by
  unfold QuietOn
  rw [runOn_bind]
  rcases h : x.runOn g with ⟨e | a, g'⟩
  · intro i o he
    cases he
    exact hx i o (congrArg Prod.fst h)
  · exact hf a g' h

lemma bind_fallible {x : Fallible α} (hx : Quiet x) (hf : ∀ a, QuietOn g (f a)) :
    QuietOn g ((liftM x : GraphM α) >>= f) :=
  .bind hx fun a _ h => by
    obtain ⟨_, rfl⟩ := fallible_eq_ok.1 h
    exact hf a

lemma bind_checked {x : Checked α} (hf : ∀ a, QuietOn g (f a)) :
    QuietOn g ((liftM x : GraphM α) >>= f) :=
  bind_fallible (.lift x) hf

lemma bind_see {c : Graph → Checked α} (hf : ∀ a, QuietOn g (f a)) :
    QuietOn g (GraphM.see c >>= f) :=
  bind_fallible (.lift (c g)) hf

lemma bind_get {f : Graph → GraphM β} (hf : QuietOn g (f g)) : QuietOn g (get >>= f) := hf

end QuietOn

end GraphM

def Item.Reads (item : Item) : Prop :=
  item.tree.op.kind = .load → item.tree.op = .load .contiguous ∨
    item.tree.op = .load .custom ∨
    item.tree.op = .load .copy

namespace Graph
variable {g g' start : Graph} {x b : Nat} {item : Item} {items : List Item} {outs : List Nat}
variable {device : String} {element : Element}

lemma device_quiet (name : String) : Quiet (g.device name) := by
  unfold device
  split <;> simp

lemma extent_quiet (x : Nat) : Quiet (g.extent x) :=
  .bind (.lift _) fun _ => .bind (.lift _) fun _ => .choice (.realize _ _) (.pure _)

lemma allocate_quiet : QuietOn g (allocate device x element) :=
  .bind_get (.bind_fallible (device_quiet _) fun _ => .bind_fallible (extent_quiet _) fun _ =>
    .bind_checked fun _ => .pure _)

lemma upload_quiet {contents : List UInt8} : QuietOn g (upload device element contents) := by
  refine .bind_get (.bind_fallible (device_quiet _) fun d =>
    .bind_fallible (.bind ?_ fun _ => .pure _) fun _ => .pure _)
  unfold Memory.ofBytes
  split
  · exact .ok _
  · simp [Quiet, fail]

lemma loadContents_quiet {op : LoadOp}
    (h : op = .contiguous ∨ op = .custom ∨ op = .copy → Quiet (g.inputsOf item)) :
    QuietOn g (loadContents op item) := by
  refine .bind_see fun t => .bind_see fun element => .bind_get ?_
  split
  · exact allocate_quiet
  · exact .bind_fallible (extent_quiet _) fun _ => .bind_checked fun _ => upload_quiet
  · exact upload_quiet
  · refine .bind_fallible (h (by simp)) fun raws => ?_
    split
    · exact .pure _
    · exact .throw (by simp)
  · refine .bind_fallible (h (by simp)) fun raws => .bind_checked fun values =>
      .bind_fallible (extent_quiet _) fun _ => ?_
    split
    · exact upload_quiet
    · exact .throw (by simp)
  · refine .bind_fallible (h (by simp)) fun raws => ?_
    split
    · exact .throw (by simp)
    · refine .bind_see fun _ => .bind (.bind_fallible (device_quiet _) fun _ => .pure _)
        fun _ _ _ => upload_quiet
  · exact .throw (by simp)

lemma settle_quiet {raw : Buffer} : QuietOn g (do
    setContents x raw
    let filled ← see (·.dropOps x)
    set filled
    let filled ← get
    liftM (filled.checkContents x) : GraphM Unit) := by
  unfold QuietOn
  rw [fill_run]
  split
  · exact .abort _
  · split
    · exact .abort _
    · refine .bind (.lift _) fun found => ?_
      split
      · exact .realize _ _
      · exact .bind (.lift _) fun _ => .bind (.lift _) fun _ =>
          .choice (.realize _ _) (.choice (.realize _ _) (.pure _))

lemma runItem_quiet (h : item.Reads → Quiet (g.inputsOf item)) : QuietOn g (runItem item) := by
  unfold runItem
  split
  · next op hop =>
    refine .bind (loadContents_quiet fun hreads => h fun _ => ?_) fun _ _ _ => settle_quiet
    simpa [hop] using hreads
  · next hkernel =>
    have hkind : item.tree.op.kind ≠ .load := by
      intro hk
      cases hop : item.tree.op <;> simp_all [Op.kind]
    simp only [runTree, bind_assoc]
    refine .bind_see fun t => .bind_see fun element => .bind_get
      (.bind_fallible (h fun hk => (hkind hk).elim) fun inputs =>
        .bind allocate_quiet fun raw g1 _ => ?_)
    refine .bind ?_ fun _ g2 _ => .bind_checked fun e => .bind ?_ fun _ g3 _ => settle_quiet
    · refine .bind_get (.bind_fallible (device_quiet _) fun d => .bind (.pure _) fun _ g2 _ => ?_)
      exact .bind_fallible (d.exec_quiet _ _ _ _ _) fun _ => .pure _
    · exact .bind_get (.bind_checked fun _ => .pure _)

lemma inputsOf_quiet (h : ∀ i ∈ item.inputs, g.isRealized i = .ok true) :
    Quiet (g.inputsOf item) := by
  refine .mapM fun i hi => ?_
  obtain ⟨_, hfound, hsome⟩ := bind_eq_ok.1 (h i hi)
  obtain ⟨raw, rfl⟩ := Option.isSome_iff_exists.1 (pure_eq_ok.1 hsome)
  rw [hfound]
  exact .pure _

lemma runItem_fills (hg : depth.Sound g) (h : (runItem item).runOn g = (.ok (), g')) :
    depth.Stays g g' ∧ g'.isRealized item.out = .ok true := by
  refine ⟨((runItem_steps runs_stays (.refl hg)).of_ok h).1, ?_⟩
  obtain ⟨_, _, _, ⟨_, _, _, _, hcheck⟩, _⟩ := runItem_settled h
  obtain ⟨t, tb, raw, ht, htb, hraw, _⟩ := checkContents_eq_ok hcheck
  exact isRealized_eq_ok.2 ⟨t, tb, ht, htb, by rw [hraw]; rfl⟩

lemma Avail.realized (h : start.Avail outs x) (hconst : start.isPendingConst x ≠ .ok true)
    (hs : depth.Stays start g) (houts : ∀ o ∈ outs, g.isRealized o = .ok true) :
    g.isRealized x = .ok true := by
  obtain ⟨t, ht, hr | hc | ho⟩ := h
  · exact hs.realized hr
  · exact (hconst hc).elim
  · exact (hs.sound.isRealized (hs.base (baseOf_eq_ok.2 ⟨t, ht, rfl⟩))).symm.trans (houts _ ho)

lemma run_quiet (hs : depth.Stays start g) (horder : InOrder start outs items)
    (houts : ∀ o ∈ outs, g.isRealized o = .ok true)
    (hconst : ∀ item ∈ items, item.Reads → ∀ i ∈ item.inputs,
      start.isPendingConst i ≠ .ok true) :
    QuietOn g (run items) := by
  induction items generalizing g outs with
  | nil => exact .pure _
  | cons item items ih =>
    obtain ⟨hready, horder⟩ := horder
    refine .bind (runItem_quiet fun hreads => inputsOf_quiet fun i hi => ?_) fun _ g1 h1 => ?_
    · exact (hready i hi).1.realized (hconst item mem_cons_self hreads i hi) hs houts
    · obtain ⟨hstays, hout⟩ := runItem_fills hs.sound h1
      refine ih (Steps.trans hs hstays) horder (fun o ho => ?_) fun it hit =>
        hconst it (mem_cons_of_mem _ hit)
      obtain ho | ho := mem_append.1 ho
      · exact hstays.realized (houts o ho)
      · cases mem_singleton.1 ho
        exact hout

end Graph

/-- What a load of a schedule reads had contents before, or is a view of what an earlier item
computes, or is a constant that waits on a compiled device and is not to be copied. If it is not a
constant where a custom load or a copy reads it, the items do not fail for want of an input. -/
theorem schedule_finds_sources {g g' : Graph} {x : Nat} {items : List Item} (hg : Reachable g)
    (h : (schedule x).runOn g = (.ok items, g')) :
    (∀ before item after, items = before ++ item :: after → item.tree.op.kind = .load →
      ∀ i ∈ item.inputs, ∃ b, g'.baseOf i = .ok b ∧
        (g.isRealized b = .ok true ∨ (∃ earlier ∈ before, earlier.out = b) ∨
          item.tree.op ≠ .load .contiguous ∧ g'.isPendingConst i = .ok true)) ∧
    ((∀ item ∈ items, item.tree.op = .load .custom ∨ item.tree.op = .load .copy →
        ∀ i ∈ item.inputs, g'.isPendingConst i ≠ .ok true) →
      ∀ i o g'', (run items).runOn g' ≠
        (.error (.error (.schedule (.unrealizedInput i o))), g'')) := by
  obtain ⟨hk, _, seen, hv⟩ := (schedule_visits hg.sound).of_ok h
  have hready {before after : List Item} {item : Item} (heq : items = before ++ item :: after) :
      Ready g' (before.map out) item := by
    have horder := hv.order
    rw [heq, inOrder_append] at horder
    exact horder.2.1
  refine ⟨fun before item after heq hkind i hi => ?_, fun hconst i o g'' hrun => ?_⟩
  · obtain ⟨ha, hc, _⟩ := hready heq i hi
    obtain ⟨t, ht, _⟩ := id ha
    have hb := baseOf_eq_ok.2 ⟨t, ht, rfl⟩
    refine ⟨_, hb, ?_⟩
    by_cases hpending : g'.isPendingConst i = .ok true
    · refine .inr (.inr ⟨?_, hpending⟩)
      exact (hc.resolve_left fun hfalse => by cases hpending.symm.trans hfalse).2
    · refine (base_of_avail hk.sound ha hpending hb).imp (filled_back hk) fun hmem => .inl ?_
      simpa using hmem
  · refine run_quiet (.refl hk.sound) hv.order (by simp) (fun item hitem hreads i hi => ?_) i o
      (congrArg Prod.fst hrun)
    obtain ⟨before, after, heq⟩ := append_of_mem hitem
    obtain hfalse | ⟨hkind, hcopy⟩ := (hready heq i hi).2.1
    · rw [hfalse]
      simp
    · exact hconst item hitem ((hreads hkind).resolve_left hcopy) i hi

def doubled (device : String) : Graph :=
  [.full device [.num 2] .float32 3.0,
   .load .custom [.num 2] .float32 device
     (.custom ⟨"double", fun xs => .ok (xs.flatten.map (2.0 * ·))⟩) (some 2) []].foldl
    (fun g (r : Request) => (r.perform.runOn g).2) {}

lemma doubled_reachable (device : String) : Reachable (doubled device) :=
  ((Reachable.start _).request _).request _

/-- An interpreter computes the constant first. -/
theorem doubled_finds_sources : ∃ items g', (schedule 3).runOn (doubled "CPU") =
    (.ok items, g') ∧
    items.map out = [0, 3] ∧ items.map inputs = [[], [2]] ∧
    ∀ i o g'', (run items).runOn g' ≠
      (.error (.error (.schedule (.unrealizedInput i o))), g'') := by
  have hrun : ((schedule 3).runOn (doubled "CPU")).1.toOption.map
      (fun items => (items.map out, items.map inputs)) = some ([0, 3], [[], [2]]) := by
        decide +kernel
  have hconst : ((schedule 3).runOn (doubled "CPU")).2.isPendingConst 2 = .ok false := by
    decide +kernel
  obtain ⟨items, hitems, hrun⟩ := Option.map_eq_some_iff.1 hrun
  obtain ⟨g', hres⟩ := runOn_of_toOption hitems
  rw [hres] at hconst
  obtain ⟨hout, hin⟩ := Prod.mk.inj hrun
  refine ⟨items, g', hres, hout, hin, (schedule_finds_sources (doubled_reachable _) hres).2
    fun item hitem _ i hi => ?_⟩
  have hmem : item.inputs ∈ items.map inputs := mem_map_of_mem hitem
  rw [hin] at hmem
  have hi2 : i = 2 := by
    rcases mem_cons.1 hmem with h | h
    · rw [h] at hi
      cases hi
    · rw [mem_singleton.1 h] at hi
      simpa using hi
  rw [hi2, hconst]
  simp

/-- A compiling device would write the constant into a program, and the function finds nothing. -/
theorem doubled_misses_source :
    ((realize 3).runOn (doubled "VM")).1 = .error (.error (.schedule (.unrealizedInput 2 3))) := rfl

end LazyTensor
