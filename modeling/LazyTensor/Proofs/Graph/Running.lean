import LazyTensor.Proofs.Graph.Trim
import LazyTensor.Proofs.Graph.Blind
import LazyTensor.Proofs.Memory

/-! Running the items of a schedule. -/
namespace LazyTensor
open Checked GraphM LazyTensor.Graph Reading List Steps Memory
variable {d : Device} {output : Buffer} {inputs : List Buffer}

def Graph.grown (g : Graph) (contents : List UInt8) : Graph :=
  g.holding (g.memory.grown contents)

def Graph.amid (g : Graph) (devices : List Device) (m : Memory) : Graph :=
  { g with devices, memory := m }

def Graph.allocation? (g : Graph) (name : String) : Option Allocation :=
  (g.device? name).map (·.allocation)

def Allocation.next (a : Allocation) (m : Memory) (size : Nat) (element : Element) : Buffer :=
  { element := a.element.getD element, size, device := a.owner, block := m.blocks.length }

namespace GraphM
variable {α : Type} {g g' : Graph} {a : α}

lemma runOn_pure_eq_ok {b : α} : (pure b : GraphM α).runOn g = (.ok a, g') ↔
    b = a ∧ g = g' := by
  simp [runOn_pure]

lemma throw_eq_ok {e : Failure} : (throw e : GraphM α).runOn g = (.ok a, g') ↔ False := by
  simp [runOn_throw]

lemma get_eq_ok {h : Graph} : (get : GraphM Graph).runOn g = (.ok h, g') ↔ g = h ∧ g = g' := by
  simp [runOn_get]

lemma modify_eq_ok {f : Graph → Graph} :
    (modify f : GraphM Unit).runOn g = (.ok (), g') ↔ f g = g' := by
  simp [runOn_modify]

lemma fallible_eq_ok {x : Fallible α} :
    (liftM x : GraphM α).runOn g = (.ok a, g') ↔ x = .ok a ∧ g = g' := by
  simp [runOn_fallible]

lemma checked_eq_ok {x : Checked α} :
    (liftM x : GraphM α).runOn g = (.ok a, g') ↔ x = .ok a ∧ g = g' := by
  rw [runOn_checked, Prod.mk.injEq]
  exact and_congr_left fun _ => lift_eq_ok

lemma see_eq_ok {f : Graph → Checked α} : (see f).runOn g = (.ok a, g') ↔
    f g = .ok a ∧ g = g' := by
  rw [runOn_see, Prod.mk.injEq]
  exact and_congr_left fun _ => lift_eq_ok

section
variable {β : Type} {k : α → GraphM β} {b : β}

lemma bind_get_eq_ok {k : Graph → GraphM β} :
    (get >>= k).runOn g = (.ok b, g') ↔ (k g).runOn g = (.ok b, g') := by
  simp [runOn_bind_eq_ok, get_eq_ok]

lemma bind_fallible_eq_ok {x : Fallible α} :
    ((liftM x : GraphM α) >>= k).runOn g = (.ok b, g') ↔
      ∃ a, x = .ok a ∧ (k a).runOn g = (.ok b, g') := by
  simp [runOn_bind_eq_ok, fallible_eq_ok]

lemma bind_checked_eq_ok {x : Checked α} : ((liftM x : GraphM α) >>= k).runOn g = (.ok b, g') ↔
      ∃ a, x = .ok a ∧ (k a).runOn g = (.ok b, g') := by
  simp [runOn_bind_eq_ok, checked_eq_ok]

lemma bind_see_eq_ok {f : Graph → Checked α} :
    (see f >>= k).runOn g = (.ok b, g') ↔ ∃ a, f g = .ok a ∧ (k a).runOn g = (.ok b, g') := by
  simp [runOn_bind_eq_ok, see_eq_ok]

end

end GraphM

namespace Graph
variable {g g' : Graph} {x : Nat} {device : String} {element : Element} {raw : Buffer}

lemma device_eq_ok : g.device device = .ok d ↔ g.device? device = some d := by
  unfold Graph.device
  split <;> simp_all [fail]

lemma zeros_eq_ok {m m' : Memory} {n : Nat} : m.zeros n element = .ok (raw, m') ↔
    n * element.itemSize < 9223372036854775808 ∧
      { element, size := n, block := m.blocks.length } = raw ∧
      { blocks := m.blocks ++ [replicate (n * element.itemSize) 0] } = m' := by
  simp only [zeros, mulNat, index, bind_eq_ok]
  constructor
  · rintro ⟨_, hcount, h⟩
    split at hcount
    · cases hcount
      split at h
      · next hfits =>
        cases h
        exact ⟨hfits, rfl, rfl⟩
      · cases h
    · cases hcount
  · rintro ⟨hfits, rfl, rfl⟩
    exact ⟨_, if_pos (by omega), if_pos hfits⟩

end Graph

namespace Device
variable {d : Device} {m m' : Memory} {n : Nat} {element : Element} {raw : Buffer}

lemma allocate_eq_ok : d.allocate m n element = .ok (raw, m') ↔
    d.allocation.next m n element = raw ∧ raw.room < 9223372036854775808 ∧
      m.grown (replicate raw.room 0) = m' := by
  simp only [allocate, bind_eq_ok]
  constructor
  · rintro ⟨⟨b, m⟩, hzeros, h⟩
    obtain ⟨hfits, rfl, rfl⟩ := zeros_eq_ok.1 hzeros
    cases h
    exact ⟨rfl, hfits, rfl⟩
  · rintro ⟨rfl, hfits, rfl⟩
    exact ⟨_, zeros_eq_ok.2 ⟨hfits, rfl, rfl⟩, rfl⟩

lemma upload_eq_ok {contents : List UInt8} : d.upload m contents element = .ok (raw, m') ↔
    contents.length % element.itemSize = 0 ∧
      { element, size := contents.length / element.itemSize, device := some d.name
        block := m.blocks.length } = raw ∧ m.grown contents = m' := by
  simp only [upload, Memory.ofBytes, bind_eq_ok]
  constructor
  · rintro ⟨⟨b, m⟩, hbytes, h⟩
    split at hbytes
    · next hwhole =>
      cases hbytes
      cases h
      exact ⟨hwhole, rfl, rfl⟩
    · cases hbytes
  · rintro ⟨hwhole, rfl, rfl⟩
    exact ⟨_, if_pos hwhole, rfl⟩

lemma exec_lasts {t : OpTree} {vals : Bindings}
    (h : (d.exec t m output inputs vals).1 = .ok m') : m.Lasts m' := by
  unfold exec at h
  split at h
  · obtain ⟨x, _, h⟩ := bind_eq_ok.1 h
    split at h
    · cases h
    · cases h
      exact lasts_write
  · obtain ⟨r, _, h⟩ := bind_eq_ok.1 h
    obtain ⟨_, _, h⟩ := bind_eq_ok.1 h
    obtain ⟨_, _, h⟩ := bind_eq_ok.1 h
    obtain ⟨_, _, h⟩ := bind_eq_ok.1 h
    obtain ⟨_, _, h⟩ := bind_eq_ok.1 h
    obtain ⟨_, _, h⟩ := bind_eq_ok.1 h
    cases h
    exact foldlRecOn _ _ (Memory.Lasts.refl m) fun m1 h1 e _ => h1.trans lasts_write

lemma exec_device (d : Device) (t : OpTree) (m : Memory) (output : Buffer) (inputs : List Buffer)
    (vals : Bindings) : ∃ engine, (d.exec t m output inputs vals).2 = { d with engine } := by
  unfold exec
  split
  · exact ⟨d.engine, rfl⟩
  · exact ⟨_, rfl⟩

end Device

namespace Graph
variable {g g' : Graph} {x : Nat} {device : String} {element : Element} {raw : Buffer}
variable {contents : List UInt8} {e : Estimate} {vals : Bindings} {item : Item} {raws : List Buffer}
  {op : LoadOp}

lemma allocate_eq_ok : (allocate device x element).runOn g = (.ok raw, g') ↔
    ∃ a n, g.allocation? device = some a ∧ g.extent x = .ok n ∧
      a.next g.memory n element = raw ∧
      raw.room < 9223372036854775808 ∧ g.grown (replicate raw.room 0) = g' := by
  simp only [allocate, runOn_bind_eq_ok, get_eq_ok, fallible_eq_ok, checked_eq_ok,
    device_eq_ok, allocation?, Option.map_eq_some_iff]
  constructor
  · rintro ⟨_, _, ⟨rfl, rfl⟩, d, _, ⟨hd, rfl⟩, n, _, ⟨hn, rfl⟩, ⟨b, m⟩, _,
      ⟨hb, rfl⟩, h⟩
    obtain ⟨_, _, hset, hpure⟩ := h
    obtain ⟨hraw, hfits, rfl⟩ := Device.allocate_eq_ok.1 hb
    cases hset
    cases hpure
    exact ⟨_, n, ⟨d, hd, rfl⟩, hn, hraw, hfits, rfl⟩
  · rintro ⟨_, n, ⟨d, hd, rfl⟩, hn, hraw, hfits, rfl⟩
    exact ⟨_, _, ⟨rfl, rfl⟩, d, _, ⟨hd, rfl⟩, n, _, ⟨hn, rfl⟩, ⟨raw, _⟩, _,
      ⟨Device.allocate_eq_ok.2 ⟨hraw, hfits, rfl⟩, rfl⟩, _, _, rfl, rfl⟩

lemma upload_eq_ok : (upload device element contents).runOn g = (.ok raw, g') ↔
      (g.device? device).isSome = true ∧ contents.length % element.itemSize = 0 ∧
        { element, size := contents.length / element.itemSize, device := some device
          block := g.memory.blocks.length } = raw ∧ g.grown contents = g' := by
  simp only [upload, runOn_bind_eq_ok, get_eq_ok, fallible_eq_ok, device_eq_ok]
  constructor
  · rintro ⟨_, _, ⟨rfl, rfl⟩, d, _, ⟨hd, rfl⟩, ⟨b, m⟩, _, ⟨hb, rfl⟩, _, _,
      hset, hpure⟩
    obtain ⟨hwhole, hraw, rfl⟩ := Device.upload_eq_ok.1 hb
    cases hset
    cases hpure
    have hname : d.name = device := by simpa using find?_some hd
    exact ⟨by rw [hd]; rfl, hwhole, hname ▸ hraw, rfl⟩
  · rintro ⟨hd, hwhole, hraw, rfl⟩
    obtain ⟨d, hd⟩ := Option.isSome_iff_exists.1 hd
    have hname : d.name = device := by simpa using find?_some hd
    exact ⟨_, _, ⟨rfl, rfl⟩, d, _, ⟨hd, rfl⟩, ⟨_, _⟩, _,
      ⟨Device.upload_eq_ok.2 ⟨hwhole, hname ▸ hraw, rfl⟩, rfl⟩, _, _, rfl, rfl⟩

lemma record_eq_ok : (record e vals).runOn g = (.ok (), g') ↔
    ∃ stats, g.stats.record e vals = .ok stats ∧ { g with stats } = g' := by
  simp only [record, runOn_bind_eq_ok, get_eq_ok, checked_eq_ok, modify_eq_ok]
  constructor
  · rintro ⟨_, _, ⟨rfl, rfl⟩, stats, _, ⟨hs, rfl⟩, h⟩
    exact ⟨stats, hs, h⟩
  · rintro ⟨stats, hs, h⟩
    exact ⟨_, _, ⟨rfl, rfl⟩, stats, _, ⟨hs, rfl⟩, h⟩

lemma allocation?_register {engine : Engine} {name : String} (hd : g.device? d.name = some d) :
    (g.register { d with engine }).allocation? name = g.allocation? name := by
  unfold allocation? device? register
  rw [List.find?_append, find?_filter]
  by_cases hname : d.name = name
  · subst hname
    have htest (e : Device) :
        decide ((e.name != d.name) = true ∧ (e.name == d.name) = true) = false := by simp
    rw [find?_eq_none.2 (by simp), Option.none_or, find?_cons_of_pos (by simp)]
    exact (congrArg (Option.map Device.allocation) hd).symm
  · have htest (e : Device) :
        decide ((e.name != d.name) = true ∧ (e.name == name) = true) = (e.name == name) := by
      by_cases he : e.name = name <;> simp [he, Ne.symm hname]
    simp only [htest]
    simp [hname]

lemma exec_amid (device : String) (tree : OpTree) (output : Buffer) (inputs : List Buffer)
    (vals : Bindings) (g : Graph) : ∃ ds m,
      ((exec device tree output inputs vals).runOn g).2 = g.amid ds m ∧ g.memory.Lasts m ∧
        ∀ name, (g.amid ds m).allocation? name = g.allocation? name := by
  unfold exec
  rw [runOn_bind, runOn_get]
  dsimp only
  rw [runOn_bind, runOn_fallible]
  cases hd : g.device device with
  | error e => exact ⟨g.devices, g.memory, rfl, .refl _, fun _ => rfl⟩
  | ok d =>
    have hd' := device_eq_ok.1 hd
    dsimp only
    rw [runOn_bind, runOn_set]
    dsimp only
    have hname : d.name = device := by simpa using find?_some hd'
    obtain ⟨_, he⟩ := d.exec_device tree g.memory output inputs vals
    have hallocation
      (name : String) : (g.register (d.exec tree g.memory output inputs vals).2).allocation? name
        = g.allocation? name := by
      rw [he]
      exact allocation?_register (hname ▸ hd')
    rw [runOn_bind, runOn_fallible]
    cases hm : (d.exec tree g.memory output inputs vals).1 with
    | error e => exact ⟨_, g.memory, rfl, .refl _, hallocation⟩
    | ok m => exact ⟨_, m, rfl, Device.exec_lasts hm, hallocation⟩

lemma realized?_eq_ok : g.realized? x = .ok (some raw) ↔
    ∃ t tb, g.find? x = some t ∧ g.find? (t.base.getD x) = some tb ∧
    tb.realized = some raw := by
  simp only [realized?, bind_eq_ok, baseTensor_eq_ok, pure_eq_ok]
  constructor
  · rintro ⟨tb, ⟨t, ht, hb⟩, hr⟩
    exact ⟨t, tb, ht, hb, hr⟩
  · rintro ⟨t, tb, ht, hb, hr⟩
    exact ⟨tb, ⟨t, ht, hb⟩, hr⟩

lemma checkContents_eq_ok (h : g.checkContents x = .ok ()) : ∃ t tb raw, g.find? x = some t ∧
    g.find? (t.base.getD x) = some tb ∧ tb.realized = some raw ∧ raw.element = tb.element ∧
    raw.device = some t.device := by
  obtain ⟨found, hfound, h⟩ := bind_eq_ok.1 h
  cases found with
  | none => cases h
  | some raw =>
    obtain ⟨t, tb, ht, htb, hraw⟩ := realized?_eq_ok.1 (lift_eq_ok.1 hfound)
    rw [element, baseTensor_eq_ok.2 ⟨t, ht, htb⟩, tensor_eq_ok.2 ht] at h
    refine ⟨t, tb, raw, ht, htb, hraw, ?_⟩
    by_contra hne
    change (if raw.element ≠ tb.element then _
      else if raw.device ≠ some t.device then _ else _) = _ at h
    grind [fail]

lemma inputOf_eq_ok {y out : Nat} : (do
      match ← (liftM (g.realized? y) : Fallible (Option Buffer)) with
      | some raw => pure raw
      | none => fail (.schedule (.unrealizedInput y out)) : Fallible Buffer) = .ok raw ↔
    g.realized? y = .ok (some raw) := by
  rw [bind_eq_ok]
  constructor
  · rintro ⟨found, hfound, h⟩
    cases found with
    | none => cases h
    | some _ =>
      cases h
      exact lift_eq_ok.1 hfound
  · exact fun h => ⟨some raw, lift_eq_ok.2 h, rfl⟩

lemma inputsOf_eq_ok : g.inputsOf item = .ok raws ↔
    Forall₂ (fun y raw => g.realized? y = .ok (some raw)) item.inputs raws := by
  unfold inputsOf
  rw [mapM_eq_ok]
  exact ⟨fun h => h.imp fun _ _ => inputOf_eq_ok.1, fun h => h.imp fun _ _ => inputOf_eq_ok.2⟩

lemma mem_inputsOf (h : g.inputsOf item = .ok raws) (hraw : raw ∈ raws) :
    ∃ y ∈ item.inputs, g.realized? y = .ok (some raw) := by
  obtain ⟨y, hy, hr⟩ := exists_of_mapM h hraw
  exact ⟨y, hy, inputOf_eq_ok.1 hr⟩

/-- Only what surrounds the tensors changed, and no block of memory was given up. -/
structure Around (g g' : Graph) : Prop where
  tensors : g'.tensors = g.tensors
  cache : g'.cache = g.cache
  memory : g.memory.Lasts g'.memory

lemma Around.refl (g : Graph) : g.Around g := ⟨rfl, rfl, .refl _⟩

instance : Steps Around where
  trans h h' := ⟨h'.tensors.trans h.tensors, h'.cache.trans h.cache, h.memory.trans h'.memory⟩
  stay _ := .refl _

/-- The handle leads to a whole block, which is new. -/
def Brings (g g' : Graph) (raw : Buffer) : Prop :=
  g.memory.blocks.length ≤ raw.block ∧ g'.memory.Holds raw

lemma Brings.around {g₁ : Graph} (h : g.Brings g₁ raw) (ha : g₁.Around g') :
    g.Brings g' raw :=
  ⟨h.1, h.2.lasts ha.memory⟩

lemma around_grown : g.Around (g.grown contents) := ⟨rfl, rfl, lasts_grown⟩

lemma brings_grown (hblock : raw.block = g.memory.blocks.length)
    (hroom : contents.length = raw.room) : g.Brings (g.grown contents) raw := by
  refine ⟨hblock.ge, ?_, ?_⟩
  · show raw.block < (g.memory.grown contents).blocks.length
    rw [length_grown, hblock]
    omega
  · show ((g.memory.grown contents).bytes raw).length = _
    rw [bytes_grown_last hblock, hroom]

lemma allocate_around : Yields Around g (allocate device x element)
    (fun raw g' => g.Brings g' raw) := by
  have hk := Around.refl g
  refine .bind_get hk (.bind_fallible hk fun d _ => .bind_fallible hk fun size _ =>
    .bind_checked hk fun r hr => ?_)
  obtain ⟨raw, m⟩ := r
  obtain ⟨hraw, _, rfl⟩ := Device.allocate_eq_ok.1 hr
  exact .of_run rfl around_grown (brings_grown (by rw [← hraw]; rfl) (by simp))

lemma upload_around :
    Yields Around g (upload device element contents) (fun raw g' => g.Brings g' raw) := by
  have hk := Around.refl g
  refine .bind_get hk (.bind_fallible hk fun d _ => .bind_fallible hk fun r hr => ?_)
  obtain ⟨raw, m⟩ := r
  obtain ⟨hwhole, hraw, rfl⟩ := Device.upload_eq_ok.1 hr
  refine .of_run rfl around_grown (brings_grown (by rw [← hraw]) ?_)
  rw [← hraw, Buffer.room, Nat.div_mul_cancel (Nat.dvd_of_mod_eq_zero hwhole)]

lemma exec_around {tree : OpTree} :
    Yields Around g (exec device tree output inputs vals) (fun _ _ => True) := by
  obtain ⟨ds, m, hrun, hm, _⟩ := exec_amid device tree output inputs vals g
  exact ⟨by rw [hrun]; exact ⟨rfl, rfl, hm⟩, fun _ _ => trivial⟩

lemma record_around : Yields Around g (record e vals) (fun _ _ => True) := by
  have hk := Around.refl g
  exact .bind_get hk (.bind_checked hk fun stats _ => .modify ⟨rfl, rfl, .refl _⟩ trivial)

/-- What a load gives is a new block, but a contiguous copy gives the block of what it copies. -/
lemma loadContents_around : Yields Around g (loadContents op item)
    (fun raw g' => if op = .contiguous then
      g' = g ∧ ∃ y, item.inputs.head? = some y ∧ g.realized? y = .ok (some raw)
      else g.Brings g' raw) := by
  have hk := Around.refl g
  refine .bind_see hk fun t _ => .bind_see hk fun element _ => .bind_get hk ?_
  split
  · exact allocate_around
  · exact .bind_fallible hk fun size _ => .bind_checked hk fun _ _ => upload_around
  · exact upload_around
  · refine .bind_fallible hk fun raws hraws => ?_
    split
    · obtain ⟨y, ys, hy, _, hinputs⟩ := forall₂_cons_right_iff.1 (inputsOf_eq_ok.1 hraws)
      exact .pure hk ⟨rfl, y, by rw [hinputs]; rfl, hy⟩
    · exact .throw hk
  · refine .bind_fallible hk fun raws _ => .bind_fallible hk fun values _ =>
      .bind_fallible hk fun size _ => ?_
    split
    · exact upload_around
    · exact .throw hk
  · refine .bind_fallible hk fun raws _ => ?_
    split
    · exact .throw hk
    · refine .bind_see hk fun t' _ => .bind (P := fun _ g' => g' = g)
        (.bind_fallible hk fun _ _ => .pure hk rfl) fun _ g1 _ h1 => ?_
      rw [h1]
      exact upload_around
  · exact .throw hk

/-- The tensor was given the contents, which are as it asks for. -/
def Settled (g : Graph) (x : Nat) (raw : Buffer) (g' : Graph) : Prop :=
  ∃ t, g.find? x = some t ∧ t.base = none ∧ fill g x t raw = g' ∧
    g'.checkContents x = .ok ()

lemma fill_run (rest : GraphM Unit) : (do
      setContents x raw
      let filled ← see (·.dropOps x)
      set filled
      rest).runOn g = match g.find? x with
        | none => (.error (.abort (.notInGraph x)), g)
        | some t => if t.base.isSome then (.error (.abort .basedContents), g)
          else rest.runOn (fill g x t raw) := by
  unfold setContents
  simp only [bind_assoc]
  rw [runOn_bind, runOn_see]
  cases ht : g.find? x with
  | none =>
    have hnone : g.tensor x = .error (.notInGraph x) := by
      unfold tensor
      rw [ht]
    rw [hnone]
    rfl
  | some t =>
    rw [tensor_eq_ok.2 ht]
    dsimp only [Except.mapError]
    split
    · rfl
    · rw [runOn_bind, runOn_change ht]
      dsimp only
      rw [runOn_bind, runOn_see, dropOps_eq ht]
      rfl

lemma settle_eq_ok : (do
      setContents x raw
      let filled ← see (·.dropOps x)
      set filled
      let filled ← get
      liftM (filled.checkContents x) : GraphM Unit).runOn g = (.ok (), g') ↔
        g.Settled x raw g' := by
  rw [fill_run]
  unfold Settled
  cases ht : g.find? x with
  | none => simp
  | some t =>
    cases hb : t.base with
    | some b => simp [hb]
    | none =>
      dsimp only
      rw [if_neg (by simp [hb]), runOn_bind, runOn_get]
      dsimp only
      rw [runOn_fallible, Prod.mk.injEq]
      constructor
      · rintro ⟨hcheck, rfl⟩
        exact ⟨t, rfl, hb, rfl, hcheck⟩
      · rintro ⟨_, ht', _, rfl, hcheck⟩
        cases ht'
        exact ⟨hcheck, rfl⟩

lemma runItem_kernel_eq_ok (h : item.tree.op.kind ≠ .load) :
    (runItem item).runOn g = (.ok (), g') ↔
    ∃ t, g.find? item.out = some t ∧ ∃ element, g.element item.out = .ok element ∧
      ∃ ins, g.inputsOf item = .ok ins ∧
      ∃ raw g₁, (allocate t.device item.out element).runOn g = (.ok raw, g₁) ∧
      ∃ u g₂, (exec t.device item.tree raw ins item.vals).runOn g₁ = (.ok u, g₂) ∧
      ∃ e, item.tree.estimate = .ok e ∧ ∃ u g₃, (record e item.vals).runOn g₂ =
        (.ok u, g₃) ∧
        g₃.Settled item.out raw g' := by
  unfold runItem
  split
  · next op hop => exact (h (by rw [hop]; rfl)).elim
  · simp only [runTree, bind_assoc]
    refine bind_see_eq_ok.trans (exists_congr fun t => and_congr tensor_eq_ok ?_)
    refine bind_see_eq_ok.trans (exists_congr fun element => and_congr_right fun _ => ?_)
    refine bind_get_eq_ok.trans
      (bind_fallible_eq_ok.trans (exists_congr fun ins => and_congr_right fun _ => ?_))
    refine runOn_bind_eq_ok.trans (exists₂_congr fun raw g₁ => and_congr_right fun _ => ?_)
    refine runOn_bind_eq_ok.trans (exists₂_congr fun _ g₂ => and_congr_right fun _ => ?_)
    refine bind_checked_eq_ok.trans (exists_congr fun e => and_congr_right fun _ => ?_)
    exact runOn_bind_eq_ok.trans (exists₂_congr fun _ g₃ => and_congr_right fun _ =>
      settle_eq_ok)

lemma runItem_load_eq_ok (h : item.tree.op = .load op) : (runItem item).runOn g = (.ok (), g') ↔
      ∃ raw g₁, (loadContents op item).runOn g = (.ok raw, g₁) ∧
      g₁.Settled item.out raw g' := by
  unfold runItem
  rw [h, runOn_bind_eq_ok]
  exact exists₂_congr fun raw g₁ => and_congr_right fun _ => settle_eq_ok

/-- An item gives its tensor a new block, but a contiguous copy takes over the block of its
source. -/
lemma runItem_settled (hrun : (runItem item).runOn g = (.ok (), g')) :
    ∃ (g₁ : Graph) (raw : Buffer), g.Around g₁ ∧ g₁.Settled item.out raw g' ∧
      if item.tree.op = .load .contiguous then
        ∃ y, item.inputs.head? = some y ∧ g.realized? y = .ok (some raw)
      else g.memory.blocks.length ≤ raw.block := by
  by_cases hkind : item.tree.op.kind = .load
  · obtain ⟨op, hop⟩ : ∃ op, item.tree.op = .load op := by
      cases hop : item.tree.op <;> simp_all [Op.kind]
    obtain ⟨raw, g1, hload, hset⟩ := (runItem_load_eq_ok hop).1 hrun
    obtain ⟨haround, hraw⟩ := loadContents_around.of_ok hload
    refine ⟨g1, raw, haround, hset, ?_⟩
    rw [hop]
    by_cases hcopy : op = .contiguous
    · rw [if_pos hcopy] at hraw
      rw [if_pos (by rw [hcopy])]
      exact hraw.2
    · rw [if_neg hcopy] at hraw
      rw [if_neg (by simpa using hcopy)]
      exact hraw.1
  · obtain ⟨_, _, _, _, _, _, raw, g1, hraw, _, g2, hexec, _, _, _, g3, hrecord, hset⟩ :=
      (runItem_kernel_eq_ok hkind).1 hrun
    obtain ⟨h1, hnew⟩ := allocate_around.of_ok hraw
    refine ⟨g3, raw, trans h1 (trans (exec_around.of_ok hexec).1 (record_around.of_ok hrecord).1),
      hset, ?_⟩
    rw [if_neg fun hop => hkind (by rw [hop]; rfl)]
    exact hnew.1

/-- The contents that an item gives: a new block, or one that a tensor has. -/
def Gives (g g' : Graph) (raw : Buffer) : Prop :=
  g.Brings g' raw ∨ ∃ y, g'.realized? y = .ok (some raw)

/-- Items take steps of this kind: they change what is around the tensors, and then fill one of
them. -/
structure Runs (K : Graph → Graph → Prop) : Prop where
  around : ∀ {g g'}, K g g → g.Around g' → K g g'
  fill : ∀ {g g' x t raw}, K g g → g.Around g' → g.Gives g' raw → g'.find? x = some t →
    t.base = none →
    K g' (fill g' x t raw)

lemma Runs.yields {K : Graph → Graph → Prop} {α : Type} {m : GraphM α}
    {Q : α → Graph → Prop} (hK : Runs K) (hk : K g g) (h : Yields Around g m Q) :
    Yields K g m (fun a g' => g.Around g' ∧ Q a g') := h.coarsen fun _ => hK.around hk

section
variable {K : Graph → Graph → Prop} [Steps K] (hK : Runs K) (hk : K g g)
include hK hk

lemma runItem_steps : Yields K g (runItem item) (fun _ _ => True) := by
  have settle {g' : Graph} {raw : Buffer} (ha : g.Around g') (hraw : g.Gives g' raw) :
      Yields K g' (do
      setContents item.out raw
      let filled ← see (·.dropOps item.out)
      set filled
      let filled ← get
      liftM (filled.checkContents item.out) : GraphM Unit) (fun _ _ => True) := by
    have hk' : K g' g' := stay (hK.around hk ha)
    refine ⟨?_, fun _ _ => trivial⟩
    rw [fill_run]
    split
    · exact hk'
    · next t ht =>
      split
      · exact hk'
      · next hb => exact hK.fill hk ha hraw ht (by simpa using hb)
  unfold runItem
  split
  · refine .bind (hK.yields hk loadContents_around) fun raw g1 _ hraw => settle hraw.1 ?_
    obtain ⟨_, hraw⟩ := hraw
    split at hraw
    · obtain ⟨rfl, y, _, hy⟩ := hraw
      exact .inr ⟨y, hy⟩
    · exact .inl hraw
  · simp only [runTree, bind_assoc]
    refine .bind_see hk fun t _ => .bind_see hk fun element _ => .bind_get hk
      (.bind_fallible hk fun inputs _ => ?_)
    refine .bind (hK.yields hk allocate_around) fun raw g1 h1 ⟨ha1, hraw⟩ => ?_
    refine .bind (hK.yields (stay h1) exec_around) fun _ g2 h2 ⟨ha2, _⟩ =>
      .bind_checked (stay h2) fun e _ => ?_
    refine .bind (hK.yields (stay h2) record_around) fun _ g3 h3 ⟨ha3, _⟩ => ?_
    exact settle (trans ha1 (trans ha2 ha3)) (.inl (hraw.around (trans ha2 ha3)))

lemma run_steps {items : List Item} : Yields K g (run items) (fun _ _ => True) :=
  .forM hk fun _ _ _ h => runItem_steps hK (stay h)

end

end Graph

end LazyTensor
