import LazyTensor.Proofs.Graph.Handles

/-! Running the items of a schedule once more on other contents of some inputs. -/
namespace LazyTensor
open Checked GraphM LazyTensor.Graph Reading List Option Memory Launch
variable {l : Launch} {f : List (List UInt8) → List UInt8} {m : Memory} {out b : Buffer}
  {ins : List Buffer} {os : List (Option Launch)}

def Buffer.Alike (b c : Buffer) : Prop := b.element = c.element ∧ b.size = c.size

lemma Buffer.Alike.refl (b : Buffer) : b.Alike b := ⟨rfl, rfl⟩

namespace Launch

def written (launches : List Launch) : List Buffer := launches.filterMap (·.buffers.head?)

/-- On such devices the launch always runs to its end. It writes all of its output, which follows
from the contents of its inputs, and nothing else. -/
def Computes (P : List Device → Prop) (l : Launch)
    (f : List (List UInt8) → List UInt8) : Prop :=
  ∀ (g : Graph) (out : Buffer) (ins : List Buffer), P g.devices →
    List.Forall₂ Buffer.Alike (out :: ins) l.buffers →
    (∀ b ∈ out :: ins, g.memory.Holds b) →
    (∀ b ∈ ins, b.block ≠ out.block) → (f (ins.map g.memory.bytes)).length = out.room ∧
      ∃ ds, P ds ∧ (exec l.device l.tree out ins l.vals).runOn g
        = (.ok (), g.amid ds (g.memory.put out (f (ins.map g.memory.bytes))))

lemma Computes.grown {P : List Device → Prop} (h : l.Computes P f) {g : Graph} {ds : List Device}
    {zeros : List UInt8} (hl : l.buffers = out :: ins) (hP : P ds)
    (hout : out.block = m.blocks.length) (hroom : zeros.length = out.room)
    (hins : ∀ b ∈ ins, m.Holds b) :
    (f (ins.map m.bytes)).length = out.room ∧ ∃ ds', P ds' ∧
      (exec l.device l.tree out ins l.vals).runOn (g.amid ds (m.grown zeros))
        = (.ok (), g.amid ds' (m.grown (f (ins.map m.bytes)))) := by
  have hbytes : ins.map (m.grown zeros).bytes = ins.map m.bytes :=
    map_congr_left fun b hb => bytes_grown (hins b hb).there
  have halike : Forall₂ Buffer.Alike (out :: ins) l.buffers := by
    rw [hl]
    exact forall₂_same.2 fun b _ => .refl b
  have hheld : ∀ b ∈ out :: ins, (m.grown zeros).Holds b := fun b hb => by
    rcases mem_cons.1 hb with rfl | hb
    · exact ⟨by rw [hout, length_grown]; omega,
        by rw [bytes_grown_last hout, hroom]⟩
    · exact (hins b hb).lasts lasts_grown
  obtain ⟨hlength, ds', hP', hrun⟩ :=
    h (g.amid ds (m.grown zeros)) out ins hP halike hheld fun b hb => by
    have hlt := (hins b hb).there
    omega
  have hmemory : (g.amid ds (m.grown zeros)).memory = m.grown zeros := rfl
  rw [hmemory, hbytes] at hlength hrun
  rw [put_grown hout] at hrun
  exact ⟨hlength, ds', hP', hrun⟩

/-- The output holds what the launch computes from its inputs. It is a block behind those of the
inputs, and where the launch reads an input of the recording it has the same handle. -/
structure Solved (f : List (List UInt8) → List UInt8) (inputs : List Buffer) (m : Memory)
    (out : Buffer) (ins : List Buffer) : Prop where
  held : m.Holds out
  behind : ∀ c ∈ inputs, c.block < out.block
  reads : ∀ b ∈ ins, m.Holds b ∧ b.block < out.block ∧
    ∀ c ∈ inputs, c.block = b.block → c = b
  result : m.bytes out = f (ins.map m.bytes)

lemma Solved.adds {inputs : List Buffer} {m' : Memory}
    (h : Solved f inputs m out ins) (hm : m.Adds m') : Solved f inputs m' out ins := by
  have hbytes {b : Buffer} (hb : m.Holds b) : m'.bytes b = m.bytes b := hm.2 b hb.there
  refine ⟨h.held.lasts hm.lasts, h.behind, fun b hb => ?_, ?_⟩
  · obtain ⟨hheld, hrest⟩ := h.reads b hb
    exact ⟨hheld.lasts hm.lasts, hrest⟩
  · rw [hbytes h.held, h.result]
    congr 1
    exact map_congr_left fun b hb => (hbytes (h.reads b hb).1).symm

/-- All launches have been solved, each one into a block behind those of the launches before it. -/
structure Trace (f : Launch → List (List UInt8) → List UInt8) (inputs : List Buffer)
    (launches : List Launch) (m : Memory) : Prop where
  solved : ∀ l ∈ launches, ∃ out ins, l.buffers = out :: ins ∧ Solved (f l) inputs m out ins
  order : (written launches).Pairwise fun b c => b.block < c.block

lemma mem_written {launches : List Launch} :
    b ∈ written launches ↔ ∃ l ∈ launches, l.buffers.head? = some b := by
  simp [written]

namespace Trace
variable {f : Launch → List (List UInt8) → List UInt8} {inputs : List Buffer}
  {launches : List Launch} {m m' : Memory}

lemma nil : Trace f inputs [] m := ⟨by simp, by simp [written]⟩

section
variable (h : Trace f inputs launches m)
include h

lemma adds (hm : m.Adds m') : Trace f inputs launches m' := by
  refine ⟨fun l hl => ?_, h.order⟩
  obtain ⟨out, ins, hbuffers, hsolved⟩ := h.solved l hl
  exact ⟨out, ins, hbuffers, hsolved.adds hm⟩

lemma held (hb : b ∈ written launches) : m.Holds b := by
  obtain ⟨l, hl, hhead⟩ := mem_written.1 hb
  obtain ⟨out, ins, hbuffers, hsolved⟩ := h.solved l hl
  rw [hbuffers] at hhead
  cases hhead
  exact hsolved.held

lemma snoc (hm : m.Adds m') (hl : l.buffers = out :: ins) (hsolved : Solved (f l) inputs m' out ins)
    (hnew : m.blocks.length ≤ out.block) : Trace f inputs (launches ++ [l]) m' := by
  refine ⟨fun l' hl' => ?_, ?_⟩
  · rcases mem_append.1 hl' with hl' | hl'
    · exact (h.adds hm).solved l' hl'
    · cases mem_singleton.1 hl'
      exact ⟨out, ins, hl, hsolved⟩
  · have hwritten : written (launches ++ [l]) = written launches ++ [out] := by simp [written, hl]
    rw [hwritten, pairwise_append]
    refine ⟨h.order, pairwise_singleton _ _, fun b hb c hc => ?_⟩
    cases mem_singleton.1 hc
    exact (h.held hb).there.trans_le hnew

end

end Trace

end Launch

namespace Graph
variable {g g' start : Graph} {x y : Nat} {t : Tensor} {raw : Buffer} {items : List Item}
  {inputs : List Buffer} {ds : List Device} {m : Memory}

/-- A tensor whose contents follow from those of the inputs: it has one of them, it is a view of
such a tensor, or it is computed from such tensors. -/
inductive Depends (g : Graph) (items : List Item) (inputs : List Buffer) : Nat → Prop
  | input {x : Nat} {raw b : Buffer} (h : g.realized? x = .ok (some raw)) (hb : b ∈ inputs)
      (hshares : raw.block = b.block) : Depends g items inputs x
  | view {x b : Nat} (h : g.baseOf x = .ok b)
      (hb : Depends g items inputs b) : Depends g items inputs x
  | item {item : Item} {y : Nat} (h : item ∈ items) (hy : y ∈ item.inputs)
      (hd : Depends g items inputs y) : Depends g items inputs item.out

lemma baseOf_fill {b : Nat} (ht : g.find? x = some t) (h : (fill g x t raw).baseOf y = .ok b) :
    g.baseOf y = .ok b := by
  obtain ⟨t', ht', rfl⟩ := baseOf_eq_ok.1 h
  obtain ⟨t0, ht0, htrim, _⟩ := find?_fill_back ht ht'
  exact baseOf_eq_ok.2 ⟨t0, ht0, by rw [htrim.base]⟩

lemma realized?_fill {raw' : Buffer} (ht : g.find? x = some t)
    (h : (fill g x t raw).realized? y = .ok (some raw')) :
    g.baseOf y = .ok x ∧ raw' = raw ∨ g.realized? y = .ok (some raw') := by
  obtain ⟨t', tb', ht', htb', hr⟩ := realized?_eq_ok.1 h
  obtain ⟨t0, ht0, htrim, _⟩ := find?_fill_back ht ht'
  obtain ⟨tb0, htb0, _, _, _, hrealized, _⟩ := find?_fill_back ht htb'
  rw [hrealized] at hr
  rw [htrim.base] at htb0 hr
  split at hr
  · next hx =>
    cases hr
    exact .inl ⟨baseOf_eq_ok.2 ⟨t0, ht0, hx⟩, rfl⟩
  · exact .inr (realized?_eq_ok.2 ⟨t0, tb0, ht0, htb0, hr⟩)

lemma Settled.realized? (h : g.Settled x raw g') : g'.realized? x = .ok (some raw) := by
  obtain ⟨t, ht, hb, rfl, _⟩ := h
  obtain ⟨t', ht'⟩ := has_fill raw ht ⟨t, ht⟩
  obtain ⟨t0, ht0, htrim, _, _, hrealized, _⟩ := find?_fill_back ht ht'
  cases ht.symm.trans ht0
  have hbase : t'.base.getD x = x := by rw [htrim.base, hb]; rfl
  exact realized?_eq_ok.2 ⟨t', t', ht', by rw [hbase, ht'], by rw [hrealized, if_pos rfl]⟩

lemma Settled.amid (h : g.Settled x raw g') : (g.amid ds m).Settled x raw (g'.amid ds m) := by
  obtain ⟨t, ht, hb, rfl, hcheck⟩ := h
  exact ⟨t, ht, hb, rfl, hcheck⟩

lemma exec_allocation {device : String} {tree : OpTree} {output : Buffer} {vals : Bindings}
    {r : Except Failure Unit} {name : String}
    (h : (exec device tree output inputs vals).runOn g = (r, g')) :
    g'.allocation? name = g.allocation? name := by
  obtain ⟨ds, m, hrun, _, hallocation⟩ := exec_amid device tree output inputs vals g
  rw [h] at hrun
  dsimp only at hrun
  rw [hrun]
  exact hallocation name

lemma recordItem_eq_ok {item : Item} {o : Option Launch}
    (hrun : (recordItem item).runOn g = (.ok o, g')) : (runItem item).runOn g = (.ok (), g') ∧
      if item.tree.op.kind = .load then o = none else
        ∃ t ins out e, g.find? item.out = some t ∧ g.inputsOf item = .ok ins ∧
          g'.realized? item.out = .ok out ∧ item.tree.estimate = .ok e ∧
          o = some { device := t.device, tree := item.tree, estimate := e
                     buffers := out.toList ++ ins, vals := item.vals } := by
  obtain ⟨t, ht, hrun⟩ := bind_see_eq_ok.1 hrun
  split at hrun
  · next hload =>
    obtain ⟨_, _, hitem, hpure⟩ := runOn_bind_eq_ok.1 hrun
    obtain ⟨rfl, rfl⟩ := runOn_pure_eq_ok.1 hpure
    rw [if_pos hload]
    exact ⟨hitem, rfl⟩
  · next hload =>
    obtain ⟨ins, hins, hrun⟩ := bind_fallible_eq_ok.1 (bind_get_eq_ok.1 hrun)
    obtain ⟨_, _, hitem, hrun⟩ := runOn_bind_eq_ok.1 hrun
    obtain ⟨out, hout, hrun⟩ := bind_see_eq_ok.1 hrun
    obtain ⟨e, he, hrun⟩ := bind_checked_eq_ok.1 hrun
    obtain ⟨rfl, rfl⟩ := runOn_pure_eq_ok.1 hrun
    rw [if_neg hload]
    exact ⟨hitem, t, ins, out, e, tensor_eq_ok.1 ht, hins, hout, he, rfl⟩

lemma run_of_record (hrun : (items.mapM recordItem).runOn g = (.ok os, g')) :
    (run items).runOn g = (.ok (), g') ∧
      ((∀ item ∈ items, item.tree.op.kind = .load) → os.filterMap id = []) := by
  induction items generalizing g os with
  | nil =>
    obtain ⟨rfl, rfl⟩ := runOn_pure_eq_ok.1 hrun
    exact ⟨rfl, fun _ => rfl⟩
  | cons item items ih =>
    rw [mapM_cons] at hrun
    obtain ⟨o, g1, hitem, htail⟩ := runOn_bind_eq_ok.1 hrun
    obtain ⟨os, g2, hitems, hpure⟩ := runOn_bind_eq_ok.1 htail
    obtain ⟨rfl, rfl⟩ := runOn_pure_eq_ok.1 hpure
    obtain ⟨hrest, hloads⟩ := ih hitems
    obtain ⟨hrun, ho⟩ := recordItem_eq_ok hitem
    refine ⟨runOn_bind_eq_ok.2 ⟨_, _, hrun, hrest⟩, fun hall => ?_⟩
    rw [if_pos (hall item mem_cons_self)] at ho
    rw [ho, filterMap_cons_none rfl]
    exact hloads fun i hi => hall i (mem_cons_of_mem item hi)

/-- Two runs after the same items, one in the graph and one among other devices with other contents
in memory. They have the same handles, and contents that do not depend on the inputs agree. -/
structure Twins (P : List Device → Prop) (start : Graph) (items : List Item)
    (inputs : List Buffer) (launches : List Launch) (g : Graph) (ds : List Device)
    (m : Memory) : Prop where
  sound : depth.Sound g
  handled : g.Handled
  owned : ∀ b ∈ inputs, g.Owns b
  devices : P g.devices
  others : P ds
  allocation : ∀ name, (g.amid ds m).allocation? name = g.allocation? name
  count : m.blocks.length = g.memory.blocks.length
  rooms : ∀ b, (m.bytes b).length = (g.memory.bytes b).length
  bases : ∀ {x b}, g.baseOf x = .ok b → start.baseOf x = .ok b
  agree : ∀ {x raw}, ¬ start.Depends items inputs x → g.realized? x = .ok (some raw) →
    m.bytes raw = g.memory.bytes raw
  same : ∀ b : Buffer, (∀ c ∈ inputs ++ written launches, c.block ≠ b.block) →
    m.bytes b = g.memory.bytes b

namespace Twins
variable {P : List Device → Prop} {launches launches' : List Launch} {ds' : List Device}
  {m' : Memory}

section
variable (h : Twins P start items inputs launches g ds m)
include h

lemma holds (hb : g.memory.Holds b) : m.Holds b :=
  ⟨h.count ▸ hb.there, (h.rooms b).trans hb.whole⟩

lemma settle (ht : Tracks g.memory.blocks.length g g') (hP : P g'.devices) (hP' : P ds')
    (hallocation : ∀ name, (g'.amid ds' m').allocation? name = g'.allocation? name)
    (hcount : m'.blocks.length = g'.memory.blocks.length)
    (hrooms : ∀ b, (m'.bytes b).length = (g'.memory.bytes b).length)
    (hold : g.memory.Adds g'.memory) (hnew : m.Adds m')
    (hbase : ∀ {y b}, g'.baseOf y = .ok b → g.baseOf y = .ok b)
    (hback : ∀ {y raw'}, g'.realized? y = .ok (some raw') →
      g.baseOf y = .ok x ∧ raw' = raw ∨ g.realized? y = .ok (some raw'))
    (hraw : ¬ start.Depends items inputs x → m'.bytes raw = g'.memory.bytes raw)
    (hsame : ∀ b : Buffer, (∀ c ∈ inputs ++ written launches', c.block ≠ b.block) →
      m'.bytes b = g'.memory.bytes b) :
    Twins P start items inputs launches' g' ds' m' where
  sound := ht.sound
  handled := ht.handled
  owned b hb := ht.owns (h.owned b hb).held.there (h.owned b hb)
  devices := hP
  others := hP'
  allocation := hallocation
  count := hcount
  rooms := hrooms
  bases hb := h.bases (hbase hb)
  agree {y raw'} hy hr := by
    obtain ⟨hx, rfl⟩ | hr := hback hr
    · exact hraw fun hd => hy (.view (h.bases hx) hd)
    · have hlt := (Handled.owns h.handled hr).held.there
      rw [hold.2 raw' hlt, hnew.2 raw' (h.count ▸ hlt), h.agree hy hr]
  same := hsame

lemma isSome_device? (name : String) :
    ((g.amid ds m).device? name).isSome = (g.device? name).isSome := by
  have hname := congrArg isSome (h.allocation name)
  unfold allocation? at hname
  rwa [isSome_map, isSome_map] at hname

end

/-- The load gave the same new block in both runs, or it gave the block of a tensor that it
reads. -/
def Loads (op : LoadOp) (item : Item) (g : Graph) (ds : List Device) (m : Memory) (raw : Buffer)
    (g' : Graph) : Prop :=
  (∃ contents, g.grown contents = g' ∧ raw.block = g.memory.blocks.length ∧
    (loadContents op item).runOn (g.amid ds m) = (.ok raw, g.amid ds (m.grown contents))) ∨
  g = g' ∧ (∃ y ∈ item.inputs, g.realized? y = .ok (some raw)) ∧
    (loadContents op item).runOn (g.amid ds m) = (.ok raw, g.amid ds m)

section
variable (h : Twins P start items inputs launches g ds m)
variable {device : String} {element : Element} {contents contents' : List UInt8} {op : LoadOp}
  {item : Item}
include h

lemma allocate_again (hrun : (allocate device x element).runOn g = (.ok raw, g')) :
    ∃ contents, g.grown contents = g' ∧ raw.block = g.memory.blocks.length ∧
      contents.length = raw.room ∧
      (allocate device x element).runOn (g.amid ds m) =
        (.ok raw, g.amid ds (m.grown contents)) := by
  obtain ⟨a, n, ha, hn, hraw, hfits, rfl⟩ := allocate_eq_ok.1 hrun
  have hnext : a.next m n element = raw := by
    rw [← hraw, Allocation.next, Allocation.next, h.count]
  exact ⟨_, rfl, by rw [← hraw]; rfl, length_replicate,
    allocate_eq_ok.2 ⟨a, n, (h.allocation device).trans ha, hn, hnext, hfits, rfl⟩⟩

lemma upload_again (hrun : (upload device element contents).runOn g = (.ok raw, g')) :
    g.grown contents = g' ∧ raw.block = g.memory.blocks.length ∧
      (upload device element contents).runOn (g.amid ds m) =
        (.ok raw, g.amid ds (m.grown contents)) := by
  obtain ⟨hd, hwhole, hraw, rfl⟩ := upload_eq_ok.1 hrun
  refine ⟨rfl, by rw [← hraw], upload_eq_ok.2
    ⟨(h.isSome_device? device).trans hd, hwhole, ?_, rfl⟩⟩
  rw [← hraw, ← h.count]
  rfl

lemma loadContents_again
    (hapart : op ≠ .contiguous → ∀ y ∈ item.inputs, ¬ start.Depends items inputs y)
    (hrun : (loadContents op item).runOn g = (.ok raw, g')) : Loads op item g ds m raw g' := by
  have hagree {raws : List Buffer} (hop : op ≠ .contiguous) (hraws : g.inputsOf item = .ok raws) :
      ∀ b ∈ raws, m.bytes b = g.memory.bytes b := by
    intro b hb
    obtain ⟨y, hy, hr⟩ := mem_inputsOf hraws hb
    exact h.agree (hapart hop y hy) hr
  unfold Loads
  unfold loadContents at hrun ⊢
  obtain ⟨t, ht, hrun⟩ := bind_see_eq_ok.1 hrun
  obtain ⟨element, he, hrun⟩ := bind_see_eq_ok.1 hrun
  replace hrun := bind_get_eq_ok.1 hrun
  have hsame {rest : Tensor → Element → Graph → GraphM Buffer}
      {r : Except Failure Buffer × Graph}
      (hrest : (rest t element (g.amid ds m)).runOn (g.amid ds m) = r) : (do
        let t ← see (·.tensor item.out)
        let element ← see (·.element item.out)
        let g ← get
        rest t element g : GraphM Buffer).runOn (g.amid ds m) = r := by
    rw [runOn_bind, runOn_see, show (g.amid ds m).tensor item.out = .ok t from ht]
    dsimp only [Except.mapError]
    rw [runOn_bind, runOn_see, show (g.amid ds m).element item.out = .ok element from he]
    exact hrest
  generalize item.tree.arg = arg at hrun ⊢
  split at hrun
  · obtain ⟨contents, hgrown, hblock, _, hagain⟩ := h.allocate_again hrun
    exact .inl ⟨contents, hgrown, hblock, hsame hagain⟩
  · obtain ⟨n, hn, hrun⟩ := bind_fallible_eq_ok.1 hrun
    obtain ⟨_, hroom, hrun⟩ := bind_checked_eq_ok.1 hrun
    obtain ⟨hgrown, hblock, hagain⟩ := h.upload_again hrun
    refine .inl ⟨_, hgrown, hblock, hsame ?_⟩
    exact bind_fallible_eq_ok.2 ⟨n, hn, bind_checked_eq_ok.2 ⟨_, hroom, hagain⟩⟩
  · obtain ⟨hgrown, hblock, hagain⟩ := h.upload_again hrun
    exact .inl ⟨_, hgrown, hblock, hsame hagain⟩
  · obtain ⟨raws, hraws, hrun⟩ := bind_fallible_eq_ok.1 hrun
    split at hrun
    · obtain ⟨rfl, rfl⟩ := runOn_pure_eq_ok.1 hrun
      refine .inr ⟨rfl, mem_inputsOf hraws mem_cons_self, hsame ?_⟩
      exact bind_fallible_eq_ok.2 ⟨_, hraws, rfl⟩
    · exact (throw_eq_ok.1 hrun).elim
  · obtain ⟨raws, hraws, hrun⟩ := bind_fallible_eq_ok.1 hrun
    obtain ⟨values, hvalues, hrun⟩ := bind_fallible_eq_ok.1 hrun
    obtain ⟨n, hn, hrun⟩ := bind_fallible_eq_ok.1 hrun
    split at hrun
    · next hcount =>
      obtain ⟨hgrown, hblock, hagain⟩ := h.upload_again hrun
      refine .inl ⟨_, hgrown, hblock, hsame ?_⟩
      have hread : raws.map m.read = raws.map g.memory.read := map_congr_left fun b hb => by
        rw [Memory.read, Memory.read, hagree (by simp) hraws b hb]
      refine bind_fallible_eq_ok.2 ⟨raws, hraws, bind_fallible_eq_ok.2 ⟨values, ?_,
          bind_fallible_eq_ok.2 ⟨n, hn, ?_⟩⟩⟩
      · rw [← hread] at hvalues
        exact hvalues
      · rw [if_pos hcount]
        exact hagain
    · exact (throw_eq_ok.1 hrun).elim
  · obtain ⟨raws, hraws, hrun⟩ := bind_fallible_eq_ok.1 hrun
    split at hrun
    · exact (throw_eq_ok.1 hrun).elim
    · next b rest =>
      obtain ⟨source, hsource, hrun⟩ := bind_see_eq_ok.1 hrun
      obtain ⟨_, g1, hdevice, hrun⟩ := runOn_bind_eq_ok.1 hrun
      obtain ⟨d, hd', hpure⟩ := bind_fallible_eq_ok.1 hdevice
      obtain ⟨_, rfl⟩ := runOn_pure_eq_ok.1 hpure
      obtain ⟨hgrown, hblock, hagain⟩ := h.upload_again hrun
      obtain ⟨d', hd'⟩ : ∃ d', (g.amid ds m).device? source.device = some d' := by
        rw [← isSome_iff_exists, h.isSome_device?, device_eq_ok.1 hd']
        rfl
      refine .inl ⟨_, hgrown, hblock, hsame ?_⟩
      rw [← hagree (by simp) hraws b mem_cons_self] at hagain ⊢
      exact bind_fallible_eq_ok.2 ⟨_, hraws,
        bind_see_eq_ok.2 ⟨source, hsource, runOn_bind_eq_ok.2 ⟨_, _,
          runOn_bind_eq_ok.2 ⟨d', _, fallible_eq_ok.2 ⟨device_eq_ok.2 hd', rfl⟩, rfl⟩,
          hagain⟩⟩⟩
  · exact (throw_eq_ok.1 hrun).elim

lemma rooms_grown (hlength : contents.length = contents'.length) (b : Buffer) :
    ((m.grown contents).bytes b).length = ((g.memory.grown contents').bytes b).length := by
  by_cases hb : b.block = g.memory.blocks.length
  · rw [bytes_grown_last hb, bytes_grown_last (hb.trans h.count.symm), hlength]
  · rw [bytes_grown_of_ne hb, bytes_grown_of_ne (h.count ▸ hb), h.rooms]

lemma bytes_grown_again (hb : b.block ≠ g.memory.blocks.length) :
    (m.grown contents).bytes b = (g.memory.grown contents').bytes b ↔
      m.bytes b = g.memory.bytes b := by
  rw [bytes_grown_of_ne hb, bytes_grown_of_ne (h.count ▸ hb)]

lemma load_again (hitem : item ∈ items) (hop : item.tree.op = .load op)
    (hapart : op ≠ .contiguous → ∀ y ∈ item.inputs, ¬ start.Depends items inputs y)
    (hrun : (runItem item).runOn g = (.ok (), g')) :
    ∃ m', (runItem item).runOn (g.amid ds m) = (.ok (), g'.amid ds m') ∧
      Twins P start items inputs launches g' ds m' ∧ m.Adds m' := by
  obtain ⟨htracks, _⟩ :=
    (runItem_steps parts_tracks.toRuns (.refl h.sound h.handled le_rfl)).of_ok hrun
  obtain ⟨raw, g1, hload, hset⟩ := (runItem_load_eq_ok hop).1 hrun
  obtain ⟨contents, rfl, hblock, hagain⟩ | ⟨rfl, ⟨y, hy, hr⟩, hagain⟩ :=
    h.loadContents_again hapart hload
  · have hset' : (g.amid ds (m.grown contents)).Settled item.out raw _ := hset.amid
    refine ⟨m.grown contents, (runItem_load_eq_ok hop).2 ⟨raw, _, hagain, hset'⟩, ?_,
      adds_grown⟩
    obtain ⟨t, ht, _, rfl, _⟩ := hset
    refine h.settle htracks h.devices h.others h.allocation ?_ (h.rooms_grown rfl) adds_grown
      adds_grown (baseOf_fill ht) (realized?_fill ht) (fun _ => ?_) fun b hb => ?_
    · exact length_grown.trans (by rw [h.count]; exact length_grown.symm)
    · exact (bytes_grown_last (hblock.trans h.count.symm)).trans (bytes_grown_last hblock).symm
    · by_cases hlast : b.block = g.memory.blocks.length
      · exact (bytes_grown_last (hlast.trans h.count.symm)).trans (bytes_grown_last hlast).symm
      · exact (h.bytes_grown_again hlast).2 (h.same b hb)
  · refine ⟨m, (runItem_load_eq_ok hop).2 ⟨raw, _, hagain, hset.amid⟩, ?_, .refl m⟩
    obtain ⟨t, ht, _, rfl, _⟩ := hset
    refine h.settle htracks h.devices h.others h.allocation h.count h.rooms (.refl _) (.refl _)
      (baseOf_fill ht) (realized?_fill ht) (fun hd => ?_) h.same
    exact h.agree (fun hy' => hd (.item hitem hy hy')) hr

lemma kernel_again {f : Launch → List (List UInt8) → List UInt8}
    (hitem : item ∈ items) (hkind : item.tree.op.kind ≠ .load)
    (hrun : (recordItem item).runOn g = (.ok (some l), g')) (hcomputes : l.Computes P (f l))
    (htrace : Launch.Trace f inputs launches m) :
    ∃ ds' m', (runItem item).runOn (g.amid ds m) = (.ok (), g'.amid ds' m') ∧
      Twins P start items inputs (launches ++ [l]) g' ds' m' ∧ m.Adds m' ∧
      Launch.Trace f inputs (launches ++ [l]) m' := by
  obtain ⟨htracks, _⟩ :=
    (recordItem_steps parts_tracks (.refl h.sound h.handled le_rfl)).of_ok hrun
  obtain ⟨hkernel, hl⟩ := recordItem_eq_ok hrun
  obtain ⟨t, ht, element, he, ins, hins, raw, g1, hraw, _, g2, hexec, e, hestimate, _, g3,
    hrecord, hset⟩ :=
    (runItem_kernel_eq_ok hkind).1 hkernel
  rw [if_neg hkind] at hl
  obtain ⟨_, _, _, _, ht', hins', hout, _, hl⟩ := hl
  cases ht.symm.trans ht'
  cases hins.symm.trans hins'
  cases hout.symm.trans hset.realized?
  obtain ⟨zeros, rfl, hblock, hroom, hraw'⟩ := h.allocate_again hraw
  have hblock' : raw.block = m.blocks.length := hblock.trans h.count.symm
  have hheld : ∀ b ∈ ins, g.memory.Holds b := fun b hb => by
    obtain ⟨y, _, hr⟩ := mem_inputsOf hins hb
    exact (Handled.owns h.handled hr).held
  replace hl := some.inj hl
  have hbuffers : l.buffers = raw :: ins := by rw [hl]; rfl
  have hexec' : (exec l.device l.tree raw ins l.vals).runOn (g.grown zeros) = (.ok (), g2) := by
    rw [hl]
    exact hexec
  obtain ⟨hlength, ds1, hP1, hrun1⟩ :=
    hcomputes.grown hbuffers h.devices hblock hroom hheld (g := g)
  obtain ⟨hlength', ds2, hP2, hrun2⟩ := hcomputes.grown hbuffers h.others hblock' hroom
    (fun b hb => h.holds (hheld b hb)) (g := g)
  cases hexec'.symm.trans hrun1
  obtain ⟨stats, hstats, rfl⟩ := record_eq_ok.1 hrecord
  refine ⟨ds2, m.grown (f l (ins.map m.bytes)), ?_, ?_, adds_grown, ?_⟩
  · refine (runItem_kernel_eq_ok hkind).2
      ⟨t, ht, element, he, ins, hins, raw, g.amid ds (m.grown zeros),
      hraw', (), g.amid ds2 (m.grown (f l (ins.map m.bytes))), ?_, e, hestimate, (), _,
      record_eq_ok.2 ⟨stats, hstats, rfl⟩, hset.amid⟩
    rw [hl] at hrun2 ⊢
    exact hrun2
  · obtain ⟨t', ht', _, rfl, _⟩ := hset
    refine h.settle htracks hP1 hP2 (fun name => ?_) ?_
      (h.rooms_grown (hlength'.trans hlength.symm))
      adds_grown adds_grown (baseOf_fill ht') (realized?_fill ht') (fun hd => ?_)
        fun b hb => ?_
    · exact (exec_allocation hrun2).trans ((h.allocation name).trans (exec_allocation hrun1).symm)
    · exact length_grown.trans (by rw [h.count]; exact length_grown.symm)
    · have hargs : ins.map m.bytes = ins.map g.memory.bytes := map_congr_left fun b hb => by
        obtain ⟨y, hy, hr⟩ := mem_inputsOf hins hb
        exact h.agree (fun hy' => hd (.item hitem hy hy')) hr
      exact (bytes_grown_last hblock').trans (by rw [hargs]; exact (bytes_grown_last hblock).symm)
    · have hwritten : written (launches ++ [l]) = written launches ++ [raw] := by
        simp [written, hbuffers]
      rw [hwritten, ← append_assoc] at hb
      refine (h.bytes_grown_again ?_).2 (h.same b fun c hc => hb c (mem_append_left _ hc))
      exact hblock ▸ (hb raw (by simp)).symm
  · refine htrace.snoc adds_grown hbuffers
      ⟨⟨?_, ?_⟩, fun c hc => ?_, fun b hb => ?_, ?_⟩ hblock'.ge
    · rw [hblock', length_grown]
      omega
    · rw [bytes_grown_last hblock', hlength']
    · rw [hblock]
      exact (h.owned c hc).held.there
    · refine ⟨(h.holds (hheld b hb)).lasts lasts_grown, hblock ▸ (hheld b hb).there,
        fun c hc hcb => ?_⟩
      obtain ⟨y, _, hr⟩ := mem_inputsOf hins hb
      obtain ⟨_, tb, _, htb, hr⟩ := realized?_eq_ok.1 hr
      exact ((h.owned c hc).one htb hr hcb.symm).symm
    · rw [bytes_grown_last hblock']
      congr 1
      exact map_congr_left fun b hb => (bytes_grown (h.holds (hheld b hb)).there).symm

end

lemma run_again {f : Launch → List (List UInt8) → List UInt8} {rest : List Item}
    (h : Twins P start items inputs launches g ds m) (hrest : ∀ item ∈ rest, item ∈ items)
    (hapart : ∀ item ∈ items, ∀ op, item.tree.op = .load op → op ≠ .contiguous →
      ∀ y ∈ item.inputs, ¬ start.Depends items inputs y)
    (hrun : (rest.mapM recordItem).runOn g = (.ok os, g'))
    (hcomputes : ∀ l, some l ∈ os → l.Computes P (f l))
    (htrace : Launch.Trace f inputs launches m) :
    ∃ ds' m', (run rest).runOn (g.amid ds m) = (.ok (), g'.amid ds' m') ∧
      Twins P start items inputs (launches ++ os.filterMap id) g' ds' m' ∧ m.Adds m' ∧
      Launch.Trace f inputs (launches ++ os.filterMap id) m' := by
  induction rest generalizing g os ds m launches with
  | nil =>
    obtain ⟨rfl, rfl⟩ := runOn_pure_eq_ok.1 hrun
    exact ⟨ds, m, rfl, by simpa using h, .refl m, by simpa using htrace⟩
  | cons item rest ih =>
    rw [mapM_cons] at hrun
    obtain ⟨o, g1, hitem, htail⟩ := runOn_bind_eq_ok.1 hrun
    obtain ⟨os, g2, hitems, hpure⟩ := runOn_bind_eq_ok.1 htail
    obtain ⟨rfl, rfl⟩ := runOn_pure_eq_ok.1 hpure
    have hmem := hrest item mem_cons_self
    obtain ⟨ds1, m1, hagain, h1, hadds, htrace1⟩ : ∃ ds' m',
        (runItem item).runOn (g.amid ds m) = (.ok (), g1.amid ds' m') ∧
        Twins P start items inputs (launches ++ o.toList) g1 ds' m' ∧ m.Adds m' ∧
        Launch.Trace f inputs (launches ++ o.toList) m' := by
      obtain ⟨hload, ho⟩ := recordItem_eq_ok hitem
      split at ho
      · next hkind =>
        subst ho
        obtain ⟨op, hop⟩ : ∃ op, item.tree.op = .load op := by
          cases hop : item.tree.op <;> simp_all [Op.kind]
        obtain ⟨m', hagain, h', hadds⟩ := h.load_again hmem hop (hapart item hmem op hop) hload
        exact ⟨ds, m', hagain, by simpa using h', hadds, by simpa using htrace.adds hadds⟩
      · next hkind =>
        obtain ⟨_, _, _, _, _, _, _, _, rfl⟩ := ho
        exact h.kernel_again hmem hkind hitem (hcomputes _ (by simp)) htrace
    obtain ⟨ds', m', hagains, h', hadds1, htrace'⟩ :=
      ih h1 (fun i hi => hrest i (by simp [hi])) hitems
      (fun l hl => hcomputes l (by simp [hl])) htrace1
    have hos : launches ++ (o :: os).filterMap id = launches ++ o.toList ++ os.filterMap id := by
      cases o <;> simp
    rw [hos]
    exact ⟨ds', m', runOn_bind_eq_ok.2 ⟨_, _, hagain, hagains⟩, h',
      hadds.trans hadds1, htrace'⟩

end Twins

end Graph

end LazyTensor
