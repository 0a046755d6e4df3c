import LazyTensor.Proofs.Graph.Requests

/-! Handles of a graph. Whatever is asked of a graph, the handles that it ever gave to its tensors
lead to blocks with room for all of their elements, and no block has two of them. -/
namespace LazyTensor
open Checked GraphM LazyTensor.Graph Reading Option

namespace Graph
variable {g g' : Graph} {x : Nat} {t : Tensor} {raw : Buffer} {hs : List Buffer}

/-- The handle leads to a whole block, and no tensor has another handle to it. -/
structure Owns (g : Graph) (b : Buffer) : Prop where
  held : g.memory.Holds b
  one : ∀ {id t raw}, g.find? id = some t → t.realized = some raw →
    raw.block = b.block → raw = b

def Handled (g : Graph) : Prop := ∀ {id t raw}, g.find? id = some t →
    t.realized = some raw → g.Owns raw

lemma Owns.inherit {b : Buffer} (h : g.Owns b) (hm : g.memory.Lasts g'.memory)
    (hback : ∀ {id t' raw}, g'.find? id = some t' → t'.realized = some raw →
      ∃ t, g.find? id = some t ∧ t.realized = some raw) : g'.Owns b := by
  refine ⟨h.held.lasts hm, fun {id t' raw} ht' hr hb => ?_⟩
  obtain ⟨t, ht, hr⟩ := hback ht' hr
  exact h.one ht hr hb

lemma Handled.owns_new (hg : g.Handled) (ha : g.Around g') (h : g.Brings g' raw) : g'.Owns raw := by
  refine ⟨h.2, fun {id t raw'} ht hr hb => ?_⟩
  have ht : g.find? id = some t := by
    rw [find?, ← ha.tensors]
    exact ht
  have hlt := (hg ht hr).held.there
  have := h.1
  omega

lemma Handled.owns (hg : g.Handled) (h : g.realized? x = .ok (some raw)) : g.Owns raw := by
  obtain ⟨_, tb, _, htb, hr⟩ := realized?_eq_ok.1 h
  exact hg htb hr

end Graph

/-- A step after which the graph is sound and its handles are good. Good handles to the first `n`
blocks stay good. -/
structure Graph.Tracks (n : Nat) (g g' : Graph) : Prop where
  sound : depth.Sound g'
  handled : g'.Handled
  count : n ≤ g'.memory.blocks.length
  owns : ∀ {b}, b.block < n → g.Owns b → g'.Owns b

namespace Graph
variable {n : Nat} {g g' : Graph} {x : Nat} {t : Tensor} {raw : Buffer}

lemma Tracks.refl (hg : depth.Sound g) (hh : g.Handled) (hn : n ≤ g.memory.blocks.length) :
    Tracks n g g := ⟨hg, hh, hn, fun _ h => h⟩

instance : Steps (Tracks n) where
  trans h h' := ⟨h'.sound, h'.handled, h'.count, fun hn hb => h'.owns hn (h.owns hn hb)⟩
  stay h := .refl h.sound h.handled h.count

section
variable (hg : g.Handled) (hn : n ≤ g.memory.blocks.length) (hs : depth.Sound g')
  (hm : g.memory.Lasts g'.memory)
include hg hn hs hm

lemma Tracks.inherit (hback : ∀ {id t' raw}, g'.find? id = some t' → t'.realized = some raw →
      ∃ t, g.find? id = some t ∧ t.realized = some raw) : Tracks n g g' := by
  refine ⟨hs, fun ht' hr => ?_, hn.trans hm.1, fun _ hb => hb.inherit hm hback⟩
  obtain ⟨t, ht, hr⟩ := hback ht' hr
  exact (hg ht hr).inherit hm hback

lemma Tracks.settle (hraw : g'.memory.Holds raw)
    (hone : ∀ {id t raw'}, g.find? id = some t → t.realized = some raw' →
      raw'.block = raw.block → raw' = raw)
    (hnew : n ≤ raw.block ∨ ∃ y, g.realized? y = .ok (some raw))
    (hback : ∀ {id t' raw'}, g'.find? id = some t' → t'.realized = some raw' →
      raw' = raw ∨ ∃ t, g.find? id = some t ∧ t.realized = some raw') : Tracks n g g' := by
  have howns {b : Buffer} (h : g.Owns b) (hsame : raw.block = b.block → raw = b) : g'.Owns b := by
    refine ⟨h.held.lasts hm, fun {id t' raw'} ht' hr hblock => ?_⟩
    obtain rfl | ⟨t, ht, hr⟩ := hback ht' hr
    · exact hsame hblock
    · exact h.one ht hr hblock
  refine ⟨hs, fun {id t' raw'} ht' hr => ?_, hn.trans hm.1, fun {b} hlt h =>
    howns h fun hblock => ?_⟩
  · obtain rfl | ⟨t, ht, hr⟩ := hback ht' hr
    · refine ⟨hraw, fun {id t' raw} ht' hr hblock => ?_⟩
      obtain rfl | ⟨t, ht, hr⟩ := hback ht' hr
      · rfl
      · exact hone ht hr hblock
    · exact howns (hg ht hr) fun hblock => (hone ht hr hblock.symm).symm
  · rcases hnew with hnew | ⟨y, hy⟩
    · omega
    · obtain ⟨_, tb, _, htb, hr⟩ := realized?_eq_ok.1 hy
      exact h.one htb hr hblock

end

lemma Tracks.fill (hg : depth.Sound g) (hh : g.Handled) (hn : n ≤ g.memory.blocks.length)
    (ht : g.find? x = some t) (hb : t.base = none) (hraw : g.Owns raw)
    (hnew : n ≤ raw.block ∨ ∃ y, g.realized? y = .ok (some raw)) :
    Tracks n g (fill g x t raw) := by
  refine .settle hh hn (hg.trim (hg.trims_fill ht hb)) (.refl _) hraw.held hraw.one hnew
    fun {id t' raw'} ht' hr => ?_
  obtain ⟨t0, ht0, _, _, _, hrealized, _⟩ := find?_fill_back ht ht'
  rw [hrealized] at hr
  split at hr
  · cases hr
    exact .inl rfl
  · exact .inr ⟨t0, ht0, hr⟩

lemma tracks_of_keeps {α : Type} {m : GraphM α} {Q : α → Graph → Prop}
    (h : Yields depth.Keeps g m Q) (hb : Blind m) (hg : g.Handled)
    (hn : n ≤ g.memory.blocks.length) :
    Yields (Tracks n) g m Q := by
  refine ⟨.inherit hg hn h.step.sound (hb.memory_eq g ▸ .refl _) fun {id t' raw} ht' hr =>
    ?_, h.gives⟩
  by_cases hid : id < g.tensors.length
  · obtain ⟨t, ht, ha⟩ := h.step.grows.back hid ht'
    exact ⟨t, ht, ha.realized ▸ hr⟩
  · rw [h.step.pending (not_lt.1 hid) ht'] at hr
    cases hr

lemma insert_plain_run (ht : t.op = none) (hb : t.base = none) (hk : t.kind ≠ .movement) :
    (GraphM.insert t).runOn g = if t.layout.contiguous then
      (.ok g.tensors.length, { g with tensors := g.tensors ++ [some t] })
      else (.error (.abort .scatteredBase), g) := by
  rw [GraphM.insert, runOn_bind, runOn_get]
  simp only [ht, hb, hk, map_none, getD_none, if_false]
  cases t.layout.contiguous <;> rfl

lemma ofBytes_run (device : String) (shape : List Int) (element : Element) (contents : List UInt8)
    (g : Graph) : ((ofBytes device shape element contents).runOn g).2 = g ∨
      ((ofBytes device shape element contents).runOn g).2 = g.grown contents ∨
      ∃ t raw, ((ofBytes device shape element contents).runOn g).2
        = { g.grown contents with tensors := g.tensors ++ [some t] } ∧ t.realized = some raw ∧
          raw.block = g.memory.blocks.length ∧ contents.length = raw.room := by
  unfold ofBytes
  rw [runOn_bind, runOn_get]
  dsimp only
  rw [runOn_bind, runOn_fallible]
  cases g.device device with
  | error e => exact .inl rfl
  | ok d =>
    dsimp only
    rw [runOn_bind, runOn_fallible]
    cases hr : d.upload g.memory contents element with
    | error e => exact .inl rfl
    | ok r =>
      obtain ⟨raw, m⟩ := r
      obtain ⟨hwhole, hraw, rfl⟩ := Device.upload_eq_ok.1 hr
      have hroom : contents.length = raw.room := by
        rw [← hraw, Buffer.room, Nat.div_mul_cancel (Nat.dvd_of_mod_eq_zero hwhole)]
      right
      dsimp only
      rw [runOn_bind, runOn_modify]
      dsimp only
      rw [runOn_bind, runOn_checked]
      cases (Shape.ofInts shape).product with
      | error e => exact .inl rfl
      | ok _ =>
        dsimp only [Except.mapError]
        split
        · exact .inl rfl
        · rw [runOn_bind, runOn_fallible]
          cases Layout.ofShape (Shape.ofInts shape) with
          | error e => exact .inl rfl
          | ok _ =>
            dsimp only
            rw [insert_plain_run rfl rfl (by simp)]
            split
            · exact .inr ⟨_, raw, rfl, rfl, by rw [← hraw], hroom⟩
            · exact .inl rfl

section
variable (hg : depth.Sound g) (hh : g.Handled) (hn : n ≤ g.memory.blocks.length)
include hg hh hn

lemma Tracks.around (ha : g.Around g') : Tracks n g g' := by
  refine .inherit hh hn (hg.same ha.tensors ha.cache) ha.memory fun {id t' raw} ht' hr =>
    ⟨t', ?_, hr⟩
  rw [find?, ← ha.tensors]
  exact ht'

lemma schedule_tracks : Yields (Tracks n) g (schedule x) (fun _ _ => True) :=
  (tracks_of_keeps (schedule_visits hg) schedule_blind hh hn).weaken fun _ _ _ _ => trivial

lemma ofBytes_tracks {device : String} {shape : List Int} {element : Element}
    {contents : List UInt8} :
    Yields (Tracks n) g (ofBytes device shape element contents) (fun _ _ => True) := by
  have hsound : depth.Sound ((ofBytes device shape element contents).runOn g).2 :=
    (ofBytes_yields hg fun hty => hty.elim).step.sound
  refine ⟨?_, fun _ _ => trivial⟩
  obtain hrun | hrun | ⟨t, raw, hrun, ht, hblock, hroom⟩ :=
    ofBytes_run device shape element contents g
  · rw [hrun]
    exact .refl hg hh hn
  · rw [hrun]
    exact .around hg hh hn around_grown
  · rw [hrun] at hsound ⊢
    refine .settle hh hn hsound Memory.lasts_grown (brings_grown hblock hroom).2
      (fun ht0 hr hblock' => ?_) (.inl (hblock ▸ hn)) fun {id t' raw'} ht' hr => ?_
    · have hlt := (hh ht0 hr).held.there
      omega
    · rw [show ({ g.grown contents with tensors := g.tensors ++ [some t] } : Graph).find? id
        = ({ g with tensors := g.tensors ++ [some t] } : Graph).find? id from rfl,
        find?_append] at ht'
      split at ht'
      · cases ht'
        exact .inl (some.inj (hr.symm.trans ht))
      · exact .inr ⟨t', ht', hr⟩

end

lemma parts_tracks : depth.Parts (Tracks n) where
  around hk := .around hk.sound hk.handled hk.count
  fill hk ha hraw ht hb := by
    have hk' := Tracks.around hk.sound hk.handled hk.count ha
    refine .fill hk'.sound hk'.handled hk'.count ht hb ?_
      (hraw.imp_left fun h => hk.count.trans h.1)
    exact hraw.elim (Handled.owns_new hk.handled ha) fun ⟨_, hy⟩ => Handled.owns hk'.handled hy
  sound hk := hk.sound
  load hk hs hcopy :=
    (tracks_of_keeps (load_yields hk.sound hs hcopy) load_blind hk.handled hk.count).weaken
    fun _ _ _ _ => trivial
  contiguous hk :=
    (tracks_of_keeps (contiguous_yields hk.sound) contiguous_blind hk.handled hk.count).weaken
    fun _ _ _ _ => trivial
  bytes hk _ := ofBytes_tracks hk.sound hk.handled hk.count
  call hk _ _ :=
    (tracks_of_keeps (perform_performs _ _ hk.sound (fun hty => hty.elim) fun hty => hty.elim)
    perform_blind hk.handled hk.count).weaken fun _ _ _ _ => trivial
  schedule hk := schedule_tracks hk.sound hk.handled hk.count
  casts hty := hty.elim

end Graph

/-- The graphs that requests lead to, whether they are granted or fail. Between requests tensors may
be dropped, devices and statistics may change, and memory may be added and written into. -/
inductive Used : Graph → Prop
  | start (config : Config) : Used { config }
  | request {g : Graph} (h : Used g) (r : Request) : Used (r.perform.runOn g).2
  | collect {g : Graph} (h : Used g) (roots : List Nat) : Used (g.collect roots).1
  | surroundings {g : Graph} (h : Used g) (devices : List Device) (stats : Stats) {memory : Memory}
      (hm : g.memory.Lasts memory) : Used { g with devices, stats, memory }

lemma Used.tracked {g : Graph} (h : Used g) : depth.Sound g ∧ g.Handled := by
  induction h with
  | start config => exact ⟨.empty depth config, fun ht _ => by cases ht⟩
  | request _ r ih =>
    have hk := request_steps parts_tracks (.refl ih.1 ih.2 (Nat.zero_le _)) r (fun hty => hty.elim)
      fun hty => hty.elim
    exact ⟨hk.sound, hk.handled⟩
  | @collect g _ roots ih =>
    have hk : Graph.Tracks 0 g (g.collect roots).1 := by
      refine .inherit ih.2 (Nat.zero_le _) (ih.1.trim (ih.1.trims_collect roots)) (.refl _)
        fun {id t' raw} ht' hr => ?_
      rw [find?_collect] at ht'
      split at ht'
      · obtain ⟨t, ht, rfl⟩ := map_eq_some_iff.1 ht'
        exact ⟨t, ht, hr⟩
      · cases ht'
    exact ⟨hk.sound, hk.handled⟩
  | @surroundings g _ devices stats memory hm ih =>
    have hk : Graph.Tracks 0 g { g with devices, stats, memory } :=
      .around ih.1 ih.2 (Nat.zero_le _) ⟨rfl, rfl, hm⟩
    exact ⟨hk.sound, hk.handled⟩

end LazyTensor
