import Mathlib.Data.List.Zip
import LazyTensor.Proofs.Graph.Endings
import LazyTensor.Proofs.Graph.Interpret

/-! Replaying a recording gives what computing the tensor again would give on the new inputs. -/
namespace LazyTensor
open Checked GraphM LazyTensor.Graph Reading Launch Memory
open List hiding lookup

namespace Launch
variable {launches : List Launch} {inputs : List Buffer}
variable {j i : Nat} {l : Launch} {b : Buffer}

lemma mem_placesOf {k : Nat} : ((j, i), k) ∈ placesOf launches inputs ↔
    ∃ l b, launches[j]? = some l ∧ l.buffers[i]? = some b ∧
    inputs.findIdx? (·.shares b) = some k := by
  simp only [placesOf, mem_flatMap, mem_filterMap, Option.map_eq_some_iff, Prod.exists,
    mem_zipIdx_iff_getElem?, Prod.mk.injEq]
  constructor
  · rintro ⟨l, j', hl, b, i', hb, k', hk, ⟨rfl, rfl⟩, rfl⟩
    exact ⟨l, b, hl, hb, hk⟩
  · rintro ⟨l, b, hl, hb, hk⟩
    exact ⟨l, j, hl, b, i, hb, k, hk, ⟨rfl, rfl⟩, rfl⟩

lemma lookup_placesOf (hl : launches[j]? = some l) (hb : l.buffers[i]? = some b) :
    (placesOf launches inputs).lookup (j, i) = inputs.findIdx? (·.shares b) := by
  have hunique {k : Nat} (hk : ((j, i), k) ∈ placesOf launches inputs) :
      inputs.findIdx? (·.shares b) = some k := by
    obtain ⟨l', b', hl', hb', hk⟩ := mem_placesOf.1 hk
    cases hl.symm.trans hl'
    cases hb.symm.trans hb'
    exact hk
  cases hfound : (placesOf launches inputs).lookup (j, i) with
  | some k => exact (hunique (mem_of_lookup hfound)).symm
  | none =>
    cases hk : inputs.findIdx? (·.shares b) with
    | none => rfl
    | some k =>
      have hne := lookup_eq_none_iff.1 hfound _ (mem_placesOf.2 ⟨l, b, hl, hb, hk⟩)
      simp at hne

lemma places_eq_ok {places : List ((Nat × Nat) × Nat)}
    (h : Launch.places launches inputs = .ok places) :
    places = placesOf launches inputs ∧ (launches = [] → inputs = []) := by
  unfold Launch.places at h
  dsimp only at h
  split at h
  · next hfound =>
    cases h
    refine ⟨rfl, fun hnil => eq_nil_of_length_eq_zero ?_⟩
    rw [← hfound, hnil]
    rfl
  · cases h

end Launch

namespace Recording
variable {r : Recording} {news : List Buffer}

def redirect (r : Recording) (news : List Buffer) (b : Buffer) : Buffer :=
  ((r.inputs.findIdx? (·.shares b)).bind (news[·]?)).getD b

lemma buffersOf_eq (hplaces : r.places = placesOf r.launches r.inputs)
    (hlength : news.length = r.inputs.length) (hl : r.launches[j]? = some l) :
    r.buffersOf news l j = .ok (l.buffers.map (r.redirect news)) := by
  have hmap : l.buffers.map (r.redirect news) = l.buffers.zipIdx.map
      (fun e => r.redirect news e.1) := by
    conv_lhs => rw [← zipIdx_map_fst 0 l.buffers, map_map]
    rfl
  rw [buffersOf, hmap, mapM_eq_ok, forall₂_map_right_iff]
  refine forall₂_same.2 fun ⟨b, i⟩ he => ?_
  rw [mem_zipIdx_iff_getElem?] at he
  dsimp only
  rw [hplaces, lookup_placesOf hl he]
  unfold redirect
  cases hk : r.inputs.findIdx? (·.shares b) with
  | none => rfl
  | some k =>
    have hlt : k < news.length := by
      rw [hlength]
      exact (findIdx?_eq_some_iff_getElem.1 hk).1
    have hget := getElem?_eq_getElem hlt
    refine nth_eq_ok.2 ?_
    rw [Option.bind_some, hget]
    rfl

lemma checkInputs_eq_ok : r.checkInputs news = .ok () ↔ Forall₂ Buffer.Alike news r.inputs := by
  unfold checkInputs
  by_cases hlength : news.length = r.inputs.length
  · rw [if_neg (by simpa using hlength), forM_eq_ok, forall₂_iff_zip]
    simp only [hlength, true_and]
    constructor
    · intro h new old hmem
      obtain ⟨k, hk⟩ := mem_iff_getElem?.1 hmem
      have hcheck := h ((new, old), k) (mem_zipIdx_iff_getElem?.2 hk)
      by_contra hne
      rw [if_neg (by simpa [Buffer.Alike] using hne)] at hcheck
      cases hcheck
    · rintro h ⟨⟨new, old⟩, k⟩ hmem
      have hk := mem_zipIdx_iff_getElem?.1 hmem
      exact if_pos (h (mem_of_getElem? hk))
  · rw [if_pos (by simpa using hlength)]
    constructor
    · intro h
      cases h
    · exact fun h => (hlength h.length_eq).elim

end Recording

namespace Graph
variable {g g' : Graph} {x root : Nat} {xs : List Nat} {found raws : List Buffer} {r : Recording}
  {items : List Item}

lemma discard_lookup : (discard (lookup x)).runOn g = (.ok (), g') ↔ g.Has x ∧ g' = g := by
  refine runOn_bind_eq_ok.trans ⟨?_, ?_⟩
  · rintro ⟨t, _, ht, hpure⟩
    obtain ⟨_, rfl⟩ := runOn_pure_eq_ok.1 hpure
    obtain ⟨hnamed, rfl⟩ := fallible_eq_ok.1 (bind_get_eq_ok.1 ht)
    exact ⟨⟨t, named_eq_ok.1 hnamed⟩, rfl⟩
  · rintro ⟨⟨t, ht⟩, rfl⟩
    exact ⟨t, _, bind_get_eq_ok.2 (fallible_eq_ok.2 ⟨named_eq_ok.2 ht, rfl⟩), rfl⟩

lemma realize_run {filled : Bool} (h : g.isRealized x = .ok filled) : (realize x).runOn g
    = if filled then (.ok (), g) else (schedule x >>= run).runOn g := by
  obtain ⟨t, _, ht, _⟩ := isRealized_eq_ok.1 h
  unfold realize
  rw [runOn_bind, discard_lookup.2 ⟨⟨t, ht⟩, rfl⟩]
  dsimp only
  rw [runOn_bind, see_eq_ok.2 ⟨h, rfl⟩]
  cases filled <;> rfl

lemma recordInputs_realized (h : ∀ x ∈ xs, g.isRealized x = .ok true)
    (hrun : (recordInputs xs found).runOn g = (.ok raws, g')) : g' = g := by
  induction xs generalizing found with
  | nil => exact (runOn_pure_eq_ok.1 hrun).2.symm
  | cons x xs ih =>
    obtain ⟨_, g1, hx, hrun⟩ := runOn_bind_eq_ok.1 hrun
    cases hx.symm.trans (realize_run (h x mem_cons_self))
    obtain ⟨raw, _, hrun⟩ := bind_see_eq_ok.1 hrun
    split at hrun
    · exact (throw_eq_ok.1 hrun).elim
    · split at hrun
      · exact (throw_eq_ok.1 hrun).elim
      · exact ih (fun y hy => h y (mem_cons_of_mem x hy)) hrun

lemma recordInputs_owns (hg : depth.Sound g) (hh : g.Handled) (hfound : ∀ b ∈ found, g.Owns b)
    (hapart : found.Pairwise fun b c => b.block ≠ c.block)
    (hrun : (recordInputs xs found).runOn g = (.ok raws, g')) : depth.Sound g' ∧ g'.Handled ∧
      (∀ b ∈ raws, g'.Owns b) ∧ raws.Pairwise fun b c => b.block ≠ c.block := by
  induction xs generalizing g found with
  | nil =>
    obtain ⟨rfl, rfl⟩ := runOn_pure_eq_ok.1 hrun
    exact ⟨hg, hh, hfound, hapart⟩
  | cons x xs ih =>
    obtain ⟨_, g1, hx, hrun⟩ := runOn_bind_eq_ok.1 hrun
    obtain ⟨hk, _⟩ := (realize_steps parts_tracks (.refl hg hh le_rfl)).of_ok hx
    obtain ⟨raw, hraw, hrun⟩ := bind_see_eq_ok.1 hrun
    split at hrun
    · exact (throw_eq_ok.1 hrun).elim
    · next raw =>
      split at hrun
      · exact (throw_eq_ok.1 hrun).elim
      · next hnew =>
        refine ih hk.sound hk.handled (fun b hb => ?_) ?_ hrun
        · rcases mem_append.1 hb with hb | hb
          · exact hk.owns (hfound b hb).held.there (hfound b hb)
          · cases mem_singleton.1 hb
            exact Handled.owns hk.handled hraw
        · refine pairwise_append.2 ⟨hapart, pairwise_singleton _ _,
            fun b hb c hc hbc => hnew ?_⟩
          cases mem_singleton.1 hc
          exact any_eq_true.2 ⟨b, hb, by simpa [Buffer.shares] using hbc⟩

lemma capture_eq_ok (hrun : (capture root xs).runOn g = (.ok r, g')) : ∃ g₁ items g₂ os,
    (recordInputs xs []).runOn g = (.ok r.inputs, g₁) ∧
    (schedule root).runOn g₁ = (.ok items, g₂) ∧
    (items.mapM recordItem).runOn g₂ = (.ok os, g') ∧ r.launches = os.filterMap id ∧
    g'.realized? root = .ok (some r.output) ∧ places r.launches r.inputs = .ok r.places := by
  obtain ⟨inputs, g1, hinputs, hrun⟩ := runOn_bind_eq_ok.1 hrun
  obtain ⟨items, g2, hitems, hrun⟩ := runOn_bind_eq_ok.1 hrun
  obtain ⟨os, g3, hos, hrun⟩ := runOn_bind_eq_ok.1 hrun
  obtain ⟨output, houtput, hrun⟩ := bind_see_eq_ok.1 hrun
  split at hrun
  · exact (throw_eq_ok.1 hrun).elim
  · obtain ⟨places, hplaces', hpure⟩ := bind_fallible_eq_ok.1 hrun
    obtain ⟨rfl, rfl⟩ := runOn_pure_eq_ok.1 hpure
    exact ⟨g1, items, g2, os, hinputs, hitems, hos, rfl, houtput, hplaces'⟩

lemma schedule_realized (hrun : (schedule root).runOn g = (.ok items, g')) :
    ∃ filled, g.isRealized root = .ok filled ∧
      (filled = true ∨ g.isPendingConst root = .ok true → items = [] ∧ g' = g) := by
  obtain ⟨_, g1, hlookup, hget⟩ := runOn_bind_eq_ok.1 hrun
  obtain ⟨_, rfl⟩ := discard_lookup.1 hlookup
  replace hrun := bind_get_eq_ok.1 hget
  generalize g1.limit = n at hrun
  rw [StateT.run'_eq, map_eq_pure_bind] at hrun
  obtain ⟨⟨_, seen⟩, _, hvisit, hpure⟩ := runOn_bind_eq_ok.1 hrun
  obtain ⟨rfl, rfl⟩ := runOn_pure_eq_ok.1 hpure
  cases n with
  | zero => cases hvisit
  | succ n =>
    rw [visitWithin, visit, StateT.run_bind] at hvisit
    obtain ⟨_, _, hseen, hvisit⟩ := runOn_bind_eq_ok.1 hvisit
    obtain ⟨rfl, rfl⟩ := runOn_pure_eq_ok.1 hseen
    rw [StateT.run_bind] at hvisit
    obtain ⟨⟨done, _⟩, _, hdone, hvisit⟩ := runOn_bind_eq_ok.1 hvisit
    rw [show ∀ (m : GraphM Bool) seen, StateT.run (liftM m : Scheduler Bool) seen
      = m >>= fun a => pure (a, seen) from fun _ _ => rfl] at hdone
    obtain ⟨_, hcheck, hpure⟩ := bind_see_eq_ok.1 hdone
    obtain ⟨hpair, rfl⟩ := runOn_pure_eq_ok.1 hpure
    cases hpair
    obtain ⟨filled, hfilled, hcheck⟩ := bind_eq_ok.1 hcheck
    refine ⟨filled, hfilled, fun h => ?_⟩
    obtain rfl : done = true := by
      cases filled with
      | true => exact (pure_eq_ok.1 hcheck).symm
      | false => exact Except.ok.inj (hcheck.symm.trans (h.resolve_left (by simp)))
    obtain ⟨hpair, rfl⟩ := runOn_pure_eq_ok.1 hvisit
    cases hpair
    exact ⟨rfl, rfl⟩

end Graph

/-- A recording of the items of a schedule, from graphs in which its inputs have their contents. -/
structure Recording.Made (r : Recording) (root : Nat) (items : List Item)
    (g₁ g₂ g₃ : Graph) : Prop where
  sound : depth.Sound g₁
  handled : g₁.Handled
  owned : ∀ b ∈ r.inputs, g₁.Owns b
  distinct : r.inputs.Pairwise fun b c => b.block ≠ c.block
  scheduled : (schedule root).runOn g₁ = (.ok items, g₂)
  recorded : ∃ os, (items.mapM recordItem).runOn g₂ = (.ok os, g₃) ∧
    r.launches = os.filterMap id
  output : g₃.realized? root = .ok (some r.output)
  places : r.places = placesOf r.launches r.inputs
  read : r.launches = [] → r.inputs = []

/-- No load but a copy that shares its block gets its contents from an input. -/
def Graph.LoadsApart (g : Graph) (items : List Item) (inputs : List Buffer) : Prop :=
  ∀ item ∈ items, ∀ op, item.tree.op = .load op → op ≠ .contiguous →
    ∀ y ∈ item.inputs, ¬ g.Depends items inputs y

variable {P : List Device → Prop} {f : Launch → List (List UInt8) → List UInt8}
  {r : Recording} {root : Nat} {items : List Item} {news : List Buffer}
    {g g' g₁ g₂ g₃ : Graph}

lemma Graph.LoadsApart.of_kernels {inputs : List Buffer}
    (h : ∀ item ∈ items, item.tree.op.kind ≠ .load) : g.LoadsApart items inputs :=
  fun item hitem op hop => absurd (by rw [hop]; rfl) (h item hitem)

lemma Graph.made_of_capture {xs : List Nat} (hg : depth.Sound g) (hh : g.Handled)
    (hrun : (capture root xs).runOn g = (.ok r, g₃))
    (hinputs : (recordInputs xs []).runOn g = (.ok r.inputs, g₁))
    (hitems : (schedule root).runOn g₁ = (.ok items, g₂)) :
    r.Made root items g₁ g₂ g₃ := by
  obtain ⟨g1, _, g2, os, hinputs', hitems', hos, hlaunches, houtput, hplaces⟩ :=
    capture_eq_ok hrun
  cases hinputs.symm.trans hinputs'
  cases hitems.symm.trans hitems'
  obtain ⟨hsound, hhandled, howns, hdistinct⟩ := recordInputs_owns hg hh (by simp) .nil hinputs
  obtain ⟨hplaces, hread⟩ := Launch.places_eq_ok hplaces
  exact ⟨hsound, hhandled, howns, hdistinct, hitems, ⟨os, hos, hlaunches⟩, houtput,
    hplaces, hread⟩

namespace Recording.Made
variable {contents : List (List UInt8)}

section
variable (h : r.Made root items g₁ g₂ g₃)
  (hc : Forall₂ (fun b c => c.length = b.room) r.inputs contents)
include h hc

lemma bytes_written {c : List UInt8} (hw : (b, c) ∈ r.inputs.zip contents) :
    (g₁.memory.putAll (r.inputs.zip contents)).bytes b = c := by
  refine bytes_putAll ?_ hw (h.owned b (of_mem_zip hw).1).held.there
  have hinputs := h.distinct
  rwa [← map_fst_zip hc.length_eq.le, pairwise_map] at hinputs

/-- The graph after scheduling, and the same graph with new contents of the inputs. -/
lemma twins (hP : P g₁.devices) :
    Twins P g₂ items r.inputs [] g₂ g₂.devices
      (g₁.memory.putAll (r.inputs.zip contents)) := by
  obtain ⟨htracks, _⟩ := (schedule_tracks h.sound h.handled le_rfl).of_ok h.scheduled
  have hdevices := ((schedule_visits h.sound).of_ok h.scheduled).1.grows.devices
  have hmemory : ((schedule root).runOn g₁).2.memory = g₁.memory :=
    schedule_blind.memory_eq g₁
  rw [h.scheduled] at hmemory
  have hother {b : Buffer} (hb : ∀ c ∈ r.inputs, c.block ≠ b.block) :
      (g₁.memory.putAll (r.inputs.zip contents)).bytes b = g₂.memory.bytes b := by
    rw [hmemory]
    exact bytes_putAll_of_ne fun w hw => hb w.1 (of_mem_zip hw).1
  exact {
    sound := htracks.sound
    handled := htracks.handled
    owned := fun b hb => htracks.owns (h.owned b hb).held.there (h.owned b hb)
    devices := by rw [hdevices]; exact hP
    others := by rw [hdevices]; exact hP
    allocation := fun _ => rfl
    count := by rw [hmemory, length_putAll]
    rooms := fun b => by
      by_cases hb : ∀ c ∈ r.inputs, c.block ≠ b.block
      · rw [hother hb]
      · push Not at hb
        obtain ⟨c, hc', hblock⟩ := hb
        rw [← map_fst_zip hc.length_eq.le] at hc'
        obtain ⟨⟨old, new⟩, hw, rfl⟩ := mem_map.1 hc'
        rw [← bytes_congr hblock, ← bytes_congr hblock,
          h.bytes_written hc hw, hmemory, (h.owned old (of_mem_zip hw).1).held.whole]
        exact (forall₂_iff_zip.1 hc).2 hw
    bases := fun h => h
    agree := fun {x raw} hx hr => hother fun c hc' hblock => hx (.input hr hc' hblock.symm)
    same := fun b hb => hother fun c hc' => hb c (by simp [hc']) }

lemma recompute (hP : P g₁.devices) (hcomputes : ∀ l ∈ r.launches, l.Computes P (f l))
    (hapart : g₂.LoadsApart items r.inputs) : ∃ ds m,
      (realize root).runOn (g₁.holding (g₁.memory.putAll (r.inputs.zip contents))) =
        (.ok (), g₃.amid ds m) ∧
      Twins P g₂ items r.inputs r.launches g₃ ds m ∧ Launch.Trace f r.inputs r.launches m ∧
      ∀ b c, (b, c) ∈ r.inputs.zip contents → m.bytes b = c := by
  obtain ⟨os, hos, hlaunches⟩ := h.recorded
  have htwins : Twins P g₂ items r.inputs [] g₂ g₂.devices
      (g₁.memory.putAll (r.inputs.zip contents)) :=
    h.twins hc hP
  obtain ⟨ds, m, hrun, htwins', hadds, htrace⟩ := htwins.run_again (fun _ hi => hi) hapart hos
    (fun l hl => hcomputes l (by rw [hlaunches]; simpa using hl)) .nil
  rw [nil_append, ← hlaunches] at htwins' htrace
  refine ⟨ds, m, ?_, htwins', htrace, fun b c hw => ?_⟩
  · have hschedule := schedule_blind (x := root) g₁ (g₁.memory.putAll (r.inputs.zip contents))
    rw [h.scheduled] at hschedule
    obtain ⟨filled, hfilled, hnothing⟩ := schedule_realized h.scheduled
    have hfilled' : (g₁.holding (g₁.memory.putAll (r.inputs.zip contents))).isRealized root =
        .ok filled := hfilled
    rw [realize_run hfilled']
    cases filled with
    | true =>
      obtain ⟨rfl, rfl⟩ := hnothing (.inl rfl)
      exact hrun
    | false => exact runOn_bind_eq_ok.2 ⟨items, _, hschedule, hrun⟩
  · have hlt := (h.owned b (of_mem_zip hw).1).held.there
    rw [hadds.2 b (by rw [length_putAll]; exact hlt), h.bytes_written hc hw]

end

lemma output_ne (h : r.Made root items g₁ g₂ g₃) :
    ∀ c ∈ r.inputs, c.block ≠ r.output.block := by
  obtain ⟨os, hos, hlaunches⟩ := h.recorded
  obtain ⟨htracks, _⟩ := (schedule_tracks h.sound h.handled le_rfl).of_ok h.scheduled
  obtain ⟨_, _, _, _, hsettles⟩ := (schedule_walks h.sound).of_ok h.scheduled
  obtain ⟨hrun, hloads⟩ := run_of_record hos
  intro c hc
  rcases hsettles.fresh htracks.sound htracks.handled (fun h => h) hrun h.output with hnew | hall
  · have hlt := (h.owned c hc).held.there.trans_le (htracks.count.trans hnew)
    omega
  · rw [h.read (hlaunches.trans (hloads hall))] at hc
    cases hc

end Recording.Made

namespace Recording

def buffers (r : Recording) : List Buffer := r.output :: r.launches.flatMap (·.buffers)

/-- Buffers that can stand in for the inputs: they are alike, and no launch writes into them. -/
structure Replaces (r : Recording) (g : Graph) (news : List Buffer) : Prop where
  alike : r.checkInputs news = .ok ()
  held : ∀ b ∈ news, g.memory.Holds b
  spare : ∀ b ∈ news, ∀ c ∈ written r.launches, b.block ≠ c.block

/-- The values that are given do not change those of the recording. -/
def Agrees (r : Recording) (vals : Bindings) : Prop :=
  ∀ l ∈ r.launches, ∀ v ∈ l.vals, (VarMap.value? vals v.1).getD v.2 = v.2

def tally (launches : List Launch) (stats : Stats) : Checked Stats :=
  launches.foldlM (fun stats l => stats.record l.estimate l.vals) stats

/-- The recording can be run again: the buffers are still there, and those that are neither replaced
nor written hold what they held at its end. -/
structure Ready (r : Recording) (P : List Device → Prop) (g g' : Graph) : Prop where
  devices : P g'.devices
  lasts : g.memory.Lasts g'.memory
  keeps : ∀ b ∈ r.buffers, (∀ c ∈ r.inputs ++ written r.launches, c.block ≠ b.block) →
    g'.memory.bytes b = g.memory.bytes b

/-- Graphs after a recording: it may have been replayed any number of times on any inputs, and
anything else may have happened that leaves it ready. -/
inductive Later (r : Recording) (P : List Device → Prop) (g : Graph) : Graph → Prop
  | start : Later r P g g
  | replay {g₁ g₂ : Graph} {news : List Buffer} {vals : Bindings} {out : Buffer}
      (h : Later r P g g₁) (hnews : r.Replaces g₁ news) (hvals : r.Agrees vals)
      (hrun : (r.replay news vals).runOn g₁ = (.ok out, g₂)) : Later r P g g₂
  | change {g₁ g₂ : Graph} (h : Later r P g g₁)
      (hready : r.Ready P g₁ g₂) : Later r P g g₂

lemma Ready.refl (h : P g.devices) : r.Ready P g g :=
  ⟨h, .refl _, fun _ _ _ => rfl⟩

lemma Ready.trans {g'' : Graph} (h : r.Ready P g g')
    (h' : r.Ready P g' g'') : r.Ready P g g'' :=
  ⟨h'.devices, h.lasts.trans h'.lasts, fun b hb hapart =>
    (h'.keeps b hb hapart).trans (h.keeps b hb hapart)⟩

/-- A replay after some of its launches. Their outputs hold what a run on the new contents gives. -/
structure Midway (r : Recording) (P : List Device → Prop) (news : List Buffer) (m : Memory)
    (done : List Launch) (g g' : Graph) : Prop where
  ready : r.Ready P g g'
  news : ∀ b ∈ news, g'.memory.bytes b = g.memory.bytes b
  outputs : ∀ b ∈ written done, g'.memory.bytes b = m.bytes b

def relaunch (r : Recording) (news : List Buffer) (vals : Bindings) :
    Launch × Nat → GraphM Unit :=
  fun (l, j) => do
    let buffers ← r.buffersOf news l j
    let vals := l.vals.map (fun (v, x) => (v, (VarMap.value? vals v).getD x))
    match buffers with
    | [] => throw (.abort .bounds)
    | out :: rest =>
      Graph.exec l.device l.tree out rest vals
      Graph.record l.estimate vals

lemma replay_eq (r : Recording) (news : List Buffer) (vals : Bindings) : r.replay news vals = (do
    r.checkInputs news
    r.launches.zipIdx.forM (r.relaunch news vals)
    pure r.output) := rfl

/-- A buffer is replaced by the new input for its block, which is alike. -/
lemma redirect_cases (hnews : Forall₂ Buffer.Alike news r.inputs)
    (b : Buffer) : (∀ c ∈ r.inputs, c.block ≠ b.block) ∧ r.redirect news b = b ∨
      ∃ old ∈ r.inputs, old.block = b.block ∧ (r.redirect news b, old) ∈
        news.zip r.inputs := by
  unfold redirect
  cases hk : r.inputs.findIdx? (·.shares b) with
  | none =>
    refine .inl ⟨fun c hc hblock => ?_, rfl⟩
    have hnone := findIdx?_eq_none_iff.1 hk c hc
    simp [Buffer.shares, hblock] at hnone
  | some k =>
    obtain ⟨hlt, hshares, _⟩ := findIdx?_eq_some_iff_getElem.1 hk
    have hlt' : k < news.length := by rw [hnews.length_eq]; exact hlt
    refine .inr ⟨r.inputs[k], getElem_mem hlt, by simpa [Buffer.shares] using hshares, ?_⟩
    rw [Option.bind_some, getElem?_eq_getElem hlt', Option.getD_some]
    refine mem_iff_getElem.2 ⟨k, by simp [hlt, hlt'], by simp⟩

/-- Everything that a replay on new inputs rests on. -/
structure Sets (r : Recording) (P : List Device → Prop)
    (f : Launch → List (List UInt8) → List UInt8) (news : List Buffer) (g₃ g : Graph)
    (m : Memory) : Prop where
  computes : ∀ l ∈ r.launches, l.Computes P (f l)
  ready : r.Ready P g₃ g
  replaces : r.Replaces g news
  trace : Launch.Trace f r.inputs r.launches m
  count : m.blocks.length = g₃.memory.blocks.length
  rooms : ∀ b, (m.bytes b).length = (g₃.memory.bytes b).length
  same : ∀ b : Buffer, (∀ c ∈ r.inputs ++ written r.launches, c.block ≠ b.block) →
    m.bytes b = g₃.memory.bytes b
  inputs : ∀ new old, (new, old) ∈ news.zip r.inputs → m.bytes old = g.memory.bytes new

namespace Sets
variable {m : Memory} {launched rest : List Launch} {l : Launch}

section
variable (h : r.Sets P f news g₃ g m) (hmid : r.Midway P news m launched g g')
include h hmid

lemma holds (hb : m.Holds b) : g'.memory.Holds b := by
  have hb3 : g₃.memory.Holds b := ⟨h.count ▸ hb.there, (h.rooms b).symm.trans hb.whole⟩
  exact (hb3.lasts h.ready.lasts).lasts hmid.ready.lasts

/-- A buffer that is no input holds what it should once all launches that write into it have run. -/
lemma settled (hmem : b ∈ r.buffers) (hapart : ∀ c ∈ r.inputs, c.block ≠ b.block)
    (hdone : ∀ c ∈ written r.launches, c.block = b.block → c ∈ written launched) :
    g'.memory.bytes b = m.bytes b := by
  by_cases hout : ∃ c ∈ written r.launches, c.block = b.block
  · obtain ⟨c, hc, hblock⟩ := hout
    rw [← bytes_congr hblock, ← bytes_congr hblock, hmid.outputs c (hdone c hc hblock)]
  · push Not at hout
    have hfixed : ∀ c ∈ r.inputs ++ written r.launches, c.block ≠ b.block :=
      fun c hc =>
      (mem_append.1 hc).elim (hapart c) (hout c)
    rw [h.same b hfixed, hmid.ready.keeps b hmem hfixed, h.ready.keeps b hmem hfixed]

variable (hl : r.launches = launched ++ l :: rest)
include hl

lemma slot {out b : Buffer} {ins : List Buffer} (hbuffers : l.buffers = out :: ins)
    (hsolved : Launch.Solved (f l) r.inputs m out ins) (hb : b ∈ ins) :
    (r.redirect news b).Alike b ∧ g'.memory.Holds (r.redirect news b) ∧
      (r.redirect news b).block ≠ out.block ∧ g'.memory.bytes (r.redirect news b) =
        m.bytes b := by
  have hnews := checkInputs_eq_ok.1 h.replaces.alike
  have hwritten : written r.launches = written launched ++ out ::
      written rest := by
    simp [written, hl, hbuffers]
  obtain ⟨hheld, hlt, hunique⟩ := hsolved.reads b hb
  obtain ⟨hapart, hsame⟩ | ⟨old, hold, hblock, hzip⟩ := redirect_cases hnews b
  · rw [hsame]
    refine ⟨.refl b, h.holds hmid hheld, by omega, h.settled hmid ?_ hapart fun c hc hcb => ?_⟩
    · exact mem_cons_of_mem _ (mem_flatMap.2 ⟨l, by simp [hl], by simp [hbuffers, hb]⟩)
    · -- the blocks of later launches lie behind the one of this launch
      have horder := h.trace.order
      rw [hwritten, pairwise_append, pairwise_cons] at horder
      rw [hwritten, mem_append, mem_cons] at hc
      obtain hc | rfl | hc := hc
      · exact hc
      · omega
      · have hlater := horder.2.1.1 c hc
        omega
  · cases hunique old hold hblock
    have hnew := (of_mem_zip hzip).1
    refine ⟨(forall₂_iff_zip.1 hnews).2 hzip,
      (h.replaces.held _ hnew).lasts hmid.ready.lasts, ?_, ?_⟩
    · exact h.replaces.spare _ hnew out (by simp [hwritten])
    · rw [hmid.news _ hnew, h.inputs _ _ hzip]

lemma launch_run : ∃ out ins ds, l.buffers = out :: ins ∧ r.redirect news out = out ∧
    (exec l.device l.tree out (ins.map (r.redirect news)) l.vals).runOn g'
      = (.ok (), g'.amid ds (g'.memory.put out (m.bytes out))) ∧
    r.Midway P news m (launched ++ [l]) g (g'.amid ds (g'.memory.put out (m.bytes out))) := by
  have hmem : l ∈ r.launches := by simp [hl]
  obtain ⟨out, ins, hbuffers, hsolved⟩ := h.trace.solved l hmem
  have hslot {b : Buffer} (hb : b ∈ ins) := h.slot hmid hl hbuffers hsolved hb
  have hout := h.holds hmid hsolved.held
  have hredirect : r.redirect news out = out := by
    obtain ⟨_, hsame⟩ | ⟨old, hold, _, _⟩ :=
      redirect_cases (checkInputs_eq_ok.1 h.replaces.alike) out
    · exact hsame
    · have hlt := hsolved.behind old hold
      omega
  have hwritten : written r.launches = written launched ++ out ::
      written rest := by
    simp [written, hl, hbuffers]
  have hargs : (ins.map (r.redirect news)).map g'.memory.bytes = ins.map m.bytes := by
    rw [map_map]
    exact map_congr_left fun b hb => (hslot hb).2.2.2
  have halike : Forall₂ Buffer.Alike (out :: ins.map (r.redirect news)) l.buffers := by
    rw [hbuffers]
    exact .cons (.refl out) (forall₂_map_left_iff.2 (forall₂_same.2 fun b hb => (hslot hb).1))
  have hheld : ∀ b ∈ out :: ins.map (r.redirect news), g'.memory.Holds b := fun b hb => by
    rcases mem_cons.1 hb with rfl | hb
    · exact hout
    · obtain ⟨c, hc, rfl⟩ := mem_map.1 hb
      exact (hslot hc).2.1
  have hne : ∀ b ∈ ins.map (r.redirect news), b.block ≠ out.block := fun b hb => by
    obtain ⟨c, hc, rfl⟩ := mem_map.1 hb
    exact (hslot hc).2.2.1
  obtain ⟨hlength, ds, hP, hrun⟩ :=
    h.computes l hmem g' out _ hmid.ready.devices halike hheld hne
  rw [hargs, ← hsolved.result] at hrun hlength
  refine ⟨out, ins, ds, hbuffers, hredirect, hrun, ⟨hP, ?_, fun b hb hapart => ?_⟩,
    fun b hb => ?_, fun b hb => ?_⟩
  · exact hmid.ready.lasts.trans (lasts_put (hlength.trans hout.whole.symm))
  · have hne : out.block ≠ b.block := hapart out (by simp [hwritten])
    exact (bytes_put_of_ne hne).trans (hmid.ready.keeps b hb hapart)
  · have hne := h.replaces.spare b hb out (by simp [hwritten])
    exact (bytes_put_of_ne hne.symm).trans (hmid.news b hb)
  · have horder := h.trace.order
    rw [hwritten, pairwise_append] at horder
    rw [show written (launched ++ [l]) = written launched ++ [out] by simp [written, hbuffers],
      mem_append, mem_singleton] at hb
    obtain hb | rfl := hb
    · have hlt := horder.2.2 b hb out mem_cons_self
      exact (bytes_put_of_ne (by omega)).trans (hmid.outputs b hb)
    · exact bytes_put hout.there

lemma relaunch_run (hplaces : r.places = placesOf r.launches r.inputs) {vals : Bindings}
    (hvals : r.Agrees vals) : ∃ g'', r.Midway P news m (launched ++ [l]) g g'' ∧
      (r.relaunch news vals (l, launched.length)).runOn g' =
        match g'.stats.record l.estimate l.vals with
        | .ok stats => (.ok (), { g'' with stats })
        | .error e => (.error (.abort e), g'') := by
  obtain ⟨out, ins, ds, hbuffers, hredirect, hrun, hmid'⟩ := h.launch_run hmid hl
  refine ⟨_, hmid', ?_⟩
  have hget : r.launches[launched.length]? = some l := by simp [hl]
  have hsame : l.vals.map (fun (v, x) => (v, (VarMap.value? vals v).getD x)) = l.vals := by
    conv_rhs => rw [← map_id l.vals]
    exact map_congr_left fun ⟨v, x⟩ hv =>
      congrArg (Prod.mk v) (hvals l (by simp [hl]) (v, x) hv)
  have hlength : news.length = r.inputs.length := (checkInputs_eq_ok.1 h.replaces.alike).length_eq
  rw [relaunch, runOn_bind, runOn_checked, buffersOf_eq hplaces hlength hget]
  dsimp only [Except.mapError]
  rw [hsame, hbuffers, map_cons, hredirect]
  rw [runOn_bind, hrun]
  dsimp only
  rw [record, runOn_bind, runOn_get]
  dsimp only
  rw [runOn_bind, runOn_checked, show (g'.amid ds (g'.memory.put out (m.bytes out))).stats =
    g'.stats from rfl]
  cases g'.stats.record l.estimate l.vals <;> rfl

end

lemma relaunches_run (h : r.Sets P f news g₃ g m)
    (hplaces : r.places = placesOf r.launches r.inputs) {vals : Bindings}
    (hvals : r.Agrees vals) (hl : r.launches = launched ++ rest)
    (hmid : r.Midway P news m launched g g') : ∃ g'',
      match tally rest g'.stats with
      | .ok _ => ((rest.zipIdx launched.length).forM (r.relaunch news vals)).runOn g' =
        (.ok (), g'') ∧
        r.Midway P news m r.launches g g''
      | .error e =>
        ((rest.zipIdx launched.length).forM (r.relaunch news vals)).runOn g' =
          (.error (.abort e), g'') := by
  induction rest generalizing launched g' with
  | nil =>
    rw [append_nil] at hl
    exact ⟨g', rfl, hl ▸ hmid⟩
  | cons l rest ih =>
    obtain ⟨g1, hmid1, hrun⟩ := h.relaunch_run hmid hl hplaces hvals
    have htally : tally (l :: rest) g'.stats = g'.stats.record l.estimate l.vals >>= tally rest :=
      rfl
    have hloop : ((l :: rest).zipIdx launched.length).forM (r.relaunch news vals) = (do
        r.relaunch news vals (l, launched.length)
        (rest.zipIdx (launched ++ [l]).length).forM (r.relaunch news vals)) := by
      rw [length_append, length_singleton]
      rfl
    rw [htally, hloop, runOn_bind, hrun]
    cases g'.stats.record l.estimate l.vals with
    | error e => exact ⟨g1, rfl⟩
    | ok stats =>
      have hmid2 : r.Midway P news m (launched ++ [l]) g { g1 with stats } :=
        ⟨⟨hmid1.ready.devices, hmid1.ready.lasts, hmid1.ready.keeps⟩, hmid1.news,
          hmid1.outputs⟩
      exact ih (by rw [hl, append_assoc]; rfl) hmid2

lemma replay_run (h : r.Sets P f news g₃ g m)
    (hplaces : r.places = placesOf r.launches r.inputs) {vals : Bindings}
    (hvals : r.Agrees vals) (houtput : ∀ c ∈ r.inputs, c.block ≠ r.output.block) : ∃ g'',
      match tally r.launches g.stats with
      | .ok _ => (r.replay news vals).runOn g = (.ok r.output, g'') ∧ r.Ready P g g'' ∧
        g''.memory.bytes r.output = m.bytes r.output
      | .error e => (r.replay news vals).runOn g = (.error (.abort e), g'') := by
  have hmid : r.Midway P news m [] g g :=
    ⟨.refl h.ready.devices, fun _ _ => rfl, by simp [written]⟩
  obtain ⟨g'', hrun⟩ := h.relaunches_run hplaces hvals rfl hmid
  refine ⟨g'', ?_⟩
  rw [replay_eq, runOn_bind, runOn_fallible, h.replaces.alike]
  dsimp only
  rw [runOn_bind]
  cases htally : tally r.launches g.stats with
  | error e =>
    rw [htally] at hrun
    rw [show r.launches.zipIdx = r.launches.zipIdx ([] : List Launch).length from rfl, hrun]
  | ok stats =>
    rw [htally] at hrun
    obtain ⟨hrun, hmid⟩ := hrun
    rw [show r.launches.zipIdx = r.launches.zipIdx ([] : List Launch).length from rfl, hrun]
    exact ⟨rfl, hmid.ready, h.settled hmid mem_cons_self houtput fun _ hc _ => hc⟩

end Sets

namespace Made
section
variable (h : r.Made root items g₁ g₂ g₃) (hP : P g₁.devices)
  (hcomputes : ∀ l ∈ r.launches, l.Computes P (f l)) (hapart : g₂.LoadsApart items r.inputs)
include h hP hcomputes hapart

/-- What computing the tensor on the new contents leaves is what a replay has to leave. -/
lemma sets (hready : r.Ready P g₃ g) (hnews : r.Replaces g news) : ∃ ds m,
    (realize root).runOn
      (g₁.holding (g₁.memory.putAll (r.inputs.zip (news.map g.memory.bytes))))
      = (.ok (), g₃.amid ds m) ∧ r.Sets P f news g₃ g m := by
  have halike := checkInputs_eq_ok.1 hnews.alike
  have hc : Forall₂ (fun b c => c.length = b.room) r.inputs (news.map g.memory.bytes) := by
    rw [forall₂_map_right_iff]
    refine (forall₂_iff_zip.2 ⟨halike.length_eq.symm, fun {old new} hzip => ?_⟩)
    have hsame : Buffer.Alike new old := by
      refine (forall₂_iff_zip.1 halike).2 ?_
      rw [← zip_swap]
      exact mem_map.2 ⟨_, hzip, rfl⟩
    rw [(hnews.held new (of_mem_zip hzip).2).whole, Buffer.room, Buffer.room, hsame.1, hsame.2]
  obtain ⟨ds, m, hrun, htwins, htrace, hinputs⟩ := h.recompute hc hP hcomputes hapart
  refine ⟨ds, m, hrun, hcomputes, hready, hnews, htrace, htwins.count, htwins.rooms, htwins.same,
    fun new old hzip => ?_⟩
  refine hinputs old _ ?_
  rw [zip_map_right, ← zip_swap, map_map]
  exact mem_map.2 ⟨_, hzip, rfl⟩

lemma ready_of_later (hlater : r.Later P g₃ g) : r.Ready P g₃ g := by
  induction hlater with
  | start =>
    have hc : Forall₂ (fun b c => c.length = b.room) r.inputs (r.inputs.map g₁.memory.bytes) :=
      forall₂_map_right_iff.2 (forall₂_same.2 fun b hb => (h.owned b hb).held.whole)
    obtain ⟨_, _, _, htwins, _⟩ := h.recompute hc hP hcomputes hapart
    exact .refl htwins.devices
  | @replay g g' news vals out _ hnews hvals hrun ih =>
    obtain ⟨ds, m, _, hsets⟩ := h.sets hP hcomputes hapart ih hnews
    obtain ⟨g'', hreplay⟩ := hsets.replay_run h.places hvals h.output_ne
    split at hreplay
    · cases hrun.symm.trans hreplay.1
      exact ih.trans hreplay.2.1
    · cases hrun.symm.trans hreplay
  | change _ hready ih => exact ih.trans hready

end

end Made

end Recording

/-- Replay equals recomputation. However often the recording has been replayed, a replay on new
inputs leaves in its output what realizing the tensor gives where the recording began, with the
contents of the inputs replaced. That is the graph before the capture if all inputs had contents
there. Only an overflow of the totals can stop a replay. -/
theorem replay_recomputes {P : List Device → Prop}
    {f : Launch → List (List UInt8) → List UInt8} {root : Nat} {xs : List Nat} {r : Recording}
    {g g₁ g₂ g₃ g' : Graph} {items : List Item} {news : List Buffer} {vals : Bindings}
    (hg : Used g) (hcapture : (capture root xs).runOn g = (.ok r, g₃))
    (hinputs : (recordInputs xs []).runOn g = (.ok r.inputs, g₁))
    (hitems : (schedule root).runOn g₁ = (.ok items, g₂))
    (hapart : g₂.LoadsApart items r.inputs) (hP : P g₁.devices)
    (hcomputes : ∀ l ∈ r.launches, l.Computes P (f l)) (hlater : r.Later P g₃ g')
    (hnews : r.Replaces g' news) (hvals : r.Agrees vals) :
    ((∀ x ∈ xs, g.isRealized x = .ok true) → g₁ = g) ∧
    ∃ g₄, (realize root).runOn
      (g₁.holding (g₁.memory.putAll (r.inputs.zip (news.map g'.memory.bytes))))
        = (.ok (), g₄) ∧ g₄.realized? root = .ok (some r.output) ∧
      ∃ g'', match Recording.tally r.launches g'.stats with
        | .ok _ => (r.replay news vals).runOn g' = (.ok r.output, g'') ∧
          g''.memory.bytes r.output = g₄.memory.bytes r.output
        | .error e => (r.replay news vals).runOn g' = (.error (.abort e), g'') := by
  obtain ⟨hsound, hhandled⟩ := hg.tracked
  have hmade := made_of_capture hsound hhandled hcapture hinputs hitems
  refine ⟨fun hall => recordInputs_realized hall hinputs, ?_⟩
  have hready := hmade.ready_of_later hP hcomputes hapart hlater
  obtain ⟨ds, m, hrun, hsets⟩ := hmade.sets hP hcomputes hapart hready hnews
  obtain ⟨g'', hreplay⟩ := hsets.replay_run hmade.places hvals hmade.output_ne
  refine ⟨_, hrun, hmade.output, g'', ?_⟩
  split at hreplay
  · exact ⟨hreplay.1, hreplay.2.2⟩
  · exact hreplay

/-- A test that a recording of interpreted launches can be replayed on these inputs. -/
def Recording.repeats (r : Recording) (name : String) (g : Graph) (news : List Buffer) : Bool :=
  r.launches.all (·.runsOn name) && (r.checkInputs news).isOk &&
    (news.all fun b => b.block < g.memory.blocks.length && (g.memory.bytes b).length == b.room &&
      (written r.launches).all (b.block != ·.block)) &&
    (tally r.launches g.stats).isOk

lemma Recording.of_repeats {name : String}
    (h : r.repeats name g news) :
    (∀ l ∈ r.launches, l.Computes (Device.Interprets name) l.interpret) ∧
      r.Replaces g news ∧
      ∃ totals, tally r.launches g.stats = .ok totals := by
  simp only [repeats, Bool.and_eq_true, all_eq_true, beq_iff_eq, decide_eq_true_eq, bne_iff_ne] at h
  obtain ⟨⟨⟨hlaunches, halike⟩, hnews⟩, htally⟩ := h
  refine ⟨fun l hl => computes_of_runsOn (hlaunches l hl),
    ⟨?_, fun b hb => ?_, fun b hb => ?_⟩, ?_⟩
  · cases hcheck : r.checkInputs news with
    | error e => simp [hcheck, Except.isOk, Except.toBool] at halike
    | ok u => rfl
  · exact ⟨(hnews b hb).1.1, (hnews b hb).1.2⟩
  · exact (hnews b hb).2
  · cases htotals : tally r.launches g.stats with
    | error e => simp [htotals, Except.isOk, Except.toBool] at htally
    | ok totals => exact ⟨totals, rfl⟩

def matrix (block : Nat) : Buffer := { element := .int8, size := 4, device := some "CPU", block }

def transposed : Graph :=
  [.bytes "CPU" [2, 2] .int8 [1, 2, 3, 4],
   .call (.move (.permute [1, 0]) 0),
   .contiguous 1,
   .call (.elementwise (.unary .neg) [2] .none),
   .bytes "CPU" [2, 2] .int8 [5, 6, 7, 8]].foldl
    (fun g (r : Request) => (r.perform.runOn g).2) {}

/-- The recorded launches, a copy and a negation, give the negated transpose of the other matrix. -/
theorem transposed_replayed : ∃ r g₃ g₄ g'',
    (capture 3 [0]).runOn transposed = (.ok r, g₃) ∧
    (realize 3).runOn (transposed.holding (transposed.memory.putAll [(matrix 0, [5, 6, 7, 8])]))
      = (.ok (), g₄) ∧
    (r.replay [matrix 1] []).runOn g₃ = (.ok r.output, g'') ∧
    g''.memory.bytes r.output = g₄.memory.bytes r.output := by
  have hused : Used transposed :=
    (((((Used.start _).request _).request _).request _).request _).request _
  have hcheck : (((capture 3 [0]).runOn transposed).1.toOption.any fun r =>
      r.inputs == [matrix 0] && r.repeats "CPU"
        ((capture 3 [0]).runOn transposed).2 [matrix 1]) := by
    decide +kernel
  have hkinds : (((schedule 3).runOn transposed).1.toOption.any fun items =>
      items.all fun item => item.tree.op.kind != .load) := by decide +kernel
  have hcontents : ((capture 3 [0]).runOn transposed).2.memory.bytes (matrix 1) = [5, 6, 7, 8] := by
    decide +kernel
  have hrealized : ∀ x ∈ [0], transposed.isRealized x = .ok true := by decide +kernel
  have hdevice : Device.Interprets "CPU" transposed.devices :=
    Device.interprets_of_any (by decide +kernel)
  obtain ⟨r, hr, hrepeats⟩ := exists_of_any hcheck
  cases hcapture : (capture 3 [0]).runOn transposed with
  | mk result g₃ =>
    rw [hcapture] at hr hrepeats hcontents
    dsimp only at hr hrepeats hcontents
    subst hr
    simp only [Bool.and_eq_true, beq_iff_eq] at hrepeats
    obtain ⟨hinput, hrepeats⟩ := hrepeats
    obtain ⟨hcomputes, hnews, totals, htotals⟩ := Recording.of_repeats hrepeats
    obtain ⟨g₁, items, g₂, _, hinputs, hitems, _⟩ := capture_eq_ok hcapture
    obtain rfl := recordInputs_realized hrealized hinputs
    have hapart : g₂.LoadsApart items r.inputs := by
      obtain ⟨items', hitems', hkinds⟩ := exists_of_any hkinds
      rw [hitems] at hitems'
      cases hitems'
      refine .of_kernels fun item hitem => ?_
      simpa using List.all_eq_true.1 hkinds item hitem
    have hvals : r.Agrees [] := fun _ _ _ _ => rfl
    obtain ⟨-, g₄, hmeaning, _, g'', hreplay⟩ :=
      replay_recomputes hused hcapture hinputs hitems hapart hdevice hcomputes .start hnews hvals
    rw [hinput, List.map_singleton, hcontents] at hmeaning
    rw [htotals] at hreplay
    exact ⟨r, g₃, g₄, g'', rfl, hmeaning, hreplay⟩

/-- The transpose of a matrix where the matrix is zero, and elsewhere the negated transpose. Two
more matrices can stand in for the first one and for the negated transpose. -/
def partlyNegated : Graph :=
  [.bytes "CPU" [2, 2] .int8 [1, 0, 2, 3],
   .call (.move (.permute [1, 0]) 0),
   .contiguous 1,
   .call (.elementwise (.unary .neg) [2] .none),
   .contiguous 3,
   .call (.elementwise (.ternary .select) [0, 3, 2] .none),
   .bytes "CPU" [2, 2] .int8 [0, 5, 6, 7],
   .bytes "CPU" [2, 2] .int8 [0, 250, 251, 249]].foldl
    (fun g (r : Request) => (r.perform.runOn g).2) {}

/-- The capture computes the negated transpose, its second input, before it records anything. The
transpose itself is computed on the way there, so no launch computes it again: on the new matrix a
replay takes the zero from the old transpose. -/
theorem partlyNegated_stale : ∃ r g₃ g₄ g'',
    (capture 5 [0, 3]).runOn partlyNegated = (.ok r, g₃) ∧
    (∀ l ∈ r.launches, l.Computes (Device.Interprets "CPU") l.interpret) ∧
    r.Replaces g₃ [matrix 1, matrix 2] ∧
    (realize 5).runOn (partlyNegated.holding
      (partlyNegated.memory.putAll [(matrix 0, g₃.memory.bytes (matrix 1))])) = (.ok (), g₄) ∧
    (r.replay [matrix 1, matrix 2] []).runOn g₃ = (.ok r.output, g'') ∧
    g₄.realized? 3 = .ok (some (matrix 4)) ∧ g₄.memory.bytes (matrix 4) =
      g₃.memory.bytes (matrix 2) ∧
    g₄.realized? 5 = .ok (some (matrix 5)) ∧ g₄.memory.bytes (matrix 5) =
      [0, 250, 251, 249] ∧
    g''.memory.bytes r.output = [1, 250, 251, 249] := by
  have hcheck : (((capture 5 [0, 3]).runOn partlyNegated).1.toOption.any fun r =>
      r.repeats "CPU" ((capture 5 [0, 3]).runOn partlyNegated).2 [matrix 1, matrix 2] &&
      ((r.replay [matrix 1, matrix 2] []).runOn
        ((capture 5 [0, 3]).runOn partlyNegated).2).1.toOption == some r.output &&
      ((r.replay [matrix 1, matrix 2] []).runOn
        ((capture 5 [0, 3]).runOn partlyNegated).2).2.memory.bytes r.output ==
          [1, 250, 251, 249]) := by
    decide +kernel
  have hcontents : ((capture 5 [0, 3]).runOn partlyNegated).2.memory.bytes (matrix 1) =
      [0, 5, 6, 7] ∧
      ((capture 5 [0, 3]).runOn partlyNegated).2.memory.bytes (matrix 2) = [0, 250, 251, 249] := by
    decide +kernel
  have hmeaning : ((realize 5).runOn (partlyNegated.holding
      (partlyNegated.memory.putAll [(matrix 0, [0, 5, 6, 7])]))).1.toOption = some () := by
    decide +kernel
  have hresults : ∀ g₄, ((realize 5).runOn (partlyNegated.holding
      (partlyNegated.memory.putAll [(matrix 0, [0, 5, 6, 7])]))).2 = g₄ →
      g₄.realized? 3 = .ok (some (matrix 4)) ∧ g₄.memory.bytes (matrix 4) =
        [0, 250, 251, 249] ∧
      g₄.realized? 5 = .ok (some (matrix 5)) ∧ g₄.memory.bytes (matrix 5) =
        [0, 250, 251, 249] := by
    rintro _ rfl
    decide +kernel
  obtain ⟨r, hr, hrepeats⟩ := exists_of_any hcheck
  obtain ⟨g₄, hrealize⟩ := runOn_of_toOption hmeaning
  cases hcapture : (capture 5 [0, 3]).runOn partlyNegated with
  | mk result g₃ =>
    rw [hcapture] at hr hrepeats hcontents
    dsimp only at hr hrepeats hcontents
    subst hr
    simp only [Bool.and_eq_true, beq_iff_eq] at hrepeats
    obtain ⟨⟨hrepeats, hreplay⟩, hbytes⟩ := hrepeats
    obtain ⟨hcomputes, hnews, _⟩ := Recording.of_repeats hrepeats
    obtain ⟨g'', hreplay⟩ := runOn_of_toOption hreplay
    obtain ⟨hsecond, hnegated, hroot, hmeant⟩ := hresults g₄ (by rw [hrealize])
    rw [hreplay] at hbytes
    rw [← hcontents.1] at hrealize
    rw [← hcontents.2] at hnegated
    exact ⟨r, g₃, g₄, g'', rfl, hcomputes, hnews, hrealize, hreplay, hsecond, hnegated, hroot,
      hmeant, hbytes⟩

end LazyTensor
