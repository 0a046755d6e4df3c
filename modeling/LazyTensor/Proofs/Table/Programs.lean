import LazyTensor.Proofs.Table.Meaning

/-! Calls give the arrays that they ask for. -/
namespace LazyTensor
open Checked GraphM Reading List Option LazyTensor.Graph

section
variable {X : Type} [Inhabited X] (S : Scalars X)

def Call.value (val : Nat → Table X) : Call → Table X
  | elementwise op srcs arg => Table.zip (S.apply op arg) (srcs.map val)
  | reduce op x s => (val x).reduce S op s
  | move m x => (val x).move m

variable {S}

lemma Call.value_congr {val val' : Nat → Table X} {c : Call} {known : Nat → List Int → Prop}
    {ds : List Int} (hc : c.Typed True known ds) (h : ∀ {x ds}, known x ds → val x = val' x) :
    c.value S val = c.value S val' := by
  cases c with
  | elementwise op _ arg => rw [value, value, map_congr_left fun x hx => h (hc x hx)]
  | reduce op x s | move m x =>
    obtain ⟨es, hx, _⟩ := hc
    rw [value, value, h hx]

end

/-- The graphs that loads of known shapes and calls in bounds lead to, whether they are granted or
fail. The movements among the calls are reshapes, expands, permutes and shrinks, no pads and no
strides. -/
inductive Built : Graph → Prop
  | start (config : Config) : Built { config }
  | load {g : Graph} (h : Built g) (op : LoadOp) (shape : Shape) (element : Element)
      (device : String) (arg : OpArg) (vals : Bindings) (hs : ∃ ds, shape.Sized ds) :
      Built ((Graph.load op shape element device arg none vals).runOn g).2
  | bytes {g : Graph} (h : Built g) (device : String) (shape : List Int) (element : Element)
      (contents : List UInt8) (hs : Extents shape) :
      Built ((Graph.ofBytes device shape element contents).runOn g).2
  | call {g : Graph} (h : Built g) (c : Call) {ds : List Int} (hc : c.Typed True g.Dims ds) :
      Built ((Graph.perform c).runOn g).2
  | contiguous {g : Graph} (h : Built g) (x : Nat) : Built ((Graph.contiguous x).runOn g).2
  | surroundings {g : Graph} (h : Built g) (devices : List Device) (stats : Stats)
      (memory : Memory) : Built { g with devices, stats, memory }

section
variable {X : Type} [Inhabited X] {S : Scalars X} {contents contents' : Nat → Table X}
  {data : Nat → List Int → X} {g g' : Graph} {x id : Nat} {t : Tensor} {ds : List Int}
variable {element : Element} {device : String}

lemma Reading.Sound.reread (hg : (tables S contents).Sound g) : (tables S contents').Sound g :=
  .weaken (R := tables S contents) (fun _ => trivial) (fun _ => trivial) (fun _ _ _ h => h) hg

lemma Built.sound (h : Built g) : (tables S contents).Sound g ∧ g.Uncomputed := by
  induction h with
  | start config => exact ⟨.empty _ config, by intro key id t hk; cases hk⟩
  | @load g _ op shape element device arg vals hs ih =>
    have hk : (tables S contents).Keeps g
        ((Graph.load op shape element device arg none vals).runOn g).2 :=
      (load_yields ih.1 (fun _ => hs) (by simp)).step
    exact ⟨hk.sound, hk.uncomputed ih.1 ih.2⟩
  | @bytes g _ device shape element bytes hs ih =>
    have hk : (tables S contents).Fills g ((ofBytes device shape element bytes).runOn g).2 :=
      (ofBytes_yields ih.1 fun _ => hs).step
    exact ⟨hk.sound, hk.uncomputed ih.1 ih.2⟩
  | call _ c hc ih =>
    have hk :=
      (perform_performs _ c ih.1 (fun _ => ⟨_, hc⟩) fun _ => .all (fun _ _ => trivial) c).step
    exact ⟨hk.sound, hk.uncomputed ih.1 ih.2⟩
  | contiguous _ x ih =>
    have hk := (contiguous_yields (x := x) ih.1).step
    exact ⟨hk.sound, hk.uncomputed ih.1 ih.2⟩
  | surroundings _ _ _ _ ih => exact ⟨ih.1.same rfl rfl, ih.2⟩

/-- The graph grew, and nothing in it was computed. -/
structure Grown (S : Scalars X) (g g' : Graph) : Prop where
  grows : g.Extends g'
  sound : ∀ contents, (tables S contents).Sound g'
  uncomputed : g'.Uncomputed

lemma Grown.denote (h : Grown S g g') (hg : (tables S contents).Sound g) (hx : g.Has x)
    (data : Nat → List Int → X) : g'.denote S data x = g.denote S data x :=
  denote_extends hg (h.sound contents) h.grows hx

lemma Grown.trans {g'' : Graph} (h : Grown S g g') (h' : Grown S g' g'') : Grown S g g'' :=
  ⟨h.grows.trans h'.grows, h'.sound, h'.uncomputed⟩

section
variable (hg : (tables S contents).Sound g) (hu : g.Uncomputed)
include hg hu

lemma grown_of_keeps {m : GraphM Nat} {Q : (Nat → Table X) → Nat → Graph → Prop}
    (h : ∀ contents, Yields (tables S contents).Keeps g m (Q contents))
    (hrun : m.runOn g = (.ok id, g')) : Grown S g g' ∧ ∀ data, Q (g'.contents data) id g' ∧
      (tables S (g'.contents data)).Denotes g' (g'.denote S data) := by
  have hk (contents : Nat → Table X) := ((h contents).of_ok hrun).1
  have hu' := (hk contents).uncomputed hg hu
  refine ⟨⟨(hk contents).grows, fun _ => (hk _).sound, hu'⟩, fun data =>
    ⟨((h _).of_ok hrun).2, ?_⟩⟩
  exact denotes (hk contents).sound hu'

lemma perform_denotes {c : Call}
    (hc : c.Typed True g.Dims ds) (hrun : (perform c).runOn g = (.ok id, g')) :
    Grown S g g' ∧ g'.Dims id ds ∧ ∀ data, g'.denote S data id =
      c.value S (g.denote S data) := by
  obtain ⟨hgrown, hq⟩ := grown_of_keeps hg hu
    (fun _ => perform_performs g c hg.reread (fun _ => ⟨ds, hc⟩) fun _ =>
      .all (fun _ _ => trivial) c) hrun
  refine ⟨hgrown, (hq fun _ _ => default).1.dims ds trivial hc, fun data => ?_⟩
  obtain ⟨hgives, hv⟩ := hq data
  have hcall : (tables S (g'.contents data)).call (g'.denote S data) c =
      c.value S (g'.denote S data) := by
    cases c <;> rfl
  refine ((hgives.value _ hv).trans hcall).trans (Call.value_congr hc fun ⟨t, ht, _⟩ => ?_)
  exact hgrown.denote hg ⟨t, ht⟩ data

lemma view_entry {b : Nat} {p : List Int}
    (ht : g.find? id = some t) (hb : t.base = some b) (hp : Shape.Inside (g.dimsOf id) p)
    (data : Nat → List Int → X) : t.layout.offsetOf p = .error .arithmetic ∨
      ∃ x, t.layout.offsetOf p = .ok (some x) ∧
        (g.denote S data id).entry p = (g.denote S data b).entry (Shape.place (g.dimsOf b) x) := by
  have hat := hg.at_id ht
  obtain ⟨ds, hl⟩ := hat.plain trivial
  obtain ⟨_, tb, htb, _⟩ := hat.base b hb
  obtain ⟨bs, hbs⟩ := (hg.at_id htb).plain trivial
  have hdims {id t ds} (ht : g.find? id = some t) (hs : t.shape.Sized ds) : g.dimsOf id = ds := by
    rw [dimsOf, ht, map_some, getD_some, hs.dims]
  have hvals : (tables S (g.contents data)).Denotes g (g.denote S data) := denotes hg hu
  have hfits := hvals.fits trivial htb hbs.1
  rw [hdims ht hl.1] at hp
  obtain hstop | ⟨x, hx, hplace⟩ := (hl.plain trivial).offsetOf p
  · exact .inl hstop
  refine .inr ⟨x, hx, ?_⟩
  rw [denote_view hg ht hb, Table.look_entry hl.1 hp, hplace, elim_some, hdims htb hbs.1, hfits.1]

end

lemma has_of_contiguous (hrun : (contiguous x).runOn g = (.ok id, g')) : g.Has x := by
  obtain ⟨t, g1, hlookup, _⟩ := runOn_bind_eq_ok.1 hrun
  exact ⟨t, named_eq_ok.1 (Prod.mk.inj hlookup).1⟩

lemma contiguous_denotes (hg : (tables S contents).Sound g) (hu : g.Uncomputed)
    (hrun : (contiguous x).runOn g = (.ok id, g')) :
    Grown S g g' ∧ (∀ ds, g.Dims x ds → g'.Dims id ds) ∧
      ∀ data, g'.denote S data id = g.denote S data x := by
  obtain ⟨hgrown, hq⟩ :=
    grown_of_keeps hg hu (fun contents => contiguous_yields (hg.reread)) hrun
  refine ⟨hgrown, fun ds hd => (hq fun _ _ => default).1.dims ds trivial (hgrown.grows.dims hd),
    fun data => ?_⟩
  obtain ⟨hstands, hv⟩ := hq data
  exact (hstands.value _ hv).trans (hgrown.denote hg (has_of_contiguous hrun) data)

lemma load_denotes {op : LoadOp} {shape : Shape} {arg : OpArg} {vals : Bindings}
    (hop : isShared (.load op) = false) (hs : shape.Sized ds) (hg : (tables S contents).Sound g)
    (hu : g.Uncomputed)
    (hrun : (Graph.load op shape element device arg none vals).runOn g = (.ok id, g')) :
    Grown S g g' ∧ g'.Dims id ds ∧ id = g.tensors.length ∧
      ∀ data, g'.denote S data id = .tabulate ds (data id) := by
  obtain ⟨hgrown, hq⟩ := grown_of_keeps hg hu
    (fun contents => load_fresh hop hg.reread fun _ => ⟨ds, hs⟩) hrun
  obtain ⟨rfl, t, ht, rfl, hb, htree⟩ := (hq fun _ _ => default).1
  refine ⟨hgrown, ⟨t, ht, hs⟩, rfl, fun data => ?_⟩
  rw [denote_own (hgrown.sound contents) ht hb htree]
  have hcontents : g'.contents data g.tensors.length = .tabulate ds (data g.tensors.length) := by
    rw [Graph.contents, Graph.dimsOf, ht, Option.map_some, Option.getD_some, hs.dims]
  rw [← hcontents]
  cases op <;> rfl

lemma ofBytes_denotes {shape : List Int} {bytes : List UInt8} (hs : Extents shape)
    (hg : (tables S contents).Sound g) (hu : g.Uncomputed)
    (hrun : (ofBytes device shape element bytes).runOn g = (.ok id, g')) :
    Grown S g g' ∧ g'.Dims id shape ∧ id = g.tensors.length ∧
      ∀ data, g'.denote S data id = .tabulate shape (data id) := by
  obtain ⟨hk, rfl, t, ht, hshape, hb, hop⟩ := (ofBytes_yields hg fun _ => hs).of_ok hrun
  have hsized : t.shape.Sized shape := ⟨hshape, hs⟩
  refine ⟨⟨hk.grows, fun _ => hk.sound.reread, hk.uncomputed hg hu⟩, ⟨t, ht, hsized⟩, rfl,
    fun data => ?_⟩
  rw [denote_given ht hb hop, Graph.contents, Graph.dimsOf, ht, Option.map_some, Option.getD_some,
    hsized.dims]

end

/-! Programs. A number in a statement names the result of the statement at that position. -/

def Call.rename (f : Nat → Nat) : Call → Call
  | elementwise op srcs arg => elementwise op (srcs.map f) arg
  | reduce op x s => reduce op (f x) s
  | move m x => move m (f x)

lemma Call.Typed.rename {exact : Prop} {known : Nat → List Int → Prop}
    {f : Nat → Nat} {c : Call} {ds : List Int} (h : c.Typed exact (fun k => known (f k)) ds) :
    (c.rename f).Typed exact known ds := by
  cases c with
  | elementwise op _ arg => simpa [Call.rename, Call.Typed] using h
  | reduce op x s | move m x => exact h

inductive Statement
  | load (op : LoadOp) (shape : Shape) (element : Element) (device : String) (arg : OpArg)
      (vals : Bindings)
  | bytes (device : String) (shape : List Int) (element : Element) (contents : List UInt8)
  | call (c : Call)
  | contiguous (x : Nat)

namespace Statement

def run (ids : List Nat) : Statement → GraphM Nat
  | load op shape element device arg vals => Graph.load op shape element device arg none vals
  | bytes device shape element contents => Graph.ofBytes device shape element contents
  | call c => Graph.perform (c.rename (ids.getD · 0))
  | contiguous x => Graph.contiguous (ids.getD x 0)

def runAll : List Statement → List Nat → GraphM (List Nat)
  | [], ids => pure ids
  | s :: ss, ids => do runAll ss (ids ++ [← s.run ids])

/-- Arguments are in bounds and the result has these dimensions, given those of earlier results.
Each load is a tensor of its own, and no movement is a pad or a stride. -/
def Typed (dss : List (List Int)) (ds : List Int) : Statement → Prop
  | load op shape _ _ _ _ => GraphM.isShared (.load op) = false ∧ shape.Sized ds
  | bytes _ shape _ _ => shape = ds ∧ Extents ds
  | call c => c.Typed True (fun k ds => dss[k]? = some ds) ds
  | contiguous x => dss[x]? = some ds

def TypedAll : List (List Int) → List Statement → Prop
  | _, [] => True
  | dss, s :: ss => ∃ ds, s.Typed dss ds ∧ TypedAll (dss ++ [ds]) ss

section
variable {X : Type} [Inhabited X] (S : Scalars X) (input : Nat → List Int → X)

/-- The array that a statement asks for, given those of earlier ones. Statement `k` loads
`input k`. -/
def value (vals : List (Table X)) : Statement → Table X
  | load _ shape _ _ _ _ => .tabulate (shape.ints?.getD []) (input vals.length)
  | bytes _ shape _ _ => .tabulate shape (input vals.length)
  | call c => c.value S (fun k => vals.getD k ⟨[], fun _ => default⟩)
  | contiguous x => vals.getD x ⟨[], fun _ => default⟩

def values : List Statement → List (Table X) → List (Table X)
  | [], vals => vals
  | s :: ss, vals => values ss (vals ++ [s.value S input vals])

end

section
variable {X : Type} [Inhabited X] {S : Scalars X} {contents : Nat → Table X} {g g' : Graph}
  {s : Statement} {ss : List Statement} {ids all : List Nat} {id : Nat} {ds : List Int}
  {dss : List (List Int)}

lemma run_denotes (hs : s.Typed dss ds) (hg : (tables S contents).Sound g) (hu : g.Uncomputed)
    (hids : Forall₂ g.Dims ids dss) (hrun : (s.run ids).runOn g = (.ok id, g')) :
    Grown S g g' ∧ g'.Dims id ds ∧ ∀ data input,
      ((∀ y ∈ ids, y ≠ id) → data id = input ids.length) →
      g'.denote S data id = s.value S input (ids.map (g.denote S data)) := by
  have hknown : ∀ {k ds}, dss[k]? = some ds → g.Dims (ids.getD k 0) ds := by
    intro k ds hk
    obtain ⟨hlt, rfl⟩ := List.getElem?_eq_some_iff.1 hk
    have hk' : k < ids.length := hids.length_eq ▸ hlt
    rw [getD_eq_getElem _ _ hk']
    exact (forall₂_iff_get.1 hids).2 k hk' hlt
  have hval {k ds} (data : Nat → List Int → X) (hk : dss[k]? = some ds) :
      g.denote S data (ids.getD k 0) = (ids.map (g.denote S data)).getD k
        ⟨[], fun _ => default⟩ := by
    have hk' : k < ids.length := hids.length_eq ▸ (List.getElem?_eq_some_iff.1 hk).1
    rw [Movement.getD_map_lt hk' (a := 0)]
  have hfresh (hid : id = g.tensors.length) : ∀ y ∈ ids, y ≠ id := by
    rintro y hy rfl
    obtain ⟨k, hk, rfl⟩ := getElem_of_mem hy
    obtain ⟨t, ht, _⟩ := (forall₂_iff_get.1 hids).2 k hk (hids.length_eq ▸ hk)
    exact (lt_of_find? ht).ne hid
  cases s with
  | load op shape element device arg _ =>
    obtain ⟨hgrown, hd, hid, hden⟩ := load_denotes hs.1 hs.2 hg hu hrun
    refine ⟨hgrown, hd, fun data input hdata => ?_⟩
    rw [hden, hdata (hfresh hid), value, hs.2.dims, length_map]
  | bytes device shape element contents =>
    obtain ⟨rfl, hs⟩ := hs
    obtain ⟨hgrown, hd, hid, hden⟩ := ofBytes_denotes hs hg hu hrun
    refine ⟨hgrown, hd, fun data input hdata => ?_⟩
    rw [hden, hdata (hfresh hid), value, length_map]
  | call c =>
    have hs : c.Typed True (fun k ds => dss[k]? = some ds) ds := hs
    have hc : (c.rename (ids.getD · 0)).Typed True g.Dims ds := (hs.imp hknown).rename
    obtain ⟨hgrown, hd, hden⟩ := perform_denotes hg hu hc hrun
    refine ⟨hgrown, hd, fun data input _ => ?_⟩
    rw [hden, value, ← Call.value_congr hs fun hk => hval data hk]
    cases c with
    | elementwise op _ arg => rw [Call.rename, Call.value, Call.value, List.map_map]; rfl
    | reduce op x s | move m x => rfl
  | contiguous x =>
    obtain ⟨hgrown, hd, hden⟩ := contiguous_denotes hg hu hrun
    refine ⟨hgrown, hd ds (hknown hs), fun data input _ => ?_⟩
    rw [hden, value, ← hval data hs]

/-- A program gives the arrays that it asks for. -/
lemma runAll_denotes (hss : TypedAll dss ss) (hg : (tables S contents).Sound g) (hu : g.Uncomputed)
    (hids : Forall₂ g.Dims ids dss) (hrun : (runAll ss ids).runOn g = (.ok all, g')) :
    (∃ rest, all = ids ++ rest) ∧ Grown S g g' ∧ ∀ input, all.map (g'.denote S (fun id =>
      input (all.idxOf id))) = values S input ss (ids.map (g.denote S
        (fun id => input (all.idxOf id)))) := by
  induction ss generalizing ids dss g with
  | nil =>
    obtain ⟨hids', rfl⟩ := Prod.mk.inj hrun
    cases hids'
    exact ⟨⟨[], by simp⟩, ⟨.refl g, fun _ => hg.reread, hu⟩, fun _ => rfl⟩
  | cons s ss ih =>
    obtain ⟨ds, hs, hss⟩ := hss
    obtain ⟨id, g1, hrun1, hrun⟩ := runOn_bind_eq_ok.1 hrun
    obtain ⟨hgrown, hd, hden⟩ := run_denotes hs hg hu hids hrun1
    have hids1 : Forall₂ g1.Dims (ids ++ [id]) (dss ++ [ds]) :=
      rel_append (hids.imp fun _ _ h => hgrown.grows.dims h) (.cons hd .nil)
    obtain ⟨⟨rest, hall⟩, hgrown', hvals⟩ :=
      ih hss (hgrown.sound contents) hgrown.uncomputed hids1 hrun
    refine ⟨⟨id :: rest, by rw [hall, append_assoc]; rfl⟩, hgrown.trans hgrown',
      fun input => ?_⟩
    have hdata : (∀ y ∈ ids, y ≠ id) → input (all.idxOf id) = input ids.length := by
      intro hnew
      rw [hall, append_assoc, idxOf_append_of_notMem fun h => hnew id h rfl]
      simp
    have hold : ids.map (g1.denote S fun id => input (all.idxOf id)) =
        ids.map (g.denote S fun id => input (all.idxOf id)) := by
      refine map_congr_left fun y hy => hgrown.denote hg ?_ _
      obtain ⟨k, hk, rfl⟩ := getElem_of_mem hy
      obtain ⟨t, ht, _⟩ := (forall₂_iff_get.1 hids).2 k hk (hids.length_eq ▸ hk)
      exact ⟨t, ht⟩
    rw [hvals, values, map_append, hold, map_singleton, hden _ input hdata]

end

end Statement

/-- Rewriting keeps meaning. A call on a graph that was built by calls gives the array that it asks
for and changes no other, a view shows its base at the offsets of its layout, and a program gives
the arrays that it asks for under all configurations. -/
theorem calls_keep_meaning {X : Type} [Inhabited X] (S : Scalars X) : (∀ {g}, Built g →
      (∀ {c ds id g'}, c.Typed True g.Dims ds → (Graph.perform c).runOn g = (.ok id, g') →
        g'.Dims id ds ∧ ∀ data, g'.denote S data id = c.value S (g.denote S data) ∧
          ∀ x, g.Has x → g'.denote S data x = g.denote S data x) ∧
      (∀ {x id g'}, (Graph.contiguous x).runOn g = (.ok id, g') →
        (∀ ds, g.Dims x ds → g'.Dims id ds) ∧ ∀ data, g'.denote S data id =
          g.denote S data x ∧
          ∀ y, g.Has y → g'.denote S data y = g.denote S data y) ∧
      ∀ {id t b p}, g.find? id = some t → t.base = some b → Shape.Inside (g.dimsOf id) p →
        ∀ data, t.layout.offsetOf p = .error .arithmetic ∨
          ∃ x, t.layout.offsetOf p = .ok (some x) ∧
          (g.denote S data id).entry p = (g.denote S data b).entry (Shape.place (g.dimsOf b) x)) ∧
    ∀ {ss}, Statement.TypedAll [] ss → (∀ {config devices stats memory ids g},
        (Statement.runAll ss []).runOn { config, devices, stats, memory } = (.ok ids, g) →
        ∀ input, ids.map (g.denote S fun id => input (ids.idxOf id)) =
          Statement.values S input ss []) ∧
      ∀ {config config' ids ids' g g'}, (Statement.runAll ss []).runOn { config } =
        (.ok ids, g) →
        (Statement.runAll ss []).runOn { config := config' } = (.ok ids', g') →
        ∀ input : Nat → List Int → X, ids.map (g.denote S fun id => input (ids.idxOf id)) =
          ids'.map (g'.denote S fun id => input (ids'.idxOf id)) := by
  have hsound {g} (h : Built g) : (tables S (g.contents fun _ _ => default)).Sound g ∧
      g.Uncomputed :=
    h.sound
  have hprogram {ss} (hss : Statement.TypedAll [] ss) {config devices stats memory ids g}
      (hrun : (Statement.runAll ss []).runOn { config, devices, stats, memory } = (.ok ids, g))
      (input : Nat → List Int → X) :
      ids.map (g.denote S fun id => input (ids.idxOf id)) = Statement.values S input ss [] := by
    obtain ⟨hsound, hu⟩ := hsound ((Built.start config).surroundings devices stats memory)
    exact (Statement.runAll_denotes hss hsound hu .nil hrun).2.2 input
  refine ⟨fun {g} hbuilt => ?_, fun hss =>
    ⟨fun hrun => hprogram hss hrun, fun hrun hrun' input => ?_⟩⟩
  · obtain ⟨hsound, hu⟩ := hsound hbuilt
    refine ⟨fun hc hrun => ?_, fun hrun => ?_, view_entry hsound hu⟩
    · obtain ⟨hgrown, hd, hden⟩ := perform_denotes hsound hu hc hrun
      exact ⟨hd, fun data => ⟨hden data, fun x hx => hgrown.denote hsound hx data⟩⟩
    · obtain ⟨hgrown, hd, hden⟩ := contiguous_denotes hsound hu hrun
      exact ⟨hd, fun data => ⟨hden data, fun y hy => hgrown.denote hsound hy data⟩⟩
  · rw [hprogram hss hrun, hprogram hss hrun']

def Scalars.sums : Scalars Int where
  apply _ _ xs := xs.sum
  apply_congr _ := rfl
  monoid _ := inferInstance

def turnedSum : List Statement :=
  [.bytes "CPU" [2, 3] .float32 (List.replicate 24 0),
   .call (.elementwise (.unary .neg) [0] .none),
   .call (.move (.permute [1, 0]) 1),
   .call (.reduce .sum 2 [.num 3, .num 1]),
   .contiguous 3]

lemma turnedSum_typed : Statement.TypedAll [] turnedSum := by
  refine ⟨[2, 3], ⟨rfl, by decide⟩, [2, 3], by simp [Statement.Typed, Call.Typed], [3, 2],
    ⟨[2, 3], rfl, .of_takes ⟨by decide, rfl⟩, by decide⟩, [3, 1],
    ⟨[3, 2], rfl, ⟨rfl, by decide⟩, ?_⟩,
    [3, 1], rfl, trivial⟩
  exact .cons (.inl rfl) (.cons (.inr rfl) .nil)

/-- Turning before negating makes other tensors, and the same arrays. -/
theorem turnedSum_keeps_meaning :
    (∃ ids ids' g g', (Statement.runAll turnedSum []).runOn { config := .ofLevel 0 } =
      (.ok ids, g) ∧
      (Statement.runAll turnedSum []).runOn { config := .ofLevel 3 } = (.ok ids', g') ∧
      ids = [0, 1, 2, 3, 4] ∧ ids' = [0, 1, 3, 4, 5] ∧ ∀ input : Nat → List Int → Int,
        ids.map (g.denote .sums fun id => input (ids.idxOf id)) =
          ids'.map (g'.denote .sums fun id => input (ids'.idxOf id))) ∧
    ∃ g g', (Graph.ofBytes "CPU" [2, 3] .float32 (List.replicate 24 0)).runOn {} = (.ok 0, g) ∧
      (Graph.perform (.move (.permute [1, 0]) 0)).runOn g = (.ok 1, g') ∧
      ∀ data, g'.denote .sums data 1 = (g.denote .sums data 0).move (.permute [1, 0]) := by
  have hrun : ((Statement.runAll turnedSum []).runOn { config := .ofLevel 0 }).1.toOption =
      some [0, 1, 2, 3, 4] := by decide +kernel
  have hrun' : ((Statement.runAll turnedSum []).runOn { config := .ofLevel 3 }).1.toOption =
      some [0, 1, 3, 4, 5] := by decide +kernel
  obtain ⟨g, h⟩ := runOn_of_toOption hrun
  obtain ⟨g', h'⟩ := runOn_of_toOption hrun'
  obtain ⟨hcalls, hprograms⟩ := calls_keep_meaning Scalars.sums
  refine ⟨⟨_, _, g, g', h, h', rfl, rfl, (hprograms turnedSum_typed).2 h h'⟩, ?_⟩
  have hload : ((Graph.ofBytes "CPU" [2, 3] .float32 (List.replicate 24 0)).runOn {}).1.toOption =
      some 0 := by decide +kernel
  have hturn : ((do
      let x ← Graph.ofBytes "CPU" [2, 3] .float32 (List.replicate 24 0)
      Graph.perform (.move (.permute [1, 0]) x)).runOn {}).1.toOption = some 1 := by decide +kernel
  obtain ⟨g1, hload⟩ := runOn_of_toOption hload
  obtain ⟨g2, hturn⟩ := runOn_of_toOption hturn
  obtain ⟨_, _, hload', hturn⟩ := runOn_bind_eq_ok.1 hturn
  cases hload.symm.trans hload'
  have hextents : Extents [2, 3] := by decide
  have hstart : Built {} := .start _
  have hbuilt : Built g1 := by
    simpa only [hload] using hstart.bytes "CPU" [2, 3] .float32 (List.replicate 24 0) hextents
  have hsound : (tables Scalars.sums fun _ => ⟨[], default⟩).Sound {} := hstart.sound.1
  have hu : ({} : Graph).Uncomputed := by
    intro key id t hk
    cases hk
  have hdims : g1.Dims 0 [2, 3] := (ofBytes_denotes hextents hsound hu hload).2.1
  have hturns : (Call.move (.permute [1, 0]) 0).Typed True g1.Dims [3, 2] :=
    ⟨[2, 3], hdims, .of_takes ⟨by decide, rfl⟩, by decide⟩
  exact ⟨g1, g2, hload, hturn, fun data => (((hcalls hbuilt).1 hturns hturn).2 data).1⟩

end LazyTensor
