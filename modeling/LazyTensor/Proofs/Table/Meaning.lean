import LazyTensor.Proofs.Graph.Requests
import LazyTensor.Proofs.Table.Reduce

/-! The arrays that the tensors of a graph stand for. -/
namespace LazyTensor
open Checked List Shape Source Option LazyTensor.Graph Table
variable {ds : List Int} {R : Reading} {tree : OpTree}

/-- What operations do to scalars: an elementwise operation is any function, and a reduce folds a
commutative monoid. -/
structure Scalars (X : Type) where
  apply : Op → OpArg → List X → X
  /-- Arguments that are taken for the same one mean the same. -/
  apply_congr : ∀ {op arg arg' xs}, (arg == arg') = true → apply op arg xs = apply op arg' xs
  monoid : ReduceOp → CommMonoid X

lemma Shape.Sized.dims {s : Shape} (h : s.Sized ds) : s.ints?.getD [] = ds := by
  rw [h.1, ints?_ofInts, getD_some]

namespace Table
variable {X : Type} [Inhabited X]
variable {op : ReduceOp} {s : Shape} {t : Table X}

def reduce (S : Scalars X) (op : ReduceOp) (s : Shape) (t : Table X) : Table X :=
  letI := S.monoid op
  t.fold (s.ints?.getD [])

lemma reduce_fits (S : Scalars X) (hs : s.Sized ds) : (t.reduce S op s).Fits ds := by
  let _ := S.monoid op
  rw [← hs.dims]
  exact collect_fits t _

lemma reduce_cut (S : Scalars X) {outer inner whole : Shape} {old dt : List Int}
    {cut : Cut} {d : Int} (houter : cutShape old cut [cut.divisor] = .ok outer)
    (hinner : cutShape old cut [1] = .ok inner)
    (hwhole : cutShape old cut [] = .ok whole) (hold : Extents old) (hs : s.Sized dt)
    (hred : Reduces old dt) (ht : t.Fits old) (hpos : 0 < cut.divisor)
    (hd : old[cut.axis]? = some d) (hone : dt[cut.axis]? = some 1) (hdvd : cut.divisor ∣ d) :
    (((t.move (.reshape outer)).reduce S op inner).move (.reshape whole)).reduce S op s =
      t.reduce S op s := by
  let _ := S.monoid op
  have hshape {inside : List Int} {s : Shape} (h : cutShape old cut inside = .ok s) :
      s = ofInts (cut.dims old d inside) := by
    obtain ⟨e, he, rfl⟩ := cutShape_eq h
    cases hd.symm.trans he
    rfl
  have hcut := cut_dims hold hred hd hone hpos hdvd
  obtain ⟨k, rfl⟩ := hdvd
  have hold' := eq_take_cons_drop hd
  have hdt := eq_take_cons_drop hone
  have hfront : (dt.take cut.axis).length = (old.take cut.axis).length := by
    rw [length_take, length_take, hred.length_eq]
  rw [hshape houter, hshape hinner, hshape hwhole]
  simp only [Cut.dims, Int.mul_tdiv_cancel_left k hpos.ne', append_assoc, cons_append,
    nil_append] at hcut ⊢
  simp only [reduce, ints?_ofInts, getD_some, hs.dims]
  generalize old.take cut.axis = front at *
  generalize old.drop (cut.axis + 1) = back at *
  generalize dt.take cut.axis = dfront at *
  generalize dt.drop (cut.axis + 1) = dback at *
  subst hold'
  subst hdt
  exact fold_cut hcut hfront hold hpos ht

end Table

/-- The arrays of tensors as a reading, where a load gives the array of its id. -/
def Reading.tables {X : Type} [Inhabited X] (S : Scalars X) (contents : Nat → Table X) :
    Reading where
  Value := Table X
  typed := True
  exact := True
  Fits := Table.Fits
  elementwise op arg ts := zip (S.apply op arg) ts
  reduce op s t := t.reduce S op s
  move m t := t.move m
  look l t := t.look l
  load id _ _ := contents id
  Accepts _ _ := True
  fits_move _ _ hm ht := move_fits (hm.2 trivial) ht
  fits_elementwise _ hne ht := zip_fits hne ht
  elementwise_congr {op arg arg' ts} h := by
    have heq : S.apply op arg = S.apply op arg' := funext fun _ => S.apply_congr h
    rw [heq]
  reduce_congr h := by rw [h trivial]
  move_congr h := by rw [h trivial]
  move_trivial h hty := by
    obtain ⟨ds, ds', hs, hm, ht⟩ := hty trivial
    exact Table.move_trivial h hs (hm.2 trivial) ht
  move_merge h hty := by
    obtain ⟨ds, ds', ds'', _, hd', h1, h2, ht⟩ := hty trivial
    exact Table.move_merge h (h1.2 trivial) (h2.2 trivial) hd' ht
  move_elementwise hty := by
    obtain ⟨hne, ds, ds', hd, _, hm, ht⟩ := hty trivial
    exact move_zip hne hd (hm.2 trivial) ht
  look_whole h hty := by
    obtain ⟨ds, hs, ht⟩ := hty trivial
    exact Table.look_whole h hs ht
  look_move h hty := by
    obtain ⟨ds, ds', hl, hm, hd⟩ := hty trivial
    exact Table.look_move h (hl.plain trivial) (hm.2 trivial) hd
  look_contiguous h hty := by
    obtain ⟨ds, bs, hl, ht, _, hprod⟩ := hty trivial
    exact Table.look_contiguous h (hl.plain trivial) ht hprod
  reduce_same {op s t} hty := by
    let _ := S.monoid op
    obtain ⟨ds, hs, ht⟩ := hty trivial
    rw [Table.reduce, hs.dims]
    exact fold_same ht hs.2
  reduce_permute {op s s' axes t} h hty := by
    let _ := S.monoid op
    obtain ⟨ds, dt, hd, hs, hr, hp, ht⟩ := hty trivial
    have hs' : s'.ints?.getD [] = axes.map fun i => dt.getD i 0 := by
      rw [reordered_eq (a := SymInt.num 0) h, hs.1, ← Shape.ofInts_map, Shape.ints?_ofInts,
        Option.getD_some]
    rw [Table.reduce, Table.reduce, hs', hs.dims]
    exact fold_permute hd hs.2 hr hp ht
  expand_permute h hty := by
    obtain ⟨ds, dt, hd, hdt, hm, hp, ht⟩ := hty trivial
    exact Table.expand_permute h hd hdt (hm.2 trivial) hp ht
  reshape_permute hgroups hflat h hty := by
    obtain ⟨ds, dt, hs, hdt, hm, hp, ht⟩ := hty trivial
    exact Table.reshape_permute hgroups hflat h hs hdt (hm.2 trivial) hp ht
  permute_ones h hs' hty := by
    obtain ⟨ds, hs, hp, ht⟩ := hty trivial
    exact Table.permute_ones h hs' hs hp ht
  reduce_cut houter hinner hwhole hty := by
    obtain ⟨dt, hold, hs, hr, ht, hpos, d, hd, hone, hdvd⟩ := hty trivial
    exact Table.reduce_cut S houter hinner hwhole hold hs hr ht hpos hd hone hdvd

namespace Reading
variable {R : Reading} {val : Nat → R.Value} {ds : List Int}

mutual

lemma fits_source (hty : R.typed) {s : Source} (hs : s.Full R.Accepts)
    (h : ∀ b ∈ s.buffers, R.Fits (val b) ds) :
    R.Fits (R.source val s) ds := by
  cases s with
  | buffer b => exact h b (by simp)
  | apply op arg srcs =>
    rw [source]
    refine R.fits_elementwise hty ?_ (fits_sources hty hs.2 fun b hb => h b (by rwa [buffers]))
    cases srcs with
    | nil => exact (hs.1.2.1 rfl).elim
    | cons s ss => simp [sources]

lemma fits_sources (hty : R.typed) {ss : List Source} (hs : FullAll R.Accepts ss)
    (h : ∀ b ∈ buffersAll ss, R.Fits (val b) ds) : ∀ v ∈ R.sources val ss, R.Fits v ds := by
  cases ss with
  | nil => simp [sources]
  | cons s ss =>
    rw [sources]
    refine forall_mem_cons.2 ⟨fits_source hty hs.1 fun b hb => h b ?_,
      fits_sources hty hs.2 fun b hb => h b ?_⟩
    · simp [hb]
    · simp [hb]

end

end Reading

namespace Graph
variable {X : Type} [Inhabited X]

def dimsOf (g : Graph) (id : Nat) : List Int :=
  ((g.find? id).map fun t => t.shape.ints?.getD []).getD []

/-- The array that a load gives, or that a tensor has as contents. -/
def contents (g : Graph) (data : Nat → List Int → X) (id : Nat) : Table X :=
  tabulate (g.dimsOf id) (data id)

/-- The array that a tensor stands for. Contents are given by id. -/
def denote (S : Scalars X) (data : Nat → List Int → X) (g : Graph) : Nat → Table X :=
  (Reading.tables S (g.contents data)).eval g (fun id => (g.find? id).bind Tensor.op)
    (g.contents data)

/-- What can be found again still has its operation: nothing that was made by calls has been
computed. -/
def Uncomputed (g : Graph) : Prop :=
  ∀ key id t, (key, id) ∈ g.cache → g.find? id = some t → t.op.isSome = true

end Graph

namespace Reading
variable {X : Type} [Inhabited X] {S : Scalars X} {contents : Nat → Table X}
  {data : Nat → List Int → X} {g g' : Graph} {id b : Nat} {t : Tensor}
variable {contents' : Nat → Table X}

lemma Keeps.uncomputed (h : R.Keeps g g') (hg : R.Sound g) (hu : g.Uncomputed) :
    g'.Uncomputed := by
  intro key id t' hk ht'
  obtain hk | ⟨t, ht, hop⟩ := h.cached hk
  · obtain ⟨t, ht, ha⟩ := h.grows.back (hg.fresh hk) ht'
    rw [ha.op]
    exact hu key id t hk ht
  · cases ht.symm.trans ht'
    exact hop

lemma Fills.uncomputed (h : R.Fills g g') (hg : R.Sound g) (hu : g.Uncomputed) :
    g'.Uncomputed := by
  intro key id t' hk ht'
  rw [h.cache] at hk
  obtain ⟨t, ht, ha⟩ := h.grows.back (hg.fresh hk) ht'
  rw [ha.op]
  exact hu key id t hk ht

lemma contents_fits (ht : g.find? id = some t) (hs : t.shape.Sized ds) :
    (g.contents data id).Fits ds := by
  refine tabulate_fits ?_ _
  rw [dimsOf, ht, map_some, getD_some, hs.dims]

section
variable (hg : (tables S contents).Sound g)
include hg

lemma op_lt (h : (g.find? id).bind Tensor.op = some tree) : ∀ b ∈ tree.buffers, b < id := by
  intro b hb
  obtain ⟨t, ht, hop⟩ := bind_eq_some_iff.1 h
  exact ((hg.at_id ht).sources tree hop b hb).1

lemma denote_view (ht : g.find? id = some t) (hb : t.base = some b) :
    g.denote S data id = (g.denote S data b).look t.layout :=
  eval_view (fun ht hb => ((hg.at_id ht).base _ hb).1) (op_lt hg) ht hb

lemma denote_own (ht : g.find? id = some t) (hb : t.base = none) (hop : t.op = some tree) :
    g.denote S data id = (tables S (g.contents data)).own (g.denote S data) id tree :=
  eval_own (fun ht hb => ((hg.at_id ht).base _ hb).1) (op_lt hg) ht hb (by rw [ht]; exact hop)

omit hg in
lemma denote_given (ht : g.find? id = some t) (hb : t.base = none) (hop : t.op = none) :
    g.denote S data id = g.contents data id :=
  eval_given ht hb (by rw [ht]; exact hop)

lemma denotes (hu : g.Uncomputed) : (tables S (g.contents data)).Denotes g (g.denote S data) := by
  refine ⟨denote_view hg, fun {id t tree} ht hb hr _ => denote_own hg ht hb ?_,
    fun _ {id t ds} ht hs => ?_⟩
  · obtain hop | ⟨key, hk, rfl⟩ := hr
    · exact hop
    · obtain ⟨tree, hop⟩ := isSome_iff_exists.1 (hu key id t hk ht)
      rw [hop, (hg.keyed hk ht).op tree hop]
  · -- every tensor reads older ones
    induction id using Nat.strong_induction_on generalizing t ds with
    | _ id ih =>
      have hat := hg.at_id ht
      cases hb : t.base with
      | some b =>
        rw [denote_view hg ht hb]
        exact look_fits hs
      | none =>
        cases hop : t.op with
        | none =>
          rw [denote_given ht hb hop]
          exact contents_fits ht hs
        | some tree =>
          rw [denote_own hg ht hb hop]
          cases hat.made tree hop with
          | elementwise he _ hshape =>
            obtain ⟨hfull, hall⟩ := hshape trivial
            rw [own_elementwise (R := tables S (g.contents data)) (g.denote S data) he]
            refine fits_source trivial hfull fun b hbm => ?_
            obtain ⟨hlt, tb, htb⟩ := hat.sources tree hop b hbm
            exact ih b hlt htb (hall b hbm tb htb ▸ hs)
          | reduce r x heq =>
            subst heq
            exact reduce_fits S hs
          | move m x b heq hbase => simp [hb] at hbase
          | load o src ho hsrcs _ hshape =>
            obtain ⟨op, arg, _⟩ := tree
            cases ho
            cases hsrcs
            cases src with
            | none => cases o <;> exact contents_fits ht hs
            | some x =>
              cases o with
              | contiguous =>
                obtain ⟨hlt, tx, htx⟩ := hat.sources _ hop x (by
                  simp)
                exact ih x hlt htx (hshape trivial rfl x rfl tx htx ▸ hs)
              | _ => exact contents_fits ht hs

end

/-! Contents enter the value of a load only. -/

mutual

lemma source_tables {contents' : Nat → Table X} (val : Nat → Table X) (s : Source) :
    (tables S contents).source val s = (tables S contents').source val s := by
  cases s with
  | buffer b => rfl
  | apply op arg srcs => exact congrArg (zip (S.apply op arg)) (sources_tables val srcs)

lemma sources_tables {contents' : Nat → Table X} (val : Nat → Table X) (ss : List Source) :
    (tables S contents).sources val ss = (tables S contents').sources val ss := by
  cases ss with
  | nil => rfl
  | cons s ss => exact congrArg₂ cons (source_tables val s) (sources_tables val ss)

end

lemma own_tables (val : Nat → Table X) (tree : OpTree) (h : contents id = contents' id) :
    (tables S contents).own val id tree = (tables S contents').own val id tree := by
  have hs : (tables S contents).sources val = (tables S contents').sources val :=
    funext fun ss => sources_tables val ss
  unfold own
  simp only [hs]
  dsimp only [tables]
  rw [h]

lemma denote_extends (hg : (tables S contents).Sound g) (hg' : (tables S contents').Sound g')
    (he : g.Extends g') (hx : g.Has id) : g'.denote S data id = g.denote S data id := by
  induction id using Nat.strong_induction_on with
  | _ id ih =>
    obtain ⟨t, ht⟩ := hx
    obtain ⟨t', ht', ha⟩ := he.keeps ht
    have hat := hg.at_id ht
    have hsame : g'.contents data id = g.contents data id := by
      rw [Graph.contents, Graph.contents, Graph.dimsOf, Graph.dimsOf, ht, ht', Option.map_some,
        Option.map_some, ha.shape]
    cases hb : t.base with
    | some b =>
      obtain ⟨hlt, tb, htb, _⟩ := hat.base b hb
      rw [denote_view hg ht hb, denote_view hg' ht' (ha.base.trans hb), ha.layout,
        ih b hlt ⟨tb, htb⟩]
    | none =>
      cases hop : t.op with
      | none =>
        rw [denote_given ht hb hop, denote_given ht' (ha.base.trans hb) (ha.op.trans hop), hsame]
      | some tree =>
        rw [denote_own hg ht hb hop, denote_own hg' ht' (ha.base.trans hb) (ha.op.trans hop),
          own_tables _ tree hsame]
        refine own_congr (R := tables S (g.contents data)) fun b hbm => ?_
        obtain ⟨hlt, hbhas⟩ := hat.sources tree hop b hbm
        exact ih b hlt hbhas

end Reading

end LazyTensor
