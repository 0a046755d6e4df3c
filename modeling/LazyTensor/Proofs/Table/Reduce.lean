import LazyTensor.Proofs.Graph.Reduce
import LazyTensor.Proofs.Table.Groups
import Mathlib.Algebra.BigOperators.Group.Finset.Basic

/-! Reduces of tables. A reduce collects the entries of all positions that it maps to one, and so do
movements that lose no position; collecting twice is collecting along the composed map, which leaves
an equation between positions for each law. -/
namespace LazyTensor
open Checked List Shape Movement Finset

namespace Shape
variable {ds q : List Int}

lemma mem_grid (hd : ∀ d ∈ ds, 0 < d) : q ∈ grid ds ↔ Inside ds q := by
  induction ds generalizing q with
  | nil =>
    rw [grid, List.mem_singleton, Inside, forall₂_nil_right_iff]
  | cons d ds ih =>
    obtain ⟨hd, hds⟩ := List.forall_mem_cons.1 hd
    have hext : extent d = d.toNat := by
      rw [extent, if_neg hd.ne', max_eq_left (by omega)]
    simp only [grid, mem_flatMap, List.mem_range, List.mem_map, ih hds, hext]
    constructor
    · rintro ⟨k, hk, q, hq, rfl⟩
      exact .cons ⟨by omega, by omega⟩ hq
    · rintro (_ | ⟨hi, hq⟩)
      rename_i i is
      exact ⟨i.toNat, by omega, is, hq, by rw [Int.toNat_of_nonneg hi.1]⟩

lemma grid_nodup (ds : List Int) : (grid ds).Nodup := by
  induction ds with
  | nil => exact nodup_singleton _
  | cons d ds ih =>
    rw [grid, nodup_flatMap]
    refine ⟨fun k _ => ih.map fun _ _ h => (List.cons.inj h).2, ?_⟩
    refine nodup_range.imp fun {a b} hab => List.disjoint_left.2 fun q ha hb => ?_
    obtain ⟨_, _, rfl⟩ := List.mem_map.1 ha
    obtain ⟨_, _, h⟩ := List.mem_map.1 hb
    have := (List.cons.inj h).1
    omega

lemma mem_positions (hd : Extents ds) : q ∈ positions ds ↔ Inside ds q := by
  have hne : ds.contains 0 = false := by
    rw [contains_eq_mem, decide_eq_false_iff_not]
    intro h
    have := (hd 0 h).1
    omega
  rw [positions, hne, if_neg (by simp), mem_grid fun d h => (hd d h).1]

lemma positions_nodup (ds : List Int) : (positions ds).Nodup := by
  rw [positions]
  split
  · exact nodup_nil
  · exact grid_nodup ds

lemma squash_self (hq : Inside ds q) : squash ds q = q := by
  induction hq with
  | nil => rfl
  | @cons i d is ds hi _ ih =>
    rw [squash, zipWith_cons_cons]
    congr 1
    split <;> omega

lemma squash_inside {dt : List Int} (h : Reduces ds dt) (hq : Inside ds q) :
    Inside dt (squash dt q) := by
  induction hq generalizing dt with
  | nil =>
    cases h
    exact .nil
  | cons hi _ ih =>
    cases h with
    | cons hd hds =>
      refine .cons ?_ (ih hds)
      dsimp only
      split <;> omega

end Shape

namespace Table
variable {X : Type} [Inhabited X] [CommMonoid X] {t : Table X} {m : Movement}
  {ds ds' ds'' dt p q : List Int} {f f' : List Int → List Int}
variable {axes : List Nat} {front back fq bq : List Int} {c k : Int}

def collect (ds' : List Int) (f : List Int → List Int) (t : Table X) : Table X :=
  tabulate ds' (fun p => (((Shape.positions t.dims).filter (fun q => f q = p)).map t.entry).prod)

/-- The product of the entries along the axes of length one. -/
def fold (dt : List Int) (t : Table X) : Table X := t.collect dt (Shape.squash dt)

lemma collect_fits (t : Table X) (f : List Int → List Int) : (t.collect ds' f).Fits ds' :=
  tabulate_fits rfl _

lemma collect_entry (hp : Inside ds' p) : (t.collect ds' f).entry p =
    ∏ q ∈ (positions t.dims).toFinset.filter (fun q => f q = p), t.entry q := by
  have hfilter := toFinset_filter (positions t.dims) (fun q => decide (f q = p))
  simp only [decide_eq_true_eq] at hfilter
  rw [← hfilter, prod_toFinset _ ((positions_nodup _).filter _)]
  exact tabulate_entry hp

lemma collect_congr (ht : t.Fits ds) (hd : Extents ds) (h : ∀ q, Inside ds q → f q = f' q) :
    t.collect ds' f = t.collect ds' f' := by
  refine tabulate_congr fun p _ => ?_
  congr 2
  refine filter_congr fun q hq => ?_
  rw [ht.1, mem_positions hd] at hq
  rw [h q hq]

lemma collect_collect (ht : t.Fits ds) (hd : Extents ds) (hd' : Extents ds')
    (hf : ∀ q, Inside ds q → Inside ds' (f q)) (g : List Int → List Int) :
    (t.collect ds' f).collect ds'' g = t.collect ds'' (fun q => g (f q)) := by
  have hin {ds q : List Int} (hd : Extents ds) : q ∈ (positions ds).toFinset ↔ Inside ds q :=
    mem_toFinset.trans (mem_positions hd)
  refine (collect_fits _ g).ext (collect_fits t _) fun p hp => ?_
  rw [collect_entry hp, collect_entry hp, (collect_fits t f).1]
  have hmaps : ∀ q ∈ (positions t.dims).toFinset.filter (fun q => g (f q) = p),
      f q ∈ (positions ds').toFinset.filter (fun q' => g q' = p) := by
    intro q hq
    obtain ⟨hq, hg⟩ := Finset.mem_filter.1 hq
    rw [ht.1, hin hd] at hq
    exact Finset.mem_filter.2 ⟨(hin hd').2 (hf q hq), hg⟩
  rw [← prod_fiberwise_of_maps_to hmaps]
  refine prod_congr rfl fun q' hq' => ?_
  obtain ⟨hq', hg⟩ := Finset.mem_filter.1 hq'
  rw [collect_entry ((hin hd').1 hq'), Finset.filter_filter]
  refine prod_congr (Finset.filter_congr fun q _ => ?_) fun _ _ => rfl
  constructor
  · rintro rfl
    exact ⟨hg, rfl⟩
  · exact fun h => h.2

lemma move_eq_collect (hm : m.Takes ds ds') (ht : t.Fits ds) (hd : Extents ds)
    (hleft : ∀ p, Inside ds' p → f (m.source ds p) = p)
    (hright : ∀ q, Inside ds q → m.source ds (f q) = q) : t.move m = t.collect ds' f := by
  refine (move_fits hm ht).ext (collect_fits t f) fun p hp => ?_
  rw [move_entry hm ht hp, collect_entry hp, ht.1]
  have hone : (positions ds).toFinset.filter (fun q => f q = p) = {m.source ds p} := by
    ext q
    rw [Finset.mem_filter, Finset.mem_singleton, mem_toFinset, mem_positions hd]
    constructor
    · rintro ⟨hq, rfl⟩
      exact (hright q hq).symm
    · rintro rfl
      exact ⟨hm.source_inside hd hp, hleft p hp⟩
  rw [hone, Finset.prod_singleton]

lemma reshape_eq_collect (hm : (reshape (ofInts ds')).Takes ds ds') (ht : t.Fits ds)
    (hd : Extents ds) (hd' : Extents ds') : t.move (.reshape (ofInts ds')) =
      t.collect ds' (fun q => place ds' (rank ds q)) := by
  have hsource (p : List Int) : (reshape (ofInts ds')).source ds p = place ds (rank ds' p) := by
    simp only [source, ints?_ofInts, Option.getD_some]
  refine move_eq_collect hm ht hd (fun p hp => ?_) fun q hq => ?_
  · have hb := hp.rank_bounds
    rw [hsource, rank_place (fun d h => (hd d h).1), Int.emod_eq_of_lt hb.1 (hm.2 ▸ hb.2),
      place_rank hp]
  · have hb := hq.rank_bounds
    rw [hsource, rank_place (fun d h => (hd' d h).1), Int.emod_eq_of_lt hb.1 (hm.2 ▸ hb.2),
      place_rank hq]

lemma permute_eq_collect (hp : axes.Perm (range ds.length)) (ht : t.Fits ds)
    (hd : Extents ds) : t.move (.permute axes) =
      t.collect (axes.map fun i => ds.getD i 0) (fun q => axes.map fun i => q.getD i 0) := by
  refine move_eq_collect (.reorder hp) ht hd (fun p hin => ?_) fun q hq => ?_
  · exact reorder_source hp (by simpa using hin.length_eq)
  · exact source_permute_eq hp (by simp) hq.length_eq rfl

/-! The laws of reduces. -/

lemma fold_same (ht : t.Fits ds) (hd : Extents ds) : t.fold ds = t := by
  refine (collect_fits t _).ext ht fun p hp => ?_
  have hone : (positions ds).toFinset.filter (fun q => squash ds q = p) = {p} := by
    ext q
    rw [Finset.mem_filter, Finset.mem_singleton, mem_toFinset, mem_positions hd]
    constructor
    · rintro ⟨hq, rfl⟩
      exact (squash_self hq).symm
    · rintro rfl
      exact ⟨hp, squash_self hp⟩
  rw [collect_entry hp, ht.1, hone, Finset.prod_singleton]

lemma fold_permute (hd : Extents ds) (hdt : Extents dt) (hr : Reduces ds dt)
    (hp : axes.Perm (range dt.length)) (ht : t.Fits ds) :
    (t.move (.permute axes)).fold (axes.map fun i => dt.getD i 0) =
      (t.fold dt).move (.permute axes) := by
  have hp' : axes.Perm (range ds.length) := hr.length_eq ▸ hp
  unfold fold
  rw [permute_eq_collect hp' ht hd, permute_eq_collect hp (collect_fits t _) hdt,
    collect_collect ht hd (hd.reorder hp') fun q hq => Forall₂.reorder hq (hq.length_eq ▸ hp'),
    collect_collect ht hd hdt fun q hq => squash_inside hr hq]
  refine collect_congr ht hd fun q hq => ?_
  exact squash_reorder hp (hq.length_eq.trans hr.length_eq)

lemma place_divided {x : Int} (hf : Inside front fq) (hb : Inside back bq)
    (hc : 0 < c) (hx : 0 ≤ x ∧ x < c * k) :
    place (front ++ k :: c :: back) (rank (front ++ (c * k) :: back) (fq ++ x :: bq)) =
      fq ++ x / c :: x % c :: bq := by
  have hin : Inside (front ++ k :: c :: back) (fq ++ x / c :: x % c :: bq) := by
    refine rel_append hf (.cons ⟨Int.ediv_nonneg hx.1 hc.le, ?_⟩
      (.cons ⟨Int.emod_nonneg x hc.ne', Int.emod_lt_of_pos x hc⟩ hb))
    exact Int.ediv_lt_of_lt_mul hc (by linarith [mul_comm c k])
  have hrank : rank (front ++ (c * k) :: back) (fq ++ x :: bq) =
      rank (front ++ k :: c :: back) (fq ++ x / c :: x % c :: bq) := by
    rw [rank_append hf.length_eq.symm, rank_append hf.length_eq.symm]
    simp only [rank, List.prod_cons]
    linear_combination (-back.prod) * Int.mul_ediv_add_emod x c
  rw [hrank, place_rank hin]

lemma place_joined {y : Int} (hf : Inside front fq) (hb : Inside back bq) (hy : 0 ≤ y ∧ y < k) :
    place (front ++ k :: back) (rank (front ++ k :: 1 :: back) (fq ++ y :: 0 :: bq)) =
      fq ++ y :: bq := by
  have hrank : rank (front ++ k :: 1 :: back) (fq ++ y :: 0 :: bq) =
      rank (front ++ k :: back) (fq ++ y :: bq) := by
    rw [rank_append hf.length_eq.symm, rank_append hf.length_eq.symm]
    simp only [rank, List.prod_cons]
    ring
  rw [hrank, place_rank (rel_append hf (.cons hy hb))]

lemma squash_append (h : fq.length = front.length) (back bq : List Int) :
    squash (front ++ back) (fq ++ bq) = squash front fq ++ squash back bq := by
  simp [squash, zipWith_append, h]

/-- A reduce in two passes, the first along a part of one axis. -/
lemma fold_cut {dfront dback : List Int}
    (hcut : Graph.CutDims (front ++ (c * k) :: back) (dfront ++ 1 :: dback)
      (front ++ k :: c :: back)
      (front ++ k :: 1 :: back) (front ++ k :: back)) (hfront : dfront.length = front.length)
    (hold : Extents (front ++ (c * k) :: back)) (hc : 0 < c)
    (ht : t.Fits (front ++ (c * k) :: back)) :
    ((((t.move (.reshape (ofInts (front ++ k :: c :: back)))).fold (front ++ k :: 1 :: back)).move
      (.reshape (ofInts (front ++ k :: back)))).fold (dfront ++ 1 :: dback)) =
      t.fold (dfront ++ 1 :: dback) := by
  have hplace {ds ds' q : List Int} (hd : Extents ds') : Inside ds' (place ds' (rank ds q)) :=
    place_inside (fun d h => (hd d h).1) _
  unfold fold
  rw [reshape_eq_collect ⟨rfl, hcut.divided.2⟩ ht hold hcut.divided.1,
    collect_collect ht hold hcut.divided.1 fun q _ => hplace hcut.divided.1,
    reshape_eq_collect ⟨rfl, hcut.joined.2⟩ (collect_fits t _) hcut.folded.1 hcut.joined.1,
    collect_collect ht hold hcut.folded.1 fun q _ =>
      squash_inside hcut.folded.2 (hplace hcut.divided.1),
    collect_collect ht hold hcut.joined.1 fun q _ => hplace hcut.joined.1]
  refine collect_congr ht hold fun q hq => ?_
  -- the position in three pieces, around the axis that is cut
  obtain ⟨fq, x, bq, rfl, hf, hx, hb⟩ := Layout.forall₂_append_cons (Forall₂.flip hq)
  replace hf : Inside front fq := hf.flip
  replace hb : Inside back bq := hb.flip
  have hk : 0 ≤ x / c ∧ x / c < k :=
    ⟨Int.ediv_nonneg hx.1 hc.le, Int.ediv_lt_of_lt_mul hc (by linarith [hx.2, mul_comm c k])⟩
  have hone : squash (front ++ k :: 1 :: back) (fq ++ x / c :: x % c :: bq) =
      fq ++ x / c :: 0 :: bq := by
    rw [squash_append hf.length_eq, squash_self hf]
    have hback := squash_self hb
    simp only [squash, zipWith_cons_cons] at hback ⊢
    rw [hback]
    split <;> grind
  rw [place_divided hf hb hc hx, hone, place_joined hf hb hk,
    squash_append (hf.length_eq.trans hfront.symm), squash_append (hf.length_eq.trans hfront.symm)]
  simp [squash]

end Table

end LazyTensor
