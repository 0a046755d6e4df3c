import LazyTensor.Proofs.Table.Basic

/-! Groups of axes. -/
namespace LazyTensor
open Checked List Shape Movement

namespace Shape

lemma length_place (ds : List Int) (x : Int) : (place ds x).length = ds.length := by
  induction ds with
  | nil => rfl
  | cons d ds ih => rw [place, length_cons, ih, length_cons]

lemma place_append {back : List Int} (h : ∀ d ∈ back, 0 < d) (front : List Int) (x : Int) :
    place (front ++ back) x = place front (x / back.prod) ++ place back x := by
  induction front with
  | nil => rfl
  | cons d front ih =>
    rw [cons_append, place, place, ih, cons_append, prod_append, mul_comm,
      Int.ediv_ediv_of_nonneg (prod_pos h).le]

/-- Dimensions with a product that is a word are multiplied. -/
lemma product_of_fits (hpos : ∀ d ∈ ds, 0 < d) (hfit : Fits ds.prod) :
    (ofInts ds).product = .ok (.num ds.prod) := by
  have walk (whole : Shape) (ds : List Int) (hpos : ∀ d ∈ ds, 0 < d) (a : Int) (ha : 0 < a)
      (hfit : Fits (a * ds.prod)) :
      (ofInts ds).foldlM (productStep whole) (a, none) = .ok (a * ds.prod, none) := by
    induction ds generalizing a with
    | nil => rw [prod_nil, mul_one]; rfl
    | cons d ds ih =>
      obtain ⟨hd, hpos⟩ := forall_mem_cons.1 hpos
      rw [prod_cons, ← mul_assoc] at hfit ⊢
      have hmul : mul a d = .ok (a * d) := mul_eq_ok.2 ⟨fits_zero.between hfit
        (mul_pos ha hd).le (le_mul_of_one_le_right (mul_pos ha hd).le (prod_pos hpos)), rfl⟩
      have hstep : productStep whole (a, none) (.num d) = .ok (a * d, none) :=
        bind_eq_ok.2 ⟨_, hmul, rfl⟩
      rw [ofInts, map_cons, foldlM_cons, hstep]
      exact ih hpos _ (mul_pos ha hd) hfit
  exact bind_eq_ok.2 ⟨_, walk _ ds hpos 1 one_pos (by rwa [one_mul]), by rw [one_mul]; rfl⟩

lemma place_flatten {blocks : List (List Int)} {q : List Int}
    (hpos : ∀ b ∈ blocks, ∀ d ∈ b, 0 < d) (hq : Inside (blocks.map prod) q) :
    place blocks.flatten (rank (blocks.map prod) q) = (zipWith place blocks q).flatten := by
  induction blocks generalizing q with
  | nil =>
    cases hq
    rfl
  | cons b blocks ih =>
    obtain ⟨hb, hpos⟩ := forall_mem_cons.1 hpos
    have hall : ∀ d ∈ blocks.flatten, 0 < d := by
      intro d hd
      obtain ⟨b', hb', hd⟩ := mem_flatten.1 hd
      exact hpos b' hb' d hd
    cases hq with
    | @cons i _ is _ hi his =>
      have hbounds := Inside.rank_bounds his
      have hprod : blocks.flatten.prod = (blocks.map prod).prod := prod_flatten
      have hp := prod_pos hall
      rw [flatten_cons, place_append hall, zipWith_cons_cons, flatten_cons, ← ih hpos his,
        map_cons, rank, ← hprod, add_comm, Int.add_mul_ediv_right _ _ hp.ne',
        Int.ediv_eq_zero_of_lt hbounds.1 (hprod ▸ hbounds.2), zero_add, place_add_mul _ hall]

end Shape

namespace Table
variable {X : Type} [Inhabited X] {t : Table X} {ds dt p : List Int}

section
variable {axes : List Nat} {groups flat : List (List Nat)}

lemma source_groups (hd : Extents ds) (hall : groups.flatten = range ds.length)
    (hgroup : Forall₂ (fun group n => (group.map (fun i => ds.getD i 0)).prod = n) groups dt)
    (hflat : flat = axes.map (fun k => groups.getD k [])) (hp : axes.Perm (range dt.length))
    {q : List Int} (hq : Inside dt q) :
    flat.flatten.map (fun i => (place ds (rank dt q)).getD i 0) =
      place (flat.flatten.map (fun i => ds.getD i 0))
        (rank (axes.map fun k => dt.getD k 0) (axes.map fun k => q.getD k 0)) := by
  set blocks := groups.map (fun group => group.map (fun i => ds.getD i 0)) with hblocks
  have hds : blocks.flatten = ds := by
    rw [hblocks, ← map_flatten, hall, map_getD_range]
  have hdt : blocks.map prod = dt := by
    rw [hblocks, map_map]
    clear * - hgroup
    induction hgroup with
    | nil => rfl
    | cons h _ ih => rw [map_cons, ih, Function.comp, h]
  have hpos : ∀ b ∈ blocks, ∀ d ∈ b, 0 < d := by
    intro b hb d hdb
    refine (hd d ?_).1
    rw [← hds]
    exact mem_flatten_of_mem hb hdb
  have hlen : groups.length = dt.length := hgroup.length_eq
  have hblen : blocks.length = dt.length := by rw [hblocks, length_map, hlen]
  have hql : q.length = dt.length := hq.length_eq
  set parts := zipWith place blocks q with hparts
  have hplace : place ds (rank dt q) = parts.flatten := by
    have := place_flatten hpos (hdt.symm ▸ hq)
    rwa [hds, hdt] at this
  have hplen : parts.length = dt.length := by rw [hparts, length_zipWith, hblen, hql, min_self]
  have hlength : parts.flatten.length = ds.length := by
    rw [← hplace, length_place]
  -- each group has the digits of its own index
  have hown : groups.map (fun group => group.map (fun i => parts.flatten.getD i 0)) = parts := by
    refine eq_iff_flatten_eq.2 ⟨?_, ?_⟩
    · rw [← map_flatten, hall, ← hlength, map_getD_range]
    · refine ext_getElem (by simp [hlen, hplen]) fun k h1 h2 => ?_
      simp [hparts, hblocks, length_place]
  have hk {k : Nat} (hk : k ∈ axes) : k < groups.length ∧ k < blocks.length ∧
      k < parts.length := by
    have := perm_lt hp hk
    omega
  have hflat' : flat.flatten.map (fun i => ds.getD i 0) =
      (axes.map fun k => blocks.getD k []).flatten := by
    rw [hflat, map_flatten, map_map]
    congr 1
    refine map_congr_left fun k hkm => ?_
    rw [hblocks, getD_map_lt (hk hkm).1 (a := [])]
    rfl
  have hdims : (axes.map fun k => dt.getD k 0) = (axes.map fun k => blocks.getD k []).map prod := by
    rw [map_map, ← hdt]
    refine map_congr_left fun k hkm => ?_
    rw [getD_map_lt (hk hkm).2.1 (a := [])]
    rfl
  have hinside := Forall₂.reorder hq (show axes.Perm (range q.length) by rw [hql]; exact hp)
  rw [hdims] at hinside
  have hpos' : ∀ b ∈ axes.map fun k => blocks.getD k [], ∀ d ∈ b, 0 < d := by
    intro b hb
    obtain ⟨k, hkm, rfl⟩ := mem_map.1 hb
    rw [getD_eq_getElem _ _ (hk hkm).2.1]
    exact hpos _ (getElem_mem _)
  rw [hplace, hflat', hdims, place_flatten hpos' hinside, hflat, map_flatten, map_map,
    zipWith_map, zipWith_self]
  congr 1
  refine map_congr_left fun k hkm => ?_
  have hpart : parts.getD k [] = place (blocks.getD k []) (q.getD k 0) := by
    have hkq : k < q.length := by
      have := (hk hkm).2.1
      omega
    rw [getD_eq_getElem _ _ (hk hkm).2.2, getD_eq_getElem _ _ (hk hkm).2.1, getD_eq_getElem _ _ hkq]
    simp [hparts]
  rw [← hpart]
  conv_rhs => rw [← hown]
  rw [getD_map_lt (hk hkm).1 (a := [])]
  rfl

end

lemma reshape_permute {old s s' : Shape} {axes : List Nat} {groups flat : List (List Nat)}
    (hgroups : contraction? old s = .ok (some groups)) (hflat : axes.mapM (nth groups) = .ok flat)
    (hs' : Graph.Rules.reordered s axes = .ok s') (hs : old.Sized ds) (hdt : Extents dt)
    (hm : (reshape s).Takes ds dt) (hp : axes.Perm (range dt.length)) (ht : t.Fits ds) :
    (t.move (.permute flat.flatten)).move (.reshape s') = (t.move (.reshape s)).move
      (.permute axes) := by
  obtain ⟨rfl, hprod⟩ := id hm
  obtain ⟨rfl, hd⟩ := hs
  have hperm := flatten_perm hd hdt hprod hgroups hflat hp
  obtain ⟨hall, hgroup⟩ := contraction?_some (fun d h => (hd d h).1) (fun d h => (hdt d h).1)
    hprod hgroups
  have hm1 : (permute flat.flatten).Takes ds _ := .reorder hperm
  have hm2 : (permute axes).Takes dt _ := .reorder hp
  have hs'' : s' = ofInts (axes.map fun i => dt.getD i 0) := by
    rw [reordered_eq (a := SymInt.num 0) hs', ofInts_map]
  have hm3 : (reshape s').Takes (flat.flatten.map fun i => ds.getD i 0)
      (axes.map fun i => dt.getD i 0) :=
        ⟨hs'', by rw [prod_reorder hperm, prod_reorder hp, hprod]⟩
  have ht1 := move_fits hm1 ht
  have ht2 := move_fits hm ht
  refine (move_fits hm3 ht1).ext (move_fits hm2 ht2) fun p hin => ?_
  have hpl : p.length = axes.length := by simpa using hin.length_eq
  have hq := hm2.source_inside hdt hin
  rw [move_entry hm3 ht1 hin, move_entry hm1 ht (hm3.source_inside (hd.reorder hperm) hin),
    move_entry hm2 ht2 hin, move_entry hm ht hq]
  congr 1
  have hsource : (reshape (ofInts dt)).source ds ((permute axes).source dt p) =
      place ds (rank dt ((permute axes).source dt p)) := by
    simp only [source, ints?_ofInts, Option.getD_some]
  have hdigits := source_groups hd hall hgroup (reordered_eq (a := []) hflat) hp hq
  rw [reorder_source hp hpl] at hdigits
  rw [hsource]
  refine source_permute_eq hperm ?_ ?_ (hdigits.trans ?_)
  · rw [source, length_place, length_map]
  · rw [length_place]
  · rw [source, hs'', ints?_ofInts, Option.getD_some]

end Table

end LazyTensor
