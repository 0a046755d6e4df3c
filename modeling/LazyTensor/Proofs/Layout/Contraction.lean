import LazyTensor.Proofs.Layout.Total
import LazyTensor.Proofs.Layout.Place
import LazyTensor.Proofs.Layout.Bounds
import LazyTensor.Proofs.Table.Groups
import Mathlib.Algebra.BigOperators.Group.List.Lemmas

/-! Reshapes that only join axes, and permutations that pass them. The axes are grouped by a greedy
matcher, which finds a grouping wherever there is one. -/
namespace LazyTensor
open Checked List Shape Movement SymInt

namespace Shape
variable {ds dt : List Int} {groups : List (List Nat)}

/-- The groups are the old axes in order, and each multiplies to the new dimension in its place. -/
def Grouping (ds dt : List Int) (groups : List (List Nat)) : Prop :=
  groups.flatten = range ds.length ∧
    List.Forall₂ (fun group n => (group.map (fun i => ds.getD i 0)).prod = n) groups dt

/-- The dimensions fall into blocks with these products. -/
def Groupable (ds dt : List Int) : Prop :=
  ∃ blocks : List (List Int), blocks.flatten = ds ∧ blocks.map prod = dt

lemma Grouping.groupable (h : Grouping ds dt groups) : Groupable ds dt := by
  obtain ⟨hall, hprods⟩ := h
  refine ⟨groups.map (·.map (fun i => ds.getD i 0)), ?_, ?_⟩
  · rw [← map_flatten, hall, map_getD_range]
  · rw [map_map, ← forall₂_eq_eq_eq, forall₂_map_left_iff]
    exact hprods

/-- A dimension of one can be left out, since any block can take it. -/
lemma groupable_cons_one (hne : dt ≠ []) : Groupable (1 :: ds) dt ↔ Groupable ds dt := by
  constructor
  · rintro ⟨blocks, hflat, rfl⟩
    clear hne
    induction blocks generalizing ds with
    | nil => cases hflat
    | cons block blocks ih =>
      cases block with
      | nil =>
        obtain ⟨rest, hrest, hprods⟩ := ih hflat
        exact ⟨[] :: rest, hrest, by rw [map_cons, hprods, map_cons]⟩
      | cons d block =>
        obtain ⟨rfl, rfl⟩ := cons.inj hflat
        exact ⟨block :: blocks, rfl, by simp⟩
  · rintro ⟨blocks, rfl, rfl⟩
    cases blocks with
    | nil => exact (hne rfl).elim
    | cons block blocks => exact ⟨(1 :: block) :: blocks, rfl, by simp⟩

lemma groupable_ones {ones : List Int} (h : ∀ d ∈ ones, d = 1) (hne : dt ≠ []) :
    Groupable (ones ++ ds) dt ↔ Groupable ds dt := by
  induction ones with
  | nil => rfl
  | cons d ones ih =>
    obtain ⟨rfl, hones⟩ := forall_mem_cons.1 h
    rw [cons_append, groupable_cons_one hne, ih hones]

lemma eq_one_of_prod (hpos : ∀ d ∈ ds, 0 < d) (h : ds.prod = 1) : ∀ d ∈ ds, d = 1 :=
  fun d hd => Int.eq_one_of_dvd_one (hpos d hd).le (h ▸ dvd_prod hd)

section
variable {n : Int} {dims : List Int} {group : List Nat} {d : Int} {i : Nat}
  {pairs : List (Int × Nat)}

/-- One axis for the dimension `n`: where the next axis fits, it is taken. -/
lemma fillGroup_step {last : Bool} {P : Option (List Nat × List (SymInt × Nat)) → Prop}
    (hone : n = 1 → d = 1) (hle : (dims ++ [d]).prod ≤ n)
    (hmore : last = true ∨ (dims ++ [d]).prod < n → Returns .arithmetic
      (fillGroup (.num n) last (axesOf pairs) (ofInts (dims ++ [d])) (group ++ [i])) P)
    (hdone : last = false → (dims ++ [d]).prod = n → P (some (group ++ [i], axesOf pairs))) :
    Returns .arithmetic (fillGroup (.num n) last (axesOf ((d, i) :: pairs)) (ofInts dims) group)
      P := by
  rw [axesOf, map_cons, fillGroup, if_neg]
  · rw [show ofInts dims ++ [num d] = ofInts (dims ++ [d]) by simp [ofInts]]
    refine (product_returns _).bind fun size _ hsize => ?_
    subst hsize
    split
    · rename_i heq
      cases last with
      | true => exact hmore (.inl rfl)
      | false => exact .ok (hdone rfl (eq_of_num_beq heq))
    · rename_i hneq
      have hlt : (dims ++ [d]).prod < n := lt_of_le_of_ne hle fun heq => hneq (heq ▸ num_beq _)
      simp only [num?]
      rw [if_pos hlt]
      exact hmore (.inr hlt)
  · simpa [is, num?] using hone

/-- Axes that multiply to the dimension are found: what is left falls into the same blocks, since
the axes that a block of its own would have taken as well are all ones. -/
lemma fillGroup_complete {last : Bool} {taken left : List (Int × Nat)}
    (hdims : ∀ d ∈ dims, 0 < d) (hpos : ∀ p ∈ taken ++ left, 0 < p.1)
    (h : dims.prod * (taken.map (·.1)).prod = n) (hlast : last = true → left = [])
    (hlt : last = false → dims.prod < n ∨ n = 1) :
    Returns .arithmetic (fillGroup (.num n) last (axesOf (taken ++ left)) (ofInts dims) group)
      (fun o => ∃ group' left', o = some (group', axesOf left') ∧
        (last = true → left' = []) ∧ (∀ p ∈ left', 0 < p.1) ∧ ∀ rest, rest ≠ [] →
          Groupable (left.map (·.1)) rest → Groupable (left'.map (·.1)) rest) := by
  induction taken generalizing dims group with
  | nil =>
    have hn : dims.prod = n := by simpa using h
    cases left with
    | nil => exact .ok ⟨group, [], rfl, fun _ => rfl, by simp, fun _ _ h => h⟩
    | cons p left =>
      obtain ⟨d, i⟩ := p
      obtain ⟨-, hleft⟩ := forall_mem_cons.1 hpos
      cases last with
      | true => cases hlast rfl
      | false =>
        obtain rfl : n = 1 := (hlt rfl).resolve_left (by omega)
        by_cases hd : d = 1
        · subst hd
          refine fillGroup_step (fun _ => rfl) (by simp [hn]) (fun hmore => ?_) fun _ _ =>
            ⟨_, left, rfl, by simp, hleft, fun rest hne => (groupable_cons_one hne).1⟩
          simp [hn] at hmore
        · rw [nil_append, axesOf, map_cons, fillGroup, if_pos (by simp [is, num?, hd])]
          exact .ok ⟨group, (d, i) :: left, rfl, by simp, hpos, fun _ _ h => h⟩
  | cons p taken ih =>
    obtain ⟨d, i⟩ := p
    obtain ⟨hd, hpos⟩ := forall_mem_cons.1 hpos
    have htaken : ∀ e ∈ taken.map (·.1), 0 < e :=
      forall_mem_map.2 fun p hp => hpos p (mem_append_left _ hp)
    have hdims' : ∀ e ∈ dims ++ [d], 0 < e := by
      simpa [or_imp, forall_and] using ⟨hdims, hd⟩
    have hprod : (dims ++ [d]).prod * (taken.map (·.1)).prod = n := by
      rw [← h]
      simp [mul_assoc]
    have hle : (dims ++ [d]).prod ≤ n :=
      hprod ▸ le_mul_of_one_le_right (prod_pos hdims').le (prod_pos htaken)
    refine fillGroup_step (fun hn => ?_) hle (fun hmore => ?_) fun hfalse heq => ?_
    · refine Int.eq_one_of_dvd_one hd.le (hn ▸ h ▸ ?_)
      exact dvd_mul_of_dvd_right (dvd_prod (by simp)) _
    · exact ih hdims' hpos hprod fun hfalse => .inl (hmore.resolve_left (by rw [hfalse]; decide))
    · have hones := eq_one_of_prod htaken
        (mul_left_cancel₀ (prod_pos hdims').ne' (by rw [hprod, heq, mul_one]))
      refine ⟨_, taken ++ left, rfl, by simp [hfalse], hpos, fun rest hne hg => ?_⟩
      rw [map_append]
      exact (groupable_ones hones hne).2 hg

/-- Blocks that multiply to the new dimensions are found. -/
lemma groupAxes_complete (hpos : ∀ p ∈ pairs, 0 < p.1) (h : Groupable (pairs.map (·.1)) dt) :
    Returns .arithmetic (groupAxes (axesOf pairs) (ofInts dt)) (·.isSome = true) := by
  induction dt generalizing pairs with
  | nil =>
    obtain ⟨blocks, hflat, hprods⟩ := h
    cases map_eq_nil_iff.1 hprods
    cases map_eq_nil_iff.1 hflat.symm
    exact .ok rfl
  | cons n dt ih =>
    obtain ⟨blocks, hflat, hprods⟩ := h
    obtain ⟨block, blocks, rfl, rfl, rfl⟩ := map_eq_cons_iff.1 hprods
    obtain ⟨taken, left, rfl, rfl, hleft⟩ := map_eq_append_iff.1 hflat.symm
    have htaken : 0 < (taken.map (·.1)).prod := prod_pos <|
      forall_mem_map.2 fun p hp => hpos p (mem_append_left _ hp)
    have hrest : Groupable (left.map (·.1)) (blocks.map prod) := ⟨blocks, hleft.symm, rfl⟩
    rw [ofInts, map_cons, groupAxes]
    have hnone : ∀ d ∈ ([] : List Int), 0 < d := by simp
    refine (fillGroup_complete hnone hpos (one_mul _) (fun hlast => ?_) fun _ => ?_).bind
      fun o _ ho => ?_
    · cases blocks with
      | nil => simpa using hleft
      | cons => cases hlast
    · rw [prod_nil]
      omega
    · obtain ⟨group', left', rfl, hlast, hpos', hgroup⟩ := ho
      have hleft' : Groupable (left'.map (·.1)) (blocks.map prod) := by
        cases blocks with
        | nil => rw [hlast rfl]; exact ⟨[], rfl, rfl⟩
        | cons => exact hgroup _ (by simp) hrest
      exact (ih hpos' hleft').bind fun o _ ho => .ok (by simpa using ho)

lemma fillGroup_of_fits {last : Bool} (hdims : ∀ d ∈ dims, 0 < d)
    (hpos : ∀ p ∈ pairs, 0 < p.1) (hfit : Fits (dims.prod * (pairs.map (·.1)).prod)) :
    ∃ o, fillGroup (.num n) last (axesOf pairs) (ofInts dims) group = .ok o := by
  induction pairs generalizing dims group with
  | nil => exact ⟨_, rfl⟩
  | cons p pairs ih =>
    obtain ⟨d, i⟩ := p
    obtain ⟨hd, hpos⟩ := forall_mem_cons.1 hpos
    have hdims' : ∀ e ∈ dims ++ [d], 0 < e := by
      simpa [or_imp, forall_and] using ⟨hdims, hd⟩
    have hfit' : Fits ((dims ++ [d]).prod * (pairs.map (·.1)).prod) := by
      simpa [mul_assoc] using hfit
    have hrest : 0 < (pairs.map (·.1)).prod := prod_pos (forall_mem_map.2 hpos)
    have hsize : Fits (dims ++ [d]).prod := fits_zero.between hfit' (prod_pos hdims').le
      (le_mul_of_one_le_right (prod_pos hdims').le hrest)
    have next : ∃ o, fillGroup (.num n) last (axesOf pairs) (ofInts (dims ++ [d]))
        (group ++ [i]) = .ok o := ih hdims' hpos hfit'
    rw [axesOf, map_cons, fillGroup]
    split
    · exact ⟨_, rfl⟩
    rw [show ofInts dims ++ [num d] = ofInts (dims ++ [d]) by simp [ofInts],
      product_of_fits hdims' hsize, ok_bind]
    simp only [num?]
    split_ifs <;> first | exact next | exact ⟨_, rfl⟩

lemma groupAxes_of_fits (hpos : ∀ p ∈ pairs, 0 < p.1) (hfit : Fits (pairs.map (·.1)).prod) :
    ∃ o, groupAxes (axesOf pairs) (ofInts dt) = .ok o := by
  induction dt generalizing pairs with
  | nil => exact ⟨_, rfl⟩
  | cons n dt ih =>
    have hnone : ∀ d ∈ ([] : List Int), 0 < d := by simp
    obtain ⟨o, ho⟩ : ∃ o, fillGroup (.num n) (ofInts dt).isEmpty
        (axesOf pairs) [] [] = .ok o :=
      fillGroup_of_fits hnone hpos (by rwa [prod_nil, one_mul])
    cases o with
    | none => exact ⟨none, bind_eq_ok.2 ⟨_, ho, rfl⟩⟩
    | some o =>
      obtain ⟨group, rest⟩ := o
      obtain ⟨taken, left, rfl, rfl, -, -⟩ :=
        (fillGroup_returns n _ pairs [] []).of_ok ho group rest rfl
      have hleft : ∀ p ∈ left, 0 < p.1 := fun p hp => hpos p (mem_append_right _ hp)
      have hfront : 0 < (taken.map (·.1)).prod := prod_pos <|
        forall_mem_map.2 fun p hp => hpos p (mem_append_left _ hp)
      have hback : 0 ≤ (left.map (·.1)).prod := (prod_pos (forall_mem_map.2 hleft)).le
      rw [map_append, prod_append] at hfit
      obtain ⟨o', ho'⟩ :=
        ih hleft (fits_zero.between hfit hback (le_mul_of_one_le_left hback hfront))
      exact ⟨_, bind_eq_ok.2 ⟨_, ho, bind_eq_ok.2 ⟨_, ho', rfl⟩⟩⟩

end

/-- The matcher finds a grouping exactly where there is one, unless the old dimensions multiply to
more than a word. -/
lemma contraction?_iff (hd : ∀ d ∈ ds, 0 < d) (ht : ∀ d ∈ dt, 0 < d)
    (hprod : ds.prod = dt.prod) :
    contraction? (ofInts ds) (ofInts dt) = .error .arithmetic ∧ ¬Fits ds.prod ∨
      ∃ o, contraction? (ofInts ds) (ofInts dt) = .ok o ∧
        (∀ groups, o = some groups → Grouping ds dt groups) ∧
        (o.isSome = true ↔ ∃ groups, Grouping ds dt groups) := by
  have hax : (ofInts ds).zipIdx = axesOf ds.zipIdx := by
    rw [ofInts, zipIdx_map, axesOf]
    rfl
  have hfst : ds.zipIdx.map (·.1) = ds := zipIdx_map_fst 0 ds
  have hpos : ∀ p ∈ ds.zipIdx, 0 < p.1 := forall_mem_map.1 (hfst.symm ▸ hd)
  obtain hstop | ⟨o, ho, -⟩ := contraction?_returns ds dt
  · refine .inl ⟨hstop, fun hfit => ?_⟩
    obtain ⟨o, ho⟩ : ∃ o, groupAxes (axesOf ds.zipIdx) (ofInts dt) = .ok o :=
      groupAxes_of_fits hpos (hfst.symm ▸ hfit)
    rw [contraction?, hax, ho] at hstop
    cases hstop
  · have hsome : ∀ groups, o = some groups → Grouping ds dt groups := by
      rintro groups rfl
      exact contraction?_some hd ht hprod ho
    refine .inr ⟨o, ho, hsome, fun h => ?_, ?_⟩
    · obtain ⟨groups, rfl⟩ := Option.isSome_iff_exists.1 h
      exact ⟨groups, hsome groups rfl⟩
    · rintro ⟨groups, hg⟩
      rw [contraction?, hax] at ho
      exact (groupAxes_complete hpos (hfst.symm ▸ hg.groupable)).of_ok ho

example : contraction? (ofInts [2 ^ 31, 2 ^ 33]) (ofInts [2 ^ 32, 2 ^ 32]) =
    .error .arithmetic := rfl

end Shape

/-- A permuted reshape reads the old axes where the permuted groups, reshaped, read them. -/
lemma Movement.source_regrouped {ds dt p : List Int} {axes : List Nat}
    {groups flat : List (List Nat)} (hd : Extents ds) (hdt : Extents dt) (hprod : ds.prod = dt.prod)
    (hgroups : contraction? (ofInts ds) (ofInts dt) = .ok (some groups))
    (hflat : axes.mapM (nth groups) = .ok flat) (hp : axes.Perm (range dt.length))
    (hin : Shape.Inside (axes.map fun i => dt.getD i 0) p) :
    (permute flat.flatten).source ds ((reshape (ofInts (axes.map fun i => dt.getD i 0))).source
      (flat.flatten.map fun i => ds.getD i 0) p) =
      (reshape (ofInts dt)).source ds ((permute axes).source dt p) := by
  obtain ⟨hall, hgroup⟩ := contraction?_some (fun d h => (hd d h).1)
    (fun d h => (hdt d h).1) hprod hgroups
  have hpl : p.length = axes.length := by simpa using hin.length_eq
  have hq := (Takes.reorder hp).source_inside hdt hin
  have hdigits := Table.source_groups hd hall hgroup (reordered_eq (a := []) hflat) hp hq
  rw [reorder_source hp hpl] at hdigits
  simp only [source, ints?_ofInts, Option.getD_some] at hdigits ⊢
  refine source_permute_eq (flatten_perm hd hdt hprod hgroups hflat hp) ?_ ?_ hdigits
  · rw [length_place, length_map]
  · rw [length_place]

namespace Layout
variable {l l' : Layout} {m : Movement} {ds ds' p : List Int}

lemma placeOf_reshape (hs : l.shape.Sized ds) (hl : l.Sound) (ha : l.top.Aligned ds)
    (hflat : l.top.Flat) (hwhole : l.top.contiguous = true → l.top.mask = none)
    (hne : l.top.mask = none ∨ ds' ≠ []) (hd : Extents ds') (hprod : ds.prod = ds'.prod)
    (h : l.reshape (ofInts ds') = .ok l') (hp : Shape.Inside ds' p) :
    l'.placeOf p = l.placeOf ((Movement.reshape (ofInts ds')).source ds p) := by
  rw [Movement.source, ints?_ofInts, Option.getD_some]
  obtain ⟨w, rfl, hread⟩ | ⟨w, hw, rfl⟩ :=
    reshape_reads hs hl ha hflat hwhole hne hd hprod h
  · exact placeOf_reads (hread p hp).1
  · exact placeOf_buried hs hl hw hp

lemma placeOf_axisWise (ha : l.top.Aligned ds) (haxes : m.AxisWise l) (hm : m.Takes ds ds')
    (h : m.apply l = .ok l') (hp : Shape.Inside ds' p) :
    l'.placeOf p = l.placeOf (m.source ds p) := by
  obtain ⟨hbelow, es, hsize, _, hread⟩ := apply_reads ha haxes h
  cases hsize.det hm.resizes
  have hbehind : m.behind ds p = m.source ds p := by
    cases m with
    | pad pads | stride steps => exact hm.elim
    | _ => rfl
  obtain ⟨_, hread⟩ | ⟨⟨pads, rfl⟩, _⟩ := (hread p hp).1
  · rw [← hbehind]
    obtain ⟨top, below⟩ := l'
    obtain rfl : below = l.below := hbelow
    exact placeOf_reads hread
  · exact hm.elim

/-- A layout of these dimensions, as movements leave it. -/
structure Movable (l : Layout) (ds : List Int) : Prop where
  suits : l.Suits False ds
  framed : l.top.Framed

lemma Movable.aligned (hl : l.Movable ds) : l.top.Aligned ds := hl.framed.aligned hl.suits.sized.1

lemma Movable.reshape (hl : l.Movable ds) (hd : Extents ds') (hne : ds' ≠ [])
    (hprod : ds.prod = ds'.prod) :
    Returns (.abort .arithmetic) (l.reshape (ofInts ds')) (fun l' => l'.Movable ds' ∧
      ∀ p, Shape.Inside ds' p → l'.placeOf p = l.placeOf
        ((Movement.reshape (ofInts ds')).source ds p)) := by
  obtain hstop | ⟨l', h, hl'⟩ := reshape_returns hl.suits hd hprod
  · exact .inl hstop
  · have hframed : l'.top.Framed := apply_framed (m := .reshape _) hl.framed
      (Shape.Sized.written ⟨rfl, hd⟩) h
    exact .inr ⟨l', h, ⟨hl', hframed⟩, fun p hp =>
      placeOf_reshape hl.suits.sized hl.suits.sound hl.aligned hl.framed.made.flat
        hl.framed.made.whole (.inr hne) hd hprod h hp⟩

lemma Movable.permute {axes : List Nat} (hl : l.Movable ds)
    (hp : axes.Perm (range ds.length)) :
    Returns (.abort .arithmetic) (l.permute axes)
      (fun l' => l'.Movable (axes.map fun i => ds.getD i 0) ∧
      ∀ p, Shape.Inside (axes.map fun i => ds.getD i 0) p →
        l'.placeOf p = l.placeOf ((Movement.permute axes).source ds p)) := by
  obtain hstop | ⟨l', h, hl'⟩ := permute_returns hl.suits hp
  · exact .inl hstop
  · exact .inr ⟨l', h, ⟨hl', apply_framed (m := .permute axes) hl.framed trivial h⟩,
      fun p hin => placeOf_axisWise (m := .permute axes) hl.aligned trivial (.reorder hp) h hin⟩

section
variable {dt : List Int} {axes : List Nat} {groups flat : List (List Nat)} {l₁ l₂ : Layout}

/-- Two computations of a layout give this shape and the same offsets in it, unless a word
overflows. -/
structure SameOffsets (x y : Fallible Layout) (ds : List Int) : Prop where
  left : Returns (.abort .arithmetic) x (·.shape = ofInts ds)
  right : Returns (.abort .arithmetic) y (·.shape = ofInts ds)
  offsets : ∀ l₁ l₂, x = .ok l₁ → y = .ok l₂ → ∀ p, Shape.Inside ds p →
    l₁.offsetOf p = .error .arithmetic ∨ l₂.offsetOf p = .error .arithmetic ∨
      ∃ o, l₁.offsetOf p = .ok o ∧ l₂.offsetOf p = .ok o

lemma SameOffsets.of_places {x y : Fallible Layout} (place : List Int → Option Int)
    (hx : Returns (.abort .arithmetic) x fun l => l.Movable ds ∧ ∀ p, Shape.Inside ds p →
      l.placeOf p = place p)
    (hy : Returns (.abort .arithmetic) y fun l => l.Movable ds ∧ ∀ p, Shape.Inside ds p →
      l.placeOf p = place p) :
    SameOffsets x y ds := by
  refine ⟨hx.weaken fun l hl => hl.1.suits.sized.1, hy.weaken fun l hl => hl.1.suits.sized.1,
    fun l₁ l₂ h₁ h₂ p hp => ?_⟩
  obtain ⟨hl₁, hp₁⟩ := hx.of_ok h₁
  obtain ⟨hl₂, hp₂⟩ := hy.of_ok h₂
  obtain h | h := offsetOf_eq_placeOf hl₁.suits.sound.below p
  · exact .inl h
  obtain h' | h' := offsetOf_eq_placeOf hl₂.suits.sound.below p
  · exact .inr (.inl h')
  exact .inr (.inr ⟨_, h.trans (by rw [hp₁ p hp]), h'.trans (by rw [hp₂ p hp])⟩)

lemma Movable.regrouped (hl : l.Movable ds) (hdt : Extents dt) (hne : dt ≠ [])
    (hprod : ds.prod = dt.prod)
    (hgroups : contraction? (ofInts ds) (ofInts dt) = .ok (some groups))
    (hflat : axes.mapM (nth groups) = .ok flat) (hp : axes.Perm (range dt.length)) :
    SameOffsets (do (← l.reshape (ofInts dt)).permute axes)
      (do (← l.permute flat.flatten).reshape (ofInts (axes.map fun i => dt.getD i 0)))
      (axes.map fun i => dt.getD i 0) := by
  have hd := hl.suits.sized.2
  have hperm := flatten_perm hd hdt hprod hgroups hflat hp
  have haxes : (axes.map fun i => dt.getD i 0) ≠ [] := by
    intro hnil
    have := hp.length_eq
    rw [map_eq_nil_iff.1 hnil, length_nil, length_range] at this
    exact hne (length_eq_zero_iff.1 this.symm)
  have hprod' : (flat.flatten.map fun i => ds.getD i 0).prod =
      (axes.map fun i => dt.getD i 0).prod := by
    rw [prod_reorder hperm, prod_reorder hp, hprod]
  refine .of_places (fun p => l.placeOf ((Movement.reshape (ofInts dt)).source ds
    ((Movement.permute axes).source dt p))) ?_ ?_
  · refine (hl.reshape hdt hne hprod).bind fun l₁ _ h₁ =>
      (h₁.1.permute hp).weaken fun l₂ h₂ =>
      ⟨h₂.1, fun p hin => ?_⟩
    rw [h₂.2 p hin, h₁.2 _ ((Movement.Takes.reorder hp).source_inside hdt hin)]
  · refine (hl.permute hperm).bind fun l₁ _ h₁ =>
      (h₁.1.reshape (hdt.reorder hp) haxes hprod').weaken
      fun l₂ h₂ => ⟨h₂.1, fun p hin => ?_⟩
    have htakes : (Movement.reshape (ofInts (axes.map fun i => dt.getD i 0))).Takes
      (flat.flatten.map fun i => ds.getD i 0) _ := ⟨rfl, hprod'⟩
    rw [h₂.2 p hin, h₁.2 _ (htakes.source_inside (hd.reorder hperm) hin),
      source_regrouped hd hdt hprod hgroups hflat hp hin]

lemma mapM_nth_of_perm {α : Type} {xs : List α} (h : axes.Perm (range xs.length)) (a : α) :
    axes.mapM (nth xs) = .ok (axes.map fun i => xs.getD i a) := by
  refine mapM_eq_ok.2 (forall₂_map_right_iff.2 (forall₂_same.2 fun i hi => ?_))
  have hlt := perm_lt h hi
  rw [getD_eq_getElem _ _ hlt]
  exact nth_eq_ok.2 (getElem?_eq_getElem hlt)

/-- A reshape that joins axes is recognized, and a permutation passes it, unless a word overflows on
the way. No axis of the layout has been broadcast to a negative number of entries. -/
theorem permute_of_contraction (hd : Extents ds) (hdt : Extents dt) (hprod : ds.prod = dt.prod)
    (hne : dt ≠ []) :
    contraction? (ofInts ds) (ofInts dt) = .error .arithmetic ∧ ¬Fits ds.prod ∨
      ∃ o, contraction? (ofInts ds) (ofInts dt) = .ok o ∧
        (o.isSome = true ↔ ∃ groups, Shape.Grouping ds dt groups) ∧
        ∀ groups, o = some groups → Shape.Grouping ds dt groups ∧
          ∀ axes, axes.Perm (range dt.length) → ∃ flat, axes.mapM (nth groups) = .ok flat ∧
            ∀ start ms l, Shape.Written start →
              (∀ m ∈ ms, Movement.Written m ∧ m.Upward) →
              run start ms = .ok l → l.shape = ofInts ds →
                SameOffsets (do (← l.reshape (ofInts dt)).permute axes)
                  (do (← l.permute flat.flatten).reshape (ofInts (axes.map fun i => dt.getD i 0)))
                  (axes.map fun i => dt.getD i 0) := by
  obtain hstop | ⟨o, ho, hsome, hiff⟩ := contraction?_iff (fun d h => (hd d h).1)
    (fun d h => (hdt d h).1) hprod
  · exact .inl hstop
  refine .inr ⟨o, ho, hiff, fun groups hg => ⟨hsome groups hg, fun axes hp => ?_⟩⟩
  subst hg
  have hflat := mapM_nth_of_perm
    ((hsome groups rfl).2.length_eq ▸ hp : axes.Perm (range groups.length)) []
  refine ⟨_, hflat, fun start ms l hstart hms hrun hs => ?_⟩
  have hl : l.Movable ds := ⟨⟨⟨hs, hd⟩, run_sound hstart (fun m h => (hms m h).1)
    (fun m h => (hms m h).2) hrun, fun h => h.elim⟩, run_framed hstart (fun m h =>
    (hms m h).1) hrun⟩
  exact hl.regrouped hdt hne hprod ho hflat hp

/-- Rows walked backwards behind a border, with the last two axes joined. -/
theorem backwards_permute_of_contraction : ∃ l l₁ l₂,
    run (ofInts [2, 3, 4]) [.stride [1, -1, 1], .pad [(1, 0), (0, 0), (0, 1)]] = .ok l ∧
    contraction? l.shape (ofInts [3, 15]) = .ok (some [[0], [1, 2]]) ∧
    l.reshape (ofInts [3, 15]) >>= (·.permute [1, 0]) = .ok l₁ ∧
    l.permute [1, 2, 0] >>= (·.reshape (ofInts [15, 3])) = .ok l₂ ∧
    l₁.offsetOf [7, 2] = .ok (some 18) ∧ l₁.offsetOf [9, 1] = .ok none ∧
    ∀ p, Shape.Inside [15, 3] p → l₁.offsetOf p = .error .arithmetic ∨
      l₂.offsetOf p = .error .arithmetic ∨
      ∃ o, l₁.offsetOf p = .ok o ∧ l₂.offsetOf p = .ok o := by
  obtain ⟨l, hl⟩ : ∃ l, run (ofInts [2, 3, 4])
    [.stride [1, -1, 1], .pad [(1, 0), (0, 0), (0, 1)]] = .ok l := ⟨_, rfl⟩
  have hs : l.shape = ofInts [3, 3, 5] := by
    cases hl
    rfl
  have hd : Extents [3, 3, 5] := by decide
  have hdt : Extents [3, 15] := by decide
  obtain ⟨_, hn⟩ | ⟨o, ho, -, hgroups⟩ :=
    permute_of_contraction hd hdt (by decide) (by decide)
  · exact (hn (by decide)).elim
  have hfound : contraction? (ofInts [3, 3, 5]) (ofInts [3, 15]) = .ok (some [[0], [1, 2]]) := rfl
  cases ho.symm.trans hfound
  obtain ⟨flat, hflat, hsame⟩ := (hgroups _ rfl).2 [1, 0] (by decide)
  cases hflat
  have h :=
    (hsame _ _ l (written_ofInts (by decide)) (by simp [Movement.Written, Movement.Upward])
    hl hs).offsets
  cases hl
  exact ⟨_, _, _, rfl, rfl, rfl, rfl, rfl, rfl, h _ _ rfl rfl⟩

/-- In the other order the sum of the strides can leave the range of a word on its way. -/
theorem permute_of_contraction_overflows : ∃ l l₁ l₂,
    run (ofInts [2, 2, 2, 2 ^ 59]) [.shrink [(0, 2), (0, 2), (0, 2), (0, 1)],
      .reshape (ofInts [2, 2, 2]), .stride [1, -1, 1], .pad [(2, 0), (5, 0), (9, 0)]] = .ok l ∧
    contraction? l.shape (ofInts [28, 11]) = .ok (some [[0, 1], [2]]) ∧
    l.reshape (ofInts [28, 11]) >>= (·.permute [1, 0]) = .ok l₁ ∧
    l.permute [2, 0, 1] >>= (·.reshape (ofInts [11, 28])) = .ok l₂ ∧
    l₁.offsetOf [10, 27] = .ok (some (5 * 2 ^ 59)) ∧
    l₂.offsetOf [10, 27] = .error .arithmetic :=
  ⟨_, _, _, rfl, rfl, rfl, rfl, rfl, rfl⟩

end

end Layout

end LazyTensor
