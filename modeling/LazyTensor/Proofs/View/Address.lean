import LazyTensor.Proofs.SymInt.Compare
import LazyTensor.Proofs.SymInt.Substitute
import LazyTensor.Proofs.View.Position

/-! The address of an element of a view with numbers for dimensions. -/
namespace LazyTensor
open List Shape

open Checked SymInt

variable {A : Assignment}
variable {N : Prop}

lemma SymInt.times_num {n c : Int} (hn : Fits n) (hc : Fits c) :
    Delivers N ((num n).times c) (fun r => r = num (n * c) ∧ Fits (n * c)) := by
  refine ⟨fun {r} h => ?_, fun _ => times_overflow _ _⟩
  have hm := times_means (A := Assignment.closed) (means_num hn) hc h
  obtain ⟨k, hk⟩ := Option.isSome_iff_exists.1 (isNum_closed.times rfl h)
  cases eq_num_of_num? hk
  have hv := hm.value
  rw [value_num] at hv
  subst hv
  have hf := hm.regular.lo_fits
  rw [lo_num] at hf
  exact ⟨rfl, hf⟩

lemma Shape.ints?_cons (d : SymInt) (ds : Shape) :
    ints? (d :: ds) = d.num?.bind (fun n => (ints? ds).map (n :: ·)) := by
  rw [ints?, mapM_cons]
  cases d.num? with
  | none => rfl
  | some n =>
    cases h : ints? ds with
    | none | some ns =>
      rw [ints?] at h
      simp [h]

lemma Shape.ints?_eq_some {shape : Shape} {dims : List Int} :
    shape.ints? = some dims ↔ shape = ofInts dims := by
  induction shape generalizing dims with
  | nil => cases dims <;> simp [ints?, ofInts]
  | cons d ds ih =>
    rw [ints?_cons]
    constructor
    · intro h
      obtain ⟨n, hn, h⟩ := Option.bind_eq_some_iff.1 h
      obtain ⟨ns, hns, rfl⟩ := Option.map_eq_some_iff.1 h
      rw [eq_num_of_num? hn, ih.1 hns]
      rfl
    · intro h
      cases dims with
      | nil => cases h
      | cons k ks =>
        obtain ⟨rfl, hds⟩ := cons.inj h
        rw [ih.2 hds]
        rfl

namespace View
variable {gs done rest : List (Int × Int)} {out : List (SymInt × Int)} {e idx : SymInt}
  {x o : Int} {terms : List SymInt} {mask : Mask} {position : List Int}

def axes (gs : List (Int × Int)) : List (SymInt × Int) := gs.map (fun g => (num g.1, g.2))

def Steps (gs : List (Int × Int)) : Prop := ∀ g ∈ gs, 0 < g.1 ∧ Fits g.1 ∧ Fits g.2

lemma Steps.prod_pos (h : Steps gs) : 0 < (gs.map Prod.fst).prod := by
  refine List.prod_pos (fun d hd => ?_)
  obtain ⟨g, hg, rfl⟩ := mem_map.1 hd
  exact (h g hg).1

lemma Steps.cons {g : Int × Int} (h : Steps (g :: gs)) :
    (0 < g.1 ∧ Fits g.1 ∧ Fits g.2) ∧ Steps gs := forall_mem_cons.1 h

lemma Steps.pos (h : Steps gs) : ∀ g ∈ gs, 0 < g.1 :=
  fun g hg => (h g hg).1

lemma is_num {n k : Int} : (num n).is k = true ↔ n = k := by
  simp [is, num?]

lemma mergeAxes_delivers (hd : Steps done) (hr : Steps rest) :
    Delivers N (mergeAxes (axes done) (axes rest)) (fun out => ∃ gs, out = axes gs ∧
      Steps gs ∧ ∀ x, spread gs x = spread (done.reverse ++ rest) x) := by
  induction rest generalizing done with
  | nil =>
    have hout : mergeAxes (axes done) (axes []) = .ok (axes done.reverse) := by
      rw [axes, axes, axes, map_nil, mergeAxes, map_reverse]
    rw [hout]
    exact .ok ⟨done.reverse, rfl, fun g hg => hd g (mem_reverse.1 hg), fun x => by simp⟩
  | cons g rest ih =>
    obtain ⟨hg, hrest⟩ := hr.cons
    obtain ⟨d', st'⟩ := g
    cases done with
    | nil =>
      exact (ih (show Steps [(d', st')] by simpa [Steps] using hg) hrest).weaken
        fun out h => by simpa using h
    | cons top done =>
      obtain ⟨htop, hdone⟩ := hd.cons
      obtain ⟨d, st⟩ := top
      -- the groups in front of the last one only see the product behind them
      have keep (ys : List (Int × Int)) (hsteps : Steps (ys.reverse ++ done))
          (hprod : ((ys ++ rest).map Prod.fst).prod = d * d' * (rest.map Prod.fst).prod)
          (hs : ∀ x, spread (ys ++ rest) x = spread ((d, st) :: (d', st') :: rest) x) :
          Delivers N (mergeAxes (axes (ys.reverse ++ done)) (axes rest))
            (fun out => ∃ gs, out = axes gs ∧
            Steps gs ∧ ∀ x, spread gs x = spread
              (((d, st) :: done).reverse ++ (d', st') :: rest) x) := by
        refine (ih hsteps hrest).weaken fun out h => ?_
        obtain ⟨gs, hgs, hst, hx⟩ := h
        refine ⟨gs, hgs, hst, fun x => ?_⟩
        rw [hx x, reverse_append, reverse_reverse, append_assoc, reverse_cons, append_assoc]
        exact spread_append_congr done.reverse (by rw [hprod]; simp [mul_assoc]) (hs x)
      rw [axes, axes, map_cons, map_cons, mergeAxes]
      refine (Delivers.word _).bind fun n hn => ?_
      obtain ⟨_, rfl⟩ := hn
      simp only [pure_bind]
      split
      · rename_i hjoin
        refine (times_num hg.2.1 htop.2.1).bind fun m hm => ?_
        obtain ⟨rfl, hf⟩ := hm
        rw [mul_comm] at hf ⊢
        refine keep [(d * d', st')] ?_ (by simp) fun x => (spread_merge hrest.pos hg.1 ?_).symm
        · exact forall_mem_cons.2 ⟨⟨mul_pos htop.1 hg.1, hf, hg.2.2⟩, hdone⟩
        · simpa [is_num] using hjoin
      split
      · rename_i hunit
        have hone : d' = 1 := is_num.1 hunit
        exact keep [(d, st)] hd (by simp [hone]) fun x => (spread_unit hone).symm
      · exact keep [(d, st), (d', st')] (forall_mem_cons.2 ⟨hg, hd⟩) (by simp [mul_assoc])
          fun x => rfl

/-- One digit of a row-major index, and the stride it is taken with. -/
structure Digit where
  place : Int
  base : Int
  stride : Int

def digitsOf : List (Int × Int) → List Digit
  | [] => []
  | (d, st) :: rest => ⟨(rest.map Prod.fst).prod, d, st⟩ :: digitsOf rest

lemma digitsOf_pos (h : Steps gs) :
    ∀ a ∈ digitsOf gs, 0 < a.place ∧ 0 < a.base ∧ Fits a.base ∧ Fits a.stride := by
  induction gs with
  | nil => simp [digitsOf]
  | cons g gs ih =>
    obtain ⟨⟨hd, hfd, hst⟩, hgs⟩ := h.cons
    exact forall_mem_cons.2 ⟨⟨hgs.prod_pos, hd, hfd, hst⟩, ih hgs⟩

def Digit.Reads (idx : SymInt) (a : Digit) (e : SymInt) : Prop :=
  ∃ q, idx.quotient a.place = .ok q ∧ q.remainder a.base = .ok e

def Digit.Term (idx : SymInt) (a : Digit) (t : SymInt) : Prop :=
  Fits a.place ∧ ∃ e, a.Reads idx e ∧ e.times a.stride = .ok t

lemma Digit.Reads.means {a : Digit} (h : a.Reads idx e) (hp : 0 < a.place)
    (hfp : Fits a.place) (hb : 0 < a.base) (hfb : Fits a.base) (hi : Means A idx x) :
    Means A e (x / a.place % a.base) := by
  obtain ⟨q, hq, hr⟩ := h
  exact remainder_means (quotient_means hi hp hfp hq) hb hfb hr

section
variable (hi : idx.Regular A.scope) (hg : Steps gs)
include hi hg

lemma addressTerms_delivers : Delivers A.Nonneg (addressTerms idx (axes gs)) (fun out =>
    out.2 = (gs.map Prod.fst).prod ∧ Fits out.2 ∧ Forall₂ (Digit.Term idx)
      (digitsOf gs).reverse out.1) := by
  induction gs with
  | nil => exact .ok ⟨rfl, fits_one, .nil⟩
  | cons g gs ih =>
    obtain ⟨⟨hd, hfd, hst⟩, hgs⟩ := hg.cons
    refine (ih hgs).bind fun out hout => ?_
    obtain ⟨_, _⟩ := out
    obtain ⟨rfl, hfi, hdigits⟩ := hout
    refine (quotient_delivers hi.means hgs.prod_pos hfi).with_eq.bind fun q hq => ?_
    refine (remainder_delivers hq.2 hd hfd).with_eq.bind fun e he =>
      (Delivers.word _).bind fun _ hnext => ?_
    refine (times_delivers he.2 hst).with_eq.bind fun t ht =>
      .ok ⟨by simp [hnext.2, num?, mul_comm], hnext.2 ▸ hnext.1, ?_⟩
    rw [digitsOf, reverse_cons]
    exact rel_append hdigits (.cons ⟨hfi, e, ⟨q, hq.1, he.1⟩, ht.1⟩ .nil)

lemma addressOuter_delivers : Delivers A.Nonneg (addressOuter idx (axes gs))
    (Forall₂ (Digit.Term idx) (digitsOf gs).reverse) := by
  cases gs with
  | nil => exact .ok .nil
  | cons g gs =>
    obtain ⟨⟨hd, hfd, hst⟩, hgs⟩ := hg.cons
    refine (addressTerms_delivers hi hgs).bind fun out hout => ?_
    obtain ⟨_, _⟩ := out
    obtain ⟨rfl, hfi, hdigits⟩ := hout
    refine (quotient_delivers hi.means hgs.prod_pos hfi).with_eq.bind fun q hq => ?_
    refine (remainder_delivers hq.2 hd hfd).with_eq.bind fun e he =>
      (times_delivers he.2 hst).with_eq.bind fun t ht => .ok ?_
    rw [digitsOf, reverse_cons]
    exact rel_append hdigits (.cons ⟨hfi, e, ⟨q, hq.1, he.1⟩, ht.1⟩ .nil)

end

lemma spread_digits (gs : List (Int × Int)) (x : Int) :
    ((digitsOf gs).reverse.map (fun a => x / a.place % a.base * a.stride)).sum = spread gs x := by
  rw [map_reverse, sum_reverse]
  induction gs with
  | nil => rfl
  | cons g gs ih => rw [digitsOf, map_cons, sum_cons, ih, spread]

lemma digits_means (hg : Steps gs) (hi : Means A idx x)
    (h : Forall₂ (Digit.Term idx) (digitsOf gs).reverse terms) :
    (∀ t ∈ terms, t.Regular A.scope) ∧ (terms.map (value A.value)).sum = spread gs x := by
  rw [← spread_digits]
  obtain ⟨hlen, hterm⟩ := forall₂_iff_zip.1 h
  refine means_all (forall₂_iff_zip.2 ⟨hlen, fun {a t} hat => ?_⟩)
  obtain ⟨hp, hb, hfb, hst⟩ := digitsOf_pos hg a (mem_reverse.1 (of_mem_zip hat).1)
  obtain ⟨hfp, e, hread, ht⟩ := hterm hat
  exact times_means (hread.means hp hfp hb hfb hi) hst ht

/-- The view has these numbers for dimensions, and its parts fit together. -/
structure Grid (v : View) (dims : List Int) : Prop where
  shape : v.shape = Shape.ofInts dims
  dims_fit : ∀ d ∈ dims, Fits d
  strides_length : v.strides.length = dims.length
  strides_fit : ∀ st ∈ v.strides, Fits st
  offset_fits : Fits v.offset
  mask_length : ∀ m, v.mask = some m → m.length = dims.length

lemma zip_axes (dims strides : List Int) : (ofInts dims).zip strides = axes (dims.zip strides) := by
  rw [ofInts, axes, zip_map_left]
  rfl

variable {v : View} {dims : List Int}

lemma Grid.steps (hv : v.Grid dims) (hpos : ∀ d ∈ dims, 0 < d) :
    Steps (dims.zip v.strides) := by
  intro g hg
  obtain ⟨hd, hs⟩ := of_mem_zip hg
  exact ⟨hpos _ hd, hv.dims_fit _ hd, hv.strides_fit _ hs⟩

/-- The axes of the view merge into groups of these sizes and strides. -/
structure Groups (v : View) (gs : List (Int × Int)) : Prop where
  merged : mergeAxes [] (v.shape.zip v.strides) = .ok (axes gs)
  steps : Steps gs
  offset_fits : Fits v.offset

lemma Grid.merges (hv : v.Grid dims) (hpos : ∀ d ∈ dims, 0 < d) :
    Delivers N (mergeAxes [] (v.shape.zip v.strides)) (fun out =>
      ∃ gs, out = axes gs ∧ Steps gs ∧ ∀ x, spread gs x =
        spread (dims.zip v.strides) x) := by
  rw [hv.shape, zip_axes]
  exact mergeAxes_delivers (show Steps [] by simp [Steps]) (hv.steps hpos)

lemma Grid.groups (hv : v.Grid dims) (hpos : ∀ d ∈ dims, 0 < d)
    (h : v.addressFlat idx = .ok e) :
    ∃ gs, v.Groups gs ∧ ∀ x, spread gs x = spread (dims.zip v.strides) x := by
  obtain ⟨_, hmerged, _⟩ := bind_eq_ok.1 h
  obtain ⟨gs, rfl, hgs, hspread⟩ := (hv.merges (N := True) hpos).of_ok hmerged
  exact ⟨gs, ⟨hmerged, hgs, hv.offset_fits⟩, hspread⟩

lemma Groups.addressFlat_delivers (hv : v.Groups gs) (hi : Means A idx x) :
    Delivers A.Nonneg (v.addressFlat idx) (Means A · (v.offset + spread gs x)) := by
  rw [addressFlat, hv.merged, ok_bind]
  refine (addressOuter_delivers hi.regular hv.steps).bind fun terms hterms => ?_
  obtain ⟨hreg, hsum⟩ := digits_means hv.steps hi hterms
  split
  · rename_i h0
    rw [h0, zero_add]
    exact hsum ▸ total_delivers hreg
  · have hm := total_delivers (N := A.Nonneg) (forall_mem_cons.2 ⟨.num hv.offset_fits, hreg⟩)
    rwa [map_cons, sum_cons, value_num, hsum] at hm

lemma addressFlat_delivers (hv : v.Grid dims) (hpos : ∀ d ∈ dims, 0 < d) (hi : Means A idx x) :
    Delivers A.Nonneg (v.addressFlat idx)
      (Means A · (v.offset + spread (dims.zip v.strides) x)) := by
  refine (hv.merges hpos).with_eq.bind fun out hout => ?_
  obtain ⟨hmerged, gs, rfl, hgs, hspread⟩ := hout
  have h := Groups.addressFlat_delivers ⟨hmerged, hgs, hv.offset_fits⟩ hi
  rwa [addressFlat, hmerged, hspread] at h

def passes (position : List Int) (mask : Mask) : Bool :=
  (position.zip mask).all (fun (i, lo, hi) => lo ≤ i && i < hi)

lemma maskConditions_delivers (hpos : ∀ d ∈ dims, 0 < d) (hfit : ∀ d ∈ dims, Fits d)
    (hlen : mask.length = dims.length) (hi : Means A idx x) :
    Delivers A.Nonneg (maskConditions idx ((ofInts dims).zip mask)) (fun out =>
      out.2 = dims.prod ∧ Fits out.2 ∧ (∀ c ∈ out.1, c.Condition A.scope) ∧
        ((∀ c ∈ out.1, c.value A.value = 1) ↔ passes (place dims x) mask = true)) := by
  induction dims generalizing mask with
  | nil =>
    cases length_eq_zero_iff.1 hlen
    exact .ok (by simp [passes, place, fits_one])
  | cons d ds ih =>
    cases mask with
    | nil => cases hlen
    | cons m mask =>
      obtain ⟨lo, hi'⟩ := m
      obtain ⟨hd, hds⟩ := forall_mem_cons.1 hpos
      obtain ⟨hfd, hfds⟩ := forall_mem_cons.1 hfit
      have hpass : passes (place (d :: ds) x) ((lo, hi') :: mask) = true ↔
          (lo ≤ x / ds.prod % d ∧ x / ds.prod % d < hi') ∧
          passes (place ds x) mask = true := by
        simp [passes, place]
      refine (ih hds hfds (by simpa using hlen)).bind fun out hout => ?_
      obtain ⟨cs, _⟩ := out
      obtain ⟨rfl, hfi, hcond, hval⟩ := hout
      have finish (own : List SymInt) (hoc : ∀ c ∈ own, c.Condition A.scope)
          (hov : (∀ c ∈ own, c.value A.value = 1) ↔
            lo ≤ x / ds.prod % d ∧ x / ds.prod % d < hi') : Delivers A.Nonneg
          (do pure (cs ++ own, ← mul ds.prod d) : Checked (List SymInt × Int)) (fun out =>
            out.2 = (d :: ds).prod ∧ Fits out.2 ∧ (∀ c ∈ out.1, c.Condition A.scope) ∧
              ((∀ c ∈ out.1, c.value A.value = 1) ↔
                passes (place (d :: ds) x) ((lo, hi') :: mask) = true)) := by
        refine (Delivers.word _).bind fun _ hnext => .ok ?_
        refine ⟨by simp [hnext.2, mul_comm], hnext.2 ▸ hnext.1,
          forall_mem_append.2 ⟨hcond, hoc⟩, ?_⟩
        rw [hpass, ← hval, forall_mem_append, hov]
        exact and_comm
      dsimp only [num?]
      split
      · refine (quotient_delivers hi (prod_pos hds) hfi).bind fun q hq => ?_
        refine (remainder_delivers hq hd hfd).bind fun p hp =>
          (atLeast_delivers hp).bind fun least hl => ?_
        exact (lessThan_delivers hp).bind fun most hh =>
          finish [least, most] (by simp [hl.condition, hh.condition])
          (by simp [hl.value, hh.value])
      · -- the range is the whole axis
        have h0 : 0 ≤ x / ds.prod % d := Int.emod_nonneg _ (by omega)
        have h1 : x / ds.prod % d < d := Int.emod_lt_of_pos _ hd
        exact finish [] (by simp) (by simp; omega)

lemma allows_eq (h : v.mask = some mask) : v.allows position = passes position mask := by
  rw [allows, h]
  rfl

lemma valid_delivers {given : Option SymInt} {p : Prop} (hv : v.Grid dims)
    (hpos : ∀ d ∈ dims, 0 < d) (hi : Means A idx x)
    (hg : (∀ g ∈ given, g.Condition A.scope) ∧
      ((∀ g ∈ given, g.value A.value = 1) ↔ p)) :
    Delivers A.Nonneg (v.valid idx given)
      (Decides A · (p ∧ v.allows (place dims x) = true)) := by
  have hgiven : ∀ e ∈ given.toList, e.Condition A.scope := by simpa using hg.1
  unfold valid
  cases hm : v.mask with
  | none =>
    refine .ok ((conjunction_decides hgiven).congr ?_)
    simpa [allows, hm] using hg.2
  | some mask =>
    rw [hv.shape]
    refine (maskConditions_delivers hpos hv.dims_fit (hv.mask_length mask hm) hi).bind
      fun out hout => .ok ?_
    obtain ⟨_, _, hcond, hval⟩ := hout
    refine (conjunction_decides (forall_mem_append.2 ⟨hgiven, hcond⟩)).congr ?_
    rw [allows_eq hm, ← hval, ← hg.2]
    simp [or_imp, forall_and]

/-! The address of a position. -/

lemma offsetAt_products (v : View) (position : List Int) :
    v.offsetAt position = sumWords (zipWith (· * ·) position v.strides) >>= add v.offset := by
  rw [offsetAt, sumWords, ← map_uncurry_zip_eq_zipWith, mapM_map, bind_assoc]
  rfl

lemma offsetAt_eq (h : v.offsetAt position = .ok o) :
    o = v.offset + (zipWith (· * ·) position v.strides).sum := by
  rw [offsetAt_products] at h
  obtain ⟨s, hs, h⟩ := bind_eq_ok.1 h
  rw [← (add_eq_ok.1 h).2, sumWords_eq hs]

lemma offsetAt_overflow (v : View) (position : List Int) : OnlyOverflow (v.offsetAt position) :=
  (OnlyOverflow.mapM (fun _ _ => OnlyOverflow.word _)).bind (fun _ _ =>
    (OnlyOverflow.sum _).bind (fun _ _ => OnlyOverflow.word _))

lemma offsetAt_place (hv : v.Grid dims) (h : v.offsetAt (place dims x) = .ok o) :
    o = v.offset + spread (dims.zip v.strides) x := by
  rw [offsetAt_eq h, spread_zip dims v.strides hv.strides_length.symm]

end View

end LazyTensor
