import LazyTensor.Proofs.Layout.Source

/-! What a moved view reads. -/
namespace LazyTensor
open Checked SymInt List Shape View Layout Option Movement
variable {α β : Type} {k : Nat} {s : Shape}
variable {xs : List α} {ys : List β} {a : α}
variable {ds : List Int} {n : Int} {l : Layout}

lemma getElem?_zip {b : β} (ha : xs[k]? = some a) (hb : ys[k]? = some b) :
    (xs.zip ys)[k]? = some (a, b) :=
  getElem?_zip_eq_some.2 ⟨ha, hb⟩

/-- Lists are related axis by axis. -/
lemma forall₂_iff_axes {R : α → β → Prop} : Forall₂ R xs ys ↔ xs.length = ys.length ∧
      ∀ {k : Nat} {x : α} {y : β}, xs[k]? = some x → ys[k]? = some y → R x y := by
  rw [forall₂_iff_zip]
  refine and_congr_right fun _ => ⟨fun h k x y hx hy => ?_, fun h x y hxy => ?_⟩
  · exact h (mem_of_getElem? (getElem?_zip hx hy))
  · obtain ⟨k, hk⟩ := mem_iff_getElem?.1 hxy
    obtain ⟨hx, hy⟩ := getElem?_zip_eq_some.1 hk
    exact h hx hy

lemma exists_getElem? (h : xs.length = ys.length) (hk : xs[k]? = some a) :
    ∃ b, ys[k]? = some b := by
  obtain ⟨hlt, _⟩ := List.getElem?_eq_some_iff.1 hk
  exact ⟨_, getElem?_eq_getElem (h ▸ hlt)⟩

lemma Shape.getElem?_ofInts {d : Int} (h : ds[k]? = some d) : (ofInts ds)[k]? = some (.num d) := by
  rw [ofInts, getElem?_map, h]
  rfl

lemma Shape.written_ofInts (h : ∀ d ∈ ds, Fits d) : (ofInts ds).Written := by
  intro d hd
  obtain ⟨n, hn, rfl⟩ := List.mem_map.1 hd
  exact ⟨.num n (h n hn), rfl⟩

lemma Shape.Written.fits (hs : s.Written) (h : num n ∈ s) : Fits n := by
  obtain ⟨f, hf⟩ := hs _ h
  exact (f.inRange_lo.means hf).regular.lo_fits

namespace View
variable {v w : View} {ds ds' p q strides steps : List Int} {shape target : Shape}
  {window : List (Int × Int)} {given mask : Option Mask} {old moved : Mask} {offset : Int}
variable {r r' : Int × Int} {pads ranges : List (Int × Int)} {axes : List Nat} {i s d : Int}
variable {m : Mask}

/-! Views as movements leave them. -/

def Made (v : View) : Prop := ∃ shape strides offset mask, make shape strides offset mask = .ok v

/-- What the range takes in lies on the axis. -/
def OnAxis (d : SymInt) (r : Int × Int) : Prop :=
  ∀ i, r.1 ≤ i → i < r.2 → 0 ≤ i ∧ i < d.hi

lemma OnAxis.whole (h : OnAxis (num 1) r) (hlow : r.1 ≤ 0) (hhigh : 0 < r.2) : r = (0, 1) := by
  have h0 := h r.1 le_rfl
  have h1 := h (r.2 - 1)
  rw [hi_num] at h0 h1
  exact Prod.ext (by dsimp only; omega) (by dsimp only; omega)

structure Framed (v : View) : Prop where
  made : v.Made
  dims : v.shape.Written
  mask : ∀ m, v.mask = some m → List.Forall₂ OnAxis v.shape m

lemma Framed.of_make (h : make shape strides offset mask = .ok w) (hd : shape.Written)
    (hm : ∀ m, mask = some m → Forall₂ OnAxis shape m) : w.Framed := by
  obtain ⟨_, hshape, _, _, hmask⟩ := make_eq h
  refine ⟨⟨_, _, _, _, h⟩, hshape ▸ hd, fun m hm' => ?_⟩
  rw [hmask] at hm'
  rw [hshape]
  exact hm m (filter_eq_some_iff.1 hm').1

lemma Framed.strides_length (hv : v.Framed) : v.strides.length = v.shape.length := by
  obtain ⟨_, _, _, _, h⟩ := hv.made
  obtain ⟨hlen, hshape, hstrides, _⟩ := make_eq h
  rw [hstrides, hshape, length_dropUnitStrides hlen]

lemma ofShape_framed (hd : shape.Written) (h : ofShape shape = .ok w) : w.Framed := by
  obtain ⟨_, _, _, _, h⟩ := ofShape_eq h
  exact .of_make h hd (by simp)

lemma moveMask_eq (h : moveMask old window = .ok moved) : moved = (old.zip window).map
    (fun x => (max (x.1.1 - x.2.1) 0, min (x.1.2 - x.2.1) (x.2.2 - x.2.1))) := by
  refine eq_map_of_mapM (fun x _ y hy => ?_) h
  simp only [bind_eq_ok, sub_eq_ok, pure_eq_ok] at hy
  obtain ⟨_, ⟨_, rfl⟩, _, ⟨_, rfl⟩, _, ⟨_, rfl⟩, rfl⟩ := hy
  rfl

lemma resize_framed (hv : v.Framed) (hgiven : ∀ g, given = some g →
      Forall₂ OnAxis (ofInts (window.map (fun r => r.2 - r.1))) g)
    (h : v.resize window given = .ok w) : w.Framed := by
  obtain ⟨_, mask, _, _, hmask, hfits, hmake⟩ := resize_eq h
  refine .of_make hmake (written_ofInts fun d hd => ?_) fun m hm => ?_
  · obtain ⟨r, hr, rfl⟩ := List.mem_map.1 hd
    exact hfits r hr
  unfold windowMask at hmask
  cases hold : v.mask with
  | none =>
    rw [hold] at hmask
    cases hmask
    exact hgiven m hm
  | some old =>
    simp only [hold, bind_eq_ok, pure_eq_ok] at hmask
    obtain ⟨moved, hmoved, rfl⟩ := hmask
    have hlen : old.length = window.length := by
      have := (make_eq hmake).1
      rw [hv.strides_length, ofInts, length_map, length_map] at this
      rw [← (hv.mask old hold).length_eq, this]
    have hon : Forall₂ OnAxis (ofInts (window.map (fun r => r.2 - r.1))) moved := by
      rw [moveMask_eq hmoved]
      refine forall₂_iff_axes.2 ⟨by simp [ofInts, hlen], fun {k d r} hd hr i h1 h2 => ?_⟩
      simp only [ofInts, getElem?_map, map_eq_some_iff] at hd hr
      obtain ⟨_, ⟨b, hb, rfl⟩, rfl⟩ := hd
      obtain ⟨x, hx, rfl⟩ := hr
      cases hb.symm.trans (getElem?_zip_eq_some.1 hx).2
      rw [hi_num]
      omega
    cases hm
    cases given with
    | none => exact hon
    | some g =>
      obtain ⟨hglen, hg⟩ := forall₂_iff_axes.1 (hgiven g rfl)
      refine forall₂_iff_axes.2 ⟨by simp [meetMasks, ← hglen, ← hon.length_eq],
        fun {k d r} hd hr i h1 h2 => ?_⟩
      obtain ⟨a, b, ha, _, rfl⟩ := getElem?_zipWith_eq_some.1 hr
      exact hg hd ha i (by omega) (by omega)

lemma pad_framed (hv : v.Framed) (h : v.pad pads = .ok w) : w.Framed := by
  obtain ⟨_, hneg, ⟨rfl, _⟩ | ⟨ds, _, h⟩⟩ := pad_eq h
  · exact hv
  refine resize_framed hv (fun g hg => ?_) h
  cases hg
  refine forall₂_iff_axes.2 ⟨by simp [ofInts], fun {k d r} hd hr i h1 h2 => ?_⟩
  simp only [ofInts, getElem?_map, map_eq_some_iff] at hd
  obtain ⟨_, ⟨b, hb, rfl⟩, rfl⟩ := hd
  obtain ⟨d, a, hd, ha, rfl⟩ := getElem?_zipWith_eq_some.1 hb
  obtain ⟨d', a', hd', ha', rfl⟩ := getElem?_zipWith_eq_some.1 hr
  cases hd.symm.trans hd'
  cases ha.symm.trans ha'
  have := hneg a (mem_of_getElem? ha)
  rw [hi_num]
  omega

lemma shrink_framed (hv : v.Framed) (h : v.shrink ranges = .ok w) : w.Framed := by
  obtain ⟨_, _, _, h⟩ := shrink_eq h
  exact resize_framed hv (by simp) h

lemma permute_framed (hv : v.Framed) (h : v.permute axes = .ok w) : w.Framed := by
  obtain ⟨hperm, hmake⟩ := permute_eq h
  have hlt {i : Nat} (hi : i ∈ axes) : i < v.shape.length := mem_range.1 (hperm.subset hi)
  refine .of_make hmake (fun d hd => ?_) fun m hm => ?_
  · obtain ⟨i, hi, rfl⟩ := List.mem_map.1 hd
    rw [getD_eq_getElem _ _ (hlt hi)]
    exact hv.dims _ (getElem_mem _)
  · obtain ⟨old, hold, rfl⟩ := map_eq_some_iff.1 hm
    have hon := hv.mask old hold
    rw [forall₂_map_left_iff, forall₂_map_right_iff, forall₂_same]
    intro i hi
    have hi' : i < old.length := hon.length_eq ▸ hlt hi
    rw [getD_eq_getElem _ _ (hlt hi), getD_eq_getElem _ _ hi']
    exact hon.get (hlt hi) hi'

lemma lt_ceil (hs : 0 < s) : i < (n + s - 1) / s ↔ i * s < n := by
  rw [← Int.add_one_le_iff, Int.le_ediv_iff_mul_le hs, add_mul, one_mul]
  omega

/-- The coordinate behind a coordinate of an axis that is walked in steps. -/
def behindStep (d s i : Int) : Int := (if s < 0 then d - 1 else 0) + i * s

lemma behindStep_between (hs : s ≠ 0) :
    0 ≤ behindStep d s i ∧ behindStep d s i < d ↔ 0 ≤ i ∧ i < (d + |s| - 1) / |s| := by
  have hge : 0 ≤ i ↔ 0 ≤ i * |s| := (mul_nonneg_iff_of_pos_right (abs_pos.2 hs)).symm
  rw [lt_ceil (abs_pos.2 hs), hge]
  unfold behindStep
  split
  · rename_i hneg
    rw [abs_of_neg hneg, mul_neg]
    omega
  · rename_i hpos
    rw [abs_of_nonneg (by omega)]
    omega

lemma strideRange_between (hs : s ≠ 0) (h : strideRange r d s = .ok r') :
    r'.1 ≤ i ∧ i < r'.2 ↔ r.1 ≤ behindStep d s i ∧ behindStep d s i < r.2 := by
  have habs : 0 < (s.natAbs : Int) := by omega
  unfold behindStep
  by_cases hneg : s < 0
  · simp only [strideRange, if_neg (show ¬0 < s by omega), bind_eq_ok, abs_eq_ok, pure_eq_ok,
      euclidDiv_eq_ok, sub_eq_ok, add_eq_ok] at h
    obtain ⟨_, ⟨_, rfl⟩, _, ⟨_, rfl⟩, _, ⟨_, rfl⟩, _,
      ⟨_, ⟨_, rfl⟩, _, ⟨_, rfl⟩, _, _, rfl⟩, _,
      ⟨_, ⟨_, rfl⟩, _, ⟨_, rfl⟩, _, _, rfl⟩, rfl⟩ := h
    rw [if_pos hneg, ← not_lt, lt_ceil habs, lt_ceil habs,
      show (s.natAbs : Int) = -s by omega, mul_neg]
    omega
  · simp only [strideRange, if_pos (show 0 < s by omega), bind_eq_ok, abs_eq_ok, pure_eq_ok,
      euclidDiv_eq_ok, sub_eq_ok, add_eq_ok] at h
    obtain ⟨_, ⟨_, rfl⟩, _, rfl, _, rfl, _,
      ⟨_, ⟨_, rfl⟩, _, ⟨_, rfl⟩, _, _, rfl⟩, _,
      ⟨_, ⟨_, rfl⟩, _, ⟨_, rfl⟩, _, _, rfl⟩, rfl⟩ := h
    rw [if_neg hneg, ← not_lt, lt_ceil habs, lt_ceil habs, show (s.natAbs : Int) = s by omega]
    omega

lemma stride_framed (hv : v.Framed) (h : v.stride steps = .ok w) : w.Framed := by
  obtain ⟨_, hne, _, shape, mask, _, _, hdims, hmask, h⟩ := stride_eq h
  refine .of_make h (fun d hd => ?_) fun m hm => ?_
  · obtain ⟨x, hmem, hr⟩ := exists_of_mem_right hdims hd
    obtain ⟨hd', hm⟩ := of_mem_zip hmem
    obtain ⟨f, hf⟩ := hv.dims _ hd'
    obtain ⟨_, _, _, hbuild⟩ := strideDim_build hf (hne _ hm) hr
    exact ⟨_, hbuild⟩
  obtain ⟨_, rfl⟩ | ⟨ds, old, moved, hs, hold, rfl, hmoved⟩ := hmask
  · cases hm
  cases hm
  obtain ⟨hlen, hon⟩ := forall₂_iff_axes.1 (hv.mask old hold)
  obtain ⟨hlen1, hdim⟩ := forall₂_iff_axes.1 hdims
  obtain ⟨hlen2, hrange⟩ := forall₂_iff_axes.1 hmoved
  have hds' : v.shape.length = ds.length := by rw [hs, ofInts, length_map]
  refine forall₂_iff_axes.2 ⟨?_, fun {k d r} hd hr i h1 h2 => ?_⟩
  · simp only [length_zip] at hlen1 hlen2
    omega
  obtain ⟨⟨a, n, s⟩, hx⟩ := exists_getElem? hlen2.symm hr
  obtain ⟨ha, hns⟩ := getElem?_zip_eq_some.1 hx
  obtain ⟨hn, hstep⟩ := getElem?_zip_eq_some.1 hns
  have hat : v.shape[k]? = some (num n) := hs ▸ getElem?_ofInts hn
  have hd' := hdim (getElem?_zip hat hstep) hd
  rw [strideDim_num hd', hi_num]
  have hs0 := hne s (mem_of_getElem? hstep)
  obtain ⟨hb1, hb2⟩ := (strideRange_between hs0 (hrange hx hr)).1 ⟨h1, h2⟩
  exact (behindStep_between hs0).1 (by simpa using hon hat ha _ hb1 hb2)

lemma dealNonUnit_onAxis (h : Forall₂ OnAxis (target.filter (fun d => !d.is 1)) m) :
    Forall₂ OnAxis target (dealNonUnit (0, 1) (0, 0) target m) := by
  induction target generalizing m with
  | nil => exact .nil
  | cons d target ih =>
    rw [dealNonUnit.eq_def]
    by_cases hd : d.is 1 = true
    · rw [filter_cons_of_neg (by simpa using hd)] at h
      simp only [hd, if_true]
      refine .cons (fun i h1 h2 => ?_) (ih h)
      rw [eq_num_of_num? (of_decide_eq_true hd), hi_num]
      exact ⟨h1, h2⟩
    · rw [filter_cons_of_pos (by simpa using hd)] at h
      cases h with
      | cons hr hrest =>
        simp only [hd, Bool.false_eq_true, if_false]
        exact .cons hr (ih hrest)

lemma keepNonUnit_onAxis (h : Forall₂ OnAxis shape m) :
    Forall₂ OnAxis (shape.filter (fun d => !d.is 1)) (keepNonUnit shape m) := by
  induction h with
  | nil => exact .nil
  | @cons d r shape m hr _ ih =>
    by_cases hd : d.is 1 = true
    · simpa [keepNonUnit, hd] using ih
    · have hkeep : keepNonUnit (d :: shape) (r :: m) = r :: keepNonUnit shape m := by
        simp [keepNonUnit, hd]
      rw [filter_cons_of_pos (by simpa using hd), hkeep]
      exact .cons hr ih

lemma hi_of_beq {d t : SymInt} (hd : ∃ f : Formula, f.build = .ok d)
    (ht : ∃ f : Formula, f.build = .ok t) (h : (d == t) = true) : d.hi = t.hi := by
  obtain ⟨f, hf⟩ := hd
  obtain ⟨g, hg⟩ := ht
  rw [SymInt.hi, SymInt.hi, (agree_of_beq (f.inRange_lo.means hf).regular.readable
    (g.inRange_lo.means hg).regular.readable h).range]

lemma onAxis_congr (hs : shape.Written) (ht : target.Written) (h : (shape == target) = true)
    (hm : Forall₂ OnAxis shape m) : Forall₂ OnAxis target m := by
  induction hm generalizing target with
  | nil =>
    cases target with
    | nil => exact .nil
    | cons => cases h
  | @cons d r shape m hr _ ih =>
    cases target with
    | nil => cases h
    | cons t target =>
      rw [cons_beq_cons, Bool.and_eq_true] at h
      obtain ⟨hd, hs⟩ := forall_mem_cons.1 hs
      obtain ⟨ht', ht⟩ := forall_mem_cons.1 ht
      exact .cons (fun i h1 h2 => hi_of_beq hd ht' h.1 ▸ hr i h1 h2) (ih hs ht h.2)

lemma reshape?_framed (hv : v.Framed) (hd : target.Written) (h : v.reshape? target = .ok (some w)) :
    w.Framed := by
  obtain ⟨_, ⟨⟩⟩ | ⟨_, ⟨_, ⟨⟩, hw, _⟩ | ⟨_, ⟨⟩, hw, heq⟩ | ⟨⟨⟩,
    _⟩⟩ := reshape?_cases h
  · exact hv
  · exact ofShape_framed hd hw
  refine .of_make hw hd fun m hm => ?_
  obtain ⟨old, hold, rfl⟩ := map_eq_some_iff.1 hm
  split
  · rw [forall₂_map_right_iff, forall₂_same]
    intro d _ i h1 h2
    omega
  · refine dealNonUnit_onAxis (onAxis_congr (fun d hd => ?_) (fun d hd' => ?_) heq
      (keepNonUnit_onAxis (hv.mask old hold)))
    · exact hv.dims d (mem_of_mem_filter hd)
    · exact hd d (mem_of_mem_filter hd')

lemma expand_framed (hv : v.Framed) (hd : target.Written) (h : v.expand target = .ok w) :
    w.Framed := by
  obtain ⟨hrank, ⟨_, h⟩ | ⟨_, _, mask, hmask, h⟩⟩ := expand_eq h
  · exact ofShape_framed hd h
  refine .of_make h hd fun m hm => ?_
  obtain ⟨_, rfl⟩ | ⟨old, moved, hold, rfl, hmoved⟩ := hmask
  · cases hm
  cases hm
  obtain ⟨hlen, hon⟩ := forall₂_iff_axes.1 (hv.mask old hold)
  obtain ⟨hlen', hrange⟩ := forall₂_iff_axes.1 hmoved
  refine forall₂_iff_axes.2 ⟨?_, fun {k t r} ht hr i h1 h2 => ?_⟩
  · simp only [length_zip] at hlen'
    omega
  obtain ⟨⟨⟨a, d⟩, t'⟩, hx⟩ := exists_getElem? hlen'.symm hr
  obtain ⟨had, ht'⟩ := getElem?_zip_eq_some.1 hx
  obtain ⟨ha, hd'⟩ := getElem?_zip_eq_some.1 had
  obtain rfl : t = t' := some.inj (ht.symm.trans ht')
  replace hrange : v.expandRange a d t = .ok r := hrange hx hr
  unfold expandRange at hrange
  split at hrange
  · rename_i heq
    cases hrange
    exact hi_of_beq (hv.dims d (mem_of_getElem? hd')) (hd t (mem_of_getElem? ht)) heq ▸
      hon hd' ha i h1 h2
  split at hrange
  · cases hn : t.num? with
    | none =>
      rw [hn] at hrange
      cases hrange
    | some n =>
      rw [hn] at hrange
      cases hrange
      rw [eq_num_of_num? hn, hi_num]
      exact ⟨h1, h2⟩
  · cases hrange
    omega

/-! Positions and masks, axis by axis. -/

lemma passes_iff : passes p m = true ↔
    ∀ {k : Nat} {i : Int} {r : Int × Int}, p[k]? = some i → m[k]? = some r → r.1 ≤ i ∧
    i < r.2 := by
  simp only [passes, List.all_eq_true, Bool.and_eq_true, decide_eq_true_eq]
  constructor
  · intro h k i r hi hr
    exact h (i, r) (mem_of_getElem? (getElem?_zip hi hr))
  · intro h x hx
    obtain ⟨k, hk⟩ := mem_iff_getElem?.1 hx
    obtain ⟨hi, hr⟩ := getElem?_zip_eq_some.1 hk
    exact h hi hr

lemma passes_congr {m' : Mask} (hm : m.length = p.length) (hq : q.length = p.length)
    (hm' : m'.length = p.length)
    (h : ∀ {k : Nat} {i j : Int} {r r' : Int × Int}, p[k]? = some i →
      m[k]? = some r → q[k]? = some j → m'[k]? = some r' →
        (r.1 ≤ i ∧ i < r.2 ↔ r'.1 ≤ j ∧ j < r'.2)) :
    passes p m = passes q m' := by
  rw [Bool.eq_iff_iff, passes_iff, passes_iff]
  constructor
  · intro hp k j r' hj hr'
    obtain ⟨i, hi⟩ := exists_getElem? hq hj
    obtain ⟨r, hr⟩ := exists_getElem? hm.symm hi
    exact (h hi hr hj hr').1 (hp hi hr)
  · intro hp k i r hi hr
    obtain ⟨j, hj⟩ := exists_getElem? hq.symm hi
    obtain ⟨r', hr'⟩ := exists_getElem? hm'.symm hi
    exact (h hi hr hj hr').2 (hp hj hr')

lemma passes_meet {a b : Mask} (hlen : a.length = b.length) :
    passes p (meetMasks a b) = (passes p a && passes p b) := by
  rw [Bool.eq_iff_iff, Bool.and_eq_true, passes_iff, passes_iff, passes_iff]
  constructor
  · intro h
    refine ⟨fun {k i r} hi hr => ?_, fun {k i s} hi hs => ?_⟩
    · obtain ⟨s, hs⟩ := exists_getElem? hlen hr
      have := h hi (getElem?_zipWith_eq_some.2 ⟨r, s, hr, hs, rfl⟩)
      omega
    · obtain ⟨r, hr⟩ := exists_getElem? hlen.symm hs
      have := h hi (getElem?_zipWith_eq_some.2 ⟨r, s, hr, hs, rfl⟩)
      omega
  · rintro ⟨ha, hb⟩ k i r hi hr
    obtain ⟨x, y, hx, hy, rfl⟩ := getElem?_zipWith_eq_some.1 hr
    have := ha hi hx
    have := hb hi hy
    omega

/-! What is read behind a position. -/

/-- The view has these numbers for dimensions, a stride for each, and masks what lies on the
axes. -/
structure Aligned (v : View) (ds : List Int) : Prop where
  shape : v.shape = Shape.ofInts ds
  dims_fit : ∀ d ∈ ds, Fits d
  strides_length : v.strides.length = ds.length
  mask : ∀ m, v.mask = some m → List.Forall₂ OnAxis (Shape.ofInts ds) m

lemma Aligned.mask_length (hv : v.Aligned ds) (hm : v.mask = some m) : m.length = ds.length := by
  rw [← (hv.mask m hm).length_eq, ofInts, length_map]

lemma Framed.aligned (hv : v.Framed) (hs : v.shape = ofInts ds) : v.Aligned ds where
  shape := hs
  dims_fit d hd := hv.dims.fits (hs ▸ List.mem_map_of_mem hd)
  strides_length := by rw [hv.strides_length, hs, ofInts, length_map]
  mask m hm := hs ▸ hv.mask m hm

/-- At a position the first view reads and hides what the second one does at another. -/
structure Reads (w v : View) (p q : List Int) : Prop where
  allows : w.allows p = v.allows q
  place : w.offset + (List.zipWith (· * ·) p w.strides).sum =
    v.offset + (List.zipWith (· * ·) q v.strides).sum

lemma make_reads (h : make (ofInts ds) strides offset mask = .ok w) (hp : Inside ds p) :
    w.allows p = mask.all (passes p) ∧ w.offset + (zipWith (· * ·) p w.strides).sum =
      offset + (zipWith (· * ·) p strides).sum := by
  obtain ⟨_, _, hstrides, ho, _⟩ := make_eq h
  have hsame :=
    (make_same (v := { shape := .ofInts ds, strides, offset, mask, contiguous := false })
    h hp.holds).2
  refine ⟨?_, by rw [ho, hstrides, products_dropUnitStrides hp.holds]⟩
  rw [hsame]
  cases mask with
  | none => rfl
  | some m => exact allows_eq rfl

lemma allows_all (v : View) (p : List Int) : v.allows p = v.mask.all (passes p) := by
  cases hm : v.mask with
  | none => rw [allows, hm]; rfl
  | some m => exact allows_eq hm

def behindWindow (window : List (Int × Int)) (p : List Int) : List Int :=
  List.zipWith (fun r i => r.1 + i) window p

lemma resize_shape (h : v.resize window given = .ok w) :
    w.shape = ofInts (window.map (fun r => r.2 - r.1)) := by
  obtain ⟨_, _, _, _, _, _, hmake⟩ := resize_eq h
  exact (make_eq hmake).2.1

/-- The way to a position of a window. The strides of axes that the window leaves one position of
are dropped. -/
lemma resize_place (hlen : window.length = v.strides.length) (h : v.resize window given = .ok w)
    (hp : p.length = window.length)
    (hsteps : zipWith (· * ·) p w.strides = zipWith (· * ·) p v.strides) :
    w.offset + (zipWith (· * ·) p w.strides).sum =
      v.offset + (zipWith (· * ·) (behindWindow window p) v.strides).sum := by
  obtain ⟨shift, _, hshift, _, _, _, hmake⟩ := resize_eq h
  simp only [originShift, bind_eq_ok] at hshift
  obtain ⟨parts, hparts, hshift⟩ := hshift
  have hparts' : parts = (v.strides.zip window).map (fun y => y.1 * y.2.1) :=
    eq_map_of_mapM (fun y _ z hz => (mul_eq_ok.1 hz).2.symm) hparts
  rw [(make_eq hmake).2.2.2.1, hsteps, behindWindow, ← sum_shrink hlen hp, sum_eq hshift,
    hparts', add_assoc]

lemma resize_reads (hv : v.Aligned ds) (hlen : window.length = ds.length)
    (hgiven : ∀ g, given = some g → g.length = window.length)
    (h : v.resize window given = .ok w) (hp : Inside (window.map (fun r => r.2 - r.1)) p) :
    w.allows p = (given.all (passes p) && v.allows (behindWindow window p)) ∧
      w.offset + (zipWith (· * ·) p w.strides).sum =
        v.offset + (zipWith (· * ·) (behindWindow window p) v.strides).sum := by
  obtain ⟨shift, mask, _, _, hmask, _, hmake⟩ := resize_eq h
  obtain ⟨hallows, _⟩ := make_reads hmake hp
  have hplen : p.length = window.length := by simpa using hp.length_eq
  refine ⟨?_, resize_place (hlen.trans hv.strides_length.symm) h hplen
    (by rw [(make_eq hmake).2.2.1, products_dropUnitStrides hp.holds])⟩
  rw [hallows, allows_all v]
  unfold windowMask at hmask
  cases hold : v.mask with
  | none =>
    rw [hold] at hmask
    cases hmask
    simp
  | some old =>
    simp only [hold, bind_eq_ok, pure_eq_ok] at hmask
    obtain ⟨moved, hmoved, rfl⟩ := hmask
    have hold' : old.length = window.length := (hv.mask_length hold).trans hlen.symm
    have hmlen : moved.length = window.length := by
      rw [moveMask_eq hmoved, length_map, length_zip, hold', min_self]
    have hpass : passes p moved = passes (behindWindow window p) old := by
      refine passes_congr (hmlen.trans hplen.symm) (by simp [behindWindow, hplen])
        (hold'.trans hplen.symm) fun {k i j r r'} hi hr hj hr' => ?_
      obtain ⟨b, i', hb, hi', rfl⟩ := getElem?_zipWith_eq_some.1 hj
      obtain rfl : i = i' := some.inj (hi.symm.trans hi')
      rw [moveMask_eq hmoved, getElem?_map,
        getElem?_zip hr' hb] at hr
      cases hr
      have := (forall₂_iff_axes.1 hp).2 hi (by rw [getElem?_map, hb]; rfl)
      dsimp only at this ⊢
      omega
    cases given with
    | none => simpa using hpass
    | some g => simpa [← hpass] using passes_meet (p := p) ((hgiven g rfl).trans hmlen.symm)

/-- The position before a pad, outside where it is padding. -/
def behindPad (pads : List (Int × Int)) (p : List Int) : List Int :=
  List.zipWith (fun a i => i - a.1) pads p

lemma behindWindow_pad (hlen : ds.length = pads.length) (p : List Int) :
    behindWindow (zipWith (fun d a => (-a.1, d + a.2)) ds pads) p = behindPad pads p :=
  ext_getElem (by simp [behindWindow, behindPad, hlen]) fun k _ _ => by
    simp [behindWindow, behindPad, neg_add_eq_sub]

lemma behindPad_zero (hzero : ∀ a ∈ pads, a = (0, 0)) (hp : p.length = pads.length) :
    behindPad pads p = p :=
  ext_getElem (by simp [behindPad, hp]) fun k _ _ => by simp [behindPad, hzero _ (getElem_mem _)]

lemma passes_padding (hlen : ds.length = pads.length) (hp : p.length = ds.length) :
    passes p (zipWith (fun d (a : Int × Int) => (a.1, d + a.1)) ds pads) = true ↔
      Inside ds (behindPad pads p) := by
  rw [passes_iff]
  constructor
  · intro h
    refine forall₂_iff_axes.2 ⟨by simp [behindPad, hlen, hp], fun {k j d} hj hd => ?_⟩
    obtain ⟨a, i, ha, hi, rfl⟩ := getElem?_zipWith_eq_some.1 hj
    have := h hi (getElem?_zipWith_eq_some.2 ⟨d, a, hd, ha, rfl⟩)
    omega
  · intro h k i r hi hr
    obtain ⟨d, a, hd, ha, rfl⟩ := getElem?_zipWith_eq_some.1 hr
    have := (forall₂_iff_axes.1 h).2 (getElem?_zipWith_eq_some.2 ⟨a, i, ha, hi, rfl⟩) hd
    omega

lemma pad_reads (hv : v.Aligned ds) (h : v.pad pads = .ok w) : ds.length = pads.length ∧
      w.shape = ofInts (zipWith (fun d a => d + a.1 + a.2) ds pads) ∧
      ∀ p, Inside (zipWith (fun d a => d + a.1 + a.2) ds pads) p →
        (w.allows p = true ↔ Inside ds (behindPad pads p) ∧
          v.allows (behindPad pads p) = true) ∧
          w.offset + (zipWith (· * ·) p w.strides).sum =
            v.offset + (zipWith (· * ·) (behindPad pads p) v.strides).sum := by
  obtain ⟨hlen, _, hpad⟩ := pad_eq h
  rw [hv.shape, ofInts, length_map] at hlen
  obtain ⟨rfl, hzero⟩ | ⟨ds, hs, h⟩ := hpad
  · have hds : zipWith (fun d (a : Int × Int) => d + a.1 + a.2) ds pads = ds :=
      ext_getElem (by simp [hlen]) fun k _ _ => by simp [hzero _ (getElem_mem _)]
    rw [hds]
    refine ⟨hlen, hv.shape, fun p hp => ?_⟩
    rw [behindPad_zero hzero (hp.length_eq.trans hlen)]
    exact ⟨(and_iff_right hp).symm, rfl⟩
  cases ofInts_inj (hv.shape.symm.trans hs)
  have hwin : (zipWith (fun d (a : Int × Int) => (-a.1, d + a.2)) ds pads).map
      (fun r => r.2 - r.1) = zipWith (fun d a => d + a.1 + a.2) ds pads := by
    rw [map_zipWith]
    congr 1
    funext d a
    ring
  refine ⟨hlen, by rw [resize_shape h, hwin], fun p hp => ?_⟩
  have hplen : p.length = ds.length := by simpa [hlen] using hp.length_eq
  obtain ⟨hallows, hplace⟩ := resize_reads hv (by simp [hlen]) (fun g hg => by cases hg; simp) h
    (hwin ▸ hp)
  rw [behindWindow_pad hlen] at hallows hplace
  exact ⟨by rw [hallows, all_some, Bool.and_eq_true, passes_padding hlen hplen], hplace⟩

lemma shrink_reads (hv : v.Aligned ds) (h : v.shrink ranges = .ok w) : ds.length = ranges.length ∧
      w.shape = ofInts (ranges.map (fun r => r.2 - r.1)) ∧
      ∀ p, Inside (ranges.map (fun r => r.2 - r.1)) p →
        Inside ds (behindWindow ranges p) ∧ w.Reads v p (behindWindow ranges p) := by
  obtain ⟨_, hs, hranges, h⟩ := shrink_eq h
  cases ofInts_inj (hv.shape.symm.trans hs)
  have hlen := hranges.length_eq
  refine ⟨hlen, resize_shape h, fun p hp => ?_⟩
  obtain ⟨hallows, hplace⟩ := resize_reads hv hlen.symm (by simp) h hp
  refine ⟨forall₂_iff_axes.2 ⟨?_, fun {k j d} hj hd => ?_⟩,
    by simpa using hallows, hplace⟩
  · simp [behindWindow, hlen, hp.length_eq]
  · obtain ⟨r, i, hr, hi, rfl⟩ := getElem?_zipWith_eq_some.1 hj
    have hin := (forall₂_iff_axes.1 hp).2 hi (by rw [getElem?_map, hr]; rfl)
    have hrange := (forall₂_iff_axes.1 hranges).2 hd hr
    dsimp only at hin ⊢
    omega

lemma permute_reads (hv : v.Aligned ds) (h : v.permute axes = .ok w) :
    axes.Perm (List.range ds.length) ∧ w.shape = ofInts (axes.map (fun i => ds.getD i 0)) ∧
      ∀ p, Inside (axes.map (fun i => ds.getD i 0)) p →
        Inside ds ((Movement.permute axes).source ds p) ∧
          w.Reads v p ((Movement.permute axes).source ds p) := by
  obtain ⟨hperm, hmake⟩ := permute_eq h
  rw [hv.shape, ofInts, length_map] at hperm
  rw [hv.shape, ← ofInts_map] at hmake
  refine ⟨hperm, (make_eq hmake).2.1, fun p hp => ⟨reorder_inside hperm hp, ?_⟩⟩
  have hlen : p.length = ds.length := by simpa [hperm.length_eq] using hp.length_eq
  obtain ⟨hallows, hplace⟩ := make_reads hmake hp
  refine ⟨?_, ?_⟩
  · rw [hallows, allows_all v]
    cases hm : v.mask with
    | none => rfl
    | some m => exact passes_permute hperm hlen (hv.mask_length hm)
  · rw [hplace, sum_permute hperm hlen hv.strides_length]

def behindSteps (ds steps p : List Int) : List Int :=
  List.zipWith (fun x i => behindStep x.1 x.2 i) (ds.zip steps) p

lemma flipOffset_sum {o : Int} (hd : ds.length = steps.length) (hs : strides.length = ds.length)
    (hp : p.length = ds.length)
    (h : v.flipOffset offset (((ofInts ds).zip strides).zip steps) = .ok o) :
    o + (zipWith (· * ·) p (zipWith (· * ·) strides steps)).sum =
      offset + (zipWith (· * ·) (behindSteps ds steps p) strides).sum := by
  induction ds generalizing steps strides p offset with
  | nil =>
    cases length_eq_zero_iff.1 hs
    cases length_eq_zero_iff.1 hp
    cases h
    simp
  | cons d ds ih =>
    cases steps with
    | nil => cases hd
    | cons s steps =>
      cases strides with
      | nil => cases hs
      | cons st strides =>
        cases p with
        | nil => cases hp
        | cons i p =>
          have hd' : ds.length = steps.length := by simpa using hd
          have hs' : strides.length = ds.length := by simpa using hs
          have hp' : p.length = ds.length := by simpa using hp
          simp only [ofInts, map_cons, zip_cons_cons, flipOffset] at h
          have hcons : behindSteps (d :: ds) (s :: steps) (i :: p) =
            behindStep d s i :: behindSteps ds steps p := rfl
          rw [hcons, zipWith_cons_cons, zipWith_cons_cons, zipWith_cons_cons,
            sum_cons, sum_cons, behindStep]
          split at h
          · rename_i hneg
            simp only [num?, bind_eq_ok, lift_eq_ok, sub_eq_ok, mul_eq_ok, add_eq_ok] at h
            obtain ⟨_, ⟨_, rfl⟩, _, ⟨_, rfl⟩, _, ⟨_, rfl⟩, h⟩ := h
            rw [if_pos hneg]
            linear_combination ih hd' hs' hp' h
          · rename_i hpos
            rw [if_neg hpos]
            linear_combination ih hd' hs' hp' h

lemma stride_reads (hv : v.Aligned ds) (h : v.stride steps = .ok w) : ds.length = steps.length ∧
      w.shape = ofInts (zipWith (fun d s => (d + |s| - 1) / |s|) ds steps) ∧
      ∀ p, Inside (zipWith (fun d s => (d + |s| - 1) / |s|) ds steps) p →
        Inside ds (behindSteps ds steps p) ∧ w.Reads v p (behindSteps ds steps p) := by
  obtain ⟨hlen, hzero, offset, shape, mask, hoffset, _, hdims, hmask, hmake⟩ := stride_eq h
  rw [hv.shape] at hlen hdims
  rw [ofInts, length_map] at hlen
  rw [strideDims_ofInts hdims] at hmake
  refine ⟨hlen, (make_eq hmake).2.1, fun p hp => ?_⟩
  obtain ⟨hallows, hplace⟩ := make_reads hmake hp
  have hplen : p.length = ds.length := by simpa [hlen] using hp.length_eq
  have hblen : (behindSteps ds steps p).length = p.length := by simp [behindSteps, hlen, hplen]
  refine ⟨forall₂_iff_axes.2 ⟨hblen.trans hplen, fun {k j d} hj hd => ?_⟩, ?_, ?_⟩
  · obtain ⟨x, i, hx, hi, rfl⟩ := getElem?_zipWith_eq_some.1 hj
    obtain ⟨hxd, hxs⟩ := getElem?_zip_eq_some.1 hx
    obtain rfl : d = x.1 := some.inj (hd.symm.trans hxd)
    refine (behindStep_between (hzero _ (mem_of_getElem? hxs))).2 ?_
    exact (forall₂_iff_axes.1 hp).2 hi (getElem?_zipWith_eq_some.2 ⟨_, _, hxd, hxs, rfl⟩)
  · rw [hallows, allows_all v]
    obtain ⟨hold, rfl⟩ | ⟨ds, old, moved, hs, hold, rfl, hmoved⟩ := hmask
    · rw [hold]
      rfl
    · cases ofInts_inj (hv.shape.symm.trans hs)
      obtain ⟨hlen', hrange⟩ := forall₂_iff_axes.1 hmoved
      have hold' := hv.mask_length hold
      rw [hold, all_some, all_some]
      simp only [length_zip] at hlen'
      refine passes_congr (by omega) hblen (by omega) fun {k i j r' r} hi hr' hj hr => ?_
      obtain ⟨x, i', hx, hi', rfl⟩ := getElem?_zipWith_eq_some.1 hj
      obtain rfl : i = i' := some.inj (hi.symm.trans hi')
      exact strideRange_between (hzero _ (mem_of_getElem? (getElem?_zip_eq_some.1 hx).2))
        (hrange (getElem?_zip hr hx) hr')
  · rw [hv.shape] at hoffset
    rw [hplace, flipOffset_sum hlen hv.strides_length hplen hoffset]

lemma not_inside_of_zero (h : (ofInts ds).any (·.is 0) = true) : ¬Inside ds p := by
  intro hp
  obtain ⟨d, hd, h0⟩ := List.any_eq_true.1 h
  obtain ⟨n, hn, rfl⟩ := List.mem_map.1 hd
  have := hp.pos n hn
  have := is_num.1 h0
  omega

lemma expandRange_between {t : Int} (hr : OnAxis (num d) r)
    (h : v.expandRange r (.num d) (.num t) = .ok r') (ht : t = d ∨ d = 1)
    (hi : 0 ≤ i ∧ i < t) :
    r'.1 ≤ i ∧ i < r'.2 ↔ r.1 ≤ (if d = 1 then 0 else i) ∧
      (if d = 1 then 0 else i) < r.2 := by
  unfold expandRange at h
  split at h
  · rename_i heq
    have := eq_of_num_beq heq
    cases h
    split
    · obtain rfl : i = 0 := by omega
      rfl
    · rfl
  rename_i hne
  have hd : d = 1 := by
    refine ht.resolve_left fun heq => hne ?_
    rw [heq]
    exact beq_self_eq_true (SymInt.key _)
  rw [if_pos hd]
  split at h
  · rename_i hr1
    cases h
    rw [hr1]
    simpa using hi
  · rename_i hr1
    cases h
    subst hd
    have : ¬(r.1 ≤ 0 ∧ 0 < r.2) := fun h => hr1 (hr.whole h.1 h.2)
    omega

section
variable (hv : v.Aligned ds) (hzero : v.shape.any (·.is 0) = false)
  (h : v.expand (ofInts ds') = .ok w)
include hv hzero h

lemma expand_axes : Forall₂ (fun d t => t = d ∨ d = 1) ds ds' := by
  obtain ⟨hlen, ⟨h0, _⟩ | ⟨_, hall, _⟩⟩ := expand_eq h
  · cases h0.symm.trans hzero
  rw [hv.shape] at hlen hall
  simp only [ofInts, length_map] at hlen
  refine forall₂_iff_axes.2 ⟨hlen, fun {k d t} hd ht => ?_⟩
  obtain ⟨st, hst⟩ := exists_getElem? hv.strides_length.symm hd
  have := List.all_eq_true.1 hall _ (mem_of_getElem? (getElem?_zip (getElem?_zip
    (getElem?_ofInts hd) (getElem?_ofInts ht)) hst))
  simp only [Bool.or_eq_true, Bool.and_eq_true] at this
  exact this.imp (fun h => (eq_of_num_beq h).symm) fun h => is_num.1 h.1

lemma expand_reads : ds.length = ds'.length ∧ w.shape = ofInts ds' ∧ ∀ p, Inside ds' p →
      Inside ds (squash ds p) ∧ w.Reads v p (squash ds p) := by
  have haxes := expand_axes hv hzero h
  have hlen := haxes.length_eq
  obtain ⟨_, ⟨h0, _⟩ | ⟨_, hall, mask, hmask, h⟩⟩ := expand_eq h
  · cases h0.symm.trans hzero
  rw [hv.shape] at hall hmask
  refine ⟨hlen, (make_eq h).2.1, fun p hp => ?_⟩
  obtain ⟨hallows, hplace⟩ := make_reads h hp
  refine ⟨squash_inside haxes hp, ?_, ?_⟩
  · rw [hallows, allows_all v]
    obtain ⟨hold, rfl⟩ | ⟨old, moved, hold, rfl, hmoved⟩ := hmask
    · rw [hold]
      rfl
    · obtain ⟨hlen', hon⟩ := forall₂_iff_axes.1 (hv.mask old hold)
      obtain ⟨hlen'', hrange⟩ := forall₂_iff_axes.1 hmoved
      have hplen := hp.length_eq
      rw [hold, all_some, all_some]
      simp only [length_zip, ofInts, length_map] at hlen' hlen''
      refine passes_congr (by omega) (by simp [squash]; omega) (by omega)
        fun {k i j r' r} hi hr' hj hr => ?_
      obtain ⟨d, i', hd, hi', rfl⟩ := getElem?_zipWith_eq_some.1 hj
      obtain rfl : i = i' := some.inj (hi.symm.trans hi')
      obtain ⟨t, ht⟩ := exists_getElem? hlen hd
      have hat := getElem?_ofInts hd
      exact expandRange_between (hon hat hr)
        (hrange (getElem?_zip (getElem?_zip hr hat) (getElem?_ofInts ht)) hr')
        ((forall₂_iff_axes.1 haxes).2 hd ht)
        ((forall₂_iff_axes.1 hp).2 hi ht)
  · rw [hplace, sum_expand hp hlen hall]

end

/-- Moving unit axes keeps what the other ones read and hide. Where no axis is left nothing can be
hidden. -/
lemma moveUnits_reads (hv : v.Aligned ds) (hne : v.mask = none ∨ ds' ≠ [])
    (heq : ds.filter (fun d => d ≠ 1) = ds'.filter (fun d => d ≠ 1))
    (h : v.moveUnits (ofInts ds') = .ok w) (hp : Inside ds' p) :
    Inside ds (place ds (Shape.rank ds' p)) ∧
      w.Reads v p (place ds (Shape.rank ds' p)) ∧
        w.offsetAt p = v.offsetAt (place ds (Shape.rank ds' p)) := by
  have hpos : ∀ d ∈ ds, 0 < d := by
    intro d hd
    by_cases h1 : d = 1
    · omega
    · have hmem : d ∈ ds'.filter (fun d => d ≠ 1) :=
        heq ▸ mem_filter.2 ⟨hd, by simpa using h1⟩
      exact hp.pos d (mem_of_mem_filter hmem)
  have hq := place_inside hpos (Shape.rank ds' p)
  -- the position with the same coordinates on the axes that are longer than one
  have hkeep : keepNonUnit (ofInts ds) (place ds (Shape.rank ds' p)) =
      keepNonUnit (ofInts ds') p := by
    rw [keepNonUnit_place, heq, ← keepNonUnit_place, place_rank hp]
  rw [moveUnits_eq, hv.shape] at h
  obtain ⟨hallows, hplace⟩ := make_reads h hp
  obtain ⟨_, _, hstrides, ho, _⟩ := make_eq h
  have hways : (zipWith (· * ·) p w.strides).filter (· ≠ 0) =
      (zipWith (· * ·) (place ds (Shape.rank ds' p)) v.strides).filter (· ≠ 0) := by
    rw [hstrides, products_dropUnitStrides hp.holds, products_dealNonUnit hp, ← hkeep,
      products_keepNonUnit hq hv.strides_length]
  refine ⟨hq, ⟨?_, ?_⟩, ?_⟩
  · rw [hallows, allows_all v]
    cases hm : v.mask with
    | none => rfl
    | some m =>
      refine passes_dealMask hq hp (hv.mask_length hm) (hne.resolve_left (by simp [hm]))
        (fun x hx h1 hlow hhigh => ?_) heq hkeep
      have hon := (forall₂_iff_zip.1 (hv.mask m hm)).2 hx
      rw [eq_num_of_num? (of_decide_eq_true h1)] at hon
      exact hon.whole hlow hhigh
  · rw [ho, ← sum_filter_ne_zero, hways, sum_filter_ne_zero]
  · rw [offsetAt_products, offsetAt_products, ho, ← sumWords_filter, hways, sumWords_filter]

end View

lemma Movement.apply_framed {l' : Layout} {m : Movement} (hl : l.top.Framed) (hw : m.Written)
    (h : m.apply l = .ok l') : l'.top.Framed := by
  cases m with
  | reshape target =>
    obtain ⟨w, hw', rfl⟩ | ⟨_, _, extra, hextra, ⟨w, hmerge, rfl⟩ | rfl⟩ :=
      reshape_cases h
    · exact reshape?_framed hl hw hw'
    · obtain ⟨_, _, _, _, _, _, _, _, hmake⟩ := mergeViews_some hmerge
      rw [View.ofShape_shape hextra, ofShape_mask hextra] at hmake
      exact .of_make hmake hw (by simp)
    · exact ofShape_framed hw hextra
  | pad pads =>
    obtain ⟨top, htop, rfl⟩ := map_eq_ok.1 h
    exact pad_framed hl htop
  | shrink ranges =>
    obtain ⟨top, htop, rfl⟩ := map_eq_ok.1 h
    exact shrink_framed hl htop
  | expand target =>
    obtain ⟨top, htop, rfl⟩ := map_eq_ok.1 h
    exact expand_framed hl hw htop
  | permute axes =>
    obtain ⟨top, htop, rfl⟩ := map_eq_ok.1 h
    exact permute_framed hl htop
  | stride steps =>
    obtain ⟨top, htop, rfl⟩ := map_eq_ok.1 h
    exact stride_framed hl htop

lemma Movement.run_framed {ms : List Movement} (hs : s.Written)
    (hw : ∀ m ∈ ms, m.Written) (h : run s ms = .ok l) : l.top.Framed := by
  obtain ⟨start, hstart, h⟩ := bind_eq_ok.1 h
  obtain ⟨top, htop, rfl⟩ := map_eq_ok.1 hstart
  exact foldlM_induction (fun l => l.top.Framed)
    (fun _ m _ hmem hl h => apply_framed hl (hw m hmem) h) (ofShape_framed hs htop) h

/-! Layouts before and after a movement. -/

namespace Movement
variable {m : Movement} {l l' : Layout} {ds : List Int}

/-- Where the element at a position comes from, for every movement but a reshape. Behind padding
there is no position of the shape. -/
def behind (ds p : List Int) : Movement → List Int
  | pad pads => View.behindPad pads p
  | stride steps => View.behindSteps ds steps p
  | m => m.source ds p

/-- The movement is no reshape, and broadcasts to numbers only and nothing that is empty. -/
def AxisWise (l : Layout) : Movement → Prop
  | reshape _ => False
  | expand target => target.allInt = true ∧ l.shape.any (·.is 0) = false
  | _ => True

/-- A movement of the axes gives the dimensions it says, and reads behind each position. -/
lemma apply_reads (hl : l.top.Aligned ds) (hm : m.AxisWise l)
    (h : m.apply l = .ok l') : l'.below = l.below ∧ ∃ ds', m.Resizes ds ds' ∧
      l'.shape = ofInts ds' ∧ ∀ p, Inside ds' p →
        (Inside ds (m.behind ds p) ∧ l'.top.Reads l.top p (m.behind ds p) ∨
          (∃ pads, m = pad pads) ∧ ¬Inside ds (m.behind ds p) ∧ l'.top.allows p = false) ∧
        l'.top.offset + (zipWith (· * ·) p l'.top.strides).sum =
          l.top.offset + (zipWith (· * ·) (m.behind ds p) l.top.strides).sum := by
  cases m with
  | reshape target => exact hm.elim
  | pad pads =>
    obtain ⟨top, htop, rfl⟩ := map_eq_ok.1 h
    obtain ⟨hlen, hshape, hread⟩ := pad_reads hl htop
    refine ⟨rfl, _, ⟨hlen, rfl⟩, hshape, fun p hp => ?_⟩
    obtain ⟨hallows, hplace⟩ := hread p hp
    refine ⟨?_, hplace⟩
    by_cases hin : Inside ds (behindPad pads p)
    · exact .inl ⟨hin, Bool.eq_iff_iff.2 (hallows.trans (and_iff_right hin)), hplace⟩
    · exact .inr ⟨⟨pads, rfl⟩, hin, Bool.eq_false_of_not_eq_true fun h =>
        hin (hallows.1 h).1⟩
  | shrink ranges =>
    obtain ⟨top, htop, rfl⟩ := map_eq_ok.1 h
    obtain ⟨hlen, hshape, hread⟩ := shrink_reads hl htop
    exact ⟨rfl, _, ⟨hlen, rfl⟩, hshape, fun p hp =>
      ⟨.inl (hread p hp), (hread p hp).2.place⟩⟩
  | permute axes =>
    obtain ⟨top, htop, rfl⟩ := map_eq_ok.1 h
    obtain ⟨hperm, hshape, hread⟩ := permute_reads hl htop
    exact ⟨rfl, _, ⟨hperm, rfl⟩, hshape, fun p hp =>
      ⟨.inl (hread p hp), (hread p hp).2.place⟩⟩
  | stride steps =>
    obtain ⟨top, htop, rfl⟩ := map_eq_ok.1 h
    obtain ⟨hlen, hshape, hread⟩ := stride_reads hl htop
    exact ⟨rfl, _, ⟨hlen, rfl⟩, hshape, fun p hp =>
      ⟨.inl (hread p hp), (hread p hp).2.place⟩⟩
  | expand target =>
    obtain ⟨top, htop, rfl⟩ := map_eq_ok.1 h
    obtain ⟨ds', rfl⟩ := ints_of_allInt hm.1
    obtain ⟨hlen, hshape, hread⟩ := expand_reads hl hm.2 htop
    exact ⟨rfl, _, ⟨rfl, hlen⟩, hshape, fun p hp =>
      ⟨.inl (hread p hp), (hread p hp).2.place⟩⟩

end Movement

namespace Layout
variable {l l' : Layout} {ds p q : List Int}

/-- Views that read the same lead to the same place, unless an offset is too large for a word. -/
lemma offsetOf_reads (hbelow : l'.below = l.below) (h : l'.top.Reads l.top p q) :
    l'.offsetOf p = .error .arithmetic ∨ l.offsetOf q = .error .arithmetic ∨
      l'.offsetOf p = l.offsetOf q := by
  simp only [offsetOf, h.allows, hbelow]
  split
  swap
  · exact .inr (.inr rfl)
  obtain h1 | ⟨x, hx⟩ := (offsetAt_overflow l'.top p).error_or_ok
  · exact .inl (by rw [h1]; rfl)
  obtain h2 | ⟨y, hy⟩ := (offsetAt_overflow l.top q).error_or_ok
  · exact .inr (.inl (by rw [h2]; rfl))
  have hxy : x = y := by rw [offsetAt_eq hx, offsetAt_eq hy, h.place]
  exact .inr (.inr (by rw [hx, hy, hxy]))

/-- Pad, shrink, permute, stride and expand mean what they say. For every layout of numbers that
movements lead to, the dimensions are those that the movement gives, and the place of a position is
that of the position behind it, none in padding. Where the two differ, an offset on the way is too
large for a word. -/
theorem offsetOf_moved {s : Shape} {ms : List Movement} {m : Movement} (hs : s.Written)
    (hms : ∀ x ∈ ms, x.Written) (hrun : run s ms = .ok l)
    (hshape : l.shape = Shape.ofInts ds) (hm : m.AxisWise l) (h : m.apply l = .ok l') :
    ∃ ds', m.Resizes ds ds' ∧ l'.shape = Shape.ofInts ds' ∧ ∀ p, Shape.Inside ds' p →
      Shape.Inside ds (m.behind ds p) ∧
          (l'.offsetOf p = .error .arithmetic ∨ l.offsetOf (m.behind ds p) =
            .error .arithmetic ∨
            l'.offsetOf p = l.offsetOf (m.behind ds p)) ∨
        (∃ pads, m = .pad pads) ∧ ¬Shape.Inside ds (m.behind ds p) ∧
        l'.offsetOf p = .ok none := by
  obtain ⟨hbelow, ds', hsize, hshape', hread⟩ :=
    apply_reads ((run_framed hs hms hrun).aligned hshape) hm h
  refine ⟨ds', hsize, hshape', fun p hp => (hread p hp).1.imp ?_ ?_⟩
  · exact fun ⟨hin, hread⟩ => ⟨hin, offsetOf_reads hbelow hread⟩
  · rintro ⟨hpad, hout, hhidden⟩
    exact ⟨hpad, hout, by rw [offsetOf, hhidden]; rfl⟩

/-- A padded shape that is walked backwards. -/
theorem padded_offsetOf_moved : ∃ l l', run [.num 3, .num 4]
    [.pad [(1, 1), (0, 2)]] = .ok l ∧
    (Movement.stride [-2, 1]).apply l = .ok l' ∧ l'.shape = [.num 3, .num 6] ∧
    l'.offsetOf [1, 2] = .ok (some 6) ∧ l'.offsetOf [0, 2] = .ok none ∧
    ∀ p, Shape.Inside [3, 6] p → Shape.Inside [5, 6] (View.behindSteps [5, 6] [-2, 1] p) ∧
      (l'.offsetOf p = .error .arithmetic ∨
        l.offsetOf (View.behindSteps [5, 6] [-2, 1] p) = .error .arithmetic ∨
        l'.offsetOf p = l.offsetOf (View.behindSteps [5, 6] [-2, 1] p)) := by
  obtain ⟨l, hl⟩ : ∃ l, Movement.run (Shape.ofInts [3, 4]) [.pad [(1, 1), (0, 2)]] = .ok l :=
    ⟨_, rfl⟩
  obtain ⟨l', hl'⟩ : ∃ l', (Movement.stride [-2, 1]).apply l = .ok l' := by
    cases hl
    exact ⟨_, rfl⟩
  have hshape : l.shape = Shape.ofInts [5, 6] := by
    cases hl
    rfl
  obtain ⟨ds', hsize, _, hread⟩ :=
    offsetOf_moved (m := .stride [-2, 1]) (Shape.written_ofInts (by decide))
    (by simp [Movement.Written]) hl hshape trivial hl'
  obtain rfl : ds' = [3, 6] := hsize.2.trans (by decide)
  refine ⟨l, l', hl, hl', ?_, ?_, ?_, fun p hp => (hread p hp).resolve_right ?_⟩
  · cases hl
    cases hl'
    rfl
  · cases hl
    cases hl'
    rfl
  · cases hl
    cases hl'
    rfl
  · rintro ⟨⟨_, ⟨⟩⟩, _⟩

/-- A pad moves the offset back by more than the axis is long, and the way forward to the element
is too long for a word. -/
theorem far_pad_overflows : ∃ l l', run [.num 2, .num (2 ^ 61)]
    [.shrink [(0, 2), (0, 1)]] = .ok l ∧
    (Movement.pad [(3, 0), (0, 0)]).apply l = .ok l' ∧ l'.offsetOf [4, 0] = .error .arithmetic ∧
    l.offsetOf ((Movement.pad [(3, 0), (0, 0)]).behind [2, 1] [4, 0]) = .ok (some (2 ^ 61)) :=
  ⟨_, _, rfl, rfl, rfl, rfl⟩

end Layout

end LazyTensor
