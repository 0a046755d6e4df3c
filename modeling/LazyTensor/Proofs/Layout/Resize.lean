import LazyTensor.Proofs.Layout.Dims
import Mathlib.Algebra.Order.Ring.Abs

/-! Dimensions after any movement, also where it pads, skips elements or is not checked yet. -/
namespace LazyTensor
open Checked List Shape View Layout SymInt

namespace Movement
variable {m first second : Movement} {ds ds' ds'' : List Int}
variable {es ds : List Int} {s : Shape} {exact' : Prop}

/-- The dimensions that a movement gives, if it can be done at all. -/
def Resizes : Movement → List Int → List Int → Prop
  | reshape s, _, ds' => s = Shape.ofInts ds'
  | permute axes, ds, ds' => axes.Perm (List.range ds.length) ∧
      ds' = axes.map (fun i => ds.getD i 0)
  | expand s, ds, ds' => s = Shape.ofInts ds' ∧ ds.length = ds'.length
  | shrink ranges, ds, ds' => ds.length = ranges.length ∧ ds' = ranges.map (fun r => r.2 - r.1)
  | pad pads, ds, ds' =>
    ds.length = pads.length ∧ ds' = List.zipWith (fun d (p : Int × Int) => d + p.1 + p.2) ds pads
  | stride steps, ds, ds' =>
    ds.length = steps.length ∧ ds' = List.zipWith (fun d s => (d + |s| - 1) / |s|) ds steps

lemma Takes.resizes (h : m.Takes ds ds') : m.Resizes ds ds' := by
  cases m with
  | reshape s => exact h.1
  | permute _ => exact h
  | expand s => exact ⟨h.1, h.2.length_eq⟩
  | shrink _ => exact ⟨h.1.length_eq, h.2⟩
  | pad pads | stride steps => exact h.elim

lemma Resizes.det (h : m.Resizes ds ds') (h' : m.Resizes ds es) : ds' = es := by
  cases m with
  | reshape s => exact ofInts_inj (h.symm.trans h')
  | expand s => exact ofInts_inj (h.1.symm.trans h'.1)
  | permute axes | shrink ranges | pad pads | stride steps => exact h.2.trans h'.2.symm

lemma Resizes.same {m' : Movement} {es' : List Int} (h : m.Resizes ds ds')
    (h' : m'.Resizes es es') (hop : m.op = m'.op)
    (harg : m.arg = m'.arg ∨ (m.arg == m'.arg) = true) :
    m = m' := by
  have hsame : (m.arg == m'.arg) = true → m = m' := by
    intro hb
    cases m <;> cases m' <;> simp only [op, reduceCtorEq] at hop
    case reshape.reshape s s' =>
      rw [show s = _ from h, show s' = _ from h'] at hb ⊢
      rw [eq_of_beq hb]
    case expand.expand s s' =>
      rw [h.1, h'.1] at hb ⊢
      rw [eq_of_beq hb]
    case permute.permute a a' => rw [eq_of_beq (show (a == a') = true from hb)]
    case pad.pad a a' => rw [eq_of_beq (show (a == a') = true from hb)]
    case shrink.shrink a a' => rw [eq_of_beq (show (a == a') = true from hb)]
    case stride.stride a a' => rw [eq_of_beq (show (a == a') = true from hb)]
  obtain heq | hb := harg
  · cases m <;> cases m' <;> simp_all [op, arg]
  · exact hsame hb

lemma Resizes.trivial (hs : s.Sized ds) (h : m.isTrivial s = .ok true)
    (ht : m.Resizes ds ds') : ds' = ds := by
  cases m with
  | reshape t =>
    rw [hs.1, show t = _ from ht] at h
    exact (eq_of_beq (ok_eq_ok.1 h)).symm
  | expand t =>
    rw [hs.1, ht.1] at h
    exact (eq_of_beq (ok_eq_ok.1 h)).symm
  | permute axes =>
    have heq : axes = range axes.length := by simpa using ok_eq_ok.1 h
    have hlen : axes.length = ds.length := by simpa using ht.1.length_eq
    rw [ht.2, heq, hlen, map_getD_range]
  | pad pads =>
    obtain ⟨hlen, rfl⟩ := ht
    have hall : ∀ p ∈ pads, p.1 = 0 ∧ p.2 = 0 := by simpa using ok_eq_ok.1 h
    exact ext_getElem (by simp [hlen]) fun k _ _ => by simp [hall _ (getElem_mem _)]
  | stride steps =>
    obtain ⟨hlen, rfl⟩ := ht
    have hall : ∀ s ∈ steps, s = 1 := by simpa using ok_eq_ok.1 h
    exact ext_getElem (by simp [hlen]) fun k _ _ => by simp [hall _ (getElem_mem _)]
  | shrink ranges =>
    obtain ⟨hlen, rfl⟩ := ht
    replace h : keepsLengths (ofInts ds) ranges = .ok true := hs.1 ▸ h
    clear hs
    induction ds generalizing ranges with
    | nil =>
      cases ranges with
      | nil => rfl
      | cons r ranges => cases hlen
    | cons d ds ih =>
      cases ranges with
      | nil => cases hlen
      | cons r ranges =>
        obtain ⟨n, hn, h⟩ := bind_eq_ok.1 h
        obtain ⟨_, rfl⟩ := sub_eq_ok.1 hn
        split at h
        · rename_i hd
          have := is_num.1 hd
          rw [map_cons, ih ranges (by simpa using hlen) h]
          congr 1
          exact this.symm
        · cases h

lemma Takes.trivial (hs : s.Sized ds) (h : m.isTrivial s = .ok true)
    (ht : m.Takes ds ds') : ds' = ds := ht.resizes.trivial hs h

lemma ceil_ceil (d a b : Int) :
    ((d + |a| - 1) / |a| + |b| - 1) / |b| = (d + |b * a| - 1) / |b * a| := by
  obtain rfl | ha := eq_or_ne a 0
  · obtain rfl | hb := eq_or_ne b 0
    · simp
    · have := abs_pos.2 hb
      simpa using Int.ediv_eq_zero_of_lt (show 0 ≤ |b| - 1 by omega) (by omega)
  have hpos : 0 < |a| := abs_pos.2 ha
  have hshift : (d + |a| - 1) / |a| + |b| - 1 = (d + |b * a| - 1) / |a| := by
    rw [abs_mul, show d + |b| * |a| - 1 = d + |a| - 1 + (|b| - 1) * |a| by ring,
      Int.add_mul_ediv_right _ _ hpos.ne']
    ring
  rw [hshift, Int.ediv_ediv_of_nonneg hpos.le, abs_mul, mul_comm]

lemma Resizes.merge (h : first.merge second = .ok (some m)) (h1 : first.Resizes ds ds')
    (h2 : second.Resizes ds' ds'') : m.Resizes ds ds'' := by
  cases first <;> cases second <;> try cases h
  case reshape.reshape.refl s => exact h2
  case expand.expand.refl s => exact ⟨h2.1, h1.2.trans h2.2⟩
  case permute.permute p q =>
    exact (Takes.merge h (show (permute p).Takes ds ds' from h1) h2).resizes
  case pad.pad p q =>
    cases merge_pad h
    obtain ⟨hp, rfl⟩ := h1
    obtain ⟨hq, rfl⟩ := h2
    simp only [length_zipWith, hp, min_self] at hq
    refine ⟨by simp [hp, hq], ext_getElem (by simp [hp, hq]) fun i h1 h2 => ?_⟩
    simp only [getElem_zipWith, getElem_map, getElem_zip]
    ring
  case shrink.shrink p q =>
    cases merge_shrink h
    obtain ⟨hp, rfl⟩ := h1
    obtain ⟨hq, rfl⟩ := h2
    rw [length_map] at hq
    refine ⟨by simp [hp, hq], ?_⟩
    rw [map_map]
    exact ext_getElem (by simp [hq]) fun i h1 h2 => by simp
  case stride.stride p q =>
    cases merge_stride h
    obtain ⟨hp, rfl⟩ := h1
    obtain ⟨hq, rfl⟩ := h2
    simp only [length_zipWith, hp, min_self] at hq
    refine ⟨by simp [hp, hq], ext_getElem (by simp [hp, hq]) fun i h1 h2 => ?_⟩
    simp only [getElem_zipWith, getElem_map, getElem_zip, ceil_ceil]

end Movement

/-! The shape of a layout after a movement. -/
variable {m : Movement} {l l' : Layout} {ds ds' : List Int}

lemma SymInt.quotient_num (k b : Int) : (num k).quotient b =
    if b = 0 then .error (.divisionByZero (num k).render)
    else do return num (← floorDiv k b) := by
  rw [quotient, steps, Nat.pow_eq, show 64 * _ = _ + 1 from (Nat.succ_pred (by positivity)).symm,
    quotientIn]

lemma View.strideDim_num {d m : Int} {r : SymInt} (h : strideDim (.num d) m = .ok r) :
    r = .num ((d + |m| - 1) / |m|) := by
  simp only [strideDim, bind_eq_ok, abs_eq_ok, sub_eq_ok] at h
  obtain ⟨_, ⟨_, rfl⟩, _, ⟨_, rfl⟩, rounded, hrounded, h⟩ := h
  cases plus_num hrounded
  rw [quotient_num] at h
  split at h
  · cases h
  · rename_i hne
    simp only [bind_eq_ok, pure_eq_ok] at h
    obtain ⟨q, hq, rfl⟩ := h
    rw [floorDiv_pos (by omega) hq, Int.abs_eq_natAbs, add_sub_assoc]

lemma View.strideDims_ofInts {steps : List Int} {shape : Shape}
    (h : Forall₂ (fun x d => strideDim x.1 x.2 = .ok d) ((ofInts ds).zip steps) shape) :
    shape = ofInts (zipWith (fun d s => (d + |s| - 1) / |s|) ds steps) := by
  refine (ext_getElem (by simpa [ofInts] using h.length_eq) fun k h1 h2 => ?_).symm
  have hat := h.get (by simpa [ofInts] using h1) h2
  simp only [ofInts, get_eq_getElem, getElem_zip, getElem_map] at hat
  rw [strideDim_num hat]
  simp [ofInts]

lemma Layout.reshape_shape (hs : l.shape = ofInts ds)
    (h : l.reshape (ofInts ds') = .ok l') : l'.shape = ofInts ds' := by
  obtain ⟨w, hview, rfl⟩ | ⟨_, _, _, he, ⟨w, hmerge, rfl⟩ | rfl⟩ := reshape_cases h
  · obtain ⟨heq, ⟨⟩⟩ | ⟨_,
      ⟨_, ⟨⟩, hw, _⟩ | ⟨_, ⟨⟩, hw, _⟩ | ⟨⟨⟩, _⟩⟩ := reshape?_cases hview
    · rw [show l.top.shape = _ from hs] at heq
      rw [← eq_of_beq heq]
      exact hs
    · exact View.ofShape_shape hw
    · exact (make_eq hw).2.1
  · obtain ⟨_, _, _, _, _, _, _, _, hmake⟩ := mergeViews_some hmerge
    exact (make_eq hmake).2.1.trans (View.ofShape_shape he)
  · exact View.ofShape_shape he

lemma Movement.Resizes.shape (hm : m.Resizes ds ds')
    (hs : l.shape.Sized ds) (h : m.apply l = .ok l') : l'.shape = ofInts ds' := by
  have htop : l.top.shape = ofInts ds := hs.1
  have hwindow {v w : View} {window : List (Int × Int)} {mask : Option Mask}
      (h : v.resize window mask = .ok w) : w.shape = ofInts (window.map (fun r => r.2 - r.1)) := by
    obtain ⟨_, _, _, _, _, _, hmake⟩ := resize_eq h
    exact (make_eq hmake).2.1
  cases m with
  | reshape target =>
    obtain rfl : target = ofInts ds' := hm
    exact reshape_shape htop h
  | permute _ =>
    obtain ⟨top, hview, rfl⟩ := map_eq_ok.1 h
    change top.shape = _
    rw [(make_eq (permute_eq hview).2).2.1, htop, hm.2, ofInts_map]
  | expand target =>
    obtain ⟨top, hview, rfl⟩ := map_eq_ok.1 h
    obtain ⟨_, ⟨_, h⟩ | ⟨_, _, _, _, h⟩⟩ := expand_eq hview
    · exact (ofShape_shape h).trans hm.1
    · exact (make_eq h).2.1.trans hm.1
  | shrink _ =>
    obtain ⟨top, hview, rfl⟩ := map_eq_ok.1 h
    obtain ⟨_, _, _, h⟩ := shrink_eq hview
    rw [hm.2]
    exact hwindow h
  | pad pads =>
    obtain ⟨top, hview, rfl⟩ := map_eq_ok.1 h
    obtain ⟨_, _, ⟨rfl, hzero⟩ | ⟨ds, hds, h⟩⟩ := pad_eq hview
    · have hkeeps : (Movement.pad pads).isTrivial l.shape = .ok true := by
        refine congrArg Except.ok (all_eq_true.2 fun p hp => ?_)
        rw [hzero p hp]
        rfl
      rw [hm.trivial hs hkeeps]
      exact htop
    · cases ofInts_inj (htop.symm.trans hds)
      refine (hwindow h).trans ?_
      rw [hm.2, map_zipWith]
      congr 2
      funext d p
      ring
  | stride _ =>
    obtain ⟨top, hview, rfl⟩ := map_eq_ok.1 h
    obtain ⟨_, _, _, _, _, _, _, hdims, _, hmake⟩ := stride_eq hview
    rw [htop] at hdims
    rw [hm.2, ← strideDims_ofInts hdims]
    exact (make_eq hmake).2.1

lemma Shape.allInt_ofInts (ds : List Int) : (ofInts ds).allInt = true :=
  all_eq_true.2 fun d hd => by
    obtain ⟨n, _, rfl⟩ := mem_map.1 hd
    rfl

lemma Shape.prod_of_zero (h : (ofInts ds).any (·.is 0) = true) : ds.prod = 0 := by
  obtain ⟨d, hd, h0⟩ := any_eq_true.1 h
  obtain ⟨n, hn, rfl⟩ := mem_map.1 hd
  exact prod_eq_zero (is_num.1 h0 ▸ hn)

lemma Layout.reshape_prod (hs : l.shape = ofInts ds)
    (h : l.reshape (ofInts ds') = .ok l') : ds.prod = ds'.prod := by
  obtain ⟨r, hr, _⟩ := bind_eq_ok.1 h
  rw [reshape?, show l.top.shape = ofInts ds from hs] at hr
  split at hr
  · rename_i hsame
    rw [eq_of_beq hsame]
  split at hr
  · cases hr
  split at hr
  · rename_i hzero
    split at hr
    · rename_i hzero'
      rw [prod_of_zero hzero, prod_of_zero hzero']
    · cases hr
  rw [allInt_ofInts, allInt_ofInts, Bool.and_self, if_pos rfl] at hr
  simp only [bind_eq_ok, lift_eq_ok] at hr
  obtain ⟨old, hold, new, hnew, hr⟩ := hr
  split at hr
  · rename_i hsize
    rw [product_ofInts hold, product_ofInts hnew] at hsize
    exact eq_of_num_beq hsize
  · cases hr

lemma Movement.Resizes.apply_sound (hm : m.Resizes ds ds') (hl : l.Sound) (hd : Extents ds')
    (h : m.apply l = .ok l') : l'.Sound := by
  have hsized : (ofInts ds').Sized ds' := ⟨rfl, hd⟩
  have hup : ∀ d ∈ ofInts ds', 0 ≤ d.lo := by
    intro d hmem
    obtain ⟨n, hn, rfl⟩ := mem_map.1 hmem
    rw [lo_num]
    exact (hd n hn).1.le
  have hboth : m.Written ∧ m.Upward := by
    cases m with
    | reshape s => exact ⟨show s.Written from hm ▸ hsized.written, True.intro⟩
    | expand s => exact ⟨show s.Written from hm.1 ▸ hsized.written, show ∀ d ∈ s,
        0 ≤ d.lo from hm.1 ▸ hup⟩
    | permute _ | shrink _ | pad _ | stride _ => exact ⟨True.intro, True.intro⟩
  exact Movement.apply_sound hl hboth.1 hboth.2 h

lemma Layout.Plain.apply (hl : l.Plain ds)
    (hm : m.Takes ds ds') (hd : Extents ds') (h : m.apply l = .ok l') : l'.Plain ds' := by
  have hs : l'.shape.Sized ds' := ⟨hm.resizes.shape hl.sized h, hd⟩
  have hsound := hm.resizes.apply_sound hl.sound hd h
  cases m with
  | pad pads | stride steps => exact hm.elim
  | shrink _ =>
    obtain ⟨top, htop, rfl⟩ := map_eq_ok.1 h
    obtain ⟨_, _, _, htop⟩ := shrink_eq htop
    obtain ⟨_, _, _, _, hmask, _, hmake⟩ := resize_eq htop
    rw [windowMask, hl.top] at hmask
    cases hmask
    exact hl.of_make hmake hs hsound
  | expand target =>
    obtain ⟨top, htop, rfl⟩ := map_eq_ok.1 h
    obtain ⟨_, ⟨_, hw⟩ | ⟨_, _, _, hmask, hmake⟩⟩ := expand_eq htop
    · obtain ⟨_, _, _, _, hmake⟩ := ofShape_eq hw
      exact hl.of_make hmake hs hsound
    · obtain ⟨_, rfl⟩ | ⟨_, _, hold, _⟩ := hmask
      · exact hl.of_make hmake hs hsound
      · cases hold.symm.trans hl.top
  | permute _ =>
    obtain ⟨top, htop, rfl⟩ := map_eq_ok.1 h
    have hmake := (permute_eq htop).2
    rw [hl.top, Option.map_none] at hmake
    exact hl.of_make hmake hs hsound
  | reshape target =>
    cases reshape_reshapes hl.sized h with
    | view hview =>
      cases hview with
      | same => exact ⟨hs, hsound, hl.top, hl.below, hl.flat⟩
      | whole _ hw =>
        obtain ⟨_, _, _, _, hmake⟩ := ofShape_eq hw
        exact hl.of_make hmake hs hsound
      | units _ hw =>
        rw [moveUnits, hl.top] at hw
        exact hl.of_make hw hs hsound
    | merged he hw =>
      obtain ⟨_, _, _, _, _, _, _, _, hmake⟩ := mergeViews_some hw
      rw [ofShape_mask he] at hmake
      exact hl.of_make hmake hs hsound
    | buried he =>
      exact ⟨hs, hsound, ofShape_mask he, forall_mem_cons.2 ⟨hl.top, hl.below⟩,
        ofShape_flat he⟩

/-! What is known of movements and layouts: their dimensions, and, where that is asked for, that
they read no padding and skip nothing. -/

def Movement.Suits (exact : Prop) (m : Movement) (ds ds' : List Int) : Prop :=
  m.Resizes ds ds' ∧ (exact → m.Takes ds ds')

structure Layout.Suits (exact : Prop) (l : Layout) (ds : List Int) : Prop where
  sized : l.shape.Sized ds
  sound : l.Sound
  plain : exact → l.Plain ds

namespace Movement.Suits
variable {exact : Prop} {first second : Movement} {ds'' : List Int}

lemma of_takes (h : m.Takes ds ds') : m.Suits exact ds ds' := ⟨h.resizes, fun _ => h⟩

lemma weaken (h : exact' → exact) (hm : m.Suits exact ds ds') :
    m.Suits exact' ds ds' := ⟨hm.1, fun he => hm.2 (h he)⟩

lemma reorder {axes : List Nat} (hp : axes.Perm (range ds.length)) :
    (permute axes).Suits exact ds (axes.map (fun i => ds.getD i 0)) := of_takes (.reorder hp)

lemma merge (h : first.merge second = .ok (some m)) (h1 : first.Suits exact ds ds')
    (h2 : second.Suits exact ds' ds'') : m.Suits exact ds ds'' :=
  ⟨h1.1.merge h h2.1, fun he => (h1.2 he).merge h (h2.2 he)⟩

end Movement.Suits

namespace Layout.Suits
variable {exact : Prop}

lemma weaken (h : exact' → exact) (hl : l.Suits exact ds) : l.Suits exact' ds :=
  ⟨hl.sized, hl.sound, fun he => hl.plain (h he)⟩

lemma ofShape (hs : s.Sized ds) (h : ofShape s = .ok l) : l.Suits exact ds :=
  ⟨ofShape_shape h ▸ hs, .ofShape hs.written h, fun _ => .ofShape hs h⟩

lemma apply (hl : l.Suits exact ds) (hm : m.Suits exact ds ds') (hd : Extents ds')
    (h : m.apply l = .ok l') : l'.Suits exact ds' :=
  ⟨⟨hm.1.shape hl.sized h, hd⟩, hm.1.apply_sound hl.sound hd h, fun he =>
    (hl.plain he).apply (hm.2 he) hd h⟩

end Layout.Suits

end LazyTensor
