import LazyTensor.Proofs.Layout.Movement

/-! Layouts of positive dimensions that hide nothing: which dimensions a movement gives for which,
and that movements without padding keep such layouts. -/
namespace LazyTensor
open Checked List Shape View SymInt
variable {as bs strides ds : List Int} {s shape : Shape} {l : Layout}
variable {offset : Int} {w : View} {target : Shape}

def Extents (ds : List Int) : Prop := ∀ d ∈ ds, 0 < d ∧ Fits d

instance : DecidablePred Extents := fun ds =>
  inferInstanceAs (Decidable (∀ d ∈ ds, 0 < d ∧ Fits d))

def Shape.Sized (s : Shape) (ds : List Int) : Prop := s = Shape.ofInts ds ∧ Extents ds

lemma SymInt.eq_of_num_beq {a b : Int} (h : (num a == num b) = true) : a = b := by
  simpa using (agree_of_beq (.num a) (.num b) h).value (fun _ => 0)

lemma Shape.eq_of_beq (h : (ofInts as == ofInts bs) = true) : as = bs := by
  induction as generalizing bs with
  | nil =>
    cases bs with
    | nil => rfl
    | cons b bs => simp [ofInts] at h
  | cons a as ih =>
    cases bs with
    | nil => simp [ofInts] at h
    | cons b bs =>
      simp only [ofInts, map_cons, cons_beq_cons, Bool.and_eq_true] at h
      rw [eq_of_num_beq h.1, ih h.2]

lemma Shape.ofInts_inj (h : ofInts as = ofInts bs) : as = bs :=
  map_injective_iff.mpr (fun _ _ h => num.inj h) h

lemma Shape.Sized.eq {s' : Shape} (ha : s.Sized as) (hb : s'.Sized bs) (h : (s == s') = true) :
    s = s' := by
  rw [ha.1, hb.1] at h ⊢
  rw [eq_of_beq h]

lemma Shape.Sized.unique (ha : s.Sized as) (hb : s.Sized bs) :
    as = bs := ofInts_inj (ha.1.symm.trans hb.1)

/-- The second shape has length one along some axes of the first and is the same elsewhere. -/
def Reduces (ds ds' : List Int) : Prop := List.Forall₂ (fun d d' => d' = d ∨ d' = 1) ds ds'

/-- Which dimensions a movement gives for which, where it reads no padding and skips nothing. -/
def Movement.Takes : Movement → List Int → List Int → Prop
  | reshape s, ds, ds' => s = Shape.ofInts ds' ∧ ds.prod = ds'.prod
  | permute axes, ds, ds' => axes.Perm (List.range ds.length) ∧
      ds' = axes.map (fun i => ds.getD i 0)
  | expand s, ds, ds' => s = Shape.ofInts ds' ∧
      List.Forall₂ (fun d d' => d' = d ∨ d = 1) ds ds'
  | shrink ranges, ds, ds' =>
    List.Forall₂ (fun d (r : Int × Int) => 0 ≤ r.1 ∧ r.1 < r.2 ∧ r.2 ≤ d) ds ranges ∧
      ds' = ranges.map (fun r => r.2 - r.1)
  | pad _, _, _ | stride _, _, _ => False

def View.Flat (v : View) : Prop :=
  v.contiguous = true → v.offset = 0 ∧ v.shape.rowMajor? = .ok (some v.strides)

lemma View.make_flat {mask : Option Mask}
    (h : make shape strides offset mask = .ok w) : w.Flat := by
  intro hc
  unfold make at h
  split at h
  · cases h
  · dsimp only at h
    split at h
    · rename_i hwhole
      simp only [bind_eq_ok, pure_eq_ok] at h
      obtain ⟨rows, hrows, _, rfl, rfl⟩ := h
      rw [eq_of_beq hc] at hrows
      exact ⟨hwhole.1, hrows⟩
    · simp only [pure_bind, pure_eq_ok] at h
      subst h
      cases hc

/-- A layout of known dimensions that hides nothing. -/
structure Layout.Plain (l : Layout) (ds : List Int) : Prop where
  sized : l.shape.Sized ds
  sound : l.Sound
  top : l.top.mask = none
  below : ∀ v ∈ l.below, v.mask = none
  flat : l.top.Flat

lemma Layout.ofShape_shape (h : Layout.ofShape s = .ok l) : l.shape = s := by
  obtain ⟨top, htop, rfl⟩ := map_eq_ok.1 h
  exact View.ofShape_shape htop

lemma Shape.dropUnitStrides_rowMajor {covered : Option Int}
    (h : s.strideWalk = .ok (some (strides, covered))) : s.dropUnitStrides strides = strides := by
  induction s generalizing strides covered with
  | nil => rw [strideWalk] at h; cases h; rfl
  | cons d ds ih =>
    simp only [strideWalk, bind_eq_ok] at h
    obtain ⟨rest, hrest, h⟩ := h
    cases rest with
    | none => cases h
    | some rest =>
      obtain ⟨back, n⟩ := rest
      have hback := ih hrest
      unfold dropUnitStrides at hback ⊢
      by_cases hd : d.is 1 = true
      · simp only [hd, if_true, pure_eq_ok] at h
        cases h
        rw [zipWith_cons_cons, if_pos hd, hback]
      · simp only [hd] at h
        have hout : ∃ c, (strides, covered) = (c :: back, covered) := by
          cases n with
          | none => cases h
          | some n =>
            cases hk : d.num? with
            | none =>
              rw [hk] at h
              cases h
              exact ⟨n, rfl⟩
            | some k =>
              simp only [hk, Bool.false_eq_true, if_false, bind_eq_ok, pure_eq_ok] at h
              obtain ⟨_, _, h⟩ := h
              cases h
              exact ⟨n, rfl⟩
        obtain ⟨c, hout⟩ := hout
        cases hout
        rw [zipWith_cons_cons, if_neg hd, hback]

lemma Layout.ofShape_contiguous (h : Layout.ofShape s = .ok l) : l.contiguous = true := by
  obtain ⟨top, htop, rfl⟩ := map_eq_ok.1 h
  obtain ⟨_, strides, _, hwalk, hmake⟩ := ofShape_eq htop
  unfold make at hmake
  split at hmake
  · cases hmake
  · simp only [Option.filter_none, Option.isNone_none, and_self, if_true, bind_eq_ok, pure_eq_ok,
      rowMajor?, hwalk, dropUnitStrides_rowMajor hwalk] at hmake
    obtain ⟨_, ⟨_, ⟨⟩, rfl⟩, _, rfl, rfl⟩ := hmake
    exact beq_self_eq_true _

lemma View.ofShape_flat (h : View.ofShape s = .ok w) : w.Flat := by
  obtain ⟨_, _, _, _, h⟩ := ofShape_eq h
  exact make_flat h

lemma Shape.Sized.written (h : s.Sized ds) : s.Written := by
  intro d hd
  rw [h.1] at hd
  obtain ⟨n, hn, rfl⟩ := mem_map.1 hd
  exact ⟨.num n (h.2 n hn).2, rfl⟩

lemma Layout.Plain.ofShape (hs : s.Sized ds) (h : Layout.ofShape s = .ok l) : l.Plain ds := by
  have hsound := Layout.Sound.ofShape hs.written h
  have hshape := Layout.ofShape_shape h
  obtain ⟨top, htop, rfl⟩ := map_eq_ok.1 h
  exact ⟨hshape ▸ hs, hsound, ofShape_mask htop, by simp, ofShape_flat htop⟩

lemma Shape.getD_ofInts (ds : List Int) (i : Nat) :
    (ofInts ds).getD i (.num 0) = .num (ds.getD i 0) := by
  rw [ofInts, getD_eq_getElem?_getD, getD_eq_getElem?_getD, getElem?_map,
    Option.getD_map]

lemma Shape.ofInts_map (ds : List Int) (axes : List Nat) :
    ofInts (axes.map (fun i => ds.getD i 0))
      = axes.map (fun i => (ofInts ds).getD i (.num 0)) := by
  simp only [getD_ofInts]
  exact map_map

lemma Shape.Sized.any_zero (hs : shape.Sized ds) : shape.any (·.is 0) = false := by
  rw [any_eq_false]
  intro d hd h0
  rw [hs.1] at hd
  obtain ⟨n, hn, rfl⟩ := mem_map.1 hd
  have := (hs.2 n hn).1
  have := is_num.1 h0
  omega

namespace View
variable {v w : View}

/-- How a view without empty axes is reshaped. -/
inductive Reshapes (v : View) (target : Shape) : Option View → Prop
  | same (h : (v.shape == target) = true) : Reshapes v target (some v)
  | whole {w : View} (h : v.contiguous = true) (hw : ofShape target = .ok w) :
    Reshapes v target (some w)
  | units {w : View}
    (h : (v.shape.filter (fun d => !d.is 1) == target.filter (fun d => !d.is 1)) = true)
    (hw : v.moveUnits target = .ok w) : Reshapes v target (some w)
  | buried : Reshapes v target none

lemma reshape?_reshapes {r : Option View} (hs : v.shape.Sized ds)
    (h : v.reshape? target = .ok r) : Reshapes v target r := by
  obtain ⟨hsame, rfl⟩ | ⟨_, ⟨w, rfl, hw, hc⟩ | ⟨w, rfl, hw, hu⟩ | ⟨rfl, _⟩⟩ :=
    reshape?_cases h
  · exact .same hsame
  · exact .whole (hc.resolve_right fun h => by simp [hs.any_zero] at h).1 hw
  · exact .units hu hw
  · exact .buried

end View

namespace Layout

/-- How a layout without empty axes is reshaped. -/
inductive Reshapes (l : Layout) (target : Shape) : Layout → Prop
  | view {w : View} (h : View.Reshapes l.top target (some w)) : Reshapes l target
      { l with top := w }
  | merged {extra w : View} (he : View.ofShape target = .ok extra)
    (hw : mergeViews l.top extra = .ok (some w)) : Reshapes l target { l with top := w }
  | buried {extra : View} (he : View.ofShape target = .ok extra) :
    Reshapes l target { top := extra, below := l.top :: l.below }

lemma reshape_reshapes {l' : Layout} (hs : l.shape.Sized ds)
    (h : l.reshape target = .ok l') : Reshapes l target l' := by
  obtain ⟨w, hw, rfl⟩ | ⟨_, _, extra, hextra, ⟨w, hw, rfl⟩ | rfl⟩ := reshape_cases h
  · exact .view (reshape?_reshapes hs hw)
  · exact .merged hextra hw
  · exact .buried hextra

lemma Plain.of_make {ds' : List Int} (hl : l.Plain ds)
    (hw : make shape strides offset none = .ok w) (hs : w.shape.Sized ds')
    (hsound : ({ l with top := w } : Layout).Sound) : ({ l with top := w } : Layout).Plain ds' :=
  ⟨hs, hsound, (make_eq hw).2.2.2.2, hl.below, make_flat hw⟩

end Layout

end LazyTensor
