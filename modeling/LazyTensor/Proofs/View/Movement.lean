import LazyTensor.View.Movement
import LazyTensor.Proofs.SymInt.Expression
import LazyTensor.Proofs.View.Normal
import Mathlib.Data.List.GetD

/-! What every movement of a view keeps: its parts fit together, offset and strides are words,
and dimensions are expressions that never turn negative. -/
namespace LazyTensor
open List Shape Formula
variable {α : Type} {f : Formula} {d r : SymInt} {n m : Int}

open Checked SymInt

lemma Checked.lift_eq_ok {x : Checked α} {r : α} :
    (liftM x : Fallible α) = .ok r ↔ x = .ok r := by
  cases x with
  | error e | ok a => simp [liftM, monadLift, MonadLift.monadLift, Except.mapError]

lemma nth_eq_ok {xs : List α} {i : Nat} {a : α} : nth xs i = .ok a ↔ xs[i]? = some a := by
  unfold nth
  split <;> simp_all

lemma reordered_eq [Inhabited α] {xs ys : List α} {axes : List Nat} {a : α}
    (h : axes.mapM (nth xs) = .ok ys) : ys = axes.map (fun i => xs.getD i a) := by
  refine eq_map_of_mapM (fun i _ y hy => ?_) h
  rw [getD_eq_getElem?_getD, nth_eq_ok.1 hy]
  rfl

def InRange (σ : Variable → Int) (vs : List Variable) : Prop :=
  ∀ v ∈ vs, v.lo ≤ σ v ∧ σ v ≤ v.hi

/-- A dimension: an index as it can be written, never negative. -/
def Dimension (d : SymInt) : Prop :=
  ∃ f : Formula, f.build = .ok d ∧ ∀ σ, InRange σ f.vars → 0 ≤ f.value σ

def Shape.Written (shape : Shape) : Prop := ∀ d ∈ shape, ∃ f : Formula, f.build = .ok d

def Assignment.declared (σ : Variable → Int) : Assignment where
  scope v := 0 ≤ v.lo ∧ v.lo ≤ σ v ∧ σ v ≤ v.hi
  value := σ
  lo_le _ h := h.2.1
  le_hi _ h := h.2.2

lemma InRange.means {σ : Variable → Int} (h : InRange σ f.vars) (hd : f.build = .ok d) :
    Means (Assignment.declared σ) d (f.value σ) :=
  (build_delivers (A := Assignment.declared σ)
    fun v hv => ⟨vars_nonneg hv, h v hv⟩).of_ok hd

lemma Formula.inRange_lo (f : Formula) : InRange Variable.lo f.vars := by
  induction f with
  | num n fits => simp [InRange, vars]
  | var v declared fits =>
    have := (Variable.of_declare declared).2.2
    simp only [InRange, vars, mem_singleton, forall_eq]
    omega
  | plus a b iha ihb | minus a b iha ihb =>
    intro v hv
    cases mem_append.1 hv with
    | inl hv => exact iha v hv
    | inr hv => exact ihb v hv
  | negate a ih | times a c fits ih | quotient a b pos fits ih | remainder a b pos fits ih =>
    exact ih

lemma Dimension.num (h : 0 ≤ n) (hf : Fits n) : Dimension (num n) :=
  ⟨.num n hf, rfl, fun _ _ => h⟩

lemma Dimension.of_num (h : Dimension (SymInt.num n)) : 0 ≤ n ∧ Fits n := by
  obtain ⟨f, hf, hn⟩ := h
  have hm := f.inRange_lo.means hf
  have hv := hm.value
  rw [value_num] at hv
  have hfit := hm.regular.lo_fits
  rw [lo_num] at hfit
  exact ⟨hv ▸ hn _ f.inRange_lo, hfit⟩

lemma Dimension.of_build (h : f.build = .ok d) (h0 : 0 ≤ d.lo) : Dimension d := by
  refine ⟨f, h, fun σ hσ => ?_⟩
  have hm := hσ.means h
  have hb := hm.regular.value_between
  rw [hm.value] at hb
  omega

lemma View.strideDim_build (hf : f.build = .ok d) (hm : m ≠ 0) (hr : View.strideDim d m = .ok r) :
    ∃ (hless : Fits ((m.natAbs : Int) - 1)) (hpos : (0 : Int) < m.natAbs)
      (hsize : Fits m.natAbs), (quotient (.plus f (.num _ hless)) _ hpos hsize).build = .ok r := by
  simp only [View.strideDim, bind_eq_ok, abs_eq_ok, sub_eq_ok] at hr
  obtain ⟨_, ⟨hsize, rfl⟩, _, ⟨hless, rfl⟩, rounded, hrounded, hr⟩ := hr
  refine ⟨hless, by omega, hsize, ?_⟩
  simp only [build, hf, bind_eq_ok]
  exact ⟨rounded, ⟨d, rfl, _, rfl, hrounded⟩, hr⟩

lemma Dimension.stride (h : Dimension d) (hm : m ≠ 0) (hr : View.strideDim d m = .ok r) :
    Dimension r := by
  obtain ⟨f, hf, hn⟩ := h
  obtain ⟨_, _, _, hbuild⟩ := View.strideDim_build hf hm hr
  refine ⟨_, hbuild, fun σ hσ => ?_⟩
  have h0 := hn σ (fun v hv => hσ v (by simpa [Formula.vars] using hv))
  simp only [Formula.value]
  exact Int.ediv_nonneg (by omega) (by omega)

namespace View
variable {v w : View} {dims shape target : Shape} {strides : List Int} {mask : Option Mask}
  {window pads ranges : List (Int × Int)} {axes : List Nat} {α : Type}

structure Sound (v : View) : Prop where
  dims : ∀ d ∈ v.shape, Dimension d
  strides_length : v.strides.length = v.shape.length
  strides_fit : ∀ st ∈ v.strides, Fits st
  offset_fits : Fits v.offset
  mask_length : ∀ m, v.mask = some m → m.length = v.shape.length

lemma Sound.grid {dims : List Int} (hv : v.Sound) (hshape : v.shape = ofInts dims) :
    v.Grid dims := by
  have hlen : v.shape.length = dims.length := by rw [hshape, ofInts, length_map]
  refine ⟨hshape, fun d hd => ?_, hlen ▸ hv.strides_length, hv.strides_fit, hv.offset_fits,
    fun m hm => hlen ▸ hv.mask_length m hm⟩
  exact (hv.dims (num d) (hshape ▸ mem_map_of_mem hd)).of_num.2

lemma make_sound {offset : Int} (hd : ∀ d ∈ shape, Dimension d)
    (hs : ∀ st ∈ strides, Fits st) (ho : Fits offset)
    (hm : ∀ m, mask = some m → m.length = shape.length)
    (h : make shape strides offset mask = .ok w) : w.Sound := by
  obtain ⟨hlen, hshape, hstrides, hoffset, hmask⟩ := make_eq h
  refine ⟨hshape ▸ hd, ?_, ?_, hoffset ▸ ho, ?_⟩
  · rw [hstrides, hshape, length_dropUnitStrides hlen]
  · intro st hst
    rw [hstrides] at hst
    cases mem_dropUnitStrides hst with
    | inl h => exact h ▸ fits_zero
    | inr h => exact hs st h
  · intro m hm'
    rw [hmask] at hm'
    rw [hshape]
    exact hm m (Option.filter_eq_some_iff.1 hm').1

lemma strideWalk_fits {covered : Option Int}
    (h : shape.strideWalk = .ok (some (strides, covered))) :
    (∀ st ∈ strides, Fits st) ∧ ∀ n, covered = some n → Fits n := by
  induction shape generalizing strides covered with
  | nil =>
    cases h
    exact ⟨by simp, fun n hn => by cases hn; exact fits_one⟩
  | cons d ds ih =>
    simp only [strideWalk, bind_eq_ok] at h
    obtain ⟨out, hout, h⟩ := h
    cases out with
    | none => cases h
    | some out =>
      obtain ⟨_, inner⟩ := out
      obtain ⟨hrest, hinner⟩ := ih hout
      dsimp only at h
      split at h
      · cases h
        exact ⟨forall_mem_cons.2 ⟨fits_zero, hrest⟩, hinner⟩
      · cases inner with
        | none => cases h
        | some n =>
          have hn := hinner n rfl
          cases hk : d.num? with
          | none =>
            rw [hk] at h
            cases h
            exact ⟨forall_mem_cons.2 ⟨hn, hrest⟩, fun _ h => by cases h⟩
          | some k =>
            rw [hk] at h
            simp only [bind_eq_ok, mul_eq_ok, pure_eq_ok] at h
            obtain ⟨_, ⟨hf, rfl⟩, h⟩ := h
            cases h
            exact ⟨forall_mem_cons.2 ⟨hn, hrest⟩, fun _ h => by cases h; exact hf⟩

lemma ofShape_eq (h : ofShape shape = .ok w) : (∀ d ∈ shape, 0 ≤ d.lo) ∧
    ∃ strides covered,
      shape.strideWalk = .ok (some (strides, covered)) ∧ make shape strides 0 none = .ok w := by
  unfold ofShape at h
  split at h
  · rename_i hall
    simp only [bind_eq_ok, lift_eq_ok, rowMajor?, pure_eq_ok] at h
    obtain ⟨_, ⟨rows, hrows, rfl⟩, h⟩ := h
    cases rows with
    | none => cases h
    | some rows => exact ⟨by simpa using hall, rows.1, rows.2, hrows, lift_eq_ok.1 h⟩
  · cases h

lemma ofShape_sound (hb : dims.Written) (h : ofShape dims = .ok w) : w.Sound := by
  obtain ⟨hup, _, _, hwalk, h⟩ := ofShape_eq h
  refine make_sound (fun d hd => ?_) (strideWalk_fits hwalk).1 fits_zero (by simp) h
  obtain ⟨f, hf⟩ := hb d hd
  exact .of_build hf (hup d hd)

lemma ofShape_mask (h : ofShape dims = .ok w) : w.mask = none := by
  obtain ⟨_, _, _, _, h⟩ := ofShape_eq h
  exact (make_eq h).2.2.2.2

lemma ofShape_shape (h : ofShape shape = .ok w) : w.shape = shape := by
  obtain ⟨_, _, _, _, h⟩ := ofShape_eq h
  exact (make_eq h).2.1

lemma intShape_eq {op : String} {dims : List Int} (h : v.intShape op = .ok dims) :
    v.shape = ofInts dims := by
  unfold intShape at h
  split at h
  · rename_i ds hds
    cases h
    exact ints?_eq_some.1 hds
  · cases h

/-! What each movement makes of a view. -/

/-- The mask behind a window, from the mask of the view and a given one. -/
def windowMask (v : View) (window : List (Int × Int)) (mask : Option Mask) :
    Checked (Option Mask) :=
  match v.mask with
  | none => pure mask
  | some old => do
    let moved ← moveMask old window
    pure (some (match mask with
      | some given => meetMasks given moved
      | none => moved))

lemma resize_def (v : View) (window : List (Int × Int)) (mask : Option Mask) :
    v.resize window mask = (do
    let shift ← originShift v.strides window
    let offset ← add v.offset shift
    let mask ← v.windowMask window mask
    let dims ← window.mapM (fun r => sub r.2 r.1)
    make (ofInts dims) v.strides offset mask) := by
  unfold resize windowMask
  cases v.mask with
  | none => rfl
  | some old =>
    exact congrArg _ (funext fun _ => congrArg _ (funext fun _ => (bind_assoc _ _ _).symm))

/-- A window of a view is a view of the same strides. -/
lemma resize_eq (h : v.resize window mask = .ok w) :
    ∃ shift mask', originShift v.strides window = .ok shift ∧ Fits (v.offset + shift) ∧
      v.windowMask window mask = .ok mask' ∧ (∀ r ∈ window, Fits (r.2 - r.1)) ∧
      make (ofInts (window.map (fun r => r.2 - r.1))) v.strides
        (v.offset + shift) mask' = .ok w := by
  rw [resize_def] at h
  simp only [bind_eq_ok, add_eq_ok] at h
  obtain ⟨shift, hshift, _, ⟨hfit, rfl⟩, mask', hmask, _, hdims, h⟩ := h
  rw [eq_map_of_mapM (fun r _ y hy => (sub_eq_ok.1 hy).2.symm) hdims] at h
  refine ⟨shift, mask', hshift, hfit, hmask, fun r hr => ?_, h⟩
  obtain ⟨_, _, hsub⟩ := exists_of_mem_mapM hdims hr
  exact (sub_eq_ok.1 hsub).1

lemma pad_eq (h : v.pad pads = .ok w) :
    v.shape.length = pads.length ∧ (∀ p ∈ pads, 0 ≤ p.1 ∧ 0 ≤ p.2) ∧
      (w = v ∧ (∀ p ∈ pads, p = (0, 0)) ∨ ∃ ds, v.shape = ofInts ds ∧
        v.resize (zipWith (fun d (p : Int × Int) => (-p.1, d + p.2)) ds pads)
          (some (zipWith (fun d (p : Int × Int) => (p.1, d + p.1)) ds pads)) = .ok w) := by
  unfold pad at h
  split at h
  · cases h
  rename_i hcount
  split at h
  · cases h
  rename_i hneg
  refine ⟨by omega, by simpa using hneg, ?_⟩
  split at h
  · rename_i hzero
    cases h
    exact .inl ⟨rfl, by simpa using hzero⟩
  · simp only [bind_eq_ok, lift_eq_ok, surround] at h
    obtain ⟨ds, hds, window, hwindow, mask, hmask, h⟩ := h
    have hwindow' : window = (ds.zip pads).map (fun x => (-x.2.1, x.1 + x.2.2)) := by
      refine eq_map_of_mapM (fun x _ y hy => ?_) hwindow
      simp only [padWindow, bind_eq_ok, neg_eq_ok, add_eq_ok, pure_eq_ok] at hy
      obtain ⟨_, ⟨_, rfl⟩, _, ⟨_, rfl⟩, rfl⟩ := hy
      rfl
    have hmask' : mask = (ds.zip pads).map (fun x => (x.2.1, x.1 + x.2.1)) := by
      refine eq_map_of_mapM (fun x _ y hy => ?_) hmask
      simp only [padRange, bind_eq_ok, add_eq_ok, pure_eq_ok] at hy
      obtain ⟨_, ⟨_, rfl⟩, rfl⟩ := hy
      rfl
    rw [hwindow', hmask', zip, map_zipWith, map_zipWith] at h
    exact .inr ⟨ds, intShape_eq hds, h⟩

lemma shrink_eq (h : v.shrink ranges = .ok w) : ∃ ds, v.shape = ofInts ds ∧
      Forall₂ (fun d (r : Int × Int) => 0 ≤ r.1 ∧ r.1 ≤ r.2 ∧ r.2 ≤ d) ds ranges ∧
      v.resize ranges none = .ok w := by
  unfold shrink at h
  split at h
  · cases h
  rename_i hcount
  obtain ⟨ds, hds, h⟩ := bind_eq_ok.1 h
  have hs := intShape_eq hds
  rw [hs, ofInts, length_map] at hcount
  split at h
  · rename_i hall
    refine ⟨ds, hs, forall₂_iff_zip.2 ⟨by omega, fun {d r} hmem => ?_⟩, lift_eq_ok.1 h⟩
    simpa [and_assoc] using all_eq_true.1 hall _ hmem
  · cases h

lemma expand_eq (h : v.expand target = .ok w) : v.shape.length = target.length ∧
    (v.shape.any (·.is 0) = true ∧ ofShape target = .ok w ∨ v.shape.any (·.is 0) = false ∧
      ((v.shape.zip target).zip v.strides).all
        (fun ((d, t), st) => d == t || (d.is 1 && st == 0)) = true ∧
      ∃ mask, (v.mask = none ∧ mask = none ∨ ∃ old moved, v.mask = some old ∧
        mask = some moved ∧
          Forall₂ (fun x r => v.expandRange x.1.1 x.1.2 x.2 = .ok r)
            ((old.zip v.shape).zip target) moved) ∧
        make target v.strides v.offset mask = .ok w) := by
  unfold expand at h
  split at h
  · cases h
  rename_i hlen
  refine ⟨by omega, ?_⟩
  split at h
  · rename_i hzero
    exact .inl ⟨hzero, h⟩
  rename_i hzero
  split at h
  · rename_i hall
    obtain ⟨mask, hmask, h⟩ := bind_eq_ok.1 h
    refine .inr ⟨Bool.eq_false_of_not_eq_true hzero, hall, mask, ?_, lift_eq_ok.1 h⟩
    cases hold : v.mask with
    | none =>
      rw [hold] at hmask
      cases hmask
      exact .inl ⟨rfl, rfl⟩
    | some old =>
      rw [hold, Option.mapM_some] at hmask
      obtain ⟨moved, hmoved, rfl⟩ := map_eq_ok.1 hmask
      exact .inr ⟨old, moved, rfl, rfl, mapM_eq_ok.1 hmoved⟩
  · cases h

lemma perm_of_isPermutation {n : Nat} (h : isPermutation axes n = true) : axes.Perm (range n) := by
  simp only [isPermutation, Bool.and_eq_true, beq_iff_eq, all_eq_true, decide_eq_true_eq] at h
  obtain ⟨⟨hlen, hlt⟩, hn⟩ := h
  have hsub : axes ⊆ range n := fun i hi => mem_range.2 (hlt i hi)
  exact (subperm_of_subset hn hsub).perm_of_length_le (by simp [hlen])

lemma permute_eq (h : v.permute axes = .ok w) : axes.Perm (range v.shape.length) ∧
      make (axes.map (fun i => v.shape.getD i (.num 0))) (axes.map (fun i => v.strides.getD i 0))
        v.offset (v.mask.map (fun m => axes.map (fun i => m.getD i (0, 0)))) = .ok w := by
  unfold permute at h
  split at h
  · rename_i hperm
    refine ⟨perm_of_isPermutation hperm, ?_⟩
    rw [lift_eq_ok] at h
    simp only [reorder, bind_eq_ok] at h
    obtain ⟨shape, hshape, strides, hstrides, mask, hmask, h⟩ := h
    rw [reordered_eq hshape, reordered_eq hstrides] at h
    cases hm : v.mask with
    | none =>
      rw [hm] at hmask
      cases hmask
      exact h
    | some m =>
      rw [hm] at hmask
      obtain ⟨_, hranges, rfl⟩ := map_eq_ok.1 hmask
      rw [reordered_eq hranges] at h
      exact h
  · cases h

lemma stride_eq {steps : List Int} (h : v.stride steps = .ok w) :
    v.shape.length = steps.length ∧ (∀ s ∈ steps, s ≠ 0) ∧
      ∃ offset shape mask, v.flipOffset v.offset ((v.shape.zip v.strides).zip steps) =
        .ok offset ∧
        (∀ x ∈ v.strides.zip steps, Fits (x.1 * x.2)) ∧
        Forall₂ (fun x d => strideDim x.1 x.2 = .ok d) (v.shape.zip steps) shape ∧
        (v.mask = none ∧ mask = none ∨ ∃ ds old moved, v.shape = ofInts ds ∧
          v.mask = some old ∧
          mask = some moved ∧
          Forall₂ (fun x r => strideRange x.1 x.2.1 x.2.2 = .ok r)
            (old.zip (ds.zip steps)) moved) ∧
        make shape (zipWith (· * ·) v.strides steps) offset mask = .ok w := by
  unfold stride at h
  split at h
  · cases h
  rename_i hgood
  simp only [Bool.or_eq_true, decide_eq_true_eq, any_eq_true, beq_iff_eq, not_or, not_not,
    not_exists, not_and] at hgood
  refine ⟨hgood.1.symm, hgood.2, ?_⟩
  simp only [bind_eq_ok] at h
  obtain ⟨offset, hoffset, strides, hstrides, shape, hshape, h⟩ := h
  have hfits : ∀ x ∈ v.strides.zip steps, Fits (x.1 * x.2) := by
    intro x hx
    obtain ⟨_, _, hmul⟩ := exists_of_mem_mapM hstrides hx
    exact (mul_eq_ok.1 (lift_eq_ok.1 hmul)).1
  have hstrides' : strides = (v.strides.zip steps).map (fun x => x.1 * x.2) :=
    eq_map_of_mapM (fun _ _ _ hy => (mul_eq_ok.1 (lift_eq_ok.1 hy)).2.symm) hstrides
  rw [hstrides', zip, map_zipWith] at h
  refine ⟨offset, shape, ?_⟩
  have hdims := (mapM_eq_ok.1 hshape).imp fun _ _ h => lift_eq_ok.1 h
  cases hvm : v.mask with
  | none =>
    simp only [hvm, pure_bind, lift_eq_ok] at h
    exact ⟨none, hoffset, hfits, hdims, .inl ⟨rfl, rfl⟩, h⟩
  | some old =>
    simp only [hvm, bind_eq_ok, pure_bind, lift_eq_ok] at h
    obtain ⟨ds, hds, moved, hmoved, h⟩ := h
    exact ⟨some moved, hoffset, hfits, hdims, .inr ⟨ds, old, moved, intShape_eq hds, rfl, rfl,
      (mapM_eq_ok.1 hmoved).imp fun _ _ h => lift_eq_ok.1 h⟩, h⟩

/-! Movements keep views sound. -/

lemma resize_sound (hv : v.Sound) (hw : ∀ r ∈ window, r.1 ≤ r.2)
    (hm : ∀ m, mask = some m → m.length = window.length) (h : v.resize window mask = .ok w) :
    w.Sound := by
  obtain ⟨_, _, _, hoffset, hmask, hfits, h⟩ := resize_eq h
  have hrank := (make_eq h).1
  simp only [ofInts, length_map] at hrank
  refine make_sound (fun d hd => ?_) hv.strides_fit hoffset (fun m hm' => ?_) h
  · obtain ⟨n, hn, rfl⟩ := mem_map.1 hd
    obtain ⟨r, hr, rfl⟩ := mem_map.1 hn
    have := hw r hr
    exact .num (by omega) (hfits r hr)
  simp only [ofInts, length_map]
  unfold windowMask at hmask
  cases hvm : v.mask with
  | none =>
    rw [hvm] at hmask
    cases hmask
    exact hm m hm'
  | some old =>
    simp only [hvm, bind_eq_ok, pure_eq_ok] at hmask
    obtain ⟨moved, hmoved, rfl⟩ := hmask
    have hlen : moved.length = window.length := by
      rw [length_mapM hmoved, length_zip, hv.mask_length old hvm, ← hv.strides_length,
        ← hrank, min_self]
    cases hm'
    cases mask with
    | none => exact hlen
    | some given => simp [meetMasks, hm given rfl, hlen]

lemma pad_sound (hv : v.Sound) (h : v.pad pads = .ok w) : w.Sound := by
  obtain ⟨_, hpads, ⟨rfl, _⟩ | ⟨ds, hs, h⟩⟩ := pad_eq h
  · exact hv
  refine resize_sound hv (fun r hr => ?_) (fun m hm => by cases hm; simp) h
  rw [← map_uncurry_zip_eq_zipWith] at hr
  obtain ⟨⟨d, p⟩, hmem, rfl⟩ := mem_map.1 hr
  obtain ⟨hd, hp⟩ := of_mem_zip hmem
  have hd0 : 0 ≤ d := (hv.dims (num d) (hs ▸ mem_map_of_mem hd)).of_num.1
  have hp0 := hpads p hp
  dsimp only [Function.uncurry]
  omega

lemma shrink_sound (hv : v.Sound) (h : v.shrink ranges = .ok w) : w.Sound := by
  obtain ⟨_, _, hranges, h⟩ := shrink_eq h
  refine resize_sound hv (fun r hr => ?_) (by simp) h
  obtain ⟨_, _, hr⟩ := exists_of_mem_right hranges hr
  exact hr.2.1

lemma expand_sound (hv : v.Sound) (hb : dims.Written) (hd : ∀ d ∈ dims, Dimension d)
    (h : v.expand dims = .ok w) : w.Sound := by
  obtain ⟨hlen, ⟨_, h⟩ | ⟨_, _, _, hmask, h⟩⟩ := expand_eq h
  · exact ofShape_sound hb h
  refine make_sound hd hv.strides_fit hv.offset_fits (fun m hm => ?_) h
  obtain ⟨_, rfl⟩ | ⟨old, _, hold, rfl, hmoved⟩ := hmask
  · cases hm
  cases hm
  rw [← hmoved.length_eq, length_zip, length_zip, hv.mask_length old hold, min_self,
    hlen, min_self]

lemma nth_mem {xs : List α} {i : Nat} {x : α} (h : nth xs i = .ok x) : x ∈ xs :=
  mem_of_getElem? (nth_eq_ok.1 h)

lemma permute_sound (hv : v.Sound) (h : v.permute axes = .ok w) : w.Sound := by
  obtain ⟨hperm, h⟩ := permute_eq h
  have hlt {i : Nat} (hi : i ∈ axes) : i < v.shape.length := mem_range.1 (hperm.subset hi)
  refine make_sound (fun d hd => ?_) (fun st hst => ?_) hv.offset_fits (fun m hm => ?_) h
  · obtain ⟨i, hi, rfl⟩ := mem_map.1 hd
    rw [getD_eq_getElem _ _ (hlt hi)]
    exact hv.dims _ (getElem_mem _)
  · obtain ⟨i, hi, rfl⟩ := mem_map.1 hst
    rw [getD_eq_getElem _ _ (hv.strides_length ▸ hlt hi)]
    exact hv.strides_fit _ (getElem_mem _)
  · obtain ⟨_, _, rfl⟩ := Option.map_eq_some_iff.1 hm
    simp

lemma flipOffset_fits {xs : List ((SymInt × Int) × Int)} {o r : Int} (ho : Fits o)
    (h : v.flipOffset o xs = .ok r) : Fits r := by
  induction xs generalizing o with
  | nil =>
    cases h
    exact ho
  | cons x xs ih =>
    obtain ⟨⟨d, st⟩, m⟩ := x
    rw [flipOffset] at h
    split at h
    · split at h
      · simp only [bind_eq_ok, lift_eq_ok, add_eq_ok] at h
        obtain ⟨_, _, _, _, _, ⟨hf, rfl⟩, h⟩ := h
        exact ih hf h
      · cases h
    · exact ih ho h

lemma stride_sound {multipliers : List Int} (hv : v.Sound) (h : v.stride multipliers = .ok w) :
    w.Sound := by
  obtain ⟨hlen, hne, _, _, _, hoffset, hfits, hdims, hmask, h⟩ := stride_eq h
  refine make_sound (fun d hd => ?_) (fun st hst => ?_) (flipOffset_fits hv.offset_fits hoffset)
    (fun m hm => ?_) h
  · obtain ⟨x, hmem, hr⟩ := exists_of_mem_right hdims hd
    obtain ⟨hd', hm'⟩ := of_mem_zip hmem
    exact (hv.dims _ hd').stride (hne _ hm') hr
  · rw [← map_uncurry_zip_eq_zipWith] at hst
    obtain ⟨x, hx, rfl⟩ := mem_map.1 hst
    exact hfits x hx
  obtain ⟨_, rfl⟩ | ⟨ds, old, _, hs, hold, rfl, hmoved⟩ := hmask
  · cases hm
  cases hm
  have hlen' := hv.mask_length old hold
  rw [hs, ofInts, length_map] at hlen hlen'
  rw [← hmoved.length_eq, ← hdims.length_eq]
  simp only [hs, ofInts, length_zip, length_map]
  omega

lemma length_dealNonUnit (unit filler : α) (shape : Shape) (xs : List α) :
    (dealNonUnit unit filler shape xs).length = shape.length := by
  induction shape generalizing xs with
  | nil => rfl
  | cons d ds ih =>
    rw [dealNonUnit.eq_def]
    dsimp only
    split
    · simp [ih]
    · cases xs with
      | nil | cons x xs => simp [ih]

lemma mem_dealNonUnit {unit filler a : α} {xs : List α}
    (h : a ∈ dealNonUnit unit filler shape xs) : a = unit ∨ a = filler ∨ a ∈ xs := by
  induction shape generalizing xs with
  | nil => cases h
  | cons d ds ih =>
    rw [dealNonUnit.eq_def] at h
    dsimp only at h
    split at h
    · cases mem_cons.1 h with
      | inl h => exact .inl h
      | inr h => exact ih h
    · cases xs with
      | nil =>
        cases mem_cons.1 h with
        | inl h => exact .inr (.inl h)
        | inr h => exact ih h
      | cons x xs =>
        cases mem_cons.1 h with
        | inl h => exact .inr (.inr (h ▸ mem_cons_self))
        | inr h => exact (ih h).imp_right (Or.imp_right (mem_cons_of_mem x))

lemma moveUnits_sound (hv : v.Sound) (hd : ∀ d ∈ target, Dimension d)
    (h : v.moveUnits target = .ok w) : w.Sound := by
  refine make_sound hd (fun st hst => ?_) hv.offset_fits (fun m hm => ?_) h
  · obtain rfl | rfl | hst := mem_dealNonUnit hst
    · exact fits_zero
    · exact fits_zero
    · obtain ⟨⟨d, s⟩, hmem, rfl⟩ := mem_map.1 hst
      exact hv.strides_fit s (of_mem_zip (mem_of_mem_filter hmem)).2
  · obtain ⟨old, _, rfl⟩ := Option.map_eq_some_iff.1 hm
    split
    · simp
    · exact length_dealNonUnit _ _ _ _

/-- A reshape keeps the view, starts over row by row, or moves unit axes. It asks for a second
view only where no dimension is zero. -/
lemma reshape?_cases {r : Option View} (h : v.reshape? target = .ok r) :
    (v.shape == target) = true ∧ r = some v ∨ (∀ d ∈ target, 0 ≤ d.lo) ∧
      ((∃ w, r = some w ∧ ofShape target = .ok w ∧
          (v.contiguous = true ∧ (∀ d ∈ v.shape, d.is 0 = false) ∨
            v.shape.any (·.is 0) = true ∧ target.any (·.is 0) = true)) ∨
        (∃ w, r = some w ∧ v.moveUnits target = .ok w ∧
          (v.shape.filter (fun d => !d.is 1) == target.filter (fun d => !d.is 1)) = true) ∨
        r = none ∧ ∀ d ∈ v.shape, d.is 0 = false) := by
  unfold reshape? at h
  split at h
  · rename_i hsame
    cases h
    exact .inl ⟨hsame, rfl⟩
  split at h
  · cases h
  rename_i hneg
  refine .inr ⟨by simpa using hneg, ?_⟩
  split at h
  · rename_i hzero
    split at h
    · rename_i htarget
      simp only [bind_eq_ok, pure_eq_ok] at h
      obtain ⟨w, hw, rfl⟩ := h
      exact .inl ⟨w, rfl, hw, .inr ⟨hzero, htarget⟩⟩
    · cases h
  rename_i hzero
  replace hzero : ∀ d ∈ v.shape, d.is 0 = false := by simpa using hzero
  -- whether or not the sizes are compared, the rest is the same
  replace h : (do
      if v.contiguous then return some (← ofShape target)
      else if v.shape.filter (fun d => !d.is 1) == target.filter (fun d => !d.is 1) then
        return some (← (v.moveUnits target))
      else pure none : Fallible (Option View)) = .ok r := by
    by_cases hint : (v.shape.allInt && target.allInt) = true
    · rw [if_pos hint] at h
      simp only [bind_eq_ok] at h
      obtain ⟨old, _, new, _, h⟩ := h
      by_cases hsize : (old == new) = true
      · rwa [if_pos hsize] at h
      · rw [if_neg hsize] at h
        cases h
    · rwa [if_neg hint] at h
  split at h
  · rename_i hc
    simp only [bind_eq_ok, pure_eq_ok] at h
    obtain ⟨w, hw, rfl⟩ := h
    exact .inl ⟨w, rfl, hw, .inl ⟨hc, hzero⟩⟩
  split at h
  · rename_i hu
    simp only [bind_eq_ok, pure_eq_ok, lift_eq_ok] at h
    obtain ⟨w, hw, rfl⟩ := h
    exact .inr (.inl ⟨w, rfl, hw, hu⟩)
  · cases h
    exact .inr (.inr ⟨rfl, hzero⟩)

lemma reshape?_sound (hv : v.Sound) (hb : dims.Written) (h : v.reshape? dims = .ok (some w)) :
    w.Sound := by
  obtain ⟨_, ⟨⟩⟩ | ⟨hup,
    ⟨_, ⟨⟩, hw, _⟩ | ⟨_, ⟨⟩, hw, _⟩ | ⟨⟨⟩, _⟩⟩ := reshape?_cases h
  · exact hv
  · exact ofShape_sound hb hw
  · refine moveUnits_sound hv (fun d hd => ?_) hw
    obtain ⟨f, hf⟩ := hb d hd
    exact .of_build hf (hup d hd)

end View

end LazyTensor
