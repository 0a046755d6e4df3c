import LazyTensor.Proofs.Layout.Bounds

/-! Reshaping keeps the row-major order. -/
namespace LazyTensor
open Checked SymInt List Shape View Layout Movement

namespace Checked

/-- What is no larger than a word either way is a word. -/
lemma Fits.of_abs {x r : Int} (hr : Fits r) (h : |x| ≤ r) : Fits x := by
  obtain ⟨h1, h2⟩ := abs_le.1 h
  obtain ⟨_, h3⟩ := hr
  exact ⟨by omega, by omega⟩

/-- Numbers that are no larger than a word all together are added up. -/
lemma sumWords_of_abs {xs : List Int} {r : Int} (hr : Fits r) (h : (xs.map (|·|)).sum ≤ r) :
    sumWords xs = .ok xs.sum := by
  have hsum (a : Int) (ha : |a| + (xs.map (|·|)).sum ≤ r) :
      (∀ x ∈ xs, Fits x) ∧ xs.foldlM add a = .ok (a + xs.sum) := by
    clear h
    induction xs generalizing a with
    | nil => simp [pure, Except.pure]
    | cons x xs ih =>
      rw [map_cons, sum_cons] at ha
      have hrest : 0 ≤ (xs.map (|·|)).sum := sum_nonneg (by simp)
      have hadd := abs_add_le a x
      have ha0 := abs_nonneg a
      obtain ⟨hfits, hfold⟩ := ih (a + x) (by linarith)
      rw [foldlM_cons, sum_cons, ← add_assoc,
        show add a x = .ok (a + x) from add_eq_ok.2 ⟨hr.of_abs (by linarith), rfl⟩]
      exact ⟨forall_mem_cons.2 ⟨hr.of_abs (by linarith), hfits⟩, hfold⟩
  obtain ⟨hfits, hfold⟩ := hsum 0 (by simpa using h)
  rw [zero_add] at hfold
  rw [sumWords, mapM_word, if_pos hfits]
  exact hfold

end Checked

namespace View
variable {v w : View} {ds p strides : List Int}

/-- The places that the view shows lie no further apart than a word counts. -/
def Close (v : View) : Prop := ∀ x y, v.Shows x → v.Shows y → Fits (x - y)

lemma Close.narrow (hv : v.Close) (h : v.Narrows w) : w.Close :=
  fun x y hx hy => hv x y (h.shows hx) (h.shows hy)

lemma ofShape_close (h : ofShape (ofInts ds) = .ok w) : w.Close := by
  intro x y hx hy
  obtain ⟨_, _, _, hwalk, _⟩ := ofShape_eq h
  have hfits : Fits ds.prod := (strideWalk_fits hwalk).2 _ (strideWalk_rank hwalk).1
  have hrank {x : Int} (hx : w.Shows x) : 0 ≤ x ∧ x < ds.prod := by
    obtain ⟨es, p, hs, hp, _, rfl⟩ := hx
    cases ofInts_inj ((ofShape_shape h).symm.trans hs)
    obtain ⟨ho, hsum⟩ := ofShape_rank h hp
    rw [ho, hsum, zero_add]
    exact hp.rank_bounds
  have hx := hrank hx
  have hy := hrank hy
  exact hfits.of_abs (abs_le.2 ⟨by omega, by omega⟩)

lemma close_nil (h : v.shape = []) : v.Close := by
  rintro x y ⟨ds, p, hs, hp, _, rfl⟩ ⟨es, q, hs', hq, _, rfl⟩
  cases ofInts_inj (hs.symm.trans h : ofInts ds = ofInts [])
  cases ofInts_inj (hs'.symm.trans h : ofInts es = ofInts [])
  cases hp
  cases hq
  rw [sub_self]
  exact fits_zero

/-- No way from the origin is longer than two corners of the shape lie apart. -/
lemma exists_corners (hd : ∀ d ∈ ds, 0 < d) (h : strides.length = ds.length) :
    ∃ a b, Inside ds a ∧ Inside ds b ∧ ∀ p, Inside ds p →
      ((zipWith (· * ·) p strides).map (|·|)).sum ≤
        (zipWith (· * ·) a strides).sum - (zipWith (· * ·) b strides).sum := by
  induction ds generalizing strides with
  | nil =>
    refine ⟨[], [], .nil, .nil, fun p hp => ?_⟩
    cases hp
    simp
  | cons d ds ih =>
    cases strides with
    | nil => cases h
    | cons st strides =>
      obtain ⟨hd0, hds⟩ := forall_mem_cons.1 hd
      obtain ⟨a, b, ha, hb, hle⟩ := ih hds (by simpa using h)
      have hlast : 0 ≤ d - 1 ∧ d - 1 < d := by omega
      have hfirst : 0 ≤ (0 : Int) ∧ 0 < d := by omega
      have hfar {i : Int} (hi : 0 ≤ i ∧ i < d) : |i * st| ≤ |st| * (d - 1) := by
        rw [abs_mul, abs_of_nonneg hi.1, mul_comm]
        exact mul_le_mul_of_nonneg_left (by omega) (abs_nonneg st)
      by_cases hst : 0 ≤ st
      · refine ⟨(d - 1) :: a, 0 :: b, .cons hlast ha, .cons hfirst hb, fun p hp => ?_⟩
        cases hp with
        | cons hi hp =>
          have := hfar hi
          rw [abs_of_nonneg hst] at this
          simp only [zipWith_cons_cons, map_cons, sum_cons]
          linarith [hle _ hp]
      · refine ⟨0 :: a, (d - 1) :: b, .cons hfirst ha, .cons hlast hb, fun p hp => ?_⟩
        cases hp with
        | cons hi hp =>
          have := hfar hi
          rw [abs_of_neg (show st < 0 by omega)] at this
          simp only [zipWith_cons_cons, map_cons, sum_cons]
          linarith [hle _ hp]

/-- The offset of a position of a view that hides nothing can be added up, if it is a word. -/
lemma Close.offsetAt (hv : v.Close) (ha : v.Aligned ds) (hm : v.mask = none) (hp : Inside ds p) :
    v.offsetAt p = word (v.offset + (zipWith (· * ·) p v.strides).sum) := by
  obtain ⟨a, b, hina, hinb, hle⟩ := exists_corners hp.pos ha.strides_length
  have hshows {q : List Int} (hq : Inside ds q) :
      v.Shows (v.offset + (zipWith (· * ·) q v.strides).sum) :=
    ⟨ds, q, ha.shape, hq, by rw [allows, hm], rfl⟩
  have hfits := hv _ _ (hshows hina) (hshows hinb)
  rw [add_sub_add_left_eq_sub] at hfits
  rw [offsetAt_products, sumWords_of_abs hfits (hle p hp)]
  rfl

end View

namespace Movement

/-- Shapes asked for are lists of numbers, none of them negative. An axis can also be broadcast to a
negative number of entries; such a movement is not numeric. -/
def Numeric : Movement → Prop
  | reshape s | expand s => ∃ ds, s = Shape.ofInts ds ∧ ∀ d ∈ ds, 0 ≤ d ∧ Fits d
  | _ => True

lemma Numeric.written {m : Movement} (h : m.Numeric) : m.Written := by
  cases m with
  | reshape s | expand s =>
    obtain ⟨ds, rfl, hd⟩ := h
    exact written_ofInts fun d hmem => (hd d hmem).2
  | _ => trivial

lemma Numeric.upward {m : Movement} (h : m.Numeric) : m.Upward := by
  cases m with
  | expand s =>
    obtain ⟨ds, rfl, hd⟩ := h
    intro d hmem
    obtain ⟨n, hn, rfl⟩ := mem_map.1 hmem
    exact lo_num n ▸ (hd n hn).1
  | _ => trivial

end Movement

/-- A layout as movements between shapes of numbers leave it. -/
structure Layout.Numeric (l : Layout) : Prop where
  sound : l.Sound
  framed : l.top.Framed
  sized : ∃ ds, l.shape = Shape.ofInts ds
  close : l.top.Close

namespace Movement

lemma apply_numeric {l l' : Layout} {m : Movement} (hl : l.Numeric) (hm : m.Numeric)
    (h : m.apply l = .ok l') : l'.Numeric := by
  obtain ⟨hsound, hf, ⟨ds, hs⟩, hclose⟩ := hl
  suffices hnext : (∃ ds, l'.shape = ofInts ds) ∧ l'.top.Close from
    ⟨apply_sound hsound hm.written hm.upward h, apply_framed hf hm.written h, hnext.1, hnext.2⟩
  by_cases haxes : m.AxisWise l
  · obtain ⟨w, hw, rfl⟩ := haxes.narrows (hf.aligned hs) h
    exact ⟨hw.sized, hclose.narrow hw⟩
  cases m with
  | reshape s =>
    obtain ⟨ds', rfl, hd⟩ := hm
    have hshape := reshape_shape hs h
    by_cases hne : ds' = []
    · subst hne
      exact ⟨⟨_, hshape⟩, close_nil hshape⟩
    obtain ⟨w, hw, rfl⟩ | ⟨w, hw, rfl, _⟩ := reshape_top hsound hf hs
      (written_ofInts fun d hmem => (hd d hmem).2) (fun hnil => (hne hnil).elim) h
    · exact ⟨hw.sized, hclose.narrow hw⟩
    · exact ⟨⟨_, hshape⟩, ofShape_close hw⟩
  | expand s =>
    obtain ⟨ds', rfl, hd⟩ := hm
    obtain ⟨top, htop, rfl⟩ := map_eq_ok.1 h
    obtain ⟨_, ⟨_, hw⟩ | ⟨hzero, _⟩⟩ := expand_eq htop
    · exact ⟨⟨ds', ofShape_shape hw⟩, ofShape_close hw⟩
    · exact (haxes ⟨allInt_ofInts ds', hzero⟩).elim
  | _ => exact (haxes trivial).elim

lemma run_numeric {ds : List Int} {ms : List Movement} {l : Layout} (hd : ∀ d ∈ ds, Fits d)
    (hms : ∀ m ∈ ms, m.Numeric) (h : run (ofInts ds) ms = .ok l) : l.Numeric := by
  obtain ⟨_, hstart, h⟩ := bind_eq_ok.1 h
  refine foldlM_induction Layout.Numeric
    (fun l m l' hmem hl h => apply_numeric hl (hms m hmem) h) ?_ h
  have hw := written_ofInts hd
  refine ⟨.ofShape hw hstart, ?_, ⟨ds, ofShape_shape hstart⟩, ?_⟩ <;>
    obtain ⟨top, htop, rfl⟩ := map_eq_ok.1 hstart
  · exact ofShape_framed hw htop
  · exact ofShape_close htop

end Movement

namespace Layout
variable {l l' : Layout} {ds ds' p : List Int}

lemma digits_of_nonneg (hd : ∀ d ∈ ds, 0 < d) {x : Int} (h0 : 0 ≤ x) (hx : Fits x) :
    digits ds x = .ok (place ds x, x / ds.prod) := by
  suffices hok : ∃ r, digits ds x = .ok r by
    obtain ⟨r, hr⟩ := hok
    rw [hr, digits_eq hd hr]
  induction ds with
  | nil => exact ⟨_, rfl⟩
  | cons d ds ih =>
    obtain ⟨hd0, hds⟩ := forall_mem_cons.1 hd
    obtain ⟨r, hr⟩ := ih hds
    have hrest : r.2 = x / ds.prod := congrArg Prod.snd (digits_eq hds hr)
    have hq0 : 0 ≤ r.2 := hrest ▸ Int.ediv_nonneg h0 (prod_pos hds).le
    have hq : r.2 ≤ x := hrest ▸ Int.ediv_le_self _ h0
    have hdiv : euclidDiv r.2 d = .ok (r.2 / d) :=
      euclidDiv_eq_ok.2 ⟨by omega, fits_zero.between hx
      (Int.ediv_nonneg hq0 hd0.le) ((Int.ediv_le_self _ hq0).trans hq), rfl⟩
    rw [digits, hr]
    exact ⟨_, by simp only [ok_bind, euclidMod, hdiv]; rfl⟩

lemma offsetOf_buried {w : View} (ha : l.top.Aligned ds) (hd : ∀ d ∈ ds, 0 < d)
    (h : View.ofShape (ofInts ds') = .ok w) (hw : w.Aligned ds') (hp : Inside ds' p) :
    offsetOf { top := w, below := l.top :: l.below } p =
      l.offsetOf (place ds (Shape.rank ds' p)) := by
  have hmask := ofShape_mask h
  obtain ⟨ho, hsum⟩ := ofShape_rank h hp
  obtain ⟨_, _, _, hwalk, _⟩ := ofShape_eq h
  have hprod : Fits ds'.prod := (strideWalk_fits hwalk).2 _ (strideWalk_rank hwalk).1
  have hb := hp.rank_bounds
  have hfits : Fits (Shape.rank ds' p) := fits_zero.between hprod hb.1 hb.2.le
  have hat := (ofShape_close h).offsetAt hw hmask hp
  rw [ho, hsum, zero_add, word_eq_ok.2 ⟨hfits, rfl⟩] at hat
  rw [offsetOf, allows, hmask, if_pos rfl, hat, ok_bind, descendTo, ha.shape, ints?_ofInts]
  dsimp only
  rw [digits_of_nonneg hd hb.1 hfits]
  rfl

/-- The elements of one row-major index have the same place before and after a reshape. -/
lemma offsetOf_reshaped (hl : l.Numeric) (hd : ∀ d ∈ ds', Fits d) (hne : ds' ≠ [])
    (hs : l.shape = ofInts ds) (h : l.reshape (ofInts ds') = .ok l') {k : Int} (h0 : 0 ≤ k)
    (hk : k < ds.prod) : l'.offsetOf (place ds' k) = l.offsetOf (place ds k) := by
  have hshape := reshape_shape hs h
  have hprod := reshape_prod hs h
  have hsized := hl.sound.extents hs (by omega)
  have hsound : l'.Sound := apply_sound (m := .reshape _) hl.sound (written_ofInts hd) trivial h
  have hsized' := hsound.extents hshape (by omega)
  have hl' : l'.Numeric := apply_numeric (m := .reshape _) hl
    ⟨ds', rfl, fun d hmem => ⟨(hsized' d hmem).1.le, hd d hmem⟩⟩ h
  have hpos : ∀ d ∈ ds, 0 < d := fun d hmem => (hsized d hmem).1
  have hpos' : ∀ d ∈ ds', 0 < d := fun d hmem => (hsized' d hmem).1
  have hp := place_inside hpos' k
  have ha := hl.framed.aligned hs
  have hk' : Shape.rank ds' (place ds' k) = k := by
    rw [rank_place hpos', Int.emod_eq_of_lt h0 (hprod ▸ hk)]
  obtain ⟨w, rfl, hreads⟩ | ⟨w, hw, rfl⟩ :=
    reshape_reads ⟨hs, hsized⟩ hl.sound ha hl.framed.made.flat
    hl.framed.made.whole (.inr hne) hsized' hprod h
  · obtain ⟨hread, hat⟩ := hreads _ hp
    rw [hk'] at hread hat
    have hoffset : w.offsetAt (place ds' k) = l.top.offsetAt (place ds k) := by
      obtain ⟨hm, hwm⟩ | hat := hat
      · rw [hl.close.offsetAt ha hm (place_inside hpos k),
          hl'.close.offsetAt (hl'.framed.aligned hshape) hwm hp, hread.place]
      · exact hat
    rw [offsetOf, offsetOf, hread.allows, hoffset]
  · rw [offsetOf_buried ha hpos hw (hl'.framed.aligned hshape) hp, hk']

end Layout

end LazyTensor
