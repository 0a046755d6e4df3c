import LazyTensor.Proofs.Layout.Reshape
import LazyTensor.Proofs.Layout.Accept

/-! One movement for two of the same kind reads what the two read, one after the other. -/
namespace LazyTensor
open Checked SymInt List Shape View Layout Movement

namespace View
variable {v w : View} {ds ds' p q strides strides' : List Int} {pads : List (Int × Int)}

/-- A pad keeps the way from position to position, also to where there is no position. -/
lemma pad_place (hv : v.Framed) (hs : v.shape = ofInts ds) (hd : ∀ d ∈ ds, 0 < d)
    (h : v.pad pads = .ok w) (hp : p.length = ds.length) :
    w.offset + (zipWith (· * ·) p w.strides).sum =
      v.offset + (zipWith (· * ·) (behindPad pads p) v.strides).sum := by
  have ha := hv.aligned hs
  have hlen := (pad_reads ha h).1
  obtain ⟨_, hneg, ⟨rfl, hzero⟩ | ⟨ds, hs', h⟩⟩ := pad_eq h
  · rw [behindPad_zero hzero (hp.trans hlen)]
  cases ofInts_inj (hs.symm.trans hs')
  rw [← behindWindow_pad hlen]
  refine resize_place (by simp [hlen, ha.strides_length]) h (by simp [hlen, hp]) ?_
  obtain ⟨_, _, _, _, _, _, hmake⟩ := resize_eq h
  obtain ⟨_, _, hstrides, _⟩ := make_eq hmake
  congr 1
  rw [hstrides, map_zipWith]
  refine ext_getElem (by simp [dropUnitStrides, ofInts, hlen, ha.strides_length]) fun k _ hk => ?_
  have hk' : k < ds.length := ha.strides_length ▸ hk
  have h0 := hd _ (getElem_mem hk')
  have ha0 := hneg _ (getElem_mem (hlen ▸ hk'))
  have hunit := (hv.units hs).get hk' hk
  simp only [get_eq_getElem] at hunit
  simp only [dropUnitStrides, ofInts, getElem_zipWith, getElem_map, is, num?,
    Option.some.injEq, decide_eq_true_eq]
  split
  · exact (hunit (by omega)).symm
  · rfl

lemma origin_inside (hd : ∀ d ∈ ds, 0 < d) : Inside ds (replicate ds.length 0) := by
  have hzero := inside_zero hd
  rwa [map_const', ofInts, length_map] at hzero

lemma sum_origin (n : Nat) (strides : List Int) :
    (zipWith (· * ·) (replicate n 0) strides).sum = 0 := by
  refine sum_eq_zero fun x hx => ?_
  obtain ⟨k, hk⟩ := mem_iff_getElem?.1 hx
  obtain ⟨a, b, ha, _, rfl⟩ := getElem?_zipWith_eq_some.1 hk
  rw [(mem_replicate.1 (mem_of_getElem? ha)).2, zero_mul]

/-- Strides are known by the ways to the positions, if axes of length one are not walked. -/
lemma strides_ext (hd : ∀ d ∈ ds, 0 < d)
    (h : Forall₂ (fun d st => d = 1 → st = 0) ds strides)
    (h' : Forall₂ (fun d st => d = 1 → st = 0) ds strides') (hsum : ∀ p, Inside ds p →
      (zipWith (· * ·) p strides).sum = (zipWith (· * ·) p strides').sum) :
      strides = strides' := by
  induction h generalizing strides' with
  | nil =>
    cases h'
    rfl
  | @cons d st ds strides hst _ ih =>
    cases h' with
    | @cons _ st' _ strides' hst' h' =>
      obtain ⟨hd0, hds⟩ := forall_mem_cons.1 hd
      refine cons_eq_cons.2 ⟨?_, ih hds h' fun p hp =>
        by simpa using hsum (0 :: p) (.cons (by omega) hp)⟩
      by_cases h1 : d = 1
      · rw [hst h1, hst' h1]
      · have hone := hsum (1 :: replicate ds.length 0) (.cons (by omega) (origin_inside hds))
        simpa [sum_origin] using hone

/-- Views of one shape that lie at the same places are walked with the same outcome. -/
lemma offsetAt_ext (hv : v.Framed) (hw : w.Framed) (hs : v.shape = ofInts ds)
    (hs' : w.shape = ofInts ds) (h : ∀ p, Inside ds p →
      v.offset + (zipWith (· * ·) p v.strides).sum = w.offset +
        (zipWith (· * ·) p w.strides).sum)
    (hp : Inside ds p) : v.offsetAt p = w.offsetAt p := by
  have ho : v.offset = w.offset := by simpa [sum_origin] using h _ (origin_inside hp.pos)
  have hst := strides_ext hp.pos (hv.units hs) (hw.units hs') fun p hp => by simpa [ho] using h p hp
  rw [offsetAt_products, offsetAt_products, ho, hst]

lemma inside_of_behindPad (h0 : ∀ a ∈ pads, 0 ≤ a.1 ∧ 0 ≤ a.2)
    (hlen : ds.length = pads.length) (hp : p.length = ds.length)
    (h : Inside ds (behindPad pads p)) :
    Inside (zipWith (fun d a => d + a.1 + a.2) ds pads) p := by
  refine forall₂_iff_axes.2 ⟨by simp [hp, hlen], fun {k i e} hi he => ?_⟩
  obtain ⟨d, a, hd, ha, rfl⟩ := getElem?_zipWith_eq_some.1 he
  have := h0 a (mem_of_getElem? ha)
  have := (forall₂_iff_axes.1 h).2 (getElem?_zipWith_eq_some.2 ⟨a, i, ha, hi, rfl⟩) hd
  omega

/-- Every so manieth of every so manieth position, backwards only from a last position that is
met. -/
lemma behindStep_behindStep {d a b i : Int} (ha : a ≠ 0) (hb : b ≠ 0)
    (h : b < 0 → a ∣ d - 1) :
    behindStep d (b * a) i = behindStep d a (behindStep ((d + |a| - 1) / |a|) b i) := by
  unfold behindStep
  obtain hb | hb := lt_or_gt_of_ne hb
  · have hlast : (d + |a| - 1) / |a| * |a| = d - 1 + |a| := by
      rw [show d + |a| - 1 = d - 1 + |a| by ring]
      exact Int.ediv_mul_cancel (dvd_add ((abs_dvd _ _).2 (h hb)) dvd_rfl)
    rw [if_pos hb]
    obtain ha | ha := lt_or_gt_of_ne ha
    · rw [abs_of_neg ha] at hlast ⊢
      rw [if_neg (mul_pos_of_neg_of_neg hb ha).not_gt, if_pos ha]
      linear_combination hlast
    · rw [abs_of_pos ha] at hlast ⊢
      rw [if_pos (mul_neg_of_neg_of_pos hb ha), if_neg ha.not_gt]
      linear_combination -hlast
  · simp only [mul_neg_iff, hb, hb.not_gt, true_and, false_and, or_false, if_false]
    ring

end View

/-- The layouts have one shape, and at each position they lead to the same place, or to none. -/
structure Layout.Coincides (l l' : Layout) : Prop where
  shape : l.shape = l'.shape
  place : ∀ {ds p}, l'.shape = Shape.ofInts ds → Shape.Inside ds p →
    l.offsetOf p = l'.offsetOf p

namespace Movement
variable {m first second : Movement} {l l' l₁ l₂ l₃ : Layout} {ds ds' ds'' p : List Int}

/-- Backwards the last position is met that a stride before it leaves. -/
def MeetsLast (ds : List Int) : Movement → Movement → Prop
  | stride a, stride b => ∀ x ∈ ds.zip (a.zip b), x.2.2 < 0 → x.2.1 ∣ x.1 - 1
  | _, _ => True

lemma behind_merge (h : first.merge second = .ok (some m)) (h1 : first.Resizes ds ds')
    (h2 : second.Resizes ds' ds'') (ha1 : first.Allowed ds) (ha2 : second.Allowed ds')
    (hlast : MeetsLast ds first second) (hp : p.length = ds''.length) :
    m.behind ds p = first.behind ds (second.behind ds' p) := by
  cases first <;> cases second <;> try cases h
  case reshape.reshape.refl => exact ha1.elim
  case expand.expand.refl s t =>
    obtain ⟨_, rfl, ht⟩ := ha1
    cases ofInts_inj h1.1
    exact (squash_squash ht p).symm
  case permute.permute a b =>
    have hsource := source_permute_permute (show (permute a).Takes ds ds' from h1) h2 h
      (by simpa [h2.2] using hp)
    cases merge_permute h
    exact hsource
  case shrink.shrink a b =>
    have hsource : m.source ds p = (shrink a).source ds ((shrink b).source ds' p) :=
      source_shrink_shrink h
    cases merge_shrink h
    exact hsource
  case pad.pad a b =>
    cases merge_pad h
    refine ext_getElem (by simp [behind, behindPad, min_assoc]) fun k _ _ => ?_
    simp only [behind, behindPad, getElem_zipWith, getElem_map, getElem_zip]
    ring
  case stride.stride a b =>
    cases merge_stride h
    obtain ⟨hlen, rfl⟩ := h1
    have hb : a.length = b.length := by simpa [hlen] using ha2.1
    refine ext_getElem (by simp [behind, behindSteps, hlen, hb]) fun k hk _ => ?_
    simp only [behind, behindSteps, length_zipWith, length_zip, length_map, lt_min_iff] at hk
    simp only [behind, behindSteps, getElem_zipWith, getElem_zip, getElem_map]
    have hk' : k < (ds.zip (a.zip b)).length := by simp; omega
    refine behindStep_behindStep (ha1.2 _ (getElem_mem _)) (ha2.2 _ (getElem_mem _)) ?_
    simpa using hlast _ (getElem_mem hk')

/-- One movement of the axes for two has the shape that the two give, and leads where they lead. -/
lemma AxisWise.coincides (hm1 : first.AxisWise l) (hm2 : second.AxisWise l₁) (hm : m.AxisWise l)
    (hl : l.top.Framed) (hl1 : l₁.top.Framed) (hl2 : l₂.top.Framed) (hl3 : l₃.top.Framed)
    (hs : l.shape = ofInts ds) (hd : first.op = .pad → ∀ d ∈ ds, 0 < d)
    (hlast : MeetsLast ds first second) (h : first.merge second = .ok (some m))
    (h1 : first.apply l = .ok l₁) (h2 : second.apply l₁ = .ok l₂)
    (h3 : m.apply l = .ok l₃) : l₃.Coincides l₂ := by
  have ha := hl.aligned hs
  obtain ⟨hb1, ds', hr1, hs1, hread1⟩ := apply_reads ha hm1 h1
  have ha1 := hl1.aligned hs1
  obtain ⟨hb2, es, hr2, hs2, hread2⟩ := apply_reads ha1 hm2 h2
  obtain ⟨hb3, _, hr3, hs3, hread3⟩ := apply_reads ha hm h3
  cases (hr1.merge h hr2).det hr3
  have hbehind {p : List Int} (hp : Inside es p) :=
    behind_merge h hr1 hr2 (hm1.allowed ha h1) (hm2.allowed ha1 h2) hlast hp.length_eq
  refine ⟨hs3.trans hs2.symm, fun {ds'' p} hs'' hp => ?_⟩
  cases ofInts_inj (hs2.symm.trans hs'')
  -- behind a pad there may be no position; then the movement before it is a pad too
  have hfirst {p : List Int} (hp : Inside es p) (hout : ¬Inside ds' (second.behind ds' p)) :
      (∃ a, first = pad a) ∧ (second.behind ds' p).length = ds'.length := by
    obtain ⟨hin, _⟩ | ⟨⟨b, rfl⟩, _⟩ := (hread2 p hp).1
    · exact (hout hin).elim
    · refine ⟨?_, by simp [behind, behindPad, hp.length_eq, hr2.2, ← hr2.1]⟩
      cases first <;> first | cases h | exact ⟨_, rfl⟩
  have hplace {p : List Int} (hp : Inside es p) :
      l₃.top.offset + (zipWith (· * ·) p l₃.top.strides).sum =
        l₂.top.offset + (zipWith (· * ·) p l₂.top.strides).sum := by
    rw [(hread3 p hp).2, (hread2 p hp).2, hbehind hp]
    by_cases hq : Inside ds' (second.behind ds' p)
    · exact (hread1 _ hq).2.symm
    · obtain ⟨⟨a, rfl⟩, hlen⟩ := hfirst hp hq
      obtain ⟨top, htop, rfl⟩ := map_eq_ok.1 h1
      exact (pad_place hl hs (hd rfl) htop (by simpa [hr1.1, hr1.2] using hlen)).symm
  have hallows : l₃.top.allows p = l₂.top.allows p := by
    have h3 := (hread3 p hp).1
    rw [hbehind hp] at h3
    by_cases hq : Inside ds' (second.behind ds' p)
    · rw [((hread2 p hp).1.resolve_right fun hr => hr.2.1 hq).2.allows]
      obtain ⟨hin, hr⟩ | ⟨_, hout, hr⟩ := (hread1 _ hq).1
      · rw [hr.allows, (h3.resolve_right fun hr => hr.2.1 hin).2.allows]
      · rw [hr, (h3.resolve_left fun hr => hout hr.1).2.2]
    · obtain ⟨⟨a, rfl⟩, hlen⟩ := hfirst hp hq
      obtain ⟨hlen', rfl⟩ := hr1
      have hout : ¬Inside ds (behindPad a _) := fun hin =>
        hq (inside_of_behindPad (hm1.allowed ha h1).2 hlen' (by simpa [hlen'] using hlen) hin)
      rw [((hread2 p hp).1.resolve_left fun hr => hq hr.1).2.2,
        (h3.resolve_left fun hr => hout hr.1).2.2]
  rw [offsetOf, offsetOf, hallows, offsetAt_ext hl3 hl2 hs3 hs2 (fun p hp => hplace hp) hp,
    hb3, hb2, hb1]

lemma Numeric.axisWise (hm : m.Numeric) (hop : m.op ≠ .reshape)
    (hzero : m.op = .expand → l.shape.any (·.is 0) = false) : m.AxisWise l := by
  cases m with
  | reshape s => exact hop rfl
  | expand s =>
    obtain ⟨ds, rfl, _⟩ := hm
    exact ⟨allInt_ofInts ds, hzero rfl⟩
  | _ => trivial

lemma Numeric.merge (h : first.merge second = .ok (some m)) (h2 : second.Numeric) :
    m.Numeric ∧ m.op = first.op := by
  cases first <;> cases second <;> try cases h
  case reshape.reshape.refl | expand.expand.refl => exact ⟨h2, rfl⟩
  case permute.permute => cases merge_permute h; exact ⟨trivial, rfl⟩
  case pad.pad => cases merge_pad h; exact ⟨trivial, rfl⟩
  case shrink.shrink => cases merge_shrink h; exact ⟨trivial, rfl⟩
  case stride.stride => cases merge_stride h; exact ⟨trivial, rfl⟩

/-- Two movements of the axes can be done as one, unless a word overflows. -/
lemma AxisWise.merged (hm1 : first.AxisWise l) (hm2 : second.AxisWise l₁) (hn1 : first.Numeric)
    (hn2 : second.Numeric) (hop : first.op = second.op) (hl : l.Numeric) (hs : l.shape = ofInts ds)
    (hd : first.op = .pad → ∀ d ∈ ds, 0 < d) (hlast : MeetsLast ds first second)
    (h1 : first.apply l = .ok l₁) (h2 : second.apply l₁ = .ok l₂) :
    Returns .arithmetic (first.merge second) (fun o => ∃ m, o = some m ∧
      Returns (.abort .arithmetic) (m.apply l) (·.Coincides l₂)) := by
  have ha := hl.framed.aligned hs
  have hl1 := apply_numeric hl hn1 h1
  obtain ⟨_, ds', hr, hs1, _⟩ := apply_reads ha hm1 h1
  refine (Allowed.merge_returns hop (hm1.allowed ha h1) hr
    (hm2.allowed (hl1.framed.aligned hs1) h2)).imp_right fun ⟨_, h, m, ho, hm⟩ =>
    ⟨_, h, m, ho, ?_⟩
  subst ho
  obtain ⟨hn, hop'⟩ := hn2.merge h
  have haxes : m.AxisWise l := by
    refine hn.axisWise (hop' ▸ fun hop => ?_) (hop' ▸ fun hop => ?_)
    · cases first <;> cases hop
      exact hm1
    · cases first <;> cases hop
      exact hm1.2
  refine (hm.returns haxes hl.framed hl.sound.top hs).imp_right fun ⟨l₃, h3, _⟩ =>
    ⟨l₃, h3, ?_⟩
  exact hm1.coincides hm2 haxes hl.framed hl1.framed (apply_numeric hl1 hn2 h2).framed
    (apply_numeric hl hn h3).framed hs hd hlast h h1 h2 h3

end Movement

namespace Layout
variable {l l₁ l₂ : Layout} {start ds : List Int} {ms : List Movement} {first second : Movement}

lemma reshape_merged {es fs : List Int} (hl : l.Numeric) (hs : l.shape.Sized ds)
    (he : ∀ d ∈ es, 0 ≤ d ∧ Fits d) (hf : ∀ d ∈ fs, 0 ≤ d ∧ Fits d)
    (hne : es ≠ [] ∧ fs ≠ []) (h1 : l.reshape (ofInts es) = .ok l₁)
    (h2 : l₁.reshape (ofInts fs) = .ok l₂) :
    Returns (.abort .arithmetic) (l.reshape (ofInts fs)) (·.Coincides l₂) := by
  have hl1 : l₁.Numeric := apply_numeric (m := .reshape _) hl ⟨es, rfl, he⟩ h1
  have hl2 : l₂.Numeric := apply_numeric (m := .reshape _) hl1 ⟨fs, rfl, hf⟩ h2
  have hs1 := reshape_shape hs.1 h1
  have hs2 := reshape_shape hs1 h2
  have hprod1 := reshape_prod hs.1 h1
  have hprod2 := reshape_prod hs1 h2
  have hpos := prod_pos fun d hmem => (hs.2 d hmem).1
  refine (reshape_returns ⟨hs, hl.sound, False.elim⟩ (hl2.sound.extents hs2 (by omega))
    (hprod1.trans hprod2)).imp_right fun ⟨l₃, h3, _⟩ =>
    ⟨l₃, h3, (reshape_shape hs.1 h3).trans hs2.symm, ?_⟩
  intro _ p hs'' hp
  cases ofInts_inj (hs2.symm.trans hs'')
  have hb := hp.rank_bounds
  have hf' : ∀ d ∈ fs, Fits d := fun d hmem => (hf d hmem).2
  rw [← place_rank hp, offsetOf_reshaped hl hf' hne.2 hs.1 h3 hb.1 (by omega),
    offsetOf_reshaped hl1 hf' hne.2 hs1 h2 hb.1 (by omega),
    offsetOf_reshaped hl (fun d hmem => (he d hmem).2) hne.1 hs.1 h1 hb.1 (by omega)]

/-- Pads, shrinks, permutes, expands and reshapes can be joined. For every layout of positive
numbers that movements lead to and two movements of the same kind that it takes one after the other,
the one movement for both coincides with the two, unless a word overflows on the way. Reshapes leave
an axis, what is expanded again is not empty, and no axis is ever broadcast to a negative number of
entries. -/
theorem offsetOf_merged (hstart : ∀ d ∈ start, Fits d) (hms : ∀ m ∈ ms, m.Numeric)
    (hrun : run (Shape.ofInts start) ms = .ok l) (hs : l.shape = Shape.ofInts ds)
    (hd : ∀ d ∈ ds, 0 < d) (hop : first.op = second.op) (hstride : first.op ≠ .stride)
    (hn1 : first.Numeric) (hn2 : second.Numeric)
    (hrank : first.op = .reshape → l₁.shape ≠ [] ∧ l₂.shape ≠ [])
    (hzero : first.op = .expand → l₁.shape.any (·.is 0) = false)
    (h1 : first.apply l = .ok l₁) (h2 : second.apply l₁ = .ok l₂) :
    Returns .arithmetic (first.merge second) (fun o => ∃ m, o = some m ∧
      Returns (.abort .arithmetic) (m.apply l) (·.Coincides l₂)) := by
  have hl := run_numeric hstart hms hrun
  have hsized : l.shape.Sized ds :=
    ⟨hs, fun d hmem => ⟨hd d hmem, (hl.framed.aligned hs).dims_fit d hmem⟩⟩
  by_cases hr : first.op = .reshape
  · obtain ⟨hne1, hne2⟩ := hrank hr
    cases first <;> cases hr
    cases second <;> cases hop
    obtain ⟨es, rfl, he⟩ := hn1
    obtain ⟨fs, rfl, hf⟩ := hn2
    have hs1 := reshape_shape hs h1
    rw [hs1] at hne1
    rw [reshape_shape hs1 h2] at hne2
    exact .ok ⟨_, rfl, reshape_merged hl hsized he hf
      ⟨fun h => hne1 (by rw [h]; rfl), fun h => hne2 (by rw [h]; rfl)⟩ h1 h2⟩
  · refine (hn1.axisWise hr fun _ => hsized.any_zero).merged
      (hn2.axisWise (hop ▸ hr) fun h => hzero (hop.trans h))
      hn1 hn2 hop hl hs (fun _ => hd) ?_ h1 h2
    cases first <;> first | exact (hstride rfl).elim | exact trivial

/-- Two pads of a matrix that is turned and walked backwards. -/
theorem turned_offsetOf_merged : ∃ l l₁ l₂ l₃,
    run [.num 3, .num 4] [.permute [1, 0], .stride [-1, 2]] = .ok l ∧
    l.pad [(1, 0), (0, 2)] = .ok l₁ ∧ l₁.pad [(2, 1), (1, 0)] = .ok l₂ ∧
    l.pad [(3, 1), (1, 2)] = .ok l₃ ∧
    l₂.offsetOf [4, 1] = .ok (some 2) ∧ l₂.offsetOf [4, 3] = .ok none ∧
    l₃.Coincides l₂ := by
  obtain ⟨l, hl⟩ : ∃ l, run
      (Shape.ofInts [3, 4]) [.permute [1, 0], .stride [-1, 2]] = .ok l := ⟨_, rfl⟩
  obtain ⟨l₁, h1⟩ : ∃ l₁, (Movement.pad [(1, 0), (0, 2)]).apply l = .ok l₁ := by
    cases hl; exact ⟨_, rfl⟩
  obtain ⟨l₂, h2⟩ : ∃ l₂, (Movement.pad [(2, 1), (1, 0)]).apply l₁ = .ok l₂ := by
    cases hl; cases h1; exact ⟨_, rfl⟩
  have hs : l.shape = Shape.ofInts [4, 2] := by cases hl; rfl
  obtain ⟨m, hm, h⟩ :=
    (offsetOf_merged (by decide) (by simp [Movement.Numeric]) hl hs (by decide) (by rfl)
    (by rintro ⟨⟩) (by trivial) (by trivial) (by rintro ⟨⟩)
      (by rintro ⟨⟩) h1 h2).of_ok rfl
  cases hm
  cases hl
  cases h1
  cases h2
  exact ⟨_, _, _, _, rfl, rfl, rfl, rfl, rfl, rfl, h.of_ok rfl⟩

/-- The way back to the first element of a pad is not too long, nor the way from there in two
steps. -/
theorem far_shrink_overflows : ∃ l l₁ l₂,
    run [.num 2, .num (2 ^ 61)] [.shrink [(0, 2), (0, 1)], .pad [(4, 2), (0, 0)]] = .ok l ∧
    l.shrink [(3, 8), (0, 1)] = .ok l₁ ∧ l₁.shrink [(2, 5), (0, 1)] = .ok l₂ ∧
    l₂.offsetOf [0, 0] = .ok (some (2 ^ 61)) ∧
    (Movement.shrink [(3, 8), (0, 1)]).merge (.shrink [(2, 5), (0, 1)]) =
      .ok (some (.shrink [(5, 8), (0, 1)])) ∧
    l.shrink [(5, 8), (0, 1)] = .error (.abort .arithmetic) :=
  ⟨_, _, _, rfl, rfl, rfl, rfl, rfl, rfl⟩

/-- Strides can be joined where the second one walks no axis backwards that the first one leaves
before its last position. No axis of the layout has been broadcast to a negative number of
entries. -/
theorem offsetOf_merged_strides {a b : List Int} (hstart : ∀ d ∈ start, Fits d)
    (hms : ∀ m ∈ ms, m.Numeric) (hrun : run (Shape.ofInts start) ms = .ok l)
    (hs : l.shape = Shape.ofInts ds) (hlast : ∀ x ∈ ds.zip (a.zip b), x.2.2 < 0 →
      x.2.1 ∣ x.1 - 1) (h1 : l.stride a = .ok l₁)
    (h2 : l₁.stride b = .ok l₂) :
    Returns .arithmetic ((Movement.stride a).merge (.stride b)) (fun o => ∃ m, o = some m ∧
      Returns (.abort .arithmetic) (m.apply l) (·.Coincides l₂)) := by
  have haxes (steps : List Int) (l : Layout) : (Movement.stride steps).AxisWise l := trivial
  exact (haxes a l).merged (haxes b l₁) trivial trivial rfl
    (run_numeric hstart hms hrun) hs nofun hlast h1 h2

/-- A padded matrix, walked backwards from positions that are met. -/
theorem padded_offsetOf_merged_strides : ∃ l l₁ l₂ l₃,
    run [.num 3, .num 4] [.pad [(1, 1), (0, 2)]] = .ok l ∧
    l.stride [2, -3] = .ok l₁ ∧
    l₁.stride [-1, 2] = .ok l₂ ∧ l.stride [-2, -6] = .ok l₃ ∧
    l₂.shape = [.num 3, .num 1] ∧ l₃.Coincides l₂ := by
  obtain ⟨l, hl⟩ : ∃ l, run (Shape.ofInts [3, 4]) [.pad [(1, 1), (0, 2)]] = .ok l :=
    ⟨_, rfl⟩
  obtain ⟨l₁, h1⟩ : ∃ l₁, l.stride [2, -3] = .ok l₁ := by cases hl; exact ⟨_, rfl⟩
  obtain ⟨l₂, h2⟩ : ∃ l₂, l₁.stride [-1, 2] = .ok l₂ := by
    cases hl; cases h1; exact ⟨_, rfl⟩
  have hs : l.shape = Shape.ofInts [5, 6] := by cases hl; rfl
  obtain ⟨m, hm, h⟩ :=
    (offsetOf_merged_strides (by decide) (by simp [Movement.Numeric]) hl hs (by decide)
    h1 h2).of_ok rfl
  cases hm
  cases hl
  cases h1
  cases h2
  exact ⟨_, _, _, _, rfl, rfl, rfl, rfl, rfl, h.of_ok rfl⟩

/-- Every second of four positions leaves the last one out, and both ways back start elsewhere. -/
theorem skipped_last_differs : ∃ l l₁ l₂ l₃, run [.num 4] [] = .ok l ∧
    l.stride [2] = .ok l₁ ∧
    l₁.stride [-1] = .ok l₂ ∧ (Movement.stride [2]).merge (.stride [-1]) =
      .ok (some (.stride [-2])) ∧
    l.stride [-2] = .ok l₃ ∧ l₂.offsetOf [0] = .ok (some 2) ∧
    l₃.offsetOf [0] = .ok (some 3) :=
  ⟨_, _, _, _, rfl, rfl, rfl, rfl, rfl, rfl, rfl⟩

end Layout

end LazyTensor
