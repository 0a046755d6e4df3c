import LazyTensor.Proofs.Layout.Reads

/-! Places in the buffer, before and after a movement: a moved layout leads to the place where the
layout before leads at the position that the element comes from. -/
namespace LazyTensor
open Checked SymInt Shape View

namespace Layout
variable {ds ds' p : List Int}

variable {l l' : Layout} {m : Movement}
variable {w : View} {below : List View}

lemma placeOf_reads {v : View} {q : List Int} (h : w.Reads v p q) :
    placeOf { top := w, below } p = placeOf { top := v, below } q := by
  simp only [placeOf, h.allows, h.place]

lemma placeOf_unmasked (h : l.top.mask = none) :
    placeOf l p = trace l.below (l.top.offset + (List.zipWith (· * ·) p l.top.strides).sum) := by
  rw [placeOf, allows, h, if_pos rfl]

lemma trace_unmasked {vs : List View} (hr : ∀ v ∈ vs, v.Readable)
    (hm : ∀ v ∈ vs, v.mask = none) (x : Int) : ∃ y, trace vs x = some y := by
  induction vs generalizing x with
  | nil => exact ⟨x, rfl⟩
  | cons v vs ih =>
    obtain ⟨⟨_, hv, _⟩, hr⟩ := List.forall_mem_cons.mp hr
    obtain ⟨hm, hms⟩ := List.forall_mem_cons.mp hm
    rw [trace_cons hv.shape, allows, hm, if_pos rfl]
    exact ih hr hms _

lemma Plain.offsetOf (hl : l.Plain ds) (p : List Int) : l.offsetOf p = .error .arithmetic ∨
    ∃ x, l.offsetOf p = .ok (some x) ∧ l.placeOf p = some x := by
  obtain ⟨x, hx⟩ : ∃ x, l.placeOf p = some x := by
    rw [placeOf_unmasked hl.top]
    exact trace_unmasked hl.sound.below hl.below _
  refine (offsetOf_eq_placeOf hl.sound.below p).imp_right fun h => ⟨x, ?_, hx⟩
  rw [h, hx]

lemma placeOf_rowMajor (h : View.ofShape (ofInts ds) = .ok w)
    (hp : Inside ds p) : placeOf { top := w, below } p = trace below (Shape.rank ds p) := by
  obtain ⟨ho, hsum⟩ := ofShape_rank h hp
  rw [placeOf_unmasked (ofShape_mask h), ho, hsum, zero_add]

lemma Plain.placeOf_contiguous (hl : l.Plain ds) (hc : l.contiguous = true) (hp : Inside ds p) :
    l.placeOf p = some (Shape.rank ds p) := by
  simp only [Layout.contiguous, Bool.and_eq_true, List.isEmpty_iff] at hc
  rw [placeOf_unmasked hl.top, hl.flat.rank_eq hp hl.sized.1 hc.2, hc.1]
  rfl

lemma Plain.grid (hl : l.Plain ds) : l.top.Grid ds := hl.sound.top.grid hl.sized.1

lemma Plain.strides_length (hl : l.Plain ds) : l.top.strides.length = ds.length :=
  hl.grid.strides_length

lemma Plain.aligned (hl : l.Plain ds) : l.top.Aligned ds :=
  ⟨hl.sized.1, fun d hd => (hl.sized.2 d hd).2, hl.strides_length, fun m hm =>
    by rw [hl.top] at hm; cases hm⟩

section
variable (hs : l.shape.Sized ds) (hl : l.Sound)
include hs hl

lemma placeOf_buried (h : View.ofShape (ofInts ds') = .ok w)
    (hp : Inside ds' p) : placeOf { top := w, below := l.top :: l.below } p =
      l.placeOf (place ds (Shape.rank ds' p)) := by
  rw [placeOf_rowMajor h hp, trace_cons hs.1, placeOf,
    spread_zip _ _ (hl.top.grid hs.1).strides_length.symm]

/-- A reshaped layout reads at a position what it read at the same row-major index, unless a
row-major view was put on top. Of a view that hides something the offset is computed in the same
way. -/
lemma reshape_reads (ha : l.top.Aligned ds) (hflat : l.top.Flat)
    (hwhole : l.top.contiguous = true → l.top.mask = none)
    (hne : l.top.mask = none ∨ ds' ≠ []) (hd : Extents ds') (hprod : ds.prod = ds'.prod)
    (h : l.reshape (ofInts ds') = .ok l') :
    (∃ w, l' = { l with top := w } ∧ ∀ p, Inside ds' p →
      w.Reads l.top p (place ds (Shape.rank ds' p)) ∧ (l.top.mask = none ∧ w.mask = none ∨
        w.offsetAt p = l.top.offsetAt (place ds (Shape.rank ds' p)))) ∨
      ∃ w, View.ofShape (ofInts ds') = .ok w ∧
      l' = { top := w, below := l.top :: l.below } := by
  have hshape : l.top.shape = ofInts ds := hs.1
  have hpos : ∀ d ∈ ds, 0 < d := fun d h => (hs.2 d h).1
  have hgrid := hl.top.grid hshape
  cases reshape_reshapes hs h with
  | @view w hview =>
    refine .inl ⟨w, rfl, fun p hp => ?_⟩
    cases hview with
    | same heq =>
      rw [hshape] at heq
      cases eq_of_beq heq
      rw [place_rank hp]
      exact ⟨⟨rfl, rfl⟩, .inr rfl⟩
    | whole hc hw =>
      obtain ⟨ho, hsum⟩ := ofShape_rank hw hp
      have hb := hp.rank_bounds
      have hmask := ofShape_mask hw
      refine ⟨⟨by rw [allows, allows, hmask, hwhole hc], ?_⟩, .inl ⟨hwhole hc, hmask⟩⟩
      rw [ho, hsum, hflat.rank_eq (place_inside hpos _) hshape hc, rank_place hpos, zero_add,
        Int.emod_eq_of_lt hb.1 (hprod ▸ hb.2)]
    | units heq hw =>
      rw [hshape, filter_ofInts, filter_ofInts] at heq
      obtain ⟨_, hread, hat⟩ := moveUnits_reads ha hne (eq_of_beq heq) hw hp
      exact ⟨hread, .inr hat⟩
  | @merged extra w he hw =>
    refine .inl ⟨w, rfl, fun p hp => ?_⟩
    have hu := ofShape_sound (Sized.written ⟨rfl, hd⟩) he
    have hshape' := View.ofShape_shape he
    have hall : extra.allows p = true := by rw [allows, ofShape_mask he]
    obtain ⟨hmask, _, _, _, _, _, _, _, hmake⟩ := mergeViews_some hw
    obtain ⟨gs, hgs, hspread⟩ := groups_of_merge hu hshape' hp hgrid hpos hw hall
    obtain ⟨ho, hsum⟩ := ofShape_rank he hp
    refine ⟨⟨?_, ?_⟩, .inl ⟨hmask, ?_⟩⟩
    · rw [merge_allows hshape' hp hw, hall, allows, hmask]
    · rw [(merge_keeps hu hshape' hp hgs hw hall).2 (kept_of_rowMajor hgs hd he hw hp),
        hspread, ho, hsum, zero_add, spread_zip _ _ hgrid.strides_length.symm]
    · rw [(make_eq hmake).2.2.2.2, ofShape_mask he]
      rfl
  | buried he => exact .inr ⟨_, he, rfl⟩

end

lemma Plain.placeOf_reshape (hl : l.Plain ds) {target : Shape}
    (hm : (Movement.reshape target).Takes ds ds') (hd : Extents ds') (h : l.reshape target = .ok l')
    (hp : Inside ds' p) :
    l'.placeOf p = l.placeOf (place ds (Shape.rank ds' p)) := by
  obtain ⟨rfl, hprod⟩ := hm
  obtain ⟨w, rfl, hread⟩ | ⟨w, hw, rfl⟩ :=
    reshape_reads hl.sized hl.sound hl.aligned hl.flat (fun _ => hl.top) (.inl hl.top) hd hprod h
  · exact placeOf_reads (hread p hp).1
  · exact placeOf_buried hl.sized hl.sound hw hp

lemma Plain.placeOf_apply (hl : l.Plain ds) (hm : m.Takes ds ds') (hd : Extents ds')
    (h : m.apply l = .ok l') (hp : Inside ds' p) : l'.placeOf p = l.placeOf (m.source ds p) := by
  by_cases hr : ∃ target, m = .reshape target
  · obtain ⟨target, rfl⟩ := hr
    rw [hl.placeOf_reshape hm hd h hp, Movement.source, hm.1, ints?_ofInts, Option.getD_some]
  have haxes : m.AxisWise l := by
    cases m with
    | reshape target => exact hr ⟨target, rfl⟩
    | expand target => exact ⟨hm.1 ▸ allInt_ofInts ds', hl.sized.any_zero⟩
    | _ => trivial
  obtain ⟨hbelow, es, hsize, _, hread⟩ := Movement.apply_reads hl.aligned haxes h
  cases hsize.det hm.resizes
  have hbehind : m.behind ds p = m.source ds p := by
    cases m with
    | pad pads | stride steps => exact hm.elim
    | _ => rfl
  obtain ⟨_, hread⟩ | ⟨⟨pads, rfl⟩, _⟩ := (hread p hp).1
  · rw [← hbehind]
    obtain ⟨top, below⟩ := l'
    obtain rfl : below = l.below := hbelow
    exact placeOf_reads hread
  · exact hm.elim

end Layout

end LazyTensor
