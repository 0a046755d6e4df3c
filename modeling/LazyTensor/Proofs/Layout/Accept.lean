import LazyTensor.Proofs.Layout.Reads
import LazyTensor.Proofs.Layout.Total

/-! Arguments that fit. A movement of the axes whose argument fits the dimensions is done, unless a
word overflows, and where two of the same kind fit, so does the one movement for both. -/
namespace LazyTensor
open Checked SymInt List Shape View OnlyOverflow

namespace View
variable {v w : View} {ds ds' p strides steps : List Int} {pads ranges window : List (Int × Int)}

lemma Aligned.rank (hv : v.Aligned ds) : v.shape.length = ds.length := by
  rw [hv.shape, ofInts, length_map]

lemma resize_overflow {given : Option Mask} (h : v.strides.length = window.length) :
    OnlyOverflow (v.resize window given) := by
  rw [resize_def]
  have hshift : OnlyOverflow (originShift v.strides window) :=
    (mapM fun _ _ => .word _).bind fun _ _ => .sum _
  have hmask : OnlyOverflow (v.windowMask window given) := by
    unfold windowMask
    split
    · exact .pure _
    · exact bind (.mapM fun _ _ => .word_bind fun _ _ => .word_bind
        fun _ _ => .word_bind fun _ _ => .pure _) fun _ _ => .pure _
  refine hshift.bind fun shift _ => .word_bind fun offset _ => hmask.bind fun mask _ => ?_
  refine bind (.mapM fun _ _ => .word _) fun dims hdims => make_overflow ?_
  rw [ofInts, length_map, length_mapM hdims, h]

lemma pad_returns (hv : v.Aligned ds) (hp : ds.length = pads.length)
    (h0 : ∀ p ∈ pads, 0 ≤ p.1 ∧ 0 ≤ p.2) :
    Returns (.abort .arithmetic) (v.pad pads) (fun _ => True) := by
  have hshape := hv.rank
  rw [pad, if_neg (by omega), if_neg (by simpa using h0), intShape, hv.shape, ints?_ofInts]
  split
  · exact .ok trivial
  refine (returns ?_).lift
  refine bind (.mapM fun _ _ => .word_bind fun _ _ => .word_bind
    fun _ _ => .pure _) fun window hwindow => ?_
  refine bind (.mapM fun _ _ => .word_bind fun _ _ => .pure _) fun mask _ => ?_
  refine resize_overflow ?_
  rw [length_mapM hwindow, length_zip, hv.strides_length, hp, min_self]

lemma shrink_returns (hv : v.Aligned ds)
    (hr : Forall₂ (fun d (r : Int × Int) => 0 ≤ r.1 ∧ r.1 ≤ r.2 ∧ r.2 ≤ d) ds ranges) :
    Returns (.abort .arithmetic) (v.shrink ranges) (fun _ => True) := by
  have hshape := hv.rank
  have hrank := hr.length_eq
  rw [shrink, if_neg (by omega), intShape, hv.shape, ints?_ofInts]
  refine Returns.bind (P := (· = ds)) (.ok rfl) fun ds' _ hds => ?_
  subst hds
  rw [if_pos (all_eq_true.2 fun x hx => by simpa [and_assoc] using (forall₂_iff_zip.1 hr).2 hx)]
  exact (resize_overflow (hv.strides_length.trans hrank)).returns.lift

/-- Axes of length one are not walked. -/
lemma Framed.units (hv : v.Framed) (hs : v.shape = ofInts ds) :
    Forall₂ (fun d st => d = 1 → st = 0) ds v.strides := by
  obtain ⟨shape, strides, _, _, h⟩ := hv.made
  obtain ⟨_, hshape, hstrides, _⟩ := make_eq h
  refine forall₂_iff_axes.2 ⟨(hv.aligned hs).strides_length.symm,
    fun {k d st} hd hst h1 => ?_⟩
  rw [hstrides, ← hshape, hs] at hst
  obtain ⟨t, _, ht, _, rfl⟩ := getElem?_zipWith_eq_some.1 hst
  cases (getElem?_ofInts hd).symm.trans ht
  rw [h1]
  rfl

lemma expand_returns (hv : v.Framed) (hs : v.shape = ofInts ds)
    (hzero : v.shape.any (·.is 0) = false) (ht : Forall₂ (fun d t => t = d ∨ d = 1) ds ds') :
    Returns (.abort .arithmetic) (v.expand (ofInts ds')) (fun _ => True) := by
  have hlen := (hv.aligned hs).strides_length
  have hshape := (hv.aligned hs).rank
  have hrank : (ofInts ds').length = ds.length := by rw [ofInts, length_map, ht.length_eq]
  rw [expand, if_neg (by omega), hzero, if_neg (by simp), if_pos]
  · refine Returns.bind (P := fun _ => True) ?_ fun mask _ _ =>
      Returns.lift (make_returns (hlen.trans hrank.symm))
    cases v.mask with
    | none => exact .ok trivial
    | some m =>
      refine (Returns.mapM (R := fun _ _ => True) fun x hx => ?_).bind fun _ _ _ => .ok trivial
      obtain ⟨⟨r, d⟩, t⟩ := x
      obtain ⟨n, _, rfl⟩ := mem_map.1 (of_mem_zip hx).2
      unfold expandRange
      dsimp only
      split
      · exact .ok trivial
      · split <;> exact .ok trivial
  · rw [hs]
    refine all_eq_true.2 fun x hx => ?_
    obtain ⟨⟨d, t⟩, st⟩ := x
    obtain ⟨k, hk⟩ := mem_iff_getElem?.1 hx
    obtain ⟨hdt, hst⟩ := getElem?_zip_eq_some.1 hk
    obtain ⟨hd, ht'⟩ := getElem?_zip_eq_some.1 hdt
    simp only [ofInts, getElem?_map, Option.map_eq_some_iff] at hd ht'
    obtain ⟨d, hd, rfl⟩ := hd
    obtain ⟨t, ht', rfl⟩ := ht'
    obtain rfl | rfl := (forall₂_iff_axes.1 ht).2 hd ht'
    · exact Bool.or_eq_true_iff.2 (.inl (num_beq _))
    · have hst : st = 0 := (forall₂_iff_axes.1 (hv.units hs)).2 hd hst rfl
      simp [hst, is, num?]

lemma flipOffset_returns (offset : Int) :
    Returns (.abort .arithmetic) (v.flipOffset offset (((ofInts ds).zip strides).zip steps))
      (fun _ => True) := by
  induction ds generalizing strides steps offset with
  | nil => exact .ok trivial
  | cons d ds ih =>
    cases strides with
    | nil => exact .ok trivial
    | cons st strides =>
      cases steps with
      | nil => exact .ok trivial
      | cons m steps =>
        simp only [ofInts, map_cons, zip_cons_cons, flipOffset]
        split
        · exact (OnlyOverflow.word _).returns.lift.bind fun _ _ _ =>
            (OnlyOverflow.word _).returns.lift.bind
            fun _ _ _ => (OnlyOverflow.word _).returns.lift.bind fun _ _ _ => ih _
        · exact ih _

lemma strideDim_overflow {d m : Int} (hm : m ≠ 0) : OnlyOverflow (strideDim (.num d) m) := by
  refine .word_bind fun size hsize => .word_bind fun less _ => ?_
  refine (total_overflow _).bind fun rounded hr => ?_
  obtain ⟨_, rfl⟩ := abs_eq_ok.1 hsize
  cases plus_num hr
  rw [quotient_num, if_neg (by omega)]
  exact (OnlyOverflow.floorDiv _ _).bind fun _ _ => .pure _

lemma strideRange_overflow (r : Int × Int) (d m : Int) : OnlyOverflow (strideRange r d m) := by
  have hup (x size : Int) : OnlyOverflow (do euclidDiv (← sub (← add x size) 1) size) :=
    .word_bind fun _ _ => .word_bind fun _ _ => .euclidDiv _ _
  refine .word_bind fun size _ => ?_
  by_cases hm : 0 < m
  · simp only [hm, if_true]
    exact (hup _ _).bind fun _ _ => (hup _ _).bind fun _ _ => .pure _
  · simp only [hm, if_false]
    exact .word_bind fun _ _ => .word_bind fun _ _ =>
      (hup _ _).bind fun _ _ => (hup _ _).bind fun _ _ => .pure _

lemma stride_returns (hv : v.Aligned ds) (hlen : ds.length = steps.length)
    (h0 : ∀ s ∈ steps, s ≠ 0) : Returns (.abort .arithmetic) (v.stride steps)
      (fun _ => True) := by
  have hshape := hv.rank
  have hcheck : ¬(steps.length ≠ v.shape.length || steps.any (· == 0)) = true := by
    simpa [← hlen, hshape] using fun h => h0 0 h rfl
  have hdim : ∀ x ∈ (ofInts ds).zip steps, OnlyOverflow (strideDim x.1 x.2) :=
    fun (d, m) hx => by
    obtain ⟨hmem, hm⟩ := of_mem_zip hx
    obtain ⟨n, _, rfl⟩ := mem_map.1 hmem
    exact strideDim_overflow (h0 m hm)
  rw [stride, if_neg hcheck, intShape, hv.shape, ints?_ofInts]
  refine (flipOffset_returns _).bind fun offset _ _ => ?_
  refine (Returns.mapM (R := fun _ _ => True) fun _ _ => (OnlyOverflow.word _).returns.lift).bind
    fun strides _ hst => ?_
  refine (Returns.mapM (R := fun _ _ => True) fun x hx => (hdim x hx).returns.lift).bind
    fun dims _ hd => ?_
  have hmake (mask : Option Mask) : OnlyOverflow (make dims strides offset mask) := by
    refine make_overflow ?_
    rw [← hst.length_eq, ← hd.length_eq, length_zip, length_zip, hv.strides_length, ofInts,
      length_map]
  cases v.mask with
  | none => exact (hmake none).returns.lift
  | some mask =>
    exact (Returns.mapM (R := fun _ _ => True) fun x _ =>
      (strideRange_overflow _ _ _).returns.lift).bind
      fun _ _ _ => (hmake _).returns.lift

end View

namespace Movement
variable {m first second : Movement} {l l' : Layout} {ds ds' : List Int}

/-- The argument of a movement of the axes fits the dimensions. -/
def Allowed (ds : List Int) : Movement → Prop
  | reshape _ => False
  | permute axes => axes.Perm (List.range ds.length)
  | expand s => ∃ ds', s = Shape.ofInts ds' ∧ List.Forall₂ (fun d t => t = d ∨ d = 1) ds ds'
  | pad pads => ds.length = pads.length ∧ ∀ p ∈ pads, 0 ≤ p.1 ∧ 0 ≤ p.2
  | shrink ranges =>
    List.Forall₂ (fun d (r : Int × Int) => 0 ≤ r.1 ∧ r.1 ≤ r.2 ∧ r.2 ≤ d) ds ranges
  | stride steps => ds.length = steps.length ∧ ∀ s ∈ steps, s ≠ 0

lemma AxisWise.allowed (hm : m.AxisWise l) (hl : l.top.Aligned ds) (h : m.apply l = .ok l') :
    m.Allowed ds := by
  have hlen := hl.rank
  cases m with
  | reshape s => exact hm.elim
  | permute _ =>
    obtain ⟨top, htop, rfl⟩ := map_eq_ok.1 h
    exact (permute_reads hl htop).1
  | expand s =>
    obtain ⟨top, htop, rfl⟩ := map_eq_ok.1 h
    obtain ⟨ds', rfl⟩ := Layout.ints_of_allInt hm.1
    exact ⟨ds', rfl, expand_axes hl hm.2 htop⟩
  | pad _ =>
    obtain ⟨top, htop, rfl⟩ := map_eq_ok.1 h
    obtain ⟨hp, h0, _⟩ := pad_eq htop
    exact ⟨hlen ▸ hp, h0⟩
  | shrink _ =>
    obtain ⟨top, htop, rfl⟩ := map_eq_ok.1 h
    obtain ⟨_, hs, hr, _⟩ := shrink_eq htop
    exact ofInts_inj (hl.shape.symm.trans hs) ▸ hr
  | stride _ =>
    obtain ⟨top, htop, rfl⟩ := map_eq_ok.1 h
    obtain ⟨hp, h0, _⟩ := stride_eq htop
    exact ⟨hlen ▸ hp, h0⟩

lemma Allowed.returns (h : m.Allowed ds) (hm : m.AxisWise l) (hl : l.top.Framed) (hv : l.top.Sound)
    (hs : l.shape = ofInts ds) : Returns (.abort .arithmetic) (m.apply l) (fun _ => True) := by
  have ha := hl.aligned hs
  cases m with
  | reshape s => exact hm.elim
  | permute _ => exact (permute_returns hv hs h).map _
  | expand s =>
    obtain ⟨ds', rfl, ht⟩ := h
    exact (expand_returns hl hs hm.2 ht).map _
  | pad _ => exact (pad_returns ha h.1 h.2).map _
  | shrink _ => exact (shrink_returns ha h).map _
  | stride _ => exact (stride_returns ha h.1 h.2).map _

/-- One movement for two fits the dimensions where the two do. -/
lemma Allowed.merge (h : first.merge second = .ok (some m)) (h1 : first.Allowed ds)
    (hr : first.Resizes ds ds') (h2 : second.Allowed ds') : m.Allowed ds := by
  cases first <;> cases second <;> try cases h
  case reshape.reshape.refl => exact h1.elim
  case expand.expand.refl s t =>
    obtain ⟨_, rfl, ht1⟩ := h1
    cases ofInts_inj hr.1
    obtain ⟨es, rfl, ht2⟩ := h2
    exact ⟨es, rfl, broadcast_trans ht1 ht2⟩
  case permute.permute p q =>
    have hboth := Takes.merge h (show (permute p).Takes ds ds' from hr) (Takes.reorder h2)
    cases merge_permute h
    exact hboth.1
  case pad.pad p q =>
    cases merge_pad h
    obtain ⟨hlen, rfl⟩ := hr
    have hq : p.length = q.length := by simpa [hlen] using h2.1
    refine ⟨by simp [hlen, hq], fun x hx => ?_⟩
    obtain ⟨⟨a, b⟩, hmem, rfl⟩ := mem_map.1 hx
    obtain ⟨ha, hb⟩ := of_mem_zip hmem
    exact ⟨add_nonneg (h1.2 a ha).1 (h2.2 b hb).1, add_nonneg (h1.2 a ha).2 (h2.2 b hb).2⟩
  case shrink.shrink p q =>
    cases merge_shrink h
    obtain ⟨_, rfl⟩ := hr
    obtain ⟨hlen1, hin1⟩ := forall₂_iff_axes.1 h1
    obtain ⟨hlen2, hin2⟩ := forall₂_iff_axes.1 h2
    rw [length_map] at hlen2
    refine forall₂_iff_axes.2 ⟨by simp [hlen1, hlen2], fun {k d r} hd hr => ?_⟩
    rw [getElem?_map, Option.map_eq_some_iff] at hr
    obtain ⟨⟨a, b⟩, hab, rfl⟩ := hr
    obtain ⟨ha, hb⟩ := getElem?_zip_eq_some.1 hab
    have h1 := hin1 hd ha
    have h2 := hin2 (by rw [getElem?_map, ha]; rfl) hb
    dsimp only at h1 h2 ⊢
    omega
  case stride.stride p q =>
    cases merge_stride h
    obtain ⟨hlen, rfl⟩ := hr
    have hq : p.length = q.length := by simpa [hlen] using h2.1
    refine ⟨by simp [hlen, hq], fun x hx => ?_⟩
    obtain ⟨⟨a, b⟩, hmem, rfl⟩ := mem_map.1 hx
    obtain ⟨ha, hb⟩ := of_mem_zip hmem
    exact mul_ne_zero (h2.2 a ha) (h1.2 b hb)

lemma Allowed.merge_returns (hop : first.op = second.op) (h1 : first.Allowed ds)
    (hr : first.Resizes ds ds') (h2 : second.Allowed ds') :
    Returns .arithmetic (first.merge second) (fun o => ∃ m, o = some m ∧ m.Allowed ds) := by
  have hsome : Returns .arithmetic (first.merge second) (fun o => ∃ m, o = some m) := by
    have hjoin {α β : Type} {xs : List α} {f : α → Checked β} (g : List β → Movement)
        (h : ∀ x ∈ xs, OnlyOverflow (f x)) :
        Returns .arithmetic (do return some (g (← xs.mapM f))) (fun o => ∃ m, o = some m) :=
      (mapM h).returns.bind fun _ _ _ => .ok ⟨_, rfl⟩
    cases first <;> cases second <;> try cases hop
    case reshape.reshape | expand.expand => exact .ok ⟨_, rfl⟩
    case permute.permute p q =>
      refine hjoin permute fun i hi => ?_
      have hlt : i < p.length := by simpa [hr.2] using perm_lt h2 hi
      rw [nth_eq_ok.2 (getElem?_eq_getElem hlt)]
      exact .ok _
    case stride.stride => exact hjoin stride fun _ _ => .word _
    case pad.pad =>
      exact hjoin pad fun _ _ => .word_bind fun _ _ => .word_bind fun _ _ => .pure _
    case shrink.shrink =>
      exact hjoin shrink fun _ _ => .word_bind fun _ _ => .word_bind fun _ _ => .pure _
  obtain h | ⟨_, h, m, rfl⟩ := hsome
  · exact .inl h
  · exact .inr ⟨_, h, m, rfl, h1.merge h hr h2⟩

end Movement

end LazyTensor
