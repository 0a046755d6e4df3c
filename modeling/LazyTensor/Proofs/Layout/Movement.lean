import LazyTensor.Graph.Movement
import LazyTensor.Proofs.Layout.Access

/-! Layouts as they come about: the row-major layout of a shape, moved step by step. -/
namespace LazyTensor
open List Shape View Option

open Checked SymInt

namespace Movement

def run (shape : Shape) (ms : List Movement) : Fallible Layout := do
  ms.foldlM (fun l m => m.apply l) (← Layout.ofShape shape)

/-- Dimensions asked for are indices as they can be written. -/
def Written : Movement → Prop
  | expand target | reshape target => target.Written
  | _ => True

/-- A shape is never broadcast to a dimension that can be negative. -/
def Upward : Movement → Prop
  | expand target => ∀ d ∈ target, 0 ≤ d.lo
  | _ => True

end Movement

namespace Layout
variable {t : SymInt} {lower upper w : View} {idxs : List SymInt} {i : Nat} {st : Int}
  {shape dims : Shape} {l l' : Layout}

structure Sound (l : Layout) : Prop where
  top : l.top.Sound
  below : ∀ v ∈ l.below, v.Readable

lemma coeff_fits {A : Assignment} {e : SymInt} (h : e.Regular A.scope) (ht : t ∈ e.parts) :
    Fits t.atomCoeff.2 := by
  rw [parts_eq_terms h] at ht
  obtain ⟨hr, _⟩ := h.terms.1 t ht
  cases hr with
  | mul _ _ _ _ hc _ _ => exact hc
  | num _ | var _ _ _ | div _ _ _ _ _ | mod _ _ _ _ _ | sum _ _ _ _ _ _ => exact fits_one

lemma mergeViews_some (h : mergeViews lower upper = .ok (some w)) :
    lower.mask = none ∧ upper.offset = 0 ∧ ∃ idxs a strides, upper.shape.counters =
      .ok idxs ∧
      access { top := upper, below := [lower] } idxs = .ok a ∧
      (idxs.mapIdx (axisStride a (a.index.parts.filterMap (strideOf idxs)) false)).mapM id =
        some strides ∧ make upper.shape strides lower.offset upper.mask = .ok w := by
  unfold mergeViews at h
  split at h
  · cases h
  · rename_i hfree
    simp only [Bool.or_eq_true, decide_eq_true_eq, not_or, Bool.not_eq_true, isSome_eq_false_iff,
      isNone_iff_eq_none, ne_eq, not_not] at hfree
    simp only [realStrides, isEmpty_cons, Bool.false_and, Bool.false_eq_true, if_false,
      bind_eq_ok, pure_eq_ok] at h
    obtain ⟨strides, ⟨idxs, hidxs, a, ha, rfl⟩, h⟩ := h
    cases hs : (idxs.mapIdx (axisStride a (a.index.parts.filterMap (strideOf idxs)) false)).mapM
      id with
    | none =>
      rw [hs] at h
      cases h
    | some strides =>
      rw [hs] at h
      simp only [bind_eq_ok, pure_eq_ok, some.injEq] at h
      obtain ⟨w, hw, rfl⟩ := h
      exact ⟨hfree.1, hfree.2, idxs, a, strides, hidxs, ha, hs, hw⟩

lemma eq_map_some {xs : List (Option Int)} {ys : List Int} (h : xs.mapM id = some ys) :
    xs = ys.map some := by
  induction xs generalizing ys with
  | nil =>
    cases h
    rfl
  | cons x xs ih =>
    rw [mapM_cons] at h
    cases x with
    | none => cases h
    | some x =>
      cases hs : xs.mapM id with
      | none =>
        rw [hs] at h
        cases h
      | some zs =>
        rw [hs] at h
        cases h
        rw [ih hs]
        rfl

lemma axisStride_some {a : Access} {idx : SymInt}
    (h : axisStride a (a.index.parts.filterMap (strideOf idxs)) false i idx = some st) :
    st = 0 ∨ ∃ t ∈ a.index.parts, strideOf idxs t = some (i, st) := by
  unfold axisStride at h
  split at h
  · cases h
    exact .inl rfl
  split at h
  · cases h
  split at h
  · obtain ⟨⟨j, s⟩, hfind, rfl⟩ := map_eq_some_iff.1 h
    have hj := find?_some hfind
    obtain ⟨t, ht, hs⟩ := mem_filterMap.1 (mem_reverse.1 (mem_of_find?_eq_some hfind))
    have hij : j = i := by simpa using hj
    exact .inr ⟨t, ht, hij ▸ hs⟩
  · cases h
    exact .inl rfl

lemma strideOf_some (h : strideOf idxs t = some (i, st)) :
    st = t.atomCoeff.2 ∧ t.atomCoeff.1.var?.isSome = true ∧
      idxs.findIdx? (· == t.atomCoeff.1) = some i := by
  unfold strideOf at h
  dsimp only at h
  split at h
  · rename_i hvar
    obtain ⟨j, hj, h⟩ := map_eq_some_iff.1 h
    cases h
    exact ⟨rfl, hvar, hj⟩
  · cases h

def origin : Assignment := Assignment.declared (fun _ => 0)

lemma counters_origin (hc : Forall₂ Counts shape idxs) :
    Forall₂ (Means origin) idxs (shape.map (fun _ => 0)) := by
  refine counters_mean hc ?_ ?_
  · rw [forall₂_map_right_iff, forall₂_same]
    intro d _
    exact ⟨le_rfl, le_max_right _ _⟩
  · induction hc with
    | nil => exact .nil
    | @cons d e ds es he _ ih =>
      refine .cons (fun v hv => ?_) ih
      obtain ⟨u, _, hlo, hhi, hu⟩ := he
      have huv : u = v := ofVariable_eq_var (hu ▸ hv)
      subst huv
      have hmax : 0 ≤ u.hi := hhi ▸ le_max_right _ _
      exact ⟨⟨le_of_eq hlo.symm, le_of_eq hlo, hmax⟩, rfl⟩

lemma origin_units (shape : Shape) :
    Forall₂ (fun i d => d.is 1 = true → i = 0) (shape.map (fun _ => (0 : Int))) shape := by
  rw [forall₂_map_left_iff, forall₂_same]
  intro d _ _
  rfl

lemma mergeViews_sound (hl : lower.Readable) (hu : upper.Sound)
    (hm : upper.MaskInside (upper.shape.map (fun _ => 0)))
    (h : mergeViews lower upper = .ok (some w)) : w.Sound := by
  obtain ⟨_, _, idxs, a, _, hidxs, ha, hs, hw⟩ := mergeViews_some h
  have hc := counters_count hidxs
  have hbuilt := (access_delivers (l := { top := upper, below := [lower] }) hu (by simpa using hl)
    (counters_origin hc) (origin_units _) hm).of_ok ha
  obtain ⟨dims, hgrid, _⟩ := hl
  refine make_sound hu.dims (fun st hst => ?_) hgrid.offset_fits hu.mask_length hw
  have hmem : some st ∈ idxs.mapIdx
      (axisStride a (a.index.parts.filterMap (strideOf idxs)) false) := by
    rw [eq_map_some hs]
    exact mem_map_of_mem hst
  obtain ⟨i, hi, hst⟩ := mem_mapIdx.1 hmem
  cases axisStride_some hst with
  | inl h0 => exact h0 ▸ fits_zero
  | inr hfound =>
    obtain ⟨t, ht, hs⟩ := hfound
    exact (strideOf_some hs).1 ▸ coeff_fits hbuilt.1 ht

lemma readable_of_sound {v : View} {dims : List Int} (hv : v.Sound)
    (hshape : v.shape = ofInts dims) (h0 : ∀ d ∈ v.shape, d.is 0 = false) : v.Readable := by
  refine ⟨dims, hv.grid hshape, fun d hd => ?_⟩
  have hmem : num d ∈ v.shape := hshape ▸ mem_map_of_mem hd
  have hne : d ≠ 0 := by simpa [is, num?] using h0 _ hmem
  have := (hv.dims _ hmem).of_num.1
  omega

lemma ints_of_allInt (h : shape.allInt = true) : ∃ dims, shape = ofInts dims := by
  induction shape with
  | nil => exact ⟨[], rfl⟩
  | cons d ds ih =>
    rw [allInt, all_cons, Bool.and_eq_true] at h
    obtain ⟨n, hn⟩ := isSome_iff_exists.1 h.1
    obtain ⟨dims, rfl⟩ := ih h.2
    exact ⟨n :: dims, by rw [eq_num_of_num? hn]; rfl⟩

lemma Sound.ofShape (hb : dims.Written) (h : Layout.ofShape dims = .ok l) : l.Sound := by
  obtain ⟨top, htop, rfl⟩ := map_eq_ok.1 h
  exact ⟨ofShape_sound hb htop, by simp⟩

lemma reshape_cases {target : Shape} (h : l.reshape target = .ok l') :
    (∃ w, l.top.reshape? target = .ok (some w) ∧ l' = { l with top := w }) ∨
      l.top.reshape? target = .ok none ∧ l.shape.allInt = true ∧
        ∃ extra, View.ofShape target = .ok extra ∧
          ((∃ w, mergeViews l.top extra = .ok (some w) ∧ l' = { l with top := w }) ∨
            l' = { top := extra, below := l.top :: l.below }) := by
  simp only [Layout.reshape, bind_eq_ok] at h
  obtain ⟨r, hr, h⟩ := h
  cases r with
  | some top =>
    cases h
    exact .inl ⟨top, hr, rfl⟩
  | none =>
    dsimp only at h
    split at h
    · rename_i hint
      simp only [bind_eq_ok, lift_eq_ok] at h
      obtain ⟨extra, hextra, merged, hmerged, h⟩ := h
      refine .inr ⟨hr, hint, extra, hextra, ?_⟩
      cases merged with
      | some top =>
        cases h
        exact .inl ⟨top, hmerged, rfl⟩
      | none =>
        cases h
        exact .inr rfl
    · cases h

lemma Sound.reshape (hl : l.Sound) (hb : dims.Written) (h : l.reshape dims = .ok l') :
    l'.Sound := by
  obtain ⟨w, hw, rfl⟩ | ⟨hr, hint, extra, hextra, h⟩ := reshape_cases h
  · exact ⟨reshape?_sound hl.top hb hw, hl.below⟩
  obtain ⟨ints, hints⟩ := ints_of_allInt hint
  obtain ⟨_, ⟨⟩⟩ | ⟨_, ⟨_, ⟨⟩, _⟩ | ⟨_, ⟨⟩, _⟩ | ⟨_, hzero⟩⟩ :=
    reshape?_cases hr
  have hread := readable_of_sound hl.top hints hzero
  have hex := ofShape_sound hb hextra
  obtain ⟨w, hw, rfl⟩ | rfl := h
  · exact ⟨mergeViews_sound hread hex (.inl (ofShape_mask hextra)) hw, hl.below⟩
  · exact ⟨hex, forall_mem_cons.2 ⟨hread, hl.below⟩⟩

end Layout

/-- Every movement keeps a layout sound. -/
lemma Movement.apply_sound {l l' : Layout} {m : Movement} (hl : l.Sound) (hw : m.Written)
    (hm : m.Upward) (h : m.apply l = .ok l') : l'.Sound := by
  cases m with
  | pad _ =>
    obtain ⟨top, htop, rfl⟩ := map_eq_ok.1 h
    exact ⟨pad_sound hl.top htop, hl.below⟩
  | shrink _ =>
    obtain ⟨top, htop, rfl⟩ := map_eq_ok.1 h
    exact ⟨shrink_sound hl.top htop, hl.below⟩
  | expand target =>
    obtain ⟨top, htop, rfl⟩ := map_eq_ok.1 h
    refine ⟨expand_sound hl.top hw (fun d hd => ?_) htop, hl.below⟩
    obtain ⟨f, hbuild⟩ := hw d hd
    exact .of_build hbuild (hm d hd)
  | permute _ =>
    obtain ⟨top, htop, rfl⟩ := map_eq_ok.1 h
    exact ⟨permute_sound hl.top htop, hl.below⟩
  | stride _ =>
    obtain ⟨top, htop, rfl⟩ := map_eq_ok.1 h
    exact ⟨stride_sound hl.top htop, hl.below⟩
  | reshape target => exact hl.reshape hw h

lemma Movement.run_sound {shape : Shape} {ms : List Movement} {l : Layout} (hs : shape.Written)
    (hw : ∀ m ∈ ms, m.Written) (hm : ∀ m ∈ ms, m.Upward)
    (h : Movement.run shape ms = .ok l) :
    l.Sound := by
  simp only [run, bind_eq_ok] at h
  obtain ⟨_, hstart, h⟩ := h
  exact foldlM_induction Layout.Sound
    (fun s m t hmem hs ht => apply_sound hs (hw m hmem) (hm m hmem) ht) (.ofShape hs hstart) h

end LazyTensor
