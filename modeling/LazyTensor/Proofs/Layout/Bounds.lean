import LazyTensor.Proofs.Layout.Place

/-! Offsets stay inside the buffer. Padding moves offsets out of the buffer, and the mask hides the
positions where it does. -/
namespace LazyTensor
open Checked SymInt Shape Layout List Movement

namespace View
variable {v w : View} {ds ds' : List Int} {x : Int}

def Shows (v : View) (x : Int) : Prop :=
  ∃ ds p, v.shape = Shape.ofInts ds ∧ Shape.Inside ds p ∧ v.allows p = true ∧
    x = v.offset + (zipWith (· * ·) p v.strides).sum

lemma Made.flat (h : v.Made) : v.Flat := by
  obtain ⟨_, _, _, _, h⟩ := h
  exact make_flat h

lemma Made.whole (h : v.Made) (hc : v.contiguous = true) : v.mask = none := by
  obtain ⟨_, _, _, _, h⟩ := h
  unfold make at h
  split at h
  · cases h
  · dsimp only at h
    split at h
    · rename_i hwhole
      simp only [bind_eq_ok, pure_eq_ok] at h
      obtain ⟨_, _, _, _, rfl⟩ := h
      exact Option.isNone_iff_eq_none.1 hwhole.2
    · simp only [pure_bind, pure_eq_ok] at h
      subst h
      cases hc

/-- The second view has known dimensions and shows nothing that the first one does not. -/
structure Narrows (v w : View) : Prop where
  sized : ∃ ds, w.shape = Shape.ofInts ds
  shows : ∀ {x}, w.Shows x → v.Shows x

lemma Narrows.of_reads (hv : v.shape = ofInts ds) (hw : w.shape = ofInts ds')
    (h : ∀ p, Inside ds' p → w.allows p = true → ∃ q, Inside ds q ∧ w.Reads v p q) :
    v.Narrows w where
  sized := ⟨ds', hw⟩
  shows hx := by
    obtain ⟨es, p, hs, hp, hall, rfl⟩ := hx
    obtain rfl : ds' = es := ofInts_inj (hw.symm.trans hs)
    obtain ⟨q, hq, hread⟩ := h p hp hall
    exact ⟨ds, q, hv, hq, hread.allows ▸ hall, hread.place⟩

lemma ofShape_narrows (hzero : (ofInts ds).any (·.is 0) = true)
    (h : ofShape (ofInts ds) = .ok w) : v.Narrows w where
  sized := ⟨ds, ofShape_shape h⟩
  shows hx := by
    obtain ⟨ds', p, hs, hp, _⟩ := hx
    cases ofInts_inj ((ofShape_shape h).symm.trans hs)
    exact (not_inside_of_zero hzero hp).elim

end View

namespace Layout
variable {l l' : Layout} {ds ds' : List Int} {i : Int}

def Shows (l : Layout) (i : Int) : Prop := ∃ x, l.top.Shows x ∧ trace l.below x = some i

/-- The second layout has known dimensions and shows nothing that the first one does not. -/
structure Narrows (l l' : Layout) : Prop where
  sized : ∃ ds, l'.shape = Shape.ofInts ds
  shows : ∀ {i}, l'.Shows i → l.Shows i

lemma Narrows.of_top {w : View} (h : l.top.Narrows w) : l.Narrows { l with top := w } where
  sized := h.sized
  shows hi := by
    obtain ⟨x, hx, hi⟩ := hi
    exact ⟨x, h.shows hx, hi⟩

lemma buried_narrows {w : View} (hs : l.top.Grid ds) (hpos : ∀ d ∈ ds, 0 < d)
    (hw : View.ofShape (ofInts ds') = .ok w) :
    l.Narrows { top := w, below := l.top :: l.below } := by
  refine ⟨⟨ds', View.ofShape_shape hw⟩, fun {i} hi => ?_⟩
  obtain ⟨x, _, hx⟩ := hi
  rw [trace_cons hs.shape] at hx
  split at hx
  · rename_i hall
    refine ⟨_, ⟨ds, _, hs.shape, place_inside hpos x, hall, ?_⟩, hx⟩
    rw [spread_zip _ _ hs.strides_length.symm]
  · cases hx

lemma Sound.extents (hl : l.Sound) (hs : l.shape = ofInts ds) (hne : ds.prod ≠ 0) :
    Extents ds := by
  intro d hd
  obtain ⟨h0, hfits⟩ :=
    (hl.top.dims (num d) ((show l.top.shape = _ from hs) ▸ mem_map_of_mem hd)).of_num
  have hd0 : d ≠ 0 := fun hz => hne (prod_eq_zero (hz ▸ hd))
  exact ⟨by omega, hfits⟩

/-- A reshaped layout shows less through its top view, or has a row-major view on top. -/
lemma reshape_top (hl : l.Sound) (hf : l.top.Framed) (hs : l.shape = ofInts ds)
    (hw : (ofInts ds').Written) (hrank : ds' = [] → l.top.mask = none)
    (h : l.reshape (ofInts ds') = .ok l') :
    (∃ w, l.top.Narrows w ∧ l' = { l with top := w }) ∨
      ∃ w, View.ofShape (ofInts ds') = .ok w ∧ l' = { top := w, below := l.top :: l.below } ∧
        ∀ d ∈ ds, 0 < d := by
  have hprod := reshape_prod hs h
  have hshape := reshape_shape hs h
  by_cases hzero : ds.prod = 0
  · -- there is no position
    have hnone {p : List Int} (hp : Inside ds' p) : False := by
      have := prod_pos hp.pos
      omega
    obtain ⟨w, _, rfl⟩ | ⟨hr, _⟩ := reshape_cases h
    · exact .inl ⟨w, .of_reads hs hshape fun p hp => (hnone hp).elim, rfl⟩
    · obtain ⟨_, ⟨⟩⟩ | ⟨_, ⟨_, ⟨⟩, _⟩ | ⟨_, ⟨⟩, _⟩ | ⟨_, hd⟩⟩ :=
        View.reshape?_cases hr
      have hmem := hd (num 0)
        ((show l.top.shape = _ from hs) ▸ mem_map_of_mem (prod_eq_zero_iff.1 hzero))
      cases hmem
  · have hsized := hl.extents hs hzero
    have hsized' :=
      (apply_sound (m := .reshape _) hl hw trivial h).extents hshape (by omega)
    have hpos : ∀ d ∈ ds, 0 < d := fun d hd => (hsized d hd).1
    obtain ⟨w, rfl, hread⟩ | ⟨w, hw, rfl⟩ :=
      reshape_reads ⟨hs, hsized⟩ hl (hf.aligned hs) hf.made.flat
      hf.made.whole ((em (ds' = [])).imp_left hrank) hsized' hprod h
    · refine .inl ⟨w, .of_reads hs hshape fun p hp _ =>
        ⟨_, place_inside hpos _, (hread p hp).1⟩, rfl⟩
    · exact .inr ⟨w, hw, rfl, hpos⟩

end Layout

namespace Movement
variable {l l' : Layout} {m : Movement} {ds : List Int}

/-- The movement asks for numbers, does not make an empty shape hold something, and gives up the
last axis only where nothing is hidden. -/
def contained (l : Layout) : Movement → Bool
  | reshape target => target.allInt && (!target.isEmpty || l.top.mask.isNone)
  | expand target => target.all (fun d => d.num?.any (0 ≤ ·)) &&
      (!l.shape.any (·.is 0) || target.any (·.is 0))
  | _ => true

def containedRun : Layout → List Movement → Bool
  | _, [] => true
  | l, m :: ms => m.contained l && (match m.apply l with
    | .ok l' => containedRun l' ms
    | .error _ => true)

lemma AxisWise.narrows (haxes : m.AxisWise l) (hl : l.top.Aligned ds) (h : m.apply l = .ok l') :
    ∃ w, l.top.Narrows w ∧ l' = { l with top := w } := by
  obtain ⟨hbelow, ds', _, hshape, hread⟩ := apply_reads hl haxes h
  obtain ⟨top, below⟩ := l'
  obtain rfl : below = l.below := hbelow
  refine ⟨top, .of_reads hl.shape hshape fun p hp hall =>
    ⟨_, (hread p hp).1.resolve_right ?_⟩, rfl⟩
  exact fun ⟨_, _, hhidden⟩ => by simp [hhidden] at hall

lemma apply_narrows (hl : l.Sound) (hf : l.top.Framed) (hs : l.shape = ofInts ds)
    (hw : m.Written) (hc : m.contained l = true) (h : m.apply l = .ok l') :
    l'.Sound ∧ l.Narrows l' := by
  have hup : m.Upward := by
    cases m with
    | expand target =>
      intro d hd
      simp only [contained, Bool.and_eq_true, all_eq_true] at hc
      obtain ⟨n, hn, h0⟩ := (Option.any_eq_true _ _).1 (hc.1 d hd)
      rw [eq_num_of_num? hn]
      simpa using h0
    | _ => trivial
  refine ⟨apply_sound hl hw hup h, ?_⟩
  by_cases haxes : m.AxisWise l
  · obtain ⟨w, hw, rfl⟩ := haxes.narrows (hf.aligned hs) h
    exact .of_top hw
  cases m with
  | reshape target =>
    simp only [contained, Bool.and_eq_true, Bool.or_eq_true, Bool.not_eq_true',
      isEmpty_eq_false_iff, Option.isNone_iff_eq_none] at hc
    obtain ⟨ds', rfl⟩ := ints_of_allInt hc.1
    obtain ⟨w, hw, rfl⟩ | ⟨w, hw, rfl, hpos⟩ := reshape_top hl hf hs hw
      (fun hnil => hc.2.resolve_left (by simp [hnil, ofInts])) h
    · exact .of_top hw
    · exact buried_narrows (hl.top.grid hs) hpos hw
  | expand target =>
    simp only [contained, Bool.and_eq_true, Bool.or_eq_true, Bool.not_eq_true'] at hc
    have hint : target.allInt = true := by
      refine all_eq_true.2 fun d hd => ?_
      obtain ⟨n, hn, _⟩ := (Option.any_eq_true _ _).1 (all_eq_true.1 hc.1 d hd)
      rw [isNum, hn]
      rfl
    obtain ⟨ds', rfl⟩ := ints_of_allInt hint
    obtain ⟨top, htop, rfl⟩ := map_eq_ok.1 h
    -- an empty shape starts anew as another empty shape
    have hzero : l.shape.any (·.is 0) = true :=
      Bool.eq_true_of_not_eq_false fun hnz => haxes ⟨hint, hnz⟩
    rw [View.expand, show l.top.shape.any (·.is 0) = true from hzero] at htop
    split at htop
    · cases htop
    · exact .of_top (View.ofShape_narrows (hc.2.resolve_left (by simp [hzero])) htop)
  | _ => exact (haxes trivial).elim

lemma foldlM_narrows {ms : List Movement} (hl : l.Sound) (hf : l.top.Framed)
    (hs : l.shape = ofInts ds) (hw : ∀ m ∈ ms, m.Written) (hc : containedRun l ms = true)
    (h : ms.foldlM (fun l m => m.apply l) l = .ok l') : l'.Sound ∧ l.Narrows l' := by
  induction ms generalizing l ds with
  | nil =>
    cases h
    exact ⟨hl, ⟨ds, hs⟩, fun hi => hi⟩
  | cons m ms ih =>
    obtain ⟨l1, h1, h⟩ := foldlM_cons_eq_ok.1 h
    obtain ⟨hwm, hws⟩ := forall_mem_cons.1 hw
    rw [containedRun, h1, Bool.and_eq_true] at hc
    obtain ⟨hsound, hnarrow⟩ := apply_narrows hl hf hs hwm hc.1 h1
    obtain ⟨ds1, hs1⟩ := hnarrow.sized
    obtain ⟨hsound', hnarrow'⟩ := ih hsound (apply_framed hf hwm h1) hs1 hws hc.2 h
    exact ⟨hsound', hnarrow'.sized, fun hi => hnarrow.shows (hnarrow'.shows hi)⟩

def Contained (shape : Shape) (ms : List Movement) : Prop :=
  ∀ l, Layout.ofShape shape = .ok l → containedRun l ms = true

end Movement

namespace Layout
variable {ds : List Int} {l : Layout} {i : Int}

lemma ofShape_shows (h : ofShape (ofInts ds) = .ok l) (hi : l.Shows i) :
    0 ≤ i ∧ i < ds.prod := by
  simp only [ofShape, bind_eq_ok, pure_eq_ok] at h
  obtain ⟨top, htop, rfl⟩ := h
  obtain ⟨x, ⟨ds', p, hs, hp, _, rfl⟩, hi⟩ := hi
  obtain rfl : ds = ds' := ofInts_inj ((View.ofShape_shape htop).symm.trans hs)
  obtain ⟨ho, hsum⟩ := ofShape_rank htop hp
  cases hi
  rw [ho, hsum, zero_add]
  exact hp.rank_bounds

lemma shows_of_offsetOf {p : List Int} (hl : l.Sound) (hs : l.shape = ofInts ds)
    (hp : Inside ds p) (h : l.offsetOf p = .ok (some i)) : l.Shows i := by
  obtain herr | hok := offsetOf_eq_placeOf hl.below p
  · cases herr.symm.trans h
  · have hplace : l.placeOf p = some i := (ok_eq_ok.1 (hok.symm.trans h))
    unfold placeOf at hplace
    split at hplace
    · rename_i hall
      exact ⟨_, ⟨ds, p, hs, hp, hall, rfl⟩, hplace⟩
    · cases hplace

/-- Offsets stay inside the buffer: a contained run of movements from a shape of numbers ends in a
shape of numbers, and every position of it that is not hidden lies below the number of elements of
the first shape. -/
theorem offsetOf_inside {ds : List Int} {ms : List Movement} {l : Layout}
    (hs : (Shape.ofInts ds).Written) (hw : ∀ m ∈ ms, m.Written)
    (hc : Movement.Contained (Shape.ofInts ds) ms) (h : run (Shape.ofInts ds) ms = .ok l) :
    ∃ dims, l.shape = Shape.ofInts dims ∧ ∀ p i, Shape.Inside dims p →
      l.offsetOf p = .ok (some i) → 0 ≤ i ∧ i < ds.prod := by
  obtain ⟨start, hstart, h⟩ := bind_eq_ok.1 h
  have hf : start.top.Framed := by
    obtain ⟨top, htop, rfl⟩ := map_eq_ok.1 hstart
    exact View.ofShape_framed hs htop
  obtain ⟨hsound, hnarrow⟩ := foldlM_narrows (.ofShape hs hstart) hf
    (Layout.ofShape_shape hstart) hw (hc start hstart) h
  obtain ⟨dims, hdims⟩ := hnarrow.sized
  refine ⟨dims, hdims, fun p i hp hi => ?_⟩
  exact ofShape_shows hstart (hnarrow.shows (shows_of_offsetOf hsound hdims hp hi))

def padded : List Movement :=
  [.pad [(1, 1), (0, 2)], .stride [-2, 1], .permute [1, 0], .reshape [.num 18], .shrink [(2, 18)]]

theorem padded_offsetOf_inside : ∃ l, run [.num 3, .num 4] padded = .ok l ∧
    l.shape = [.num 16] ∧ l.offsetOf [1] = .ok none ∧ l.offsetOf [2] = .ok (some 5) ∧
    ∀ p i, Shape.Inside [16] p → l.offsetOf p = .ok (some i) → 0 ≤ i ∧ i < 12 := by
  have hs : (Shape.ofInts [3, 4]).Written := by
    intro d hd
    simp only [Shape.ofInts, map_cons, map_nil, mem_cons, not_mem_nil, or_false] at hd
    obtain rfl | rfl := hd
    · exact ⟨.num 3 (by decide), rfl⟩
    · exact ⟨.num 4 (by decide), rfl⟩
  have hw : ∀ m ∈ padded, m.Written := by
    simp only [padded, forall_mem_cons, Movement.Written, Shape.Written]
    exact ⟨trivial, trivial, trivial, ⟨⟨.num 18 (by decide), rfl⟩, by simp⟩,
      trivial, by simp⟩
  have hc : Movement.Contained (Shape.ofInts [3, 4]) padded := by
    intro l hl
    cases hl
    decide +kernel
  obtain ⟨l, hl⟩ : ∃ l, run (Shape.ofInts [3, 4]) padded = .ok l := ⟨_, rfl⟩
  obtain ⟨dims, hdims, h⟩ := offsetOf_inside hs hw hc hl
  cases hl
  cases Shape.ofInts_inj (hdims.symm.trans (rfl : _ = Shape.ofInts [16]))
  exact ⟨_, rfl, rfl, rfl, rfl, h⟩

/-- Movements that are not contained let offsets leave the buffer: a hidden position that loses its
last axis, an empty shape that is broadcast, and a variable that forgets how many elements there
are. -/
theorem uncontained_offsetOf_outside :
    (∃ l, run [.num 2] [.pad [(1, 0)], .shrink [(0, 1)], .reshape []] = .ok l ∧
      l.shape = [] ∧ l.offsetOf [] = .ok (some (-1))) ∧
    (∃ l, run [.num 0] [.expand [.num 5]] = .ok l ∧
      l.shape = [.num 5] ∧ l.offsetOf [3] = .ok (some 3)) ∧
    ∃ l, run [.num 6] [.reshape [.var ⟨"count", 1, 16⟩], .reshape [.num 10]] = .ok l ∧
      l.shape = [.num 10] ∧ l.offsetOf [9] = .ok (some 9) :=
  ⟨⟨_, rfl, rfl, rfl⟩, ⟨_, rfl, rfl, rfl⟩, _, rfl, rfl, rfl⟩

end Layout

end LazyTensor
