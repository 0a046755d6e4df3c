import LazyTensor.Proofs.Layout.Strides

/-! Merging views. A merge keeps the linear terms of the composed index and takes the other ones
to be what they are at the origin, so a position is read as before exactly if they are. -/
namespace LazyTensor
open List Shape View Movement

open Checked SymInt

namespace Layout
variable {vs below : List View} {l s : Layout} {top : View} {dims p : List Int}
variable {dims : List Int} {lower upper : View}

/-! The walk in exact integers. A merge changes which words are computed on the way, so what is
read is compared without them. -/

def trace : List View → Int → Option Int
  | [], x => some x
  | v :: vs, x =>
    match v.shape.ints? with
    | none => none
    | some dims =>
      if v.allows (Shape.place dims x) then trace vs (v.offset + spread (dims.zip v.strides) x)
      else none

/-- Place of a position in the buffer, in exact integers. -/
def placeOf (l : Layout) (p : List Int) : Option Int :=
  if l.top.allows p then
    trace l.below (l.top.offset + (List.zipWith (· * ·) p l.top.strides).sum)
  else none

lemma trace_cons {v : View} (h : v.shape = ofInts dims) (x : Int) :
    trace (v :: vs) x = if v.allows (place dims x) then
      trace vs (v.offset + spread (dims.zip v.strides) x) else none := by
  rw [trace, ints?_eq_some.2 h]

lemma descendTo_eq_trace (hvs : ∀ v ∈ vs, v.Readable) {x : Int} {o : Option Int}
    (h : descendTo vs x = .ok o) : o = trace vs x := by
  induction vs generalizing x with
  | nil =>
    cases h
    rfl
  | cons v vs ih =>
    obtain ⟨⟨_, hv, hpos⟩, hvs⟩ := forall_mem_cons.1 hvs
    rw [trace_cons hv.shape]
    obtain ⟨hall, rfl⟩ | ⟨hall, h⟩ := descendTo_cons hv hpos h
    · rw [hall]
      rfl
    · rw [hall, if_pos rfl]
      exact ih hvs h

lemma offsetOf_eq_placeOf (hbelow : ∀ v ∈ l.below, v.Readable) (p : List Int) :
    l.offsetOf p = .error .arithmetic ∨ l.offsetOf p = .ok (l.placeOf p) := by
  obtain h | ⟨o, ho⟩ := (offsetOf_overflow hbelow p).error_or_ok
  · exact .inl h
  · refine .inr ?_
    rw [ho]
    unfold offsetOf at ho
    unfold placeOf
    split at ho
    · rename_i hall
      obtain ⟨x, hx, ho⟩ := bind_eq_ok.1 ho
      rw [if_pos hall, ← offsetAt_eq hx, descendTo_eq_trace hbelow ho]
    · rename_i hall
      cases ho
      rw [if_neg hall]

/-! One merge. -/

/-- Sum of the terms of an index that have no stride. -/
def droppedAt (idxs : List SymInt) (e : SymInt) (p : List Int) : Int :=
  ((dropped e).map (value (valueAt idxs p))).sum

def originOf (p : List Int) : List Int := p.map (fun _ => 0)

/-- At the position, the terms without a stride add up to what they are at the origin. -/
def Kept (lower upper : View) (p : List Int) : Prop :=
  ∀ idxs a, upper.shape.counters = .ok idxs →
    access { top := upper, below := [lower] } idxs = .ok a →
    droppedAt idxs a.index p = droppedAt idxs a.index (originOf p)

lemma inside_originOf (h : Inside dims p) : Inside dims (originOf p) := by
  induction h with
  | nil => exact .nil
  | cons hi _ ih => exact .cons ⟨le_rfl, lt_of_le_of_lt hi.1 hi.2⟩ ih

lemma originOf_sum (p strides : List Int) : (zipWith (· * ·) (originOf p) strides).sum = 0 := by
  induction p generalizing strides with
  | nil => rfl
  | cons i p ih =>
    cases strides with
    | nil => rfl
    | cons st strides =>
      rw [originOf, map_cons, zipWith_cons_cons, sum_cons, zero_mul, zero_add]
      exact ih strides

lemma originOf_steps (p : List Int) (f : Nat → Int) :
    ∑ k ∈ Finset.range (originOf p).length, (originOf p).getD k 0 * f k = 0 := by
  refine Finset.sum_eq_zero (fun k hk => ?_)
  have hk : k < p.length := by simpa [originOf] using hk
  simp [originOf, hk]

lemma inside_units (h : Inside dims p) :
    Forall₂ (fun i d => d.is 1 = true → i = 0) p (ofInts dims) := by
  induction h with
  | nil => exact .nil
  | cons hi _ ih =>
    refine .cons (fun h1 => ?_) ih
    have := is_num.1 h1
    omega

lemma inside_counts (h : Inside dims p) :
    Forall₂ (fun (d : SymInt) i => 0 ≤ i ∧ i ≤ max (d.hi - 1) 0) (ofInts dims) p := by
  induction h with
  | nil => exact .nil
  | cons hi _ ih =>
    refine .cons ⟨hi.1, ?_⟩ ih
    rw [hi_num]
    omega

section
variable {lower upper w : View} {dims inner p : List Int} {gs : List (Int × Int)}
  (hu : upper.Sound) (hshape : upper.shape = ofInts dims) (hp : Inside dims p)
variable {idxs : List SymInt} {a : Access}
include hu hshape hp

lemma access_address (hall : upper.allows p = true) (hidxs : upper.shape.counters = .ok idxs)
    (h : access { top := upper, below := [lower] } idxs = .ok a) :
    ∃ index, upper.address idxs = .ok index ∧ lower.addressFlat index = .ok a.index := by
  simp only [access, bind_eq_ok] at h
  obtain ⟨index, hindex, valid, hvalid, h⟩ := h
  have hd := (validAt_delivers (counters_at hidxs (hshape ▸ inside_counts hp))
    (counters_count hidxs).length_eq.symm (.inr ⟨dims, hu.grid hshape, hp⟩)).of_ok hvalid
  have hvisible : valid.hi ≠ 0 := by
    intro h0
    have hone := hd.value.2 hall
    rw [hd.condition.zero_of_hi h0, value_num] at hone
    omega
  rw [descend, if_neg hvisible] at h
  simp only [bind_eq_ok] at h
  obtain ⟨_, _, _, hindex', h⟩ := h
  cases h
  exact ⟨index, hindex, hindex'⟩

lemma access_index {q : List Int} (hl : lower.Groups gs) (hall : upper.allows p = true)
    (hq : Inside dims q) (hidxs : upper.shape.counters = .ok idxs)
    (h : access { top := upper, below := [lower] } idxs = .ok a) :
    Means (position idxs q) a.index (lower.offset + spread gs
      (upper.offset + (zipWith (· * ·) q upper.strides).sum)) := by
  obtain ⟨index, hindex, hindex'⟩ := access_address hu hshape hp hall hidxs h
  have haddr := address_delivers (N := True) hu (counters_at hidxs (hshape ▸ inside_counts hq))
    (hshape ▸ inside_units hq)
  exact (hl.addressFlat_delivers (haddr.of_ok hindex)).of_ok hindex'

section
variable (hl : lower.Groups gs) (h : mergeViews lower upper = .ok (some w))
  (hall : upper.allows p = true)
include hl h hall

/-- The place a merged view gives, next to the place it stands for. -/
lemma merge_place : ∃ idxs a, upper.shape.counters = .ok idxs ∧
      access { top := upper, below := [lower] } idxs = .ok a ∧
      w.offset + (zipWith (· * ·) p w.strides).sum + droppedAt idxs a.index p =
        lower.offset + spread gs (upper.offset + (zipWith (· * ·) p upper.strides).sum) +
        droppedAt idxs a.index (originOf p) := by
  obtain ⟨_, hoffset, idxs, a, strides, hidxs, ha, hs, hw⟩ := mergeViews_some h
  refine ⟨idxs, a, hidxs, ha, ?_⟩
  obtain ⟨_, _, hstrides, hwo, _⟩ := make_eq hw
  have hat := access_index hu hshape hp hl hall hp hidxs ha
  have horigin := access_index hu hshape hp hl hall (inside_originOf hp) hidxs ha
  have hcount := counters_at hidxs (hshape ▸ inside_counts hp)
  have hlen : idxs.length = p.length := hcount.length_eq
  have hvalue := value_by_strides hidxs hlen hat.regular
  have hvalue0 := value_by_strides hidxs (by rw [hlen, originOf, length_map]) horigin.regular
  rw [← strides_sum hidxs hcount hat.regular hs] at hvalue
  have hflat : (zipWith (· * ·) p w.strides).sum = (zipWith (· * ·) p strides).sum := by
    rw [hstrides, products_dropUnitStrides (hshape ▸ hp.holds)]
  have hv : a.index.value (valueAt idxs p) = _ := hat.value
  have hv0 : a.index.value (valueAt idxs (originOf p)) = _ := horigin.value
  rw [hoffset, originOf_sum, zero_add, spread_zero, hvalue0, originOf_steps] at hv0
  rw [hvalue] at hv
  rw [hwo, hflat]
  simp only [droppedAt]
  omega

/-- A merge moves a position that is not hidden exactly if the terms it drops are not what they are
at the origin. -/
lemma merge_keeps : w.offset + (zipWith (· * ·) p w.strides).sum =
      lower.offset + spread gs (upper.offset + (zipWith (· * ·) p upper.strides).sum) ↔
        Kept lower upper p := by
  obtain ⟨idxs, a, hidxs, ha, _⟩ := merge_place hu hshape hp hl h hall
  constructor
  · intro heq _ a' hidxs' ha'
    cases hidxs.symm.trans hidxs'
    cases ha.symm.trans ha'
    omega
  · intro hkept
    have := hkept idxs a hidxs ha
    omega

end

omit hu in
lemma merge_allows (h : mergeViews lower upper = .ok (some w)) : w.allows p = upper.allows p := by
  obtain ⟨_, _, _, _, strides, _, _, _, hw⟩ := mergeViews_some h
  exact (make_same (v := { upper with strides := strides, offset := lower.offset }) hw
    (hshape ▸ hp.holds)).2

section
variable (hl : lower.Grid inner) (hpos : ∀ d ∈ inner, 0 < d)
  (h : mergeViews lower upper = .ok (some w))
include hl hpos h

lemma groups_of_merge (hall : upper.allows p = true) :
    ∃ gs, lower.Groups gs ∧ ∀ x, spread gs x = spread (inner.zip lower.strides) x := by
  obtain ⟨_, _, _, a, _, hidxs, ha, _⟩ := mergeViews_some h
  obtain ⟨_, _, haddr⟩ := access_address hu hshape hp hall hidxs ha
  exact hl.groups hpos haddr

lemma placeOf_merge (hkept : Kept lower upper p) (below : List View) :
    placeOf { top := w, below } p = placeOf { top := upper, below := lower :: below } p := by
  have hmask : lower.mask = none := (mergeViews_some h).1
  unfold placeOf
  rw [merge_allows hshape hp h]
  by_cases hall : upper.allows p = true
  · obtain ⟨gs, hgs, hspread⟩ := groups_of_merge hu hshape hp hl hpos h hall
    rw [if_pos hall, if_pos hall, trace_cons hl.shape, if_pos (by simp [allows, hmask]),
      (merge_keeps hu hshape hp hgs h hall).2 hkept, hspread]
  · rw [if_neg hall, if_neg hall]

end

end

/-! Merging all the way down. -/

def Faithful (p : List Int) : View → List View → Prop
  | _, [] => True
  | top, v :: below => ∀ w, mergeViews v top = .ok (some w) → Kept v top p ∧
      Faithful p w below

lemma position_nonneg {shape : Shape} {idxs : List SymInt} {p : List Int}
    (hc : Forall₂ Counts shape idxs) (v : Variable) (h : (position idxs p).scope v) :
    0 ≤ v.lo := by
  obtain ⟨k, hk, hget⟩ := getElem_of_mem h.1
  have hks : k < shape.length := by rw [hc.length_eq]; exact hk
  obtain ⟨u, _, hlo, _, hu⟩ := hc.get hks hk
  have huv : u = v := ofVariable_eq_var (hu.symm.trans hget)
  rw [← huv, hlo]

lemma merged_shape {w : View} (h : mergeViews lower upper = .ok (some w)) :
    w.shape = upper.shape := by
  obtain ⟨_, _, _, _, _, _, _, _, hw⟩ := mergeViews_some h
  exact (make_eq hw).2.1

lemma simplifyOnto_shape (h : simplifyOnto top below = .ok s) : s.shape = top.shape := by
  induction below generalizing top with
  | nil =>
    cases h
    rfl
  | cons v below ih =>
    obtain ⟨m, hm, h⟩ := bind_eq_ok.1 h
    cases m with
    | none =>
      cases h
      rfl
    | some w => exact (ih h).trans (merged_shape hm)

lemma simplify_shape (h : l.simplify = .ok s) : s.shape = l.shape :=
  simplifyOnto_shape h

lemma inside_zero (h : ∀ d ∈ dims, 0 < d) : Inside dims ((ofInts dims).map (fun _ => 0)) := by
  induction dims with
  | nil => exact .nil
  | cons d ds ih =>
    obtain ⟨hd, hds⟩ := forall_mem_cons.1 h
    exact .cons ⟨le_rfl, hd⟩ (ih hds)

lemma mergeViews_overflow (hl : lower.Readable)
    (hu : upper.Sound) (hshape : upper.shape = ofInts dims) (hp : Inside dims p) :
    OnlyOverflow (mergeViews lower upper) := by
  unfold mergeViews
  split
  · exact .ok _
  · refine ((counters_overflow _).bind (fun idxs hidxs => ?_)).bind (fun strides hstrides => ?_)
    · have hcount : Forall₂ _ upper.shape p := hshape ▸ inside_counts hp
      exact ((access_delivers (l := { top := upper, below := [lower] }) hu (by simpa using hl)
        (counters_at hidxs hcount) (hshape ▸ inside_units hp)
          (.inr ⟨dims, hu.grid hshape, hp⟩)).overflow
        (position_nonneg (counters_count hidxs))).bind (fun _ _ => .ok _)
    · simp only [bind_eq_ok, pure_eq_ok] at hstrides
      obtain ⟨idxs, hidxs, a, _, rfl⟩ := hstrides
      split
      · exact .ok _
      · rename_i strides hs
        have hlen := congrArg length (eq_map_some hs)
        rw [length_mapIdx, length_map] at hlen
        exact (make_overflow ((counters_count hidxs).length_eq.trans hlen)).bind (fun _ _ => .ok _)

section
variable (ht : top.Sound) (hb : ∀ v ∈ below, v.Readable) (hshape : top.shape = ofInts dims)
include ht hb hshape

lemma simplifyOnto_sound (hpos : ∀ d ∈ dims, 0 < d) :
    OnlyOverflow (simplifyOnto top below) ∧ ∀ s, simplifyOnto top below = .ok s →
      s.Sound := by
  induction below generalizing top with
  | nil =>
    refine ⟨.ok _, fun s hs => ?_⟩
    cases hs
    exact ⟨ht, hb⟩
  | cons v below ih =>
    obtain ⟨hv, hb'⟩ := forall_mem_cons.1 hb
    have hmask : top.MaskInside (top.shape.map (fun _ => 0)) :=
      .inr ⟨dims, ht.grid hshape, hshape ▸ inside_zero hpos⟩
    have next {w : View} (hw : mergeViews v top = .ok (some w)) :=
      ih (mergeViews_sound hv ht hmask hw) hb' ((merged_shape hw).trans hshape)
    rw [simplifyOnto]
    refine ⟨(mergeViews_overflow hv ht hshape (inside_zero hpos)).bind (fun m hm => ?_),
      fun s hs => ?_⟩
    · cases m with
      | none => exact .ok _
      | some w => exact (next hm).1
    · obtain ⟨m, hm, hs⟩ := bind_eq_ok.1 hs
      cases m with
      | none =>
        cases hs
        exact ⟨ht, hb⟩
      | some w => exact (next hm).2 s hs

lemma simplifyOnto_agrees (hp : Inside dims p) :
    OnlyOverflow (simplifyOnto top below) ∧ ∀ s, simplifyOnto top below = .ok s →
      s.shape = top.shape ∧ (∀ v ∈ s.below, v.Readable) ∧
        (Faithful p top below → s.placeOf p = placeOf { top, below } p) := by
  obtain ⟨hover, hsound⟩ := simplifyOnto_sound ht hb hshape hp.pos
  refine ⟨hover, fun s hs => ⟨simplifyOnto_shape hs, (hsound s hs).below, fun hf => ?_⟩⟩
  clear hover hsound
  induction below generalizing top with
  | nil =>
    cases hs
    rfl
  | cons v below ih =>
    obtain ⟨hv, hb'⟩ := forall_mem_cons.1 hb
    have hmask : top.MaskInside (top.shape.map (fun _ => 0)) :=
      .inr ⟨dims, ht.grid hshape, hshape ▸ inside_zero hp.pos⟩
    rw [simplifyOnto] at hs
    obtain ⟨m, hm, hs⟩ := bind_eq_ok.1 hs
    cases m with
    | none =>
      cases hs
      rfl
    | some w =>
      obtain ⟨hkept, hf⟩ := hf w hm
      obtain ⟨_, hgrid, hpos⟩ := id hv
      exact (ih (mergeViews_sound hv ht hmask hm) hb' ((merged_shape hm).trans hshape) hs hf).trans
        (placeOf_merge ht hshape hp hgrid hpos hm hkept below)

end

/-- Simplifying a layout made by any movements keeps its shape, and keeps what is read at every
position that the merges keep. Words that overflow are the only failure. -/
theorem simplify_agrees {shape : Shape} {ms : List Movement} {l : Layout} {dims p : List Int}
    (hs : shape.Written) (hw : ∀ m ∈ ms, m.Written) (hm : ∀ m ∈ ms, m.Upward)
    (hrun : run shape ms = .ok l) (hdims : l.shape.ints? = some dims)
    (hp : Shape.Inside dims p) :
    l.simplify = .error .arithmetic ∨ ∃ s, l.simplify = .ok s ∧ s.shape = l.shape ∧
      (Faithful p l.top l.below → l.offsetOf p = .error .arithmetic ∨
        s.offsetOf p = .error .arithmetic ∨ s.offsetOf p = l.offsetOf p) := by
  have hl := run_sound hs hw hm hrun
  obtain ⟨hover, hkeep⟩ := simplifyOnto_agrees hl.top hl.below (Shape.ints?_eq_some.mp hdims) hp
  refine hover.error_or_ok.imp_right ?_
  rintro ⟨s, hsimp⟩
  obtain ⟨hshape, hread, hplace⟩ := hkeep s hsimp
  refine ⟨s, hsimp, hshape, fun hf => ?_⟩
  refine (offsetOf_eq_placeOf hl.below p).imp_right (fun ho => ?_)
  refine (offsetOf_eq_placeOf hread p).imp_right (fun ho' => ?_)
  rw [ho, ho', hplace hf]

def column : Layout where
  top := { shape := [.num 4], strides := [1], offset := 0, mask := none, contiguous := true }
  below := [{ shape := [.num 4, .num 4], strides := [1, 4], offset := 0, mask := none,
              contiguous := false }]

lemma column_run : run [.num 4, .num 4]
    [.permute [1, 0], .reshape [.num 16], .shrink [(0, 4)]] = .ok column := rfl

lemma column_faithful : Faithful [3] column.top column.below := by
  intro w hw
  refine ⟨fun idxs a hidxs ha => ?_, trivial⟩
  cases hidxs
  cases ha
  rfl

theorem column_simplify_agrees :
    ∃ s, column.simplify = .ok s ∧ s.below.length = 0 ∧
      column.offsetOf [3] = .ok (some 12) ∧
      s.offsetOf [3] = .ok (some 12) := by
  have h := simplify_agrees (p := [3])
    (by
      intro d hd
      simp only [List.mem_cons, List.not_mem_nil, or_false, or_self] at hd
      exact hd ▸ ⟨.num 4 (by decide), rfl⟩)
    (by
      simp only [List.forall_mem_cons, Movement.Written, Shape.Written]
      exact ⟨trivial, ⟨⟨.num 16 (by decide), rfl⟩, by simp⟩, trivial, by simp⟩)
    (by simp [Movement.Upward]) column_run rfl (.cons ⟨by decide, by decide⟩ .nil)
  obtain herr | ⟨s, hs, _, hread⟩ := h
  · cases herr
  obtain herr | herr | hsame := hread column_faithful
  · cases herr
  · cases hs
    cases herr
  · refine ⟨s, hs, ?_, rfl, hsame⟩
    cases hs
    rfl

/-- Every fifth element of a matrix in column order. The quotient in its index has no stride, so the
merged view reads the wrong elements. -/
theorem diagonal_simplify_disagrees :
    ∃ l s, run [.num 4, .num 4] [.permute [1, 0], .reshape [.num 16], .stride [5]] = .ok l ∧
      l.simplify = .ok s ∧ l.shape.ints? = some [4] ∧ l.offsetOf [1] = .ok (some 5) ∧
      s.offsetOf [1] = .ok (some 4) :=
  ⟨{ top := { shape := [.num 4], strides := [5], offset := 0, mask := none, contiguous := false }
     below := [{ shape := [.num 4, .num 4], strides := [1, 4], offset := 0, mask := none,
                 contiguous := false }] },
    _, rfl, rfl, rfl, rfl, rfl⟩

end Layout

end LazyTensor
