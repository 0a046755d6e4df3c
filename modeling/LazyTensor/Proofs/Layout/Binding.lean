import LazyTensor.Proofs.Layout.Movement

/-! Layouts with symbolic dimensions. -/
namespace LazyTensor
open List Shape View Movement Layout

open Checked SymInt

namespace View

/-- The two views read the same at every position inside their common shape. -/
structure Same (v w : View) : Prop where
  shape : w.shape = v.shape
  offsetAt : ∀ p, v.shape.Holds p → w.offsetAt p = v.offsetAt p
  allows : ∀ p, v.shape.Holds p → w.allows p = v.allows p

lemma bindVars_ofInts {dims : List Int} {vals : Bindings} {shape : Shape}
    (h : (ofInts dims).mapM (fun d => d.bindVars vals) = .ok shape) :
    shape = ofInts dims := by
  induction dims generalizing shape with
  | nil =>
    cases h
    rfl
  | cons d ds ih =>
    cases mapM_eq_ok.1 h with
    | cons hd hrest =>
      cases hd
      rw [ih (mapM_eq_ok.2 hrest)]
      rfl

lemma Readable.bindVars_same {v w : View} {vals : Bindings} (hv : v.Readable)
    (h : v.bindVars vals = .ok w) : v.Same w := by
  obtain ⟨_, hgrid, _⟩ := hv
  simp only [bindVars, bind_eq_ok] at h
  obtain ⟨shape, hshape, h⟩ := h
  have hsame : shape = v.shape := by
    rw [hgrid.shape] at hshape ⊢
    exact bindVars_ofInts hshape
  rw [hsame] at h
  exact ⟨(make_eq h).2.1, fun p hp => (make_same h hp).1, fun p hp => (make_same h hp).2⟩

end View

namespace Layout
variable {l : Layout} {vals : Bindings} {p : List Int} {σ : Variable → Int}

lemma descendTo_same {vs ws : List View} (hvs : ∀ v ∈ vs, v.Readable)
    (h : Forall₂ Same vs ws) (x : Int) : descendTo ws x = descendTo vs x := by
  induction h generalizing x with
  | nil => rfl
  | @cons v w vs ws hvw _ ih =>
    obtain ⟨⟨dims, hgrid, hpos⟩, hvs⟩ := forall_mem_cons.1 hvs
    have hints : w.shape = ofInts dims := hvw.shape.trans hgrid.shape
    simp only [descendTo, hints, hgrid.shape, ints?_eq_some.2 rfl]
    cases hd : digits dims x with
    | error e => rfl
    | ok r =>
      cases digits_eq hpos hd
      have hin : v.shape.Holds (place dims x) := by
        rw [hgrid.shape]
        exact (place_inside hpos x).holds
      change (if w.allows (place dims x) then _ else _) = (if v.allows (place dims x) then _ else _)
      rw [hvw.allows _ hin, hvw.offsetAt _ hin]
      simp only [ih hvs]

lemma mem_vars {v : Variable} {d : SymInt} (hd : d ∈ l.top.shape)
    (hv : v ∈ d.vars) : v ∈ l.vars := by
  rw [vars, mem_foldl_unseen]
  refine .inr (mem_flatMap.2 ⟨l.top, by simp [views], ?_⟩)
  rw [View.vars, Shape.vars, mem_foldl_unseen]
  exact .inr (mem_flatMap.2 ⟨d, hd, hv⟩)

section
variable (hl : l.Sound) (hvals : Admits vals σ l.vars)

/-- Values for all variables: those bound, and the least value of any other. -/
def complete (l : Layout) (σ : Variable → Int) (v : Variable) : Int :=
  if v ∈ l.vars then σ v else v.lo

include hvals in
lemma complete_inRange (f : Formula) : InRange (l.complete σ) f.vars := by
  intro v hv
  unfold complete
  split
  · rename_i hmem
    exact (hvals v hmem).2
  · exact f.inRange_lo v hv

include hl hvals in
lemma dim_bound {d : SymInt} (hd : d ∈ l.top.shape) :
    d.value (l.complete σ) ≤ d.hi ∧ OnlyOverflow (d.bindVars vals) ∧
      ∀ r, d.bindVars vals = .ok r → r = num (d.value (l.complete σ)) := by
  obtain ⟨f, hf, _⟩ := hl.top.dims d hd
  have hm := (complete_inRange hvals f).means hf
  have hbound : ∀ v ∈ d.vars, VarMap.value? vals v = some (l.complete σ v) := by
    intro v hv
    have hmem := mem_vars hd hv
    rw [complete, if_pos hmem]
    exact (hvals v hmem).1
  exact ⟨hm.regular.value_between.2,
    bindVars_overflow (A := Assignment.declared (l.complete σ)) hbound hm.regular,
    fun r hr => bindVars_eq (A := Assignment.declared (l.complete σ)) hbound hm.regular hr⟩

def boundDims (l : Layout) (σ : Variable → Int) : List Int :=
  l.top.shape.map (fun d => d.value (l.complete σ))

include hl hvals in
lemma boundDims_eq {shape : Shape} (h : l.top.shape.mapM (fun d => d.bindVars vals) = .ok shape) :
    shape = ofInts (l.boundDims σ) := by
  have hall := forall₂_of_mapM (R := fun d r => num (d.value (l.complete σ)) = r) h
    (fun d hd r hr => ((dim_bound hl hvals hd).2.2 r hr).symm)
  have heq : l.top.shape.map (fun d => num (d.value (l.complete σ))) = shape := by
    rw [← forall₂_eq_eq_eq, forall₂_map_left_iff]
    exact hall
  rw [← heq, boundDims, ofInts, map_map]
  rfl

include hl hvals in
lemma bindVars_reads {l' : Layout} (h : l.bindVars vals = .ok l') :
    l'.shape = ofInts (l.boundDims σ) ∧
      ∀ p, Inside (l.boundDims σ) p → l'.offsetOf p = l.offsetOf p := by
  simp only [bindVars, bind_eq_ok, pure_eq_ok] at h
  obtain ⟨below, hbelow, top, htop, rfl⟩ := h
  have hsame : Forall₂ Same l.below below :=
    forall₂_of_mapM hbelow (fun v hv w hw => (hl.below v hv).bindVars_same hw)
  simp only [View.bindVars, bind_eq_ok] at htop
  obtain ⟨shape, hshape, htop⟩ := htop
  rw [boundDims_eq hl hvals hshape] at htop
  refine ⟨(make_eq htop).2.1, fun p hp => ?_⟩
  have hread := make_same htop hp.holds
  simp only [offsetOf, hread.1, hread.2, descendTo_same hl.below hsame]

include hl hvals in
lemma bindVars_overflow : OnlyOverflow (l.bindVars vals) := by
  have hbelow : OnlyOverflow (l.below.mapM (fun v => v.bindVars vals)) := by
    refine OnlyOverflow.mapM (fun v hv => ?_)
    obtain ⟨_, hgrid, _⟩ := hl.below v hv
    unfold View.bindVars
    rw [hgrid.shape]
    refine OnlyOverflow.bind (OnlyOverflow.mapM (fun d hd => ?_)) (fun shape hshape => ?_)
    · obtain ⟨n, _, rfl⟩ := mem_map.1 hd
      exact .ok _
    · refine make_overflow ?_
      rw [bindVars_ofInts hshape, ofInts, length_map, hgrid.strides_length]
  have htop : OnlyOverflow (l.top.bindVars vals) := by
    refine OnlyOverflow.bind (OnlyOverflow.mapM (fun d hd => (dim_bound hl hvals hd).2.1))
      (fun shape hshape => make_overflow ?_)
    rw [length_mapM hshape, hl.top.strides_length]
  exact hbelow.bind (fun _ _ => htop.bind (fun _ _ => .ok _))

end

/-- A layout of which no view has both a mask and a symbolic dimension. -/
def Unmixed (l : Layout) : Prop := ∀ v ∈ l.views, v.mask = none ∨ v.shape.allInt = true

lemma maskInside (hl : l.Sound) (hmix : l.Unmixed)
    (hp : Inside (l.boundDims σ) p) : l.top.MaskInside p := by
  refine (hmix l.top (by simp [views])).imp_right (fun hint => ?_)
  obtain ⟨dims, hdims⟩ := ints_of_allInt hint
  have hsame : l.boundDims σ = dims := by
    rw [boundDims, hdims, ofInts, map_map]
    simp [Function.comp_def]
  exact ⟨dims, hl.top.grid hdims, hsame ▸ hp⟩

lemma forall₂_mem_right {α β : Type} {R : α → β → Prop} {Q : β → Prop} {xs : List α}
    {ys : List β} (h : Forall₂ R xs ys) (hQ : ∀ y ∈ ys, Q y) :
    Forall₂ (fun x y => R x y ∧ Q y) xs ys := by
  obtain ⟨hlen, hall⟩ := forall₂_iff_zip.1 h
  exact forall₂_iff_zip.2 ⟨hlen, fun hmem => ⟨hall hmem, hQ _ (of_mem_zip hmem).2⟩⟩

lemma inside_counters (hl : l.Sound)
    (hvals : Admits vals σ l.vars) (hp : Inside (l.boundDims σ) p) :
    Forall₂ (fun d i => 0 ≤ i ∧ i ≤ max (d.hi - 1) 0) l.top.shape p ∧
      Forall₂ (fun i d => d.is 1 = true → i = 0) p l.top.shape := by
  have hall := forall₂_mem_right (forall₂_map_right_iff.1 hp)
    (fun d hd => (dim_bound hl hvals hd).1)
  refine ⟨(hall.imp (fun i d h => ?_)).flip, hall.imp (fun i d h h1 => ?_)⟩
  · obtain ⟨⟨h0, hlt⟩, hle⟩ := h
    exact ⟨h0, le_max_of_le_left (by omega)⟩
  · have hnum : d = num 1 := eq_num_of_num? (by simpa [is] using h1)
    subst hnum
    simp only [value_num] at h
    omega

lemma accessAll_overflow (hl : l.Sound) (hmix : l.Unmixed)
    (hp : Inside (l.boundDims σ) p) : OnlyOverflow l.accessAll := by
  refine (counters_overflow _).bind (fun idxs hidxs => ?_)
  have hzero : l.top.MaskInside (l.top.shape.map (fun _ => 0)) := by
    refine (maskInside hl hmix hp).imp_right ?_
    rintro ⟨dims, hgrid, hin⟩
    refine ⟨dims, hgrid, ?_⟩
    rw [hgrid.shape, ofInts, map_map, Inside, forall₂_map_left_iff, forall₂_same]
    intro d hd
    exact ⟨le_rfl, hin.pos d hd⟩
  exact (access_delivers hl.top hl.below (counters_origin (counters_count hidxs)) (origin_units _)
    hzero).overflow fun v hv => hv.1

def given (env : Bindings) (v : Variable) : Int := (VarMap.value? env v).getD 0

lemma counters_given {shape : Shape} {idxs : List SymInt} {env : Bindings}
    (hc : Forall₂ Counts shape idxs)
    (hp : Forall₂ (fun d i => 0 ≤ i ∧ i ≤ max (d.hi - 1) 0) shape p)
    (henv : Forall₂ (fun e i => e.eval env = .ok (some i)) idxs p) :
    Forall₂ (Means (Admits.assignment env (given env))) idxs p := by
  refine counters_mean hc hp ?_
  induction hc generalizing p with
  | nil =>
    cases henv
    exact .nil
  | @cons d e ds es he _ ih =>
    cases henv with
    | @cons _ i _ is hi his =>
      cases hp with
      | cons hb hbs =>
        refine .cons (fun v hv => ?_) (ih hbs his)
        obtain ⟨u, _, hlo, hhi, hu⟩ := he
        have huv : u = v := ofVariable_eq_var (hu ▸ hv)
        subst huv
        rw [hv, eval] at hi
        have hval : VarMap.value? env u = some i := by simpa using hi
        have hgiven : given env u = i := by rw [given, hval]; rfl
        exact ⟨⟨hgiven ▸ hval, le_of_eq hlo.symm, by rw [hgiven]; omega,
          by rw [hgiven]; omega⟩, hgiven⟩

/-- Reading an element through expressions and walking down from its position agree. For a layout
made by any movements, of which no view has both a mask and a symbolic dimension, and for every
position of the bound layout, the condition is zero exactly where the walk ends in padding, and
otherwise the index is the place the walk finds. Words that overflow are the only failure. -/
theorem accessAll_agrees {shape : Shape} {ms : List Movement} {l : Layout} {vals : Bindings}
    {σ : Variable → Int} (hs : shape.Written) (hw : ∀ m ∈ ms, m.Written)
    (hm : ∀ m ∈ ms, m.Upward) (hrun : run shape ms = .ok l) (hmix : l.Unmixed)
    (hvals : Admits vals σ l.vars) :
    l.bindVars vals = .error .arithmetic ∨
      ∃ l' dims, l.bindVars vals = .ok l' ∧ l'.shape.ints? = some dims ∧
          ∀ p, Shape.Inside dims p →
          l.accessAll = .error .arithmetic ∨ l'.offsetOf p = .error .arithmetic ∨
          ∃ a o, l.accessAll = .ok a ∧ l'.offsetOf p = .ok o ∧
              ∀ env idxs, l.shape.counters = .ok idxs →
              List.Forall₂ (fun e i => e.eval env = .ok (some i)) idxs p →
              (o = none → a.valid.eval env = .ok (some 0)) ∧ ∀ x, o = some x →
                a.valid.eval env = .ok (some 1) ∧ a.index.eval env = .ok (some x) := by
  have hl := run_sound hs hw hm hrun
  refine (bindVars_overflow hl hvals).error_or_ok.imp_right ?_
  rintro ⟨l', hl'⟩
  obtain ⟨hshape, hread⟩ := bindVars_reads hl hvals hl'
  refine ⟨l', l.boundDims σ, hl', Shape.ints?_eq_some.mpr hshape, fun p hp => ?_⟩
  rw [hread p hp]
  refine (accessAll_overflow hl hmix hp).error_or_ok.imp_right ?_
  rintro ⟨a, ha⟩
  refine (offsetOf_overflow hl.below p).error_or_ok.imp_right ?_
  rintro ⟨o, ho⟩
  refine ⟨a, o, ha, ho, fun env idxs hidxs henv => ?_⟩
  obtain ⟨hreach, hunit⟩ := inside_counters hl hvals hp
  have hmeans := counters_given (counters_count hidxs) hreach henv
  simp only [accessAll, bind_eq_ok] at ha
  obtain ⟨idxs', hidxs', ha⟩ := ha
  rw [hidxs] at hidxs'
  cases hidxs'
  have hreads :=
    ((access_delivers hl.top hl.below hmeans hunit (maskInside hl hmix hp)).of_ok ha).2.2 o ho
  have hbound : ∀ v, (Admits.assignment env (given env)).scope v →
      VarMap.value? env v = some (given env v) := fun v h => h.1
  rw [hreads.valid.eval_eq hbound, hreads.index.eval_eq hbound]
  constructor
  · intro hnone
    rw [hreads.hidden hnone]
  · intro x hx
    obtain ⟨h1, hx⟩ := hreads.found x hx
    rw [h1, hx]
    exact ⟨rfl, rfl⟩

/-- A padded matrix read column by column, up to a number of elements that is still open. -/
def columns : Layout where
  top := { shape := [.var ⟨"count", 1, 16⟩], strides := [1], offset := 0, mask := none,
           contiguous := true }
  below := [{ shape := [.num 4, .num 4], strides := [1, 4], offset := 0,
              mask := some [(0, 4), (0, 3)], contiguous := false }]

lemma columns_run : run [.num 3, .num 4]
    [.pad [(0, 1), (0, 0)], .permute [1, 0], .reshape [.var ⟨"count", 1, 16⟩]] = .ok columns :=
  rfl

theorem columns_accessAll_agrees : ∃ a, columns.accessAll = .ok a ∧
      (a.valid.eval [(⟨"idx0", 0, 15⟩, 6)] = .ok (some 1) ∧
        a.index.eval [(⟨"idx0", 0, 15⟩, 6)] = .ok (some 9)) ∧
      a.valid.eval [(⟨"idx0", 0, 15⟩, 7)] = .ok (some 0) := by
  have hvals : Admits [(⟨"count", 1, 16⟩, 10)] (fun _ => 10) columns.vars := by
    unfold Admits
    decide
  have h := accessAll_agrees
    (by
      intro d hd
      simp only [List.mem_cons, List.not_mem_nil, or_false] at hd
      obtain rfl | rfl := hd
      · exact ⟨.num 3 (by decide), rfl⟩
      · exact ⟨.num 4 (by decide), rfl⟩)
    (by
      simp only [List.forall_mem_cons, Movement.Written, Shape.Written]
      exact ⟨trivial, trivial,
        ⟨⟨.var ⟨"count", 1, 16⟩ rfl (by decide), rfl⟩, by simp⟩, by simp⟩)
    (by simp [Movement.Upward]) columns_run
    (by simp [Unmixed, columns, views, Shape.allInt, isNum, num?])
    hvals
  have hbind : columns.bindVars [(⟨"count", 1, 16⟩, 10)] = .ok
      { columns with top := { columns.top with shape := [.num 10] } } := rfl
  obtain herr | ⟨l', dims, hl', hdims, hp⟩ := h
  · rw [hbind] at herr
    cases herr
  rw [hbind] at hl'
  cases hl'
  cases hdims
  have hin (i : Int) (h0 : 0 ≤ i) (h1 : i < 10) : Shape.Inside [10] [i] := .cons ⟨h0, h1⟩ .nil
  obtain herr | herr | ⟨a, o, ha, ho, hev⟩ := hp [6] (hin 6 (by decide) (by decide))
  · cases herr
  · cases herr
  obtain herr | herr | ⟨b, q, hb, hq, hev'⟩ := hp [7] (hin 7 (by decide) (by decide))
  · cases herr
  · cases herr
  rw [ha] at hb
  cases hb
  cases ho
  cases hq
  exact ⟨a, ha, (hev _ _ rfl (.cons rfl .nil)).2 9 rfl, (hev' _ _ rfl (.cons rfl .nil)).1 rfl⟩

/-- A shape broadcast to two negative dimensions, whose product is positive again: the expression
and the walk read different elements. -/
theorem negative_expand_disagrees : ∃ l a, run [.num 3, .num 1, .num 1, .num 2]
        [.expand [.num 3, .num (-5), .num (-3), .num 2], .reshape [.num 90]] = .ok l ∧
      l.bindVars [] = .ok l ∧ l.shape.ints? = some [90] ∧ l.accessAll = .ok a ∧
      l.offsetOf [6] = .ok (some 2) ∧ a.valid.eval [(⟨"idx0", 0, 89⟩, 6)] = .ok (some 1) ∧
      a.index.eval [(⟨"idx0", 0, 89⟩, 6)] = .ok (some 0) :=
  ⟨{ top := { shape := [.num 90], strides := [1], offset := 0, mask := none, contiguous := true }
     below := [{ shape := [.num 3, .num (-5), .num (-3), .num 2], strides := [2, 0, 0, 1],
                 offset := 0, mask := none, contiguous := false }] },
    _, rfl, rfl, rfl, rfl, rfl, rfl, rfl⟩

end Layout

end LazyTensor
