import LazyTensor.Proofs.Graph.Requests

/-! Graphs whose shapes are numbers. -/
namespace LazyTensor
open Checked GraphM LazyTensor.Graph List Shape Movement

namespace Movement
variable {m first second : Movement} {l l' : Layout} {ds ds' : List Int}

lemma Concrete.merge (h : first.merge second = .ok (some m)) (hc : second.Concrete) :
    m.Concrete := by
  cases first <;> cases second <;> try cases h
  case reshape.reshape.refl s => exact hc
  case expand.expand.refl s => exact hc
  case shrink.shrink p q =>
    obtain ⟨r, hr, h⟩ := bind_eq_ok.1 h
    cases h
    intro _ hrange
    obtain ⟨⟨⟨b, e⟩, b', e'⟩, hmem, hy⟩ := exists_of_mapM hr hrange
    simp only [bind_eq_ok, add_eq_ok, pure_eq_ok] at hy
    obtain ⟨_, ⟨_, rfl⟩, _, ⟨_, rfl⟩, rfl⟩ := hy
    have := hc _ (of_mem_zip hmem).2
    omega
  all_goals
    obtain ⟨r, _, h⟩ := bind_eq_ok.1 h
    cases h
    trivial

lemma Concrete.extents (hc : m.Concrete) (hl : l.Sound) (hs : l.shape.Sized ds)
    (hm : m.Resizes ds ds') (h : m.apply l = .ok l') : Extents ds' := by
  have htop : l.top.shape = ofInts ds := hs.1
  have words (hsound : l'.Sound) (hpos : ∀ d ∈ ds', 0 < d) : Extents ds' := fun d hd =>
    ⟨hpos d hd, (hsound.top.dims (.num d)
      (show _ ∈ l'.shape from hm.shape hs h ▸ mem_map_of_mem hd)).of_num.2⟩
  cases m with
  | reshape s =>
    obtain ⟨es, hes⟩ := hc
    exact ofInts_inj (hes.1.symm.trans hm) ▸ hes.2
  | expand s =>
    obtain ⟨es, hes⟩ := hc
    exact ofInts_inj (hes.1.symm.trans hm.1) ▸ hes.2
  | permute _ => exact hm.2 ▸ hs.2.reorder hm.1
  | shrink ranges =>
    refine words (apply_sound (m := shrink ranges) hl trivial trivial h) fun d hd => ?_
    rw [hm.2] at hd
    obtain ⟨r, hr, rfl⟩ := mem_map.1 hd
    have := hc r hr
    omega
  | pad pads =>
    refine words (apply_sound (m := pad pads) hl trivial trivial h) fun d hd => ?_
    obtain ⟨top, h, _⟩ := map_eq_ok.1 h
    have hnonneg := (View.pad_eq h).2.1
    rw [hm.2] at hd
    obtain ⟨i, hi, rfl⟩ := getElem_of_mem hd
    rw [length_zipWith] at hi
    rw [getElem_zipWith]
    have hd := (hs.2 ds[i] (getElem_mem _)).1
    have hp := hnonneg pads[i] (getElem_mem _)
    omega
  | stride steps =>
    refine words (apply_sound (m := stride steps) hl trivial trivial h) fun d hd => ?_
    obtain ⟨top, h, _⟩ := map_eq_ok.1 h
    have hne := (View.stride_eq h).2.1
    rw [hm.2] at hd
    obtain ⟨i, hi, rfl⟩ := getElem_of_mem hd
    rw [length_zipWith] at hi
    rw [getElem_zipWith]
    have hd := (hs.2 ds[i] (getElem_mem _)).1
    have hsize : 0 < |steps[i]| := abs_pos.2 (hne steps[i] (getElem_mem _))
    exact Int.le_ediv_of_mul_le hsize (by omega)

lemma exists_resizes {s : Shape} (hc : m.Concrete) (hs : s.Sized ds)
    (hrank : m.checkRank s = .ok ())
    (hperm : ∀ axes, m = permute axes → Rules.isPermutation axes = true) :
    ∃ ds', m.Resizes ds ds' := by
  have hlen : ∀ n, m.rank? = some n → ds.length = n := by
    intro n hn
    unfold checkRank at hrank
    rw [hn] at hrank
    dsimp only at hrank
    split at hrank
    · rename_i h
      rw [← h, hs.1, ofInts, length_map]
    · cases hrank
  cases m with
  | reshape target =>
    obtain ⟨es, hes⟩ := hc
    exact ⟨es, hes.1⟩
  | expand target =>
    obtain ⟨es, hes⟩ := hc
    refine ⟨es, hes.1, (hlen _ rfl).trans ?_⟩
    rw [hes.1, ofInts, length_map]
  | permute axes =>
    refine ⟨_, ?_, rfl⟩
    have hall : range axes.length ⊆ axes := by
      intro i hi
      simpa using all_eq_true.1 (hperm axes rfl) i hi
    rw [hlen _ rfl]
    exact ((subperm_of_subset nodup_range hall).perm_of_length_le (by simp)).symm
  | shrink ranges | pad pads | stride steps => exact ⟨_, hlen _ rfl, rfl⟩

end Movement

def Graph.Same (g g' : Graph) : Prop := g' = g

instance : Steps Graph.Same where
  trans h h' := Eq.trans h' h
  stay _ := rfl

namespace Reading
variable {R : Reading} {g g' : Graph} {p : Rules.Performer} {x : Nat} {m : Movement} {c : Call}
  {ds ds' : List Int}

lemma keeps_of_same {α : Type} {y : GraphM α} {Q : α → Graph → Prop} (hg : R.Sound g)
    (h : Yields Same g y Q) : Yields R.Keeps g y (fun _ _ => True) :=
  ⟨by rw [show (y.runOn g).2 = g from h.step]; exact .refl hg, fun _ _ => trivial⟩

section
variable (hg : R.Sound g) (hty : R.typed)
include hg hty

lemma dims_of_shape {s : Shape} (h : g.shape x = .ok s) : ∃ ds, g.Dims x ds ∧ s.Sized ds := by
  obtain ⟨t, ht, rfl⟩ := shape_eq_ok.1 h
  obtain ⟨ds, hs⟩ := hg.sized ht hty
  exact ⟨ds, ⟨t, ht, hs⟩, hs⟩

lemma elementwise_refused {op : Op} {srcs : List Nat} {arg : OpArg}
    (h : ¬∃ ds, (Call.elementwise op srcs arg).Typed R.exact g.Dims ds) :
    Yields Same g (Rules.elementwise p op srcs arg) (fun _ _ => True) := by
  have hk : Same g g := rfl
  unfold Rules.elementwise
  refine .guard hk fun hop => ?_
  cases srcs with
  | nil => exact .throw hk
  | cons _ _ =>
    refine .bind (.lookupAll hk) fun _ g0 _ hq => ?_
    obtain ⟨rfl, _⟩ := hq
    refine .bind_see hk fun shape hshape => ?_
    refine .bind (checkShapes_yields hk) fun _ g1 _ hq => ?_
    obtain ⟨rfl, hsame⟩ := hq
    obtain ⟨ds, hd, hs⟩ := dims_of_shape hg hty hshape
    refine (h ⟨ds, forall_mem_cons.2 ⟨hd, fun y hy => ?_⟩⟩).elim
    obtain ⟨s, hy, hbeq⟩ := hsame y hy
    obtain ⟨es, he, hes⟩ := dims_of_shape hg hty hy
    rw [hes.1, hs.1] at hbeq
    exact eq_of_beq hbeq ▸ he

lemma reduce_refused {op : ReduceOp} {target : Shape}
    (hc : ∃ ds, target.Sized ds)
    (h : ¬∃ ds, (Call.reduce op x target).Typed R.exact g.Dims ds) :
    Yields Same g (Rules.reduce p op x target) (fun _ _ => True) := by
  have hk : Same g g := rfl
  refine .bind_lookup hk fun t ht => .guard hk fun hreduces => ?_
  obtain ⟨ds, hs⟩ := hg.sized ht hty
  obtain ⟨dt, hdt⟩ := hc
  refine (h ⟨dt, ds, ⟨t, ht, hs⟩, hdt, ?_⟩).elim
  rw [hs.1, hdt.1] at hreduces
  simp only [Bool.not_eq_false', Bool.and_eq_true, beq_iff_eq, ofInts, length_map] at hreduces
  refine forall₂_iff_zip.2 ⟨hreduces.1, fun {d d'} hmem => ?_⟩
  have hall := all_eq_true.1 hreduces.2 (.num d, .num d') (by
    rw [zip_map]
    exact mem_map.2 ⟨(d, d'), hmem, rfl⟩)
  simp only [Bool.or_eq_true] at hall
  exact hall.imp (fun h => (SymInt.eq_of_num_beq h).symm) fun h => View.is_num.1 h

end

section
variable (hg : R.Sound g) (hty : R.typed)
include hg hty

section
variable (hc : m.Concrete) (hd : g.Dims x ds) (hm : m.Resizes ds ds') (hne : ¬Extents ds')
include hc hd hm hne

lemma mergedOrPlaced_refused {p : Call → GraphM Nat}
    (hp : ∀ {m x ds}, m.Concrete → g.Dims x ds → m.Resizes ds ds' →
      Yields Same g (p (.move m x)) (fun _ _ => True)) :
    Yields Same g (do
      match ← see (·.merged? x m) with
      | some (src, m) => p (.move m src)
      | none => Rules.place p x m) (fun _ _ => True) := by
  have hk : Same g g := rfl
  refine .bind_see hk fun o ho => ?_
  cases o with
  | some o =>
    obtain ⟨src, _⟩ := o
    obtain ⟨_, hfirst, hjoin⟩ := merged?_some ho
    obtain ⟨es, ds1, hsrc, hx, hsuits⟩ := (moved_of_pending hg hfirst).dims hty
    cases hx.unique hd
    exact hp (hc.merge hjoin) hsrc (hsuits.1.merge hjoin hm)
  | none =>
    refine .bind_see hk fun t ht => .bind_fallible hk fun layout hl => ?_
    obtain ⟨t', ht', hs⟩ := hd
    cases (tensor_eq_ok.1 ht).symm.trans ht'
    obtain ⟨_, hsuits⟩ := (hg.at_id ht').plain hty
    exact (hne (hc.extents hsuits.sound hs hm hl)).elim

lemma performWithin_refused {n : Nat}
    : Yields Same g (performWithin n (.move m x)) (fun _ _ => True) := by
  have hk : Same g g := rfl
  induction n generalizing m x ds with
  | zero => exact .throw hk
  | succ n ih =>
    have rest {rest : GraphM Nat} (h : Yields Same g rest (fun _ _ => True)) {s : Shape} :
        Yields Same g (do if ← m.isTrivial s then pure x else rest) (fun _ _ => True) := by
      refine .bind_checked hk fun b _ => ?_
      split
      · exact .pure hk trivial
      · exact h
    have joined := mergedOrPlaced_refused hg hty hc hd hm hne (p := performWithin n) ih
    change Yields Same g (Rules.move (performWithin n) m x) _
    refine .bind_lookup hk fun t ht => .bind_fallible hk fun _ _ => ?_
    cases m with
    | permute _ =>
      obtain ⟨_, _, hsz⟩ := hd
      exact (hne (hm.2 ▸ hsz.2.reorder hm.1)).elim
    | reshape _ =>
      obtain ⟨es, hes⟩ := hc
      exact (hne (ofInts_inj (hes.1.symm.trans hm) ▸ hes.2)).elim
    | expand _ | pad _ | shrink _ | stride _ => exact rest joined

end

lemma move_refused (hc : m.Concrete) (h : ∀ ds ds', g.Dims x ds → ¬m.Resizes ds ds') :
    Yields Same g (Rules.move p m x) (fun _ _ => True) := by
  have hk : Same g g := rfl
  refine .bind_lookup hk fun t ht => .bind_fallible hk fun _ hrank => ?_
  obtain ⟨ds, hs⟩ := hg.sized ht hty
  have fits (hperm : ∀ axes, m = .permute axes → Rules.isPermutation axes = true) : False := by
    obtain ⟨ds', hm⟩ := exists_resizes hc hs hrank hperm
    exact h ds ds' ⟨t, ht, hs⟩ hm
  cases m with
  | permute axes =>
    refine .guard hk fun hperm => (fits fun axes' heq => ?_).elim
    cases heq
    simpa using hperm
  | reshape _ | expand _ | pad _ | shrink _ | stride _ =>
    exact (fits fun axes' heq => by cases heq).elim

lemma perform_keeps (hex : ¬R.exact) (hc : c.Concrete) (ha : R.Admits c) :
    Yields R.Keeps g (perform c) (fun _ _ => True) := by
  by_cases htyped : ∃ ds, c.Typed R.exact g.Dims ds
  · exact (perform_performs g c hg (fun _ => htyped) fun _ => ha).weaken fun _ _ _ _ => trivial
  have hk : Same g g := rfl
  refine keeps_of_same hg (Q := fun _ _ => True) (.bind_get hk ?_)
  generalize g.limit = n
  cases n with
  | zero => exact .throw hk
  | succ n =>
    cases c with
    | elementwise op _ arg => exact elementwise_refused hg hty htyped
    | reduce op x _ => exact reduce_refused hg hty hc htyped
    | move m x =>
      by_cases hm : ∃ ds ds', g.Dims x ds ∧ m.Resizes ds ds'
      · obtain ⟨ds, ds', hd, hm⟩ := hm
        refine performWithin_refused hg hty hc hd hm fun he =>
          htyped ⟨ds', ds, hd, ⟨hm, ?_⟩, he⟩
        exact fun h => (hex h).elim
      · exact move_refused hg hty hc fun ds ds' hd h => hm ⟨ds, ds', hd, h⟩

end

/-- Nothing but the dimensions of tensors, and how many sources their operations have. -/
def shapes (accepts : Op → Nat → Prop) : Reading where
  Value := Unit
  typed := True
  exact := False
  Fits _ _ := True
  elementwise _ _ _ := ()
  reduce _ _ _ := ()
  move _ _ := ()
  look _ _ := ()
  load _ _ _ := ()
  Accepts := accepts
  fits_move _ _ _ _ := trivial
  fits_elementwise _ _ _ := trivial
  elementwise_congr _ := rfl
  reduce_congr _ := rfl
  move_congr _ := rfl
  move_trivial _ _ := rfl
  move_merge _ _ := rfl
  move_elementwise _ := rfl
  look_whole _ _ := rfl
  look_move _ _ := rfl
  look_contiguous _ _ := rfl
  reduce_same _ := rfl
  reduce_permute _ _ := rfl
  expand_permute _ _ := rfl
  reshape_permute _ _ _ _ := rfl
  permute_ones _ _ _ := rfl
  reduce_cut _ _ _ _ := rfl

end Reading

end LazyTensor
