import LazyTensor.Proofs.Layout.Total

/-! The steps that bring the axes of a kernel into order. -/
namespace LazyTensor
open Checked List Shape
variable {α : Type} {xs : List α} {i : Nat} {ds : List Int}

lemma nth_returns (h : i < xs.length) : Returns .arithmetic (nth xs i) (fun x => xs[i]? = some x) :=
  .inr ⟨xs[i], nth_eq_ok.2 (getElem?_eq_getElem h), getElem?_eq_getElem h⟩

lemma must_returns {x : Fallible α} {P : α → Prop} (step : String)
    (h : Returns (.abort .arithmetic) x P) : Returns .arithmetic (x.must step) P := by
  obtain rfl | ⟨a, rfl, ha⟩ := h
  · exact .inl rfl
  · exact .ok ha

lemma findM?_returns {p : α → Checked Bool}
    (hp : ∀ x ∈ xs, Returns .arithmetic (p x) (fun _ => True)) :
    Returns .arithmetic (xs.findM? p) (fun o => ∀ x, o = some x → x ∈ xs) := by
  induction xs with
  | nil => exact .ok (by simp)
  | cons x xs ih =>
    obtain ⟨hx, hxs⟩ := forall_mem_cons.1 hp
    rw [findM?]
    refine hx.bind fun b _ _ => ?_
    cases b with
    | true => exact .ok (by simp)
    | false => exact (ih hxs).weaken fun o ho y hy => mem_cons_of_mem _ (ho y hy)

lemma Reduces.refl (ds : List Int) : Reduces ds ds := forall₂_same.2 fun _ _ => .inl rfl

namespace Kernel
variable {k : Kernel} {full : List Int} {axes : List Nat}

/-- Each layout is as long as the full shape along every axis, or has length one there. -/
structure Aligned (k : Kernel) (full : List Int) : Prop where
  whole : ∃ l, k.layouts[k.fullIndex]? = some l ∧ l.Suits False full
  parts : ∀ l ∈ k.layouts, ∃ ds, l.Suits False ds ∧ Reduces full ds
  slots : k.slots ≠ []
  upcasted : k.upcasted = 0
  localDims : k.localDims = 0

namespace Aligned

section
variable (h : k.Aligned full)
include h

lemma fullShape : k.fullShape = .ok (ofInts full) := by
  obtain ⟨l, hl, hs⟩ := h.whole
  rw [Kernel.fullShape, layout, nth_eq_ok.2 hl, ok_bind, hs.sized.1]
  rfl

lemma first : ∃ l ds, k.layout 0 = .ok l ∧ l.Suits False ds ∧ Reduces full ds := by
  obtain ⟨l, hl, _⟩ := h.whole
  obtain ⟨hlt, _⟩ := List.getElem?_eq_some_iff.1 hl
  have h0 : k.layouts[0]? = some k.layouts[0] := getElem?_eq_getElem (by omega)
  obtain ⟨ds, hs, hr⟩ := h.parts _ (mem_of_getElem? h0)
  exact ⟨_, ds, nth_eq_ok.2 h0, hs, hr⟩

lemma outputShape : ∃ ds, k.outputShape = .ok (ofInts ds) ∧ Extents ds ∧ Reduces full ds := by
  obtain ⟨l, ds, hl, hs, hr⟩ := h.first
  refine ⟨ds, ?_, hs.sized.2, hr⟩
  rw [Kernel.outputShape, hl, ok_bind, hs.sized.1]
  rfl

lemma rank : k.rank = .ok full.length := by
  obtain ⟨l, ds, hl, hs, hr⟩ := h.first
  rw [Kernel.rank, hl, ok_bind, Layout.rank, hs.sized.1, ofInts, length_map, hr.length_eq]
  rfl

lemma upcastStart : k.upcastStart = .ok full.length := by
  rw [Kernel.upcastStart, h.rank, ok_bind, h.upcasted]
  rfl

lemma isKept_returns (hi : i < full.length) : Returns .arithmetic (k.isKept i) (fun _ => True) := by
  obtain ⟨ds, hds, _, hr⟩ := h.outputShape
  rw [isKept, hds, h.fullShape, ok_bind]
  refine (nth_returns ?_).bind fun _ _ _ => (nth_returns ?_).bind fun _ _ _ => .ok trivial
  · rwa [ofInts, length_map, ← hr.length_eq]
  · rwa [ofInts, length_map]

lemma firstReduce_returns : Returns .arithmetic k.firstReduce (fun n => n ≤ full.length) := by
  rw [firstReduce, h.upcastStart, ok_bind]
  refine (findM?_returns fun i hi => ?_).bind fun o _ ho => ?_
  · exact (h.isKept_returns (mem_range.1 hi)).bind fun _ _ _ => .ok trivial
  · cases o with
    | none => exact .ok le_rfl
    | some i => exact .ok (mem_range.1 (ho i rfl)).le

lemma reduceLast_returns : Returns .arithmetic k.reduceLast (·.Perm (range full.length)) := by
  obtain ⟨ds, hds, _, hr⟩ := h.outputShape
  rw [reduceLast, h.fullShape, hds, ok_bind, ok_bind]
  have hlen : min (ofInts full).length (ofInts ds).length = full.length := by
    simp [ofInts, hr.length_eq]
  rw [hlen]
  refine (Returns.mapM (R := fun i f => f.1 = i) fun i hi => ?_).bind fun flags _ hflags => .ok ?_
  · exact (h.isKept_returns (mem_range.1 hi)).bind fun _ _ _ => .ok rfl
  · have hfst : flags.map (·.1) = range full.length := by
      rw [← forall₂_eq_eq_eq, forall₂_map_left_iff]
      exact hflags.flip
    rw [← map_append, ← hfst]
    exact (filter_append_perm _ _).map _

end

lemma moved {f : Layout → Checked Layout} (move : List Int → List Int) (h : k.Aligned full)
    (hf : ∀ l ds, l.Suits False ds → Reduces full ds →
      Returns .arithmetic (f l) (·.Suits False (move ds)))
    (hr : ∀ ds, Reduces full ds → Reduces (move full) (move ds)) :
    Returns .arithmetic (k.layouts.mapM f)
      (fun layouts => ({ k with layouts } : Kernel).Aligned (move full)) := by
  have hall : Returns .arithmetic (k.layouts.mapM f) (Forall₂ (fun l l' =>
      ∃ ds, l.Suits False ds ∧ Reduces full ds ∧ l'.Suits False (move ds)) k.layouts) := by
    refine .mapM fun l hl => ?_
    obtain ⟨ds, hs, hds⟩ := h.parts l hl
    exact (hf l ds hs hds).weaken fun l' hl' => ⟨ds, hs, hds, hl'⟩
  refine hall.weaken fun layouts hlayouts =>
    ⟨?_, fun l' hl' => ?_, h.slots, h.upcasted, h.localDims⟩
  · obtain ⟨l, hl, hs⟩ := h.whole
    obtain ⟨l', hl', ds, hds, _, hs'⟩ := exists_of_getElem? hlayouts hl
    rw [hds.sized.unique hs.sized] at hs'
    exact ⟨l', hl', hs'⟩
  · obtain ⟨l, _, ds, _, hds, hs'⟩ := exists_of_mem_right hlayouts hl'
    exact ⟨move ds, hs', hr ds hds⟩

lemma permuteAll_returns (h : k.Aligned full) (hp : axes.Perm (range full.length)) :
    Returns .arithmetic (k.permuteAll axes) (·.Aligned (axes.map (fun i => full.getD i 0))) := by
  have hmoved := h.moved (f := fun l => (l.permute axes).must "permute")
    (fun ds => axes.map (fun i => ds.getD i 0))
    (fun l ds hl hr => must_returns _ (Layout.permute_returns hl (hr.length_eq ▸ hp)))
    (fun ds hr => Forall₂.reorder hr hp)
  exact hmoved.bind fun layouts _ hk => .ok hk

lemma reshapeAll_returns {f : Shape → Checked Shape} (move : List Int → List Int)
    (h : k.Aligned full) (hf : ∀ ds, Reduces full ds → f (ofInts ds) = .ok (ofInts (move ds)))
    (he : ∀ ds, Extents ds → Reduces full ds → Extents (move ds) ∧ ds.prod = (move ds).prod)
    (hr : ∀ ds, Reduces full ds → Reduces (move full) (move ds)) :
    Returns .arithmetic (k.reshapeAll f) (·.Aligned (move full)) := by
  refine (h.moved move (fun l ds hl hds => ?_) hr).bind fun layouts _ hk => .ok hk
  rw [show l.shape = ofInts ds from hl.sized.1, hf ds hds, ok_bind]
  obtain ⟨hext, hprod⟩ := he ds hl.sized.2 hds
  exact must_returns _ (Layout.reshape_returns hl hext hprod)

end Aligned

/-- The dimensions along the axes that are longer than one in the full shape. -/
def squeeze (full ds : List Int) : List Int :=
  ((ds.zip full).filter (fun p => p.2 ≠ 1)).map (·.1)

lemma squeeze_cons (d e : Int) (full ds : List Int) :
    squeeze (d :: full) (e :: ds) = if d = 1 then squeeze full ds else e :: squeeze full ds := by
  by_cases h : d = 1 <;> simp [squeeze, h]

lemma squeeze_reduces (h : Reduces full ds) :
    Reduces (squeeze full full) (squeeze full ds) ∧ ds.prod = (squeeze full ds).prod := by
  induction h with
  | nil => exact ⟨.nil, rfl⟩
  | @cons d d' full ds hd _ ih =>
    rw [squeeze_cons, squeeze_cons]
    by_cases hone : d = 1
    · have hone' : d' = 1 := hd.elim (·.trans hone) id
      rw [if_pos hone, if_pos hone, prod_cons, hone', one_mul]
      exact ih
    · rw [if_neg hone, if_neg hone, prod_cons, prod_cons, ih.2]
      exact ⟨.cons hd ih.1, rfl⟩

lemma squeeze_extents (h : Extents ds) : Extents (squeeze full ds) := by
  intro d hd
  obtain ⟨p, hp, rfl⟩ := mem_map.1 hd
  exact h _ (of_mem_zip (mem_of_mem_filter hp)).1

lemma ofInts_squeeze (ds : List Int) :
    (((ofInts ds).zip ((ofInts full).map (·.is 1))).filter (fun p => !p.2)).map (·.1) =
      ofInts (squeeze full ds) := by
  simp [ofInts, squeeze, zip_map, filter_map, Function.comp_def, SymInt.is, SymInt.num?]

lemma slice_empty {n : Nat} (h : n ≤ xs.length) : slice xs n n = .ok [] := by
  simp [slice, h]

lemma Aligned.dropOnes_returns (h : k.Aligned full) :
    Returns .arithmetic k.dropOnes (fun r => ∃ full', r.1.Aligned full') := by
  unfold dropOnes
  rw [h.rank, ok_bind]
  split
  · exact .ok ⟨full, h⟩
  rw [h.fullShape, ok_bind]
  refine h.firstReduce_returns.bind fun fr _ hfr => ?_
  have hones : ((ofInts full).map (·.is 1)).length = full.length := by simp [ofInts]
  have hsub (n : Nat) : subNat n 0 = .ok n := by simp [subNat]
  have hcount : subNat 0 (countTrue []) = .ok 0 := rfl
  rw [h.localDims, h.upcasted, hsub, ok_bind, slice_empty (hones ▸ hfr), ok_bind, hcount,
    ok_bind, hsub, ok_bind, hones, slice_empty hones.ge, ok_bind, hcount, ok_bind]
  have hplain : ({ k with localDims := 0, upcasted := 0 } : Kernel).Aligned full :=
    ⟨h.whole, h.parts, h.slots, rfl, rfl⟩
  refine (hplain.reshapeAll_returns (squeeze full) (fun ds _ => ?_) (fun ds he hr => ?_)
    fun ds hr => (squeeze_reduces hr).1).bind fun k' _ hk' => .ok ⟨_, hk'⟩
  · rw [ofInts_squeeze]
  · exact ⟨squeeze_extents he, (squeeze_reduces hr).2⟩

lemma Aligned.withoutOnes_returns (h : k.Aligned full) :
    Returns .arithmetic k.withoutOnes (fun k' => ∃ full', k'.Aligned full') :=
  h.dropOnes_returns.bind fun _ _ hr => .ok hr

end Kernel

end LazyTensor
