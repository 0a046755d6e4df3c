import LazyTensor.Proofs.Kernel.Axes

/-! Merging of neighbouring axes. -/
namespace LazyTensor
open Checked List Shape SymInt Option

namespace Shape

lemma contraction?_flatten (ds dt : List Int) :
    Returns .arithmetic (contraction? (ofInts ds) (ofInts dt))
      (fun o => ∀ groups, o = some groups → groups.flatten = range ds.length) := by
  refine (contraction?_returns ds dt).weaken fun o ho groups h => ?_
  obtain ⟨_, hparts, rfl, _⟩ := ho groups h
  rw [← map_flatten, ← hparts, zipIdx_map_snd, range_eq_range']

end Shape

namespace Kernel
variable {k : Kernel} {full ds : List Int}
variable {row : List Axis} {axis : Axis} {α : Type}

lemma pieceStrides_returns {group : List Nat} (h : ∀ i ∈ group, i < ds.length) :
    Returns .arithmetic (do
      let piece ← group.mapM (nth (ofInts ds))
      return (← rowMajor? piece).getD (piece.map (fun _ => 0)) : Checked (List Int))
      (fun strides => strides.length = group.length) := by
  refine (Returns.mapM (R := fun i d => .num (ds.getD i 0) = d) fun i hi => ?_).bind
    fun piece _ hpiece => ?_
  · have hlt := h i hi
    refine (nth_returns (by simpa [ofInts] using hlt)).weaken fun d hd => ?_
    rw [ofInts, getElem?_map, getElem?_eq_getElem hlt] at hd
    rw [getD_eq_getElem _ _ hlt]
    exact some.inj hd
  · obtain rfl : ofInts (group.map fun i => ds.getD i 0) = piece := by
      rw [ofInts, List.map_map, ← forall₂_eq_eq_eq, forall₂_map_left_iff]
      exact hpiece
    refine (rowMajor_returns _).bind fun o _ ho => ?_
    obtain ⟨strides, rfl, hlen⟩ := ho
    exact .ok (by rw [getD_some, hlen, length_map])

lemma imageAxes_returns (ds base : List Int) : Returns .arithmetic (imageAxes (ofInts ds) base)
      (fun o => ∀ row, o = some row → row.map (·.1) = ofInts ds) := by
  refine (contraction?_flatten ds base).bind fun o _ ho => ?_
  cases o with
  | none => exact .ok (by simp)
  | some groups =>
    have hgroups := ho groups rfl
    refine (Returns.mapM fun g hg => pieceStrides_returns fun i hi => ?_).bind
      fun strides _ hstrides => .ok fun row h => ?_
    · exact mem_range.1 (hgroups ▸ mem_flatten_of_mem hg hi)
    · cases h
      have hlen : strides.flatten.length = ds.length := by
        have hlens : strides.map length = groups.map length := by
          rw [← forall₂_eq_eq_eq, forall₂_map_left_iff, forall₂_map_right_iff]
          exact hstrides.flip
        rw [length_flatten, hlens, ← length_flatten, hgroups, length_range]
      exact map_fst_zip (by rw [length_map, hlen, ofInts, length_map])

def Numbers (row : List Axis) (ds : List Int) : Prop :=
  row.map (·.1) = Shape.ofInts ds ∧ Extents ds

lemma Numbers.getElem? {i : Nat} (h : Numbers row ds) (haxis : row[i]? = some axis) :
    ∃ d, ds[i]? = some d ∧ num d = axis.1 := by
  have hmap : (ofInts ds)[i]? = some axis.1 := by
    rw [← h.1, getElem?_map, haxis, map_some]
  simpa [ofInts] using hmap

lemma Numbers.length (h : Numbers row ds) : row.length = ds.length := by
  simpa [Shape.ofInts] using congrArg List.length h.1

/-- The first axes of a row, merged into some number of them: they have as many elements. -/
structure Merged (count n : Nat) (row done : List Axis) : Prop where
  length : done.length = count
  dims : ∃ ds es, Numbers row ds ∧ Numbers done es ∧ es.prod = (ds.take n).prod

lemma axisRows_returns (h : k.Aligned full) : Returns .arithmetic k.axisRows (fun rows =>
      (∀ row ∈ rows, ∃ ds, Numbers row ds ∧ ds.length = full.length) ∧
      ∀ (i : Nat) (l : Layout), k.layouts[i]? = some l →
        ∃ row, rows[i]? = some row ∧ row.map (·.1) = l.shape) := by
  have hrows : Returns .arithmetic
      (k.layouts.mapM (fun l => return l.shape.zip (← l.realStrides false)))
      (Forall₂ (fun l (row : List Axis) => row.map (·.1) = l.shape ∧
        ∃ ds, Numbers row ds ∧ ds.length = full.length) k.layouts) := by
    refine .mapM fun l hl => ?_
    obtain ⟨ds, hs, hr⟩ := h.parts l hl
    refine (Layout.realStrides_returns hs false).bind fun strides _ hlen => .ok ?_
    have hdims : (l.shape.zip strides).map (·.1) = l.shape := by
      refine map_fst_zip ?_
      rw [hlen, hs.sized.1, ofInts, length_map]
    exact ⟨hdims, ds, ⟨hdims.trans hs.sized.1, hs.sized.2⟩, hr.length_eq.symm⟩
  refine hrows.bind fun rows _ hall => ?_
  have hfirst (i : Nat) (l : Layout) (hl : k.layouts[i]? = some l) :
      ∃ row, rows[i]? = some row ∧ row.map (·.1) = l.shape := by
    obtain ⟨row, hrow, hdims, _⟩ := exists_of_getElem? hall hl
    exact ⟨row, hrow, hdims⟩
  have hnumbers : ∀ row ∈ rows, ∃ ds, Numbers row ds ∧ ds.length = full.length := by
    intro row hrow
    obtain ⟨l, _, _, hn⟩ := exists_of_mem_right hall hrow
    exact hn
  refine (nth_returns (length_pos_iff.2 h.slots)).bind fun out _ _ => ?_
  split
  · exact .ok ⟨hnumbers, hfirst⟩
  · rename_i base _
    obtain ⟨ds, hds, he, hr⟩ := h.outputShape
    rw [hds, ok_bind]
    refine (imageAxes_returns ds base).bind fun image _ himage =>
      .ok ⟨fun row hrow => ?_, fun i l hl => ?_⟩
    · obtain hrow | hrow := mem_append.1 hrow
      · exact hnumbers row hrow
      · exact ⟨ds, ⟨himage row (by simpa using hrow), he⟩, hr.length_eq.symm⟩
    · obtain ⟨row, hrow, hdims⟩ := hfirst i l hl
      obtain ⟨hlt, _⟩ := List.getElem?_eq_some_iff.1 hrow
      exact ⟨row, by rw [getElem?_append_left hlt, hrow], hdims⟩

lemma timesDim_returns {a b : Int} (ha : 0 < a ∧ Fits a) (hb : 0 < b ∧ Fits b) :
    Returns .arithmetic ((num a).timesDim (.num b))
      (fun r => r = .num (a * b) ∧ 0 < a * b ∧ Fits (a * b)) := by
  have hpos := mul_pos ha.1 hb.1
  unfold timesDim num? times
  dsimp only
  rw [if_neg ha.1.ne']
  split
  · rename_i hone
    rw [hone, one_mul]
    exact .ok ⟨rfl, hb⟩
  · refine (Returns.of_overflow (.word _) fun _ h => mul_eq_ok.1 h).bind fun n _ hn => .ok ?_
    obtain ⟨hf, rfl⟩ := hn
    rw [mul_comm b a] at hf ⊢
    exact ⟨rfl, hpos, hf⟩

lemma continues_returns (last : Option Axis) (next : Axis) :
    Returns .arithmetic (continues last next) (fun _ => True) := by
  unfold continues
  split
  · exact .ok trivial
  · exact .ok trivial
  · split
    · exact (OnlyOverflow.word _).returns.bind fun _ _ _ => .ok trivial
    · exact .ok trivial

lemma allM_returns {p : α → Checked Bool} {xs : List α}
    (hp : ∀ x ∈ xs, Returns .arithmetic (p x) (fun _ => True)) :
    Returns .arithmetic (xs.allM p) (fun _ => True) := by
  induction xs with
  | nil => exact .ok trivial
  | cons x xs ih =>
    obtain ⟨hx, hxs⟩ := forall_mem_cons.1 hp
    rw [allM]
    refine hx.bind fun b _ _ => ?_
    cases b with
    | true => exact ih hxs
    | false => exact .ok trivial

lemma forall₂_zip {β γ : Type} {P : α → β → Prop} {Q : α → γ → Prop} {xs : List α}
    {ys : List β} {zs : List γ} (h : Forall₂ P xs ys) (h' : Forall₂ Q xs zs) :
    Forall₂ (fun x p => P x p.1 ∧ Q x p.2) xs (ys.zip zs) := by
  induction h generalizing zs with
  | nil =>
    cases h'
    exact .nil
  | cons hp _ ih =>
    cases h' with
    | cons hq hrest => exact .cons ⟨hp, hq⟩ (ih hrest)

lemma Merged.next {done : List Axis} {count i : Nat} (hcount : 0 < count)
    (haxis : row[i]? = some axis) (together : Bool) : Merged count i row done →
    Returns .arithmetic (match done with
      | last :: done =>
        if together then return (← last.1.timesDim axis.1, axis.2) :: done
        else .ok (axis :: last :: done)
      | [] => .ok [axis] : Checked (List Axis))
      (Merged (if together then count else count + 1) (i + 1) row) := by
  rintro ⟨hlen, ds, es, hds, hes, hprod⟩
  obtain ⟨d, hd, hnum⟩ := hds.getElem? haxis
  have htake : (ds.take (i + 1)).prod = (ds.take i).prod * d := by
    rw [take_add_one, hd, prod_append, toList_some, prod_singleton]
  have hdpos := hds.2 d (mem_of_getElem? hd)
  cases done with
  | nil => exact absurd hlen (by simpa using hcount.ne)
  | cons last done =>
    cases es with
    | nil => exact absurd hes.1 (by simp [ofInts])
    | cons e es =>
      obtain ⟨hlast, hrest⟩ : last.1 = .num e ∧ done.map (·.1) = ofInts es := by
        simpa [ofInts] using hes.1
      obtain ⟨hepos, hesext⟩ := forall_mem_cons.1 hes.2
      rw [prod_cons] at hprod
      cases together with
      | true =>
        dsimp only
        rw [if_pos rfl, if_pos rfl, ← hnum, hlast]
        refine (timesDim_returns hepos hdpos).bind fun r _ hr =>
          .ok ⟨hlen, ds, e * d :: es, hds, ?_, ?_⟩
        · exact ⟨by simp [ofInts, hr.1, hrest], forall_mem_cons.2 ⟨hr.2, hesext⟩⟩
        · rw [prod_cons, htake, ← hprod]
          ring
      | false =>
        refine .ok ⟨congrArg (· + 1) hlen, ds, d :: e :: es, hds, ?_, ?_⟩
        · exact ⟨by simp [ofInts, ← hnum, hlast, hrest],
            forall_mem_cons.2 ⟨hdpos, hes.2⟩⟩
        · rw [prod_cons, prod_cons, htake, ← hprod]
          ring

section
variable {rows done : List (List Axis)} {next : List Axis} {count i : Nat} (hcount : 0 < count)
  (hdone : Forall₂ (Merged count i) rows done)
  (hnext : Forall₂ (fun (row : List Axis) axis => row[i]? = some axis) rows next)
include hcount hdone hnext

lemma nextAxes_returns (together : Bool) :
    Returns .arithmetic ((done.zip next).mapM (fun (row, axis) =>
      match row with
      | last :: row =>
        if together then return (← last.1.timesDim axis.1, axis.2) :: row
        else .ok (axis :: last :: row)
      | [] => .ok [axis]))
      (fun done' => ∃ count' > 0, Forall₂ (Merged count' (i + 1)) rows done') := by
  refine (Returns.mapM_forall₂ (forall₂_zip hdone hnext) fun row p hp =>
    Merged.next hcount hp.2 together hp.1).weaken fun done' hdone' => ⟨_, ?_, hdone'⟩
  split <;> omega

lemma mergeStep_returns {mayMerge : Bool} : Returns .arithmetic (mergeStep mayMerge done next)
    (fun done' => ∃ count' > 0, Forall₂ (Merged count' (i + 1)) rows done') := by
  have rest := nextAxes_returns hcount hdone hnext
  unfold mergeStep
  split
  · refine (allM_returns fun p _ => ?_).bind fun together _ _ => rest together
    exact continues_returns _ _
  · exact rest false

end

section
variable {rows : List (List Axis)} {n : Nat}
  (hrows : ∀ row ∈ rows, ∃ ds, Numbers row ds ∧ ds.length = n)
include hrows

lemma firstAxes_returns (hn : 0 < n) :
    Returns .arithmetic (rows.mapM (fun row => return [← nth row 0]))
      (Forall₂ (Merged 1 1) rows) := by
  refine .mapM fun row hrow => ?_
  obtain ⟨ds, hds, hlen⟩ := hrows row hrow
  refine (nth_returns (by rwa [hds.length, hlen])).bind fun axis _ haxis => ?_
  obtain ⟨d, hd, hnum⟩ := hds.getElem? haxis
  refine .ok ⟨rfl, ds, [d], hds, ⟨by simp [ofInts, hnum], ?_⟩, ?_⟩
  · exact forall_mem_singleton.2 (hds.2 d (mem_of_getElem? hd))
  · rw [take_add_one, hd]
    simp

lemma mergeRows_returns {first : List (List Axis)} {fr : Nat} (hn : 0 < n)
    (hfirst : Forall₂ (Merged 1 1) rows first) :
    Returns .arithmetic ((range' 1 (n - 1)).foldlM (fun acc i => do
      mergeStep (i != fr) acc (← rows.mapM (nth · i))) first)
      (fun done => ∃ count > 0, Forall₂ (Merged count n) rows done) := by
  have hsteps : Returns .arithmetic ((range' 1 (n - 1)).foldlM (fun acc i => do
      mergeStep (i != fr) acc (← rows.mapM (nth · i))) first)
      (fun done => ∃ count > 0, Forall₂ (Merged count (1 + (n - 1))) rows done) := by
    refine .foldlM_range' (I := fun i done => ∃ count > 0, Forall₂ (Merged count i) rows done)
      (fun done i _ hi hdone => ?_) ⟨1, by omega, hfirst⟩
    obtain ⟨count, hcount, hdone⟩ := hdone
    refine (Returns.mapM fun row hrow => nth_returns ?_).bind fun next _ hnext =>
      mergeStep_returns hcount hdone hnext
    obtain ⟨ds, hds, hlen⟩ := hrows row hrow
    rw [hds.length, hlen]
    omega
  rwa [show 1 + (n - 1) = n by omega] at hsteps

end

lemma reshapeRows_returns {rows done : List (List Axis)} {count : Nat} (h : k.Aligned full)
    (hrows : ∀ (i : Nat) (l : Layout), k.layouts[i]? = some l →
      ∃ row, rows[i]? = some row ∧ row.map (·.1) = l.shape)
    (hdone : Forall₂ (Merged count full.length) rows done) :
    Returns .arithmetic ((k.layouts.zip done).mapM (fun (l, row) =>
      (l.reshape (row.reverse.map (·.1))).must "merge"))
      (Forall₂ (fun _ l => l.rank = count) (k.layouts.zip done)) := by
  refine .mapM fun p hp => ?_
  obtain ⟨i, hi⟩ := mem_iff_getElem?.1 hp
  obtain ⟨hl, hrow⟩ := getElem?_zip_eq_some.1 hi
  obtain ⟨ds, hs, hr⟩ := h.parts p.1 (mem_of_getElem? hl)
  obtain ⟨row, hrow', hdims⟩ := hrows i p.1 hl
  obtain ⟨_, hdone', hlen, ds', es, hds, hes, hprod⟩ := exists_of_getElem? hdone hrow'
  cases hrow.symm.trans hdone'
  obtain rfl : ds = ds' := ofInts_inj (hs.sized.1.symm.trans (hdims.symm.trans hds.1))
  rw [hr.length_eq, take_length] at hprod
  have htarget : p.2.reverse.map (·.1) = ofInts es.reverse := by
    rw [map_reverse, hes.1, ofInts, ofInts, map_reverse]
  have hext : Extents es.reverse := fun d hd => hes.2 d (mem_reverse.1 hd)
  have hsame : ds.prod = es.reverse.prod := by rw [prod_reverse, hprod]
  have hrun := must_returns "merge" (Layout.reshape_returns hs hext hsame)
  rw [← htarget] at hrun
  refine hrun.weaken fun l' hl' => ?_
  rw [Layout.rank, hl'.sized.1, ofInts, length_map, length_reverse, ← hes.length, hlen]

lemma mergeAxes_returns (h : k.Aligned full) :
    Returns .arithmetic k.mergeAxes (fun k' => ∃ rank, ∀ l ∈ k'.layouts, l.rank = rank) := by
  unfold mergeAxes
  rw [h.rank, ok_bind]
  split
  · rename_i hnone
    refine .ok ⟨0, fun l hl => ?_⟩
    obtain ⟨ds, hs, hr⟩ := h.parts l hl
    rw [Layout.rank, hs.sized.1, ofInts, length_map, ← hr.length_eq, hnone]
  rename_i hsome
  have hn : 0 < full.length := Nat.pos_of_ne_zero hsome
  refine (axisRows_returns h).bind fun rows _ hrows => ?_
  refine h.firstReduce_returns.bind fun fr _ _ => ?_
  refine (firstAxes_returns hrows.1 hn).bind fun first _ hfirst => ?_
  refine (mergeRows_returns hrows.1 hn hfirst).bind fun done _ hdone => ?_
  obtain ⟨count, _, hdone⟩ := hdone
  refine (reshapeRows_returns h hrows.2 hdone).bind fun layouts _ hlayouts =>
    .ok ⟨count, fun l hl => ?_⟩
  obtain ⟨_, _, hrank⟩ := exists_of_mem_right hlayouts hl
  exact hrank

end Kernel

end LazyTensor
