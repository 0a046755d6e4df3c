import LazyTensor.Proofs.Kernel.Axes
import LazyTensor.Proofs.Layout.Source
import LazyTensor.Proofs.SymInt.Expand

/-! The lanes of an upcasted kernel. Loads and stores count them with the first axis fastest, the
accumulators are numbered row by row over the axes in reverse, and both mean the same lanes. -/
namespace LazyTensor
open Checked List Shape SymInt

/-- The lanes along axes of these sizes in the order of loads and stores, the first axis fastest. -/
def laneOrder (sizes : List Int) : List (List Int) := choices (sizes.map fun n => (0, n - 1))

/-- The coordinates of a lane, zero along the axes that the output lacks. -/
def keptPart (out full lane : List Int) : List Int :=
  zipWith (fun (c : Int × Int) x => if c.1 = c.2 then x else 0) (out.zip full) lane

section Order
variable {ns os fs lane : List Int} {α β : Type} {f : α → List β}

lemma getElem?_flatMap {n i j : Nat} {xs : List α} {a : α} (hf : ∀ a, (f a).length = n)
    (hj : j < n) (h : xs[i]? = some a) : (xs.flatMap f)[i * n + j]? = (f a)[j]? := by
  induction xs generalizing i with
  | nil => cases h
  | cons x xs ih =>
    rw [flatMap_cons]
    cases i with
    | zero =>
      cases h
      rw [zero_mul, zero_add, getElem?_append_left (by rwa [hf])]
    | succ i =>
      rw [Nat.succ_mul, Nat.add_right_comm, getElem?_append_right (by rw [hf]; omega), hf,
        Nat.add_sub_cancel]
      exact ih h

lemma getElem?_laneOrder (h : Inside ns lane) :
    (laneOrder ns)[(Shape.rank ns.reverse lane.reverse).toNat]? = some lane := by
  induction h with
  | nil => rfl
  | @cons x n lane ns hx h ih =>
    have hb := (show Inside ns.reverse lane.reverse from rel_reverse h).rank_bounds.1
    have hrank : (Shape.rank (n :: ns).reverse (x :: lane).reverse).toNat =
        (Shape.rank ns.reverse lane.reverse).toNat * n.toNat + x.toNat := by
      rw [reverse_cons, reverse_cons, rank_append (by simp [h.length_eq])]
      simp only [Shape.rank, prod_cons, prod_nil, mul_one, add_zero]
      rw [Int.toNat_add (mul_nonneg hb (by omega)) hx.1, Int.toNat_mul hb (by omega)]
    rw [hrank]
    refine (getElem?_flatMap (fun lane => by simp [intRange]) (by omega) ih).trans ?_
    simp [intRange, hx]

lemma grid_concat (ns : List Int) (n : Int) :
    grid (ns ++ [n]) = (grid ns).flatMap fun q => (intRange 0 (n - 1)).map fun x => q ++ [x] := by
  induction ns with
  | nil =>
    simp only [nil_append, grid, intRange, map_cons, map_nil, flatMap_singleton, map_map,
      sub_add_cancel, sub_zero, zero_add]
    exact map_eq_flatMap.symm
  | cons m ns ih =>
    simp only [cons_append, grid, ih, map_flatMap, flatMap_assoc, flatMap_map, map_map]
    rfl

lemma grid_reverse (ns : List Int) : grid ns.reverse = (laneOrder ns).map reverse := by
  induction ns with
  | nil => rfl
  | cons n ns ih =>
    rw [reverse_cons, grid_concat, ih, flatMap_map]
    change _ = ((laneOrder ns).flatMap fun lane => (intRange 0 (n - 1)).map (· :: lane)).map
      reverse
    rw [map_flatMap]
    refine flatMap_congr fun q _ => ?_
    rw [map_map]
    exact map_congr_left fun x _ => by simp

lemma keptPart_inside (hq : Inside fs lane) (hos : Forall₂ (fun o f => o = 1 ∨ o = f) os fs) :
    Inside os (keptPart os fs lane) := by
  induction hos generalizing lane with
  | nil => exact .nil
  | cons ho _ ih =>
    cases hq with
    | cons hx hxs =>
      refine .cons ?_ (ih hxs)
      dsimp only
      split <;> omega

end Order

namespace Kernel
variable {k : Kernel} {full : Layout} {pre pre' : Shape} {fs os : List Int} {cs : List (Int × Int)}
  {lanes : List Lane}

/-- What a kernel says of an upcasted axis with these sizes in the output and in full. -/
def Lane.Shows (c : Int × Int) (l : Lane) : Prop :=
  l.size = c.2 ∧ l.reduced = decide (c.1 ≠ c.2) ∧ (c.1 = 1 ∨ c.1 = c.2)

lemma axes_show (h : Forall₂ (fun o f => o = 1 ∨ o = f) os fs)
    (hpre : pre'.length = pre.length) :
    Forall₂ (fun c x => (pre' ++ ofInts os)[x]? = some (num c.1) ∧
      (pre ++ ofInts fs)[x]? = some (num c.2) ∧ (c.1 = 1 ∨ c.1 = c.2)) (os.zip fs)
        (range' pre.length fs.length) := by
  induction h generalizing pre pre' with
  | nil => exact .nil
  | @cons o f os fs ho _ ih =>
    rw [length_cons, range'_succ, zip_cons_cons]
    refine .cons ⟨by simp [ofInts, ← hpre], by simp [ofInts], ho⟩ ?_
    simpa [ofInts] using @ih (pre ++ [num f]) (pre' ++ [num o]) (by simp [hpre])

lemma upcastAxes_eq (hout : k.outputShape = .ok (pre' ++ ofInts os))
    (hup : os.length = k.upcasted) :
    k.upcastAxes = .ok (range' pre'.length os.length) := by
  simp only [outputShape, bind_eq_ok, pure_eq_ok] at hout
  obtain ⟨l, hl, hls⟩ := hout
  rw [upcastAxes, upcastStart, Kernel.rank, hl, ok_bind, Layout.rank, hls, length_append, ofInts,
    length_map, ← hup, pure_bind, Checked.subNat, if_pos (by omega), ok_bind, Nat.add_sub_cancel]
  rfl

/-- Strides along axes that the output lacks are zero, so that coordinates there do not count. -/
lemma steps_eq (h : Forall₂ Lane.Shows cs lanes) (strides lane : List Int) :
    (lane.zip (zipWith (fun st (l : Lane) => if l.reduced then 0 else st) strides lanes)).map
        (fun x => x.1 * x.2) =
      zipWith (· * ·) (zipWith (fun (c : Int × Int) x => if c.1 = c.2 then x else 0) cs lane)
        strides := by
  induction h generalizing strides lane with
  | nil => simp
  | @cons c l cs lanes hc _ ih =>
    cases lane with
    | nil => rfl
    | cons x lane =>
      cases strides with
      | nil => rfl
      | cons st strides =>
        simp only [zipWith_cons_cons, zip_cons_cons, map_cons, ih, hc.2.1]
        by_cases heq : c.1 = c.2 <;> simp [heq]

lemma laneNumber_returns {rows lane : List Int} (hos : Forall₂ (fun o f => o = 1 ∨ o = f) os fs)
    (hl : Forall₂ Lane.Shows (os.zip fs).reverse lanes)
    (hrows : (ofInts os.reverse).rowMajor? = .ok (some rows)) (hlane : lane ∈ laneOrder fs) :
    Returns .arithmetic (do
      let steps ← (lane.reverse.zip
        (zipWith (fun st (l : Lane) => if l.reduced then 0 else st) rows lanes)).mapM
          (fun x => Checked.mul x.1 x.2)
      return (← Checked.sum steps).toNat)
      (fun off => (laneOrder os)[off]? = some (keptPart os fs lane)) := by
  have hin : Inside fs lane := by
    refine (forall₂_map_left_iff.1 (choices_between hlane)).flip.imp fun x n h => ?_
    exact ⟨h.1, by omega⟩
  have hkept := keptPart_inside hin hos
  have hreverse : zipWith (fun (c : Int × Int) x => if c.1 = c.2 then x else 0) (os.zip fs).reverse
      lane.reverse = (keptPart os fs lane).reverse :=
    (reverse_zipWith (by simp [hos.length_eq, hin.length_eq])).symm
  refine (OnlyOverflow.mapM fun _ _ => .word _).returns.bind fun steps hsteps _ => ?_
  refine (OnlyOverflow.sum steps).returns.bind fun n hn _ => .ok ?_
  rw [sum_eq hn, eq_map_of_mapM (fun _ _ _ h => (mul_eq_ok.1 h).2.symm) hsteps,
    steps_eq hl, hreverse, rowMajor_rank (rel_reverse hkept) hrows, getElem?_laneOrder hkept]

lemma length_realStrides {l : Layout} {strides : List (Option Int)} (hl : l.Sound)
    (h : l.realStrides false = .ok strides) : strides.length = l.shape.length := by
  unfold Layout.realStrides at h
  split at h
  · cases h
    rw [length_map, hl.top.strides_length]
    rfl
  · simp only [bind_eq_ok, pure_eq_ok] at h
    obtain ⟨idxs, hidxs, _, _, rfl⟩ := h
    rw [length_mapIdx, ← (Layout.counters_count hidxs).length_eq]

section
variable (hfull : k.layout k.fullIndex = .ok full) (hshape : full.shape = pre ++ ofInts fs)
  (hout : k.outputShape = .ok (pre' ++ ofInts os)) (hpre : pre'.length = pre.length)
  (hup : os.length = k.upcasted) (hos : Forall₂ (fun o f => o = 1 ∨ o = f) os fs)
include hfull hshape hout hpre hup hos

lemma upcastLanes_returns {strides : List (Option Int)}
    (hstrides : full.realStrides false = .ok strides) (hlen : strides.length = full.shape.length) :
    Returns .arithmetic (k.upcastLanes k.fullIndex) (Forall₂ Lane.Shows (os.zip fs)) := by
  rw [upcastLanes, upcastAxes_eq hout hup, ok_bind, hfull, ok_bind, hstrides, ok_bind, hpre,
    hos.length_eq]
  refine .mapM_forall₂ (axes_show hos hpre) fun c x hx => ?_
  have hlt : x < strides.length := by
    rw [hlen, hshape]
    exact (List.getElem?_eq_some_iff.1 hx.2.1).1
  have hkept : k.isKept x = .ok (num c.1 == num c.2) := by
    rw [isKept, hout, ok_bind, nth_eq_ok.2 hx.1, ok_bind, fullShape, hfull, ok_bind,
      pure_bind, hshape, nth_eq_ok.2 hx.2.1]
    rfl
  rw [hshape, nth_eq_ok.2 hx.2.1, ok_bind]
  refine (nth_returns hlt).bind fun st _ _ => ?_
  rw [hkept]
  refine .ok ⟨rfl, ?_, hx.2.2⟩
  have hiff : (num c.1 == num c.2) = decide (c.1 = c.2) :=
    Bool.eq_iff_iff.2 ⟨fun h => decide_eq_true (eq_of_num_beq h),
      fun h => of_decide_eq_true h ▸ num_beq c.1⟩
  simp [hiff]

/-- The accumulator of a lane is the one of the output's lane with the same kept coordinates. Only
an overflow or strides that cannot be found stop the numbering. -/
theorem accumulators_line_up (hsound : full.Sound) :
    (∃ e, full.realStrides false = .error e ∧ k.accumulators k.fullIndex = .error e) ∨
      Returns .arithmetic (k.accumulators k.fullIndex) (Forall₂ (fun lane off =>
        (laneOrder os)[off]? = some (keptPart os fs lane)) (laneOrder fs)) := by
  rw [accumulators]
  split
  · rename_i h0
    obtain rfl := length_eq_zero_iff.1 (hup.trans h0)
    cases hos
    exact .inr (.ok (.cons rfl .nil))
  cases hstrides : full.realStrides false with
  | error e =>
    refine .inl ⟨e, rfl, ?_⟩
    rw [upcastLanes, upcastAxes_eq hout hup, ok_bind, hfull, ok_bind, hstrides]
    rfl
  | ok strides =>
    have hlen := length_realStrides hsound hstrides
    refine .inr ((upcastLanes_returns hfull hshape hout hpre hup hos hstrides hlen).bind
      fun lanes _ hl => ?_)
    have hrev : Forall₂ Lane.Shows (os.zip fs).reverse lanes.reverse := rel_reverse hl
    have hsizes : lanes.map (·.size) = fs := by
      rw [← map_snd_zip hos.length_eq.ge, ← forall₂_eq_eq_eq, forall₂_map_left_iff,
        forall₂_map_right_iff]
      exact hl.flip.imp fun _ _ h => h.1
    have hkept : lanes.map (fun l => if l.reduced then 1 else l.size) = os := by
      rw [← map_fst_zip hos.length_eq.le, ← forall₂_eq_eq_eq, forall₂_map_left_iff,
        forall₂_map_right_iff]
      refine hl.flip.imp fun l c h => ?_
      simp only [h.2.1, h.1, decide_eq_true_eq]
      split <;> omega
    dsimp only
    simp only [map_reverse, hsizes, hkept, grid_reverse]
    refine (rowMajor_returns os.reverse).bind fun o ho hrow => ?_
    obtain ⟨rows, rfl, _⟩ := hrow
    refine .mapM_forall₂ (P := fun lane q => q = lane.reverse ∧ lane ∈ laneOrder fs) ?_
      fun lane q h => ?_
    · exact forall₂_map_right_iff.2 (forall₂_same.2 fun _ h => ⟨rfl, h⟩)
    · rw [h.1]
      exact laneNumber_returns hos hrev ho h.2

end

def stepping (dims strides : List Int) : View :=
  { shape := ofInts dims, strides, offset := 0, mask := none, contiguous := false }

/-- A kernel with every axis upcasted. -/
def unrolled (out full : View) : Kernel :=
  { target := {}, tree := { op := .buffer .mem }, estimate := ⟨[], .float32, .num 0, []⟩,
    reduceOp := none,
    slots := [], layouts := [{ top := out }, { top := full }], early := [], fullIndex := 1,
    upcasted := full.shape.length }

/-- The sum over the second of two axes, which runs slower than the first. -/
theorem unrolled_sum_lines_up :
    (unrolled (stepping [2, 1] [1, 0]) (stepping [2, 3] [3, 1])).accumulators 1 =
      .ok [0, 1, 0, 1, 0, 1] ∧
      Forall₂ (fun lane off => (laneOrder [2, 1])[off]? = some (keptPart [2, 1] [2, 3] lane))
        (laneOrder [2, 3]) [0, 1, 0, 1, 0, 1] := by
  have hlanes : (unrolled (stepping [2, 1] [1, 0]) (stepping [2, 3] [3, 1])).accumulators 1 =
      .ok [0, 1, 0, 1, 0, 1] := by decide
  have hsound : Layout.Sound { top := stepping [2, 3] [3, 1] } := by
    refine ⟨⟨?_, rfl, by decide, by decide, by simp [stepping]⟩, by simp⟩
    simpa [stepping, ofInts] using And.intro (Dimension.num (by decide) (by decide))
      (.num (by decide) (by decide))
  obtain ⟨e, he, _⟩ | h := @accumulators_line_up
    (unrolled (stepping [2, 1] [1, 0]) (stepping [2, 3] [3, 1]))
    { top := stepping [2, 3] [3, 1] } [] [] [2, 3] [2, 1] rfl rfl rfl rfl rfl
    (.cons (.inr rfl) (.cons (.inl rfl) .nil)) hsound
  · cases he
  · exact ⟨hlanes, h.of_ok hlanes⟩

/-- There are no lanes, but the strides of the output's axes are multiplied all the same. -/
theorem unrolled_empty_overflows :
    (unrolled (stepping [2 ^ 32, 2 ^ 32, 0] [0, 1, 2 ^ 32])
      (stepping [2 ^ 32, 2 ^ 32, 0] [1, 0, 2 ^ 32])).accumulators 1 = .error .arithmetic ∧
    laneOrder [2 ^ 32, 2 ^ 32, 0] = [] := by decide

end Kernel
end LazyTensor
