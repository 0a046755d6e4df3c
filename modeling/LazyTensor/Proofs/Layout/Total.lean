import LazyTensor.Proofs.Layout.Merge
import LazyTensor.Proofs.Layout.Resize

/-! Movements that cannot be refused: a layout whose dimensions are numbers is reshaped, permuted
and simplified, unless a word overflows. -/
namespace LazyTensor
open Checked List Shape SymInt

namespace Checked.Returns
variable {α : Type} {P : α → Prop}

lemma lift {x : Checked α} (h : Returns .arithmetic x P) :
    Returns (.abort .arithmetic) (liftM x : Fallible α) P := by
  obtain rfl | ⟨a, rfl, ha⟩ := h
  · exact .inl rfl
  · exact ok ha

end Checked.Returns

namespace Shape

lemma rowMajor_returns (ds : List Int) :
    Returns .arithmetic (ofInts ds).rowMajor? (fun o => ∃ strides, o = some strides ∧
      strides.length = ds.length) := by
  have walk : Returns .arithmetic (ofInts ds).strideWalk
      (fun o => ∃ strides n, o = some (strides, some n) ∧ strides.length = ds.length) := by
    induction ds with
    | nil => exact .ok ⟨[], 1, rfl, rfl⟩
    | cons d ds ih =>
      refine ih.bind fun o _ ho => ?_
      obtain ⟨strides, n, rfl, hlen⟩ := ho
      dsimp only
      split
      · exact .ok ⟨_, _, rfl, by simp [hlen]⟩
      · exact (OnlyOverflow.word _).returns.bind fun _ _ _ =>
          .ok ⟨_, _, rfl, by simp [hlen]⟩
  refine walk.bind fun o _ ho => ?_
  obtain ⟨strides, n, rfl, hlen⟩ := ho
  exact .ok ⟨strides, rfl, hlen⟩

lemma num_beq (n : Int) : (num n == num n) = true := beq_self_eq_true (num n).key

end Shape

namespace View
variable {v : View} {ds dt : List Int}

lemma make_returns {shape : Shape} {strides : List Int} {offset : Int} {mask : Option Mask}
    (h : strides.length = shape.length) :
    Returns .arithmetic (make shape strides offset mask) (fun _ => True) :=
  (make_overflow h.symm).returns

lemma ofShape_returns (hd : Extents ds) :
    Returns (.abort .arithmetic) (ofShape (ofInts ds)) (fun _ => True) := by
  unfold ofShape
  rw [if_pos]
  · refine (rowMajor_returns ds).lift.bind fun o _ ho => ?_
    obtain ⟨_, rfl, hlen⟩ := ho
    exact (make_returns (by simpa [ofInts] using hlen)).lift
  · refine all_eq_true.2 fun d hmem => ?_
    obtain ⟨n, hn, rfl⟩ := mem_map.1 hmem
    simpa using (hd n hn).1.le

lemma permute_returns {axes : List Nat} (hv : v.Sound) (hs : v.shape = ofInts ds)
    (hp : axes.Perm (range ds.length)) :
    Returns (.abort .arithmetic) (v.permute axes) (fun _ => True) := by
  have hlen : v.shape.length = ds.length := by rw [hs, ofInts, length_map]
  have pick {α : Type} {xs : List α} (hxs : xs.length = ds.length) :
      Returns .arithmetic (axes.mapM (nth xs)) (fun ys => ys.length = axes.length) := by
    refine (Returns.mapM (R := fun _ _ => True) fun i hi => ?_).weaken fun ys h => h.length_eq.symm
    have hlt : i < xs.length := hxs ▸ perm_lt hp hi
    exact .inr ⟨xs[i], nth_eq_ok.2 (getElem?_eq_getElem hlt), trivial⟩
  unfold permute
  rw [if_pos]
  · refine Returns.lift ((pick hlen).bind fun shape _ hshape => ?_)
    refine (pick (hv.strides_length.trans hlen)).bind fun strides _ hstrides => ?_
    refine Returns.bind (P := fun _ => True) ?_ fun mask _ _ =>
      make_returns (hstrides.trans hshape.symm)
    cases hm : v.mask with
    | none => exact .ok trivial
    | some m => exact (pick ((hv.mask_length m hm).trans hlen)).bind fun _ _ _ => .ok trivial
  · rw [isPermutation, hlen, hp.length_eq, length_range]
    simp only [beq_self_eq_true, Bool.true_and, Bool.and_eq_true, all_eq_true, decide_eq_true_eq]
    exact ⟨fun i hi => perm_lt hp hi, hp.nodup_iff.2 nodup_range⟩

lemma reshape?_returns (hv : v.shape.Sized ds) (hd : Extents dt) (hprod : ds.prod = dt.prod) :
    Returns (.abort .arithmetic) (v.reshape? (ofInts dt)) (fun _ => True) := by
  unfold reshape?
  split
  · exact .ok trivial
  rw [if_neg, hv.any_zero, if_neg (by simp), hv.1, allInt_ofInts, allInt_ofInts,
    Bool.and_self, if_pos rfl]
  · refine (product_returns ds).lift.bind fun old _ hold => ?_
    refine (product_returns dt).lift.bind fun new _ hnew => ?_
    rw [hold, hnew, hprod, num_beq, if_pos rfl]
    split
    · exact (ofShape_returns hd).bind fun _ _ _ => .ok trivial
    · split
      · refine Returns.bind (P := fun _ => True) (make_returns ?_).lift fun _ _ _ => .ok trivial
        rw [length_dealNonUnit]
      · exact .ok trivial
  · simp only [any_eq_true, decide_eq_true_eq, not_exists, not_and, not_lt]
    intro d hmem
    obtain ⟨n, hn, rfl⟩ := mem_map.1 hmem
    exact (hd n hn).1.le

end View

namespace Layout
variable {l : Layout} {ds dt : List Int}

lemma Suits.readable (hl : l.Suits False ds) : l.top.Readable :=
  ⟨ds, hl.sound.top.grid hl.sized.1, fun d hd => (hl.sized.2 d hd).1⟩

lemma ofShape_returns (hd : Extents ds) :
    Returns (.abort .arithmetic) (ofShape (ofInts ds)) (·.Suits False ds) := by
  obtain hstop | ⟨v, hv, _⟩ := View.ofShape_returns hd
  · exact .inl (by rw [ofShape, hstop]; rfl)
  · have hl : ofShape (ofInts ds) = .ok { top := v } := by rw [ofShape, hv]; rfl
    exact .inr ⟨_, hl, .ofShape ⟨rfl, hd⟩ hl⟩

section
variable (hl : l.Suits False ds)
include hl

lemma reshape_returns (hd : Extents dt) (hprod : ds.prod = dt.prod) :
    Returns (.abort .arithmetic) (l.reshape (ofInts dt)) (·.Suits False dt) := by
  have htotal : Returns (.abort .arithmetic) (l.reshape (ofInts dt)) (fun _ => True) := by
    refine (View.reshape?_returns hl.sized hd hprod).bind fun o _ _ => ?_
    cases o with
    | some top => exact .ok trivial
    | none =>
      rw [show l.shape = ofInts ds from hl.sized.1, allInt_ofInts, if_pos rfl]
      refine (View.ofShape_returns hd).bind fun extra hextra _ => ?_
      have hsound : extra.Sound := View.ofShape_sound (Sized.written ⟨rfl, hd⟩) hextra
      refine Returns.bind (P := fun _ => True)
        (mergeViews_overflow hl.readable hsound (View.ofShape_shape hextra)
        (inside_zero fun d h => (hd d h).1)).returns.lift
        fun o _ _ => ?_
      cases o <;> exact .ok trivial
  obtain hstop | ⟨l', hl', _⟩ := htotal
  · exact .inl hstop
  · exact .inr
      ⟨l', hl', hl.apply (m := .reshape (ofInts dt)) (.of_takes ⟨rfl, hprod⟩) hd hl'⟩

lemma permute_returns {axes : List Nat} (hp : axes.Perm (range ds.length)) :
    Returns (.abort .arithmetic) (l.permute axes)
      (·.Suits False (axes.map (fun i => ds.getD i 0))) := by
  obtain hstop | ⟨top, htop, _⟩ := View.permute_returns hl.sound.top hl.sized.1 hp
  · exact .inl (by rw [permute, hstop]; rfl)
  · have hl' : l.permute axes = .ok { l with top } := by rw [permute, htop]; rfl
    exact .inr ⟨_, hl', hl.apply (m := .permute axes) (.reorder hp) (hl.sized.2.reorder hp) hl'⟩

lemma simplify_returns : Returns .arithmetic l.simplify (·.Suits False ds) := by
  obtain ⟨hover, hsound⟩ := simplifyOnto_sound hl.sound.top hl.sound.below hl.sized.1
    fun d hd => (hl.sized.2 d hd).1
  exact .of_overflow hover fun s hs =>
    ⟨simplify_shape hs ▸ hl.sized, hsound s hs, fun h => h.elim⟩

lemma counters_returns : Returns .arithmetic l.shape.counters
    (fun idxs => idxs.length = ds.length ∧
      OnlyOverflow (l.access idxs)) := by
  refine .of_overflow (counters_overflow _) fun idxs hidxs => ?_
  have hcounts := counters_count hidxs
  obtain ⟨p, hp⟩ : ∃ p, Inside ds p := ⟨_, inside_zero fun d hd => (hl.sized.2 d hd).1⟩
  have hshape : l.top.shape = ofInts ds := hl.sized.1
  have hplaces : Forall₂ _ l.top.shape p := hshape ▸ inside_counts hp
  refine ⟨?_, (access_delivers hl.sound.top hl.sound.below (counters_at hidxs hplaces)
    (hshape ▸ inside_units hp) (.inr ⟨ds, hl.sound.top.grid hshape, hp⟩)).overflow
      (position_nonneg hcounts)⟩
  rw [← hcounts.length_eq, hl.sized.1, ofInts, length_map]

lemma realStrides_returns (ignoreValid : Bool) :
    Returns .arithmetic (l.realStrides ignoreValid)
      (fun strides => strides.length = ds.length) := by
  unfold realStrides
  split
  · refine .ok ?_
    rw [length_map, hl.sound.top.strides_length, show l.top.shape = ofInts ds from hl.sized.1,
      ofInts, length_map]
  · refine (counters_returns hl).bind fun idxs _ hidxs => ?_
    refine hidxs.2.returns.bind fun a _ _ => .ok ?_
    rw [length_mapIdx, hidxs.1]

lemma size_returns : Returns .arithmetic l.size (fun _ => True) := by
  unfold size
  split
  · exact .ok trivial
  · refine Returns.bind (P := fun _ => True) ?_ fun a _ _ => (OnlyOverflow.word _).returns
    exact (counters_returns hl).bind fun idxs _ hidxs => hidxs.2.returns

end

end Layout

end LazyTensor
