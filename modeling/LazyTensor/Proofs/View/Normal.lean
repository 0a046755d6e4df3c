import LazyTensor.Proofs.View.Address

/-! Normalizing a view changes nothing that is read through it: strides of unit axes never move
the address, and a mask that covers the shape hides no position. -/
namespace LazyTensor
open List Shape

open Checked SymInt

def Shape.Holds (shape : Shape) (p : List Int) : Prop :=
  List.Forall₂ (fun i d => ∀ n, d.is n = true → 0 ≤ i ∧ i < n) p shape

lemma Shape.Inside.holds {dims p : List Int} (h : Inside dims p) : Holds (ofInts dims) p := by
  induction h with
  | nil => exact .nil
  | cons hi _ ih =>
    refine .cons (fun n hn => ?_) ih
    cases View.is_num.mp hn
    exact hi

namespace View
variable {shape : Shape} {strides p : List Int} {offset : Int} {mask : Option Mask} {v w : View}

lemma make_eq (h : make shape strides offset mask = .ok w) :
    shape.length = strides.length ∧ w.shape = shape ∧
      w.strides = shape.dropUnitStrides strides ∧
      w.offset = offset ∧ w.mask = mask.filter (fun m => !covers shape m) := by
  unfold make at h
  split at h
  · cases h
  · rename_i hlen
    dsimp only at h
    split at h
    · simp only [bind_eq_ok, pure_eq_ok] at h
      obtain ⟨_, _, _, _, rfl⟩ := h
      exact ⟨by simpa using hlen, rfl, rfl, rfl, rfl⟩
    · simp only [pure_bind, pure_eq_ok] at h
      subst h
      exact ⟨by simpa using hlen, rfl, rfl, rfl, rfl⟩

lemma length_dropUnitStrides (h : shape.length = strides.length) :
    (shape.dropUnitStrides strides).length = shape.length := by
  simp [dropUnitStrides, h]

lemma mem_dropUnitStrides {st : Int} (h : st ∈ shape.dropUnitStrides strides) :
    st = 0 ∨ st ∈ strides := by
  induction shape generalizing strides with
  | nil => simp [dropUnitStrides] at h
  | cons d ds ih =>
    cases strides with
    | nil => simp [dropUnitStrides] at h
    | cons s strides =>
      rw [dropUnitStrides, zipWith_cons_cons] at h
      cases mem_cons.mp h with
      | inl h =>
        split at h
        · exact .inl h
        · exact .inr (h ▸ mem_cons_self)
      | inr h => exact (ih h).imp_right (mem_cons_of_mem s)

lemma products_dropUnitStrides (hp : shape.Holds p) :
    zipWith (· * ·) p (shape.dropUnitStrides strides) = zipWith (· * ·) p strides := by
  induction hp generalizing strides with
  | nil => rfl
  | @cons i d is ds hi _ ih =>
    cases strides with
    | nil => rfl
    | cons st strides =>
      have hstep : i * (if d.is 1 then 0 else st) = i * st := by
        split
        · rename_i h1
          have h01 := hi 1 h1
          have h0 : i = 0 := by omega
          rw [h0, zero_mul, zero_mul]
        · rfl
      rw [dropUnitStrides, zipWith_cons_cons, zipWith_cons_cons, zipWith_cons_cons, hstep]
      exact congrArg _ ih

lemma passes_of_covers {m : Mask} (hp : shape.Holds p) (h : covers shape m = true) :
    passes p m = true := by
  induction hp generalizing m with
  | nil => simp [passes]
  | @cons i d is ds hi _ ih =>
    cases m with
    | nil => rfl
    | cons r m =>
      simp only [covers, zip_cons_cons, all_cons, Bool.and_eq_true, beq_iff_eq] at h
      have hr := hi r.2 h.1.2
      have hrest := ih (m := m) h.2
      simp only [passes, zip_cons_cons, all_cons, Bool.and_eq_true,
        decide_eq_true_eq] at hrest ⊢
      exact ⟨by omega, hrest⟩

lemma make_same (h : make shape v.strides v.offset v.mask = .ok w) (hp : shape.Holds p) :
    w.offsetAt p = v.offsetAt p ∧ w.allows p = v.allows p := by
  obtain ⟨_, _, hstrides, hoffset, hmask⟩ := make_eq h
  refine ⟨?_, ?_⟩
  · rw [offsetAt_products, offsetAt_products, hstrides, hoffset, products_dropUnitStrides hp]
  · cases hm : v.mask with
    | none =>
      rw [hm] at hmask
      simp [allows, hmask, hm]
    | some m =>
      rw [hm, Option.filter] at hmask
      by_cases hc : covers shape m = true
      · rw [allows_eq hm, passes_of_covers hp hc]
        simp [allows, hmask, hc]
      · rw [allows_eq hm, allows_eq (by simpa [hc] using hmask)]

lemma strideWalk_overflow (shape : Shape) : OnlyOverflow shape.strideWalk := by
  induction shape with
  | nil => exact .ok _
  | cons d ds ih =>
    refine ih.bind (fun out _ => ?_)
    cases out with
    | none => exact .ok _
    | some out =>
      dsimp only
      split
      · exact .ok _
      · split
        · exact .ok _
        · exact .ok _
        · exact (OnlyOverflow.word _).bind (fun _ _ => .ok _)

lemma make_overflow (h : shape.length = strides.length) :
    OnlyOverflow (make shape strides offset mask) := by
  unfold make
  rw [if_neg (by simpa using h)]
  dsimp only
  split
  · exact ((strideWalk_overflow shape).bind (fun _ _ => .ok _)).bind (fun _ _ => .ok _)
  · exact .ok _

end View

end LazyTensor
