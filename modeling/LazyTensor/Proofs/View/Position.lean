import LazyTensor.Layout.Address
import LazyTensor.Proofs.Checked
import Mathlib.Algebra.Order.BigOperators.Group.List
import Mathlib.Algebra.Order.BigOperators.GroupWithZero.List
import Mathlib.Algebra.BigOperators.Ring.List

/-! Positions as digits. A row-major index has one digit for each axis, axes that step through
memory as one may be read as a single digit, and a position inside its shape is the digits of
its own index. -/
namespace LazyTensor
open List Shape Layout Prod
variable {x d d' st st' : Int} {rest : List (Int × Int)}

open Checked

namespace Shape
variable {ds dims p : List Int}

/-- Digit of each axis in a row-major index. Indices outside the shape wrap around. -/
def place : List Int → Int → List Int
  | [], _ => []
  | d :: ds, x => x / ds.prod % d :: place ds x

/-- Row-major index of a position. -/
def rank : List Int → List Int → Int
  | _ :: ds, i :: is => i * ds.prod + rank ds is
  | _, _ => 0

/-- One index below the dimension for each axis. -/
def Inside (dims position : List Int) : Prop :=
  List.Forall₂ (fun i d => 0 ≤ i ∧ i < d) position dims

lemma place_inside (h : ∀ d ∈ ds, 0 < d) (x : Int) : Inside ds (place ds x) := by
  induction ds with
  | nil => exact .nil
  | cons d ds ih =>
    obtain ⟨hd, hds⟩ := forall_mem_cons.1 h
    exact .cons ⟨Int.emod_nonneg _ (by omega), Int.emod_lt_of_pos _ hd⟩ (ih hds)

lemma Inside.pos (h : Inside dims p) : ∀ d ∈ dims, 0 < d := by
  induction h with
  | nil => simp
  | cons hi _ ih => exact forall_mem_cons.2 ⟨by omega, ih⟩

lemma Inside.rank_bounds (h : Inside dims p) : 0 ≤ rank dims p ∧ rank dims p < dims.prod := by
  induction h with
  | nil => simp [rank]
  | @cons i d is ds hi hrest ih =>
    have hp : 0 < ds.prod := prod_pos (Inside.pos hrest)
    rw [rank, prod_cons]
    have h1 : 0 ≤ i * ds.prod := mul_nonneg hi.1 (le_of_lt hp)
    have h2 : (i + 1) * ds.prod ≤ d * ds.prod :=
      mul_le_mul_of_nonneg_right (by omega) (le_of_lt hp)
    rw [add_mul, one_mul] at h2
    omega

lemma place_add_mul (ds : List Int) (h : ∀ d ∈ ds, 0 < d) (x k : Int) :
    place ds (x + k * ds.prod) = place ds x := by
  induction ds generalizing k with
  | nil => rfl
  | cons d ds ih =>
    have hp : 0 < ds.prod := prod_pos (fun e he => h e (mem_cons_of_mem d he))
    have hk : k * (d * ds.prod) = k * d * ds.prod := by ring
    rw [place, place, prod_cons, hk, Int.add_mul_ediv_right _ _ (by omega),
      Int.add_mul_emod_self_right, ih (fun e he => h e (mem_cons_of_mem d he))]

lemma place_rank (h : Inside dims p) : place dims (rank dims p) = p := by
  induction h with
  | nil => rfl
  | @cons i d is ds hi hrest ih =>
    have hpos : ∀ e ∈ ds, 0 < e := Inside.pos hrest
    have hp : 0 < ds.prod := prod_pos hpos
    have hb := Inside.rank_bounds hrest
    rw [place, rank, add_comm (i * ds.prod), place_add_mul ds hpos, ih,
      Int.add_mul_ediv_right _ _ (by omega), Int.ediv_eq_zero_of_lt hb.1 hb.2, zero_add,
      Int.emod_eq_of_lt hi.1 hi.2]

end Shape

lemma Layout.digits_eq {dims : List Int} {r : List Int × Int} (hpos : ∀ d ∈ dims, 0 < d)
    (h : digits dims x = .ok r) : r = (place dims x, x / dims.prod) := by
  induction dims generalizing r with
  | nil =>
    cases h
    simp [place]
  | cons d ds ih =>
    simp only [digits, bind_eq_ok, pure_eq_ok] at h
    obtain ⟨⟨_, _⟩, ht, m, hm, q, hq, rfl⟩ := h
    cases ih (fun e he => hpos e (mem_cons_of_mem d he)) ht
    have hp : 0 < ds.prod := prod_pos (fun e he => hpos e (mem_cons_of_mem d he))
    rw [← (euclidDiv_eq_ok.1 hq).2.2, euclidMod_eq_ok hm, place, prod_cons, mul_comm d,
      Int.ediv_ediv_of_nonneg (le_of_lt hp)]

lemma Layout.digits_overflow (dims : List Int) (x : Int) : OnlyOverflow (digits dims x) := by
  induction dims with
  | nil => exact .ok _
  | cons d ds ih =>
    exact ih.bind (fun _ _ => (OnlyOverflow.euclidMod _ _).bind (fun _ _ =>
      (OnlyOverflow.euclidDiv _ _).bind (fun _ _ => .ok _)))

/-! Axes as pairs of a dimension and a stride. -/

/-- Distance that the digits of a row-major index move in memory. -/
def spread : List (Int × Int) → Int → Int
  | [], _ => 0
  | (d, st) :: rest, x => x / (rest.map Prod.fst).prod % d * st + spread rest x

lemma spread_zip (ds strides : List Int) (h : ds.length = strides.length) (x : Int) :
    spread (ds.zip strides) x = (zipWith (· * ·) (place ds x) strides).sum := by
  induction ds generalizing strides with
  | nil => rfl
  | cons d ds ih =>
    cases strides with
    | nil => cases h
    | cons st strides =>
      have hl : ds.length = strides.length := by simpa using h
      rw [zip_cons_cons, spread, ih strides hl, place, zipWith_cons_cons,
        sum_cons, map_fst_zip (le_of_eq hl)]

lemma spread_zero (gs : List (Int × Int)) : spread gs 0 = 0 := by
  induction gs with
  | nil => rfl
  | cons g gs ih => simp [spread, ih]

lemma spread_append_congr {xs ys : List (Int × Int)} (front : List (Int × Int))
    (hprod : (xs.map fst).prod = (ys.map fst).prod) (h : spread xs x = spread ys x) :
    spread (front ++ xs) x = spread (front ++ ys) x := by
  induction front with
  | nil => exact h
  | cons g front ih =>
    rw [cons_append, cons_append, spread, spread, ih]
    simp [hprod]

lemma emod_mul_eq {y : Int} (hd' : 0 < d') : y / d' % d * d' + y % d' = y % (d * d') := by
  rw [Int.emod_def (y / d') d, Int.emod_def y d', Int.emod_def y (d * d'),
    Int.ediv_ediv_of_nonneg (le_of_lt hd'), mul_comm d d']
  ring

namespace Shape

lemma rank_append {front fp : List Int} (h : front.length = fp.length) (back bp : List Int) :
    rank (front ++ back) (fp ++ bp) = rank front fp * back.prod + rank back bp := by
  induction front generalizing fp with
  | nil =>
    cases fp with
    | nil => simp [rank]
    | cons i fp => cases h
  | cons d front ih =>
    cases fp with
    | nil => cases h
    | cons i fp =>
      rw [cons_append, cons_append, rank, ih (by simpa using h), rank, prod_append]
      ring

lemma rank_place {ds : List Int} (h : ∀ d ∈ ds, 0 < d) (x : Int) :
    rank ds (place ds x) = x % ds.prod := by
  induction ds generalizing x with
  | nil => simp only [rank, List.prod_nil, Int.emod_one]
  | cons d ds ih =>
    have hp := prod_pos fun e he => h e (mem_cons_of_mem d he)
    rw [place, rank, ih (fun e he => h e (mem_cons_of_mem d he)), prod_cons, emod_mul_eq hp]

end Shape

lemma spread_merge (hrest : ∀ g ∈ rest, 0 < g.1) (hd' : 0 < d') (h : st = d' * st' ∨ d = 1) :
    spread ((d, st) :: (d', st') :: rest) x = spread ((d * d', st') :: rest) x := by
  have hp : 0 < (rest.map fst).prod := prod_pos (by simpa using hrest)
  rw [spread, spread, spread, map_cons, prod_cons, mul_comm d' (rest.map fst).prod,
    ← Int.ediv_ediv_of_nonneg (le_of_lt hp)]
  generalize x / (rest.map fst).prod = y
  cases h with
  | inl h =>
    rw [h, ← emod_mul_eq hd']
    ring
  | inr h =>
    rw [h, Int.emod_one, one_mul]
    ring

lemma spread_unit (h : d' = 1) :
    spread ((d, st) :: (d', st') :: rest) x = spread ((d, st) :: rest) x := by
  rw [spread, spread, spread, h]
  simp

end LazyTensor
