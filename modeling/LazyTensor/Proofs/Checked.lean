import LazyTensor.Checked
import Mathlib.Data.List.Forall2
import Mathlib.Tactic.Linarith
import Mathlib.Tactic.Ring

/-! What a checked computation says about its operands once it has given a value. -/
namespace LazyTensor
open List Checked
variable {α β : Type} {R : α → β → Prop} {ys : List β} {y : β}

lemma exists_of_getElem? {xs : List α} {i : Nat} {x : α}
    (h : Forall₂ R xs ys) (hx : xs[i]? = some x) : ∃ y, ys[i]? = some y ∧ R x y := by
  obtain ⟨hi, rfl⟩ := List.getElem?_eq_some_iff.1 hx
  have hi' : i < ys.length := h.length_eq ▸ hi
  exact ⟨ys[i], getElem?_eq_getElem hi', h.get hi hi'⟩

lemma exists_of_mem_right {xs : List α} (h : Forall₂ R xs ys) (hy : y ∈ ys) :
    ∃ x ∈ xs, R x y := by
  obtain ⟨i, hi, rfl⟩ := getElem_of_mem hy
  have hi' : i < xs.length := h.length_eq ▸ hi
  exact ⟨xs[i], getElem_mem hi', h.get hi' hi⟩

namespace Checked
variable {α β ε : Type}
variable {f : α → Except ε β} {r s : β} {xs : List α} {a b y q : Int} {ys : List β}
  {p : α → Except ε Bool}

lemma bind_eq_ok {x : Except ε α} : (x >>= f) = .ok r ↔ ∃ a, x = .ok a ∧ f a = .ok r := by
  cases x with
  | error e | ok a => simp [bind, Except.bind]

lemma ok_bind (a : α) (f : α → Except ε β) : (Except.ok a >>= f) = f a := rfl

lemma exists_of_any {x : Except ε α} {f : α → Bool} (h : x.toOption.any f) :
    ∃ a, x = .ok a ∧ f a := by
  cases x with
  | error e => simp [Except.toOption] at h
  | ok a => exact ⟨a, rfl, by simpa [Except.toOption] using h⟩

lemma forM_eq_ok {f : α → Except ε Unit} : xs.forM f = .ok () ↔
    ∀ x ∈ xs, f x = .ok () := by
  induction xs with
  | nil => simp [pure, Except.pure]
  | cons x xs ih =>
    show (f x >>= fun _ => xs.forM f) = .ok () ↔ _
    simp only [bind_eq_ok, ih, forall_mem_cons]
    exact ⟨fun ⟨(), hx, hxs⟩ => ⟨hx, hxs⟩, fun ⟨hx, hxs⟩ => ⟨(), hx, hxs⟩⟩

lemma foldlM_of_step {f g : β → α → Except ε β}
    (h : ∀ s x r, f s x = .ok r → g s x = .ok r) (hf : xs.foldlM f s = .ok r) :
    xs.foldlM g s = .ok r := by
  induction xs generalizing s with
  | nil => exact hf
  | cons x xs ih =>
    obtain ⟨t, ht, hf⟩ := bind_eq_ok.1 hf
    exact bind_eq_ok.2 ⟨t, h s x t ht, ih hf⟩

lemma map_eq_ok {x : Except ε α} {f : α → β} :
    (f <$> x) = .ok r ↔ ∃ a, x = .ok a ∧ f a = r := by
  cases x with
  | error e | ok a => simp [Functor.map, Except.map]

lemma pure_eq_ok {a b : α} : (pure a : Except ε α) = .ok b ↔ a = b := by
  simp [pure, Except.pure]

lemma ok_eq_ok {a b : α} : (.ok a : Except ε α) = .ok b ↔ a = b := by
  simp

lemma word_eq_ok {x : Int} : word x = .ok y ↔ Fits x ∧ x = y := by
  unfold word
  split <;> simp_all

lemma add_eq_ok : add a b = .ok y ↔ Fits (a + b) ∧ a + b = y := word_eq_ok

lemma sub_eq_ok : sub a b = .ok y ↔ Fits (a - b) ∧ a - b = y := word_eq_ok

lemma mul_eq_ok : mul a b = .ok y ↔ Fits (a * b) ∧ a * b = y := word_eq_ok

lemma neg_eq_ok : neg a = .ok y ↔ Fits (-a) ∧ -a = y := word_eq_ok

lemma abs_eq_ok : abs a = .ok y ↔ Fits a.natAbs ∧ (a.natAbs : Int) = y := word_eq_ok

lemma fits_zero : Fits 0 := by decide

lemma fits_one : Fits 1 := by decide

lemma Fits.between {x : Int} (ha : Fits a) (hb : Fits b) (hax : a ≤ x) (hxb : x ≤ b) :
    Fits x := ⟨le_trans ha.1 hax, le_trans hxb hb.2⟩

lemma floorDiv_eq_ok : floorDiv a b = .ok q ↔ b ≠ 0 ∧ Fits (a.fdiv b) ∧ a.fdiv b = q := by
  unfold floorDiv
  split
  · simp_all
  · simp_all [word_eq_ok]

lemma floorDiv_fits (h : floorDiv a b = .ok q) : Fits q := by
  obtain ⟨_, hf, rfl⟩ := floorDiv_eq_ok.1 h
  exact hf

lemma floorDiv_pos (hb : 0 < b) (h : floorDiv a b = .ok q) : q = a / b := by
  rw [floorDiv_eq_ok, Int.fdiv_eq_ediv_of_nonneg a (le_of_lt hb)] at h
  exact h.2.2.symm

lemma floorMod_eq_ok {r : Int} (h : floorMod a b = .ok r) : b ≠ 0 ∧ r = a - b * a.fdiv b := by
  simp only [floorMod, bind_eq_ok, floorDiv_eq_ok, mul_eq_ok, sub_eq_ok] at h
  obtain ⟨q, ⟨hb, _, rfl⟩, p, ⟨_, rfl⟩, _, rfl⟩ := h
  exact ⟨hb, rfl⟩

lemma floorMod_fits {r : Int} (h : floorMod a b = .ok r) : Fits r := by
  simp only [floorMod, bind_eq_ok, sub_eq_ok] at h
  obtain ⟨_, _, _, _, hf, rfl⟩ := h
  exact hf

lemma floorMod_pos {r : Int} (hb : 0 < b) (h : floorMod a b = .ok r) : r = a % b := by
  rw [(floorMod_eq_ok h).2, Int.fdiv_eq_ediv_of_nonneg a (le_of_lt hb), Int.emod_def]

lemma dvd_of_floorMod_zero (h : floorMod a b = .ok 0) : b ∣ a := by
  have he := (floorMod_eq_ok h).2
  exact ⟨a.fdiv b, by omega⟩

lemma floorDiv_of_nonneg (ha : 0 ≤ a) (hb : 0 < b) (hf : Fits a) :
    floorDiv a b = .ok (a / b) := by
  rw [floorDiv_eq_ok, Int.fdiv_eq_ediv_of_nonneg a (le_of_lt hb)]
  have h0 : 0 ≤ a / b := Int.ediv_nonneg ha (le_of_lt hb)
  have h1 : a / b ≤ a := Int.ediv_le_self b ha
  exact ⟨by omega, fits_zero.between hf h0 h1, rfl⟩

lemma floorMod_of_nonneg (ha : 0 ≤ a) (hb : 0 < b) (hf : Fits a) :
    floorMod a b = .ok (a % b) := by
  have h0 : 0 ≤ a / b := Int.ediv_nonneg ha (le_of_lt hb)
  have hm := Int.emod_add_mul_ediv a b
  have hr0 : 0 ≤ a % b := Int.emod_nonneg a (by omega)
  have hp : 0 ≤ b * (a / b) := mul_nonneg (le_of_lt hb) h0
  simp only [floorMod, bind_eq_ok, mul_eq_ok, sub_eq_ok]
  refine ⟨a / b, floorDiv_of_nonneg ha hb hf, b * (a / b),
    ⟨fits_zero.between hf hp (by omega), rfl⟩, fits_zero.between hf (by omega) (by omega), by
    omega⟩

lemma fmod_between (a : Int) (h0 : b ≠ 0) :
    0 ≤ a.fmod b ∧ a.fmod b < b ∨ b < a.fmod b ∧ a.fmod b ≤ 0 := by
  rcases lt_or_gt_of_ne h0 with hb | hb
  · exact .inr ((Int.fdiv_fmod_unique' hb).1 ⟨rfl, rfl⟩).2
  · exact .inl ((Int.fdiv_fmod_unique hb).1 ⟨rfl, rfl⟩).2

lemma fdiv_fits (ha : Fits a) (h0 : b ≠ 0) (hab : ¬(a = -9223372036854775808 ∧ b = -1)) :
    Fits (a.fdiv b) := by
  have hq := Int.natAbs_fdiv_le_natAbs a b
  have hr := fmod_between a h0
  have he := Int.mul_fdiv_add_fmod a b
  -- The quotient is no larger than the dividend, so only the negated least word could be outside.
  by_cases hx : a.fdiv b = 9223372036854775808
  · rw [hx] at he
    unfold Fits at ha
    omega
  · unfold Fits at ha ⊢
    omega

/-- The quotient always fits; the remainder does too, but it is reached through a product that need
not. -/
theorem floorDiv_floorMod (ha : Fits a) (hb : Fits b) (h0 : b ≠ 0)
    (hab : ¬(a = -9223372036854775808 ∧ b = -1)) :
    ∃ q r, floorDiv a b = .ok q ∧
      floorMod a b = (if Fits (b * q) then .ok r else .error .arithmetic) ∧
      a = b * q + r ∧ (r = 0 ∨ r.sign = b.sign) ∧ r.natAbs < b.natAbs := by
  have hr := fmod_between a h0
  have hq : floorDiv a b = .ok (a.fdiv b) := floorDiv_eq_ok.2 ⟨h0, fdiv_fits ha h0 hab, rfl⟩
  have hf : Fits (a.fmod b) := by
    unfold Fits at hb ⊢
    omega
  refine ⟨a.fdiv b, a.fmod b, hq, ?_, (Int.mul_fdiv_add_fmod a b).symm, ?_, by omega⟩
  · rw [floorMod, hq, ok_bind, mul, word]
    split
    · rw [ok_bind, sub, ← Int.fmod_def, word, if_pos hf]
    · rfl
  · rcases hr with ⟨h1, h2⟩ | ⟨h1, h2⟩
    · rcases h1.eq_or_lt with h | h
      · exact .inl h.symm
      · exact .inr (by rw [Int.sign_eq_one_of_pos h, Int.sign_eq_one_of_pos (h.trans h2)])
    · rcases h2.eq_or_lt with h | h
      · exact .inl h
      · exact .inr (by rw [Int.sign_eq_neg_one_of_neg h, Int.sign_eq_neg_one_of_neg (h1.trans h)])

theorem seven_floorDiv_floorMod : floorDiv (-7) 3 = .ok (-3) ∧ floorMod (-7) 3 = .ok 2 ∧
    ∃ q r, floorDiv (-7) 3 = .ok q ∧
      floorMod (-7) 3 = (if Fits (3 * q) then .ok r else .error .arithmetic) ∧
      -7 = 3 * q + r ∧ (r = 0 ∨ r.sign = Int.sign 3) ∧ r.natAbs < Int.natAbs 3 :=
  ⟨by decide, by decide, floorDiv_floorMod (by decide) (by decide) (by decide) (by decide)⟩

theorem least_floorMod_overflows : floorDiv (-9223372036854775808) 3 =
    .ok (-3074457345618258603) ∧
    floorMod (-9223372036854775808) 3 = .error .arithmetic ∧
    -9223372036854775808 = 3 * (-3074457345618258603) + (1 : Int) := by decide

lemma euclidDiv_eq_ok : euclidDiv a b = .ok q ↔ b ≠ 0 ∧ Fits (a / b) ∧ a / b = q := by
  unfold euclidDiv
  split
  · simp_all
  · simp_all only [word_eq_ok, ne_eq, not_false_eq_true, true_and]
    rfl

lemma euclidMod_eq_ok {r : Int} (h : euclidMod a b = .ok r) : r = a % b := by
  simp only [euclidMod, bind_eq_ok, pure_eq_ok] at h
  obtain ⟨_, _, rfl⟩ := h
  rfl

lemma gcd_eq_ok {g : Int} (h : gcd a b = .ok g) : g = Int.gcd a b := by
  simp only [gcd, bind_eq_ok, abs_eq_ok, pure_eq_ok] at h
  obtain ⟨x, ⟨_, rfl⟩, y, ⟨_, rfl⟩, rfl⟩ := h
  rfl

lemma foldlM_cons_eq_ok {f : β → α → Except ε β} {x : α} :
    (x :: xs).foldlM f s = .ok r ↔ ∃ t, f s x = .ok t ∧ xs.foldlM f t = .ok r := by
  rw [foldlM_cons, bind_eq_ok]

lemma foldlM_nil_eq_ok {f : β → α → Except ε β} :
    ([] : List α).foldlM f s = .ok r ↔ s = r := by
  rw [foldlM_nil, pure_eq_ok]

/-- An invariant of each step is one of the whole fold. -/
lemma foldlM_induction {f : β → α → Except ε β} (Q : β → Prop)
    (step : ∀ s x t, x ∈ xs → Q s → f s x = .ok t → Q t) (hs : Q s)
    (h : xs.foldlM f s = .ok r) :
    Q r := by
  induction xs generalizing s with
  | nil =>
    rw [foldlM_nil_eq_ok] at h
    exact h ▸ hs
  | cons x xs ih =>
    obtain ⟨t, ht, h⟩ := foldlM_cons_eq_ok.1 h
    exact ih (fun s y t hy => step s y t (mem_cons_of_mem x hy)) (step s x t mem_cons_self hs ht) h

lemma mapM_eq_ok : xs.mapM f = .ok ys ↔ Forall₂ (fun x y => f x = .ok y) xs ys := by
  induction xs generalizing ys with
  | nil =>
    rw [mapM_nil, pure_eq_ok, forall₂_nil_left_iff, eq_comm]
  | cons x xs ih =>
    simp only [mapM_cons, bind_eq_ok, pure_eq_ok, ih]
    constructor
    · rintro ⟨y, hy, zs, hzs, rfl⟩
      exact .cons hy hzs
    · intro h
      cases h with
      | cons hy hzs => exact ⟨_, hy, _, hzs, rfl⟩

lemma forall₂_of_mapM {R : α → β → Prop} (h : xs.mapM f = .ok ys)
    (hR : ∀ x ∈ xs, ∀ y, f x = .ok y → R x y) : Forall₂ R xs ys := by
  obtain ⟨hlen, hall⟩ := forall₂_iff_zip.1 (mapM_eq_ok.1 h)
  exact forall₂_iff_zip.2 ⟨hlen, fun hmem => hR _ (of_mem_zip hmem).1 _ (hall hmem)⟩

lemma eq_map_of_mapM {f' : α → β} (hf : ∀ x ∈ xs, ∀ y, f x = .ok y → y = f' x)
    (h : xs.mapM f = .ok ys) : ys = xs.map f' := by
  have hall := forall₂_of_mapM (R := fun x y => f' x = y) h fun x hx y hy => (hf x hx y hy).symm
  rw [← forall₂_map_left_iff (f := f'), forall₂_eq_eq_eq] at hall
  exact hall.symm

lemma length_mapM (h : xs.mapM f = .ok ys) :
    ys.length = xs.length := (mapM_eq_ok.1 h).length_eq.symm

lemma exists_of_mapM {y : β} (h : xs.mapM f = .ok ys) (hy : y ∈ ys) :
    ∃ x ∈ xs, f x = .ok y :=
  exists_of_mem_right (R := fun x y => f x = .ok y) (mapM_eq_ok.1 h) hy

lemma exists_of_mem_mapM {x : α} (h : xs.mapM f = .ok ys) (hx : x ∈ xs) :
    ∃ y ∈ ys, f x = .ok y := by
  obtain ⟨i, hi⟩ := mem_iff_getElem?.1 hx
  obtain ⟨y, hy, hxy⟩ := exists_of_getElem? (mapM_eq_ok.1 h) hi
  exact ⟨y, mem_of_getElem? hy, hxy⟩

lemma filterAuxM_cases {acc ys : List α} (h : xs.filterAuxM p acc = .ok ys) :
    (∀ z ∈ ys, z ∈ acc ∨ z ∈ xs) ∧ ∀ z, z ∈ acc ∨ z ∈ xs → z ∈ ys ∨
      p z = .ok false := by
  induction xs generalizing acc with
  | nil =>
    cases h
    exact ⟨fun z hz => .inl hz, fun z hz => .inl (by simpa using hz)⟩
  | cons w ws ih =>
    obtain ⟨b, hb, h⟩ := bind_eq_ok.1 h
    obtain ⟨hsub, hcover⟩ := ih h
    cases b with
    | true =>
      refine ⟨fun z hz => ?_, fun z hz => hcover z ?_⟩
      · simp_all [or_assoc, or_left_comm]
      · simp_all [or_assoc, or_left_comm]
    | false =>
      refine ⟨fun z hz => (hsub z hz).imp_right (mem_cons_of_mem w), fun z hz => ?_⟩
      obtain hz | hz := hz
      · exact hcover z (.inl hz)
      · obtain rfl | hz := mem_cons.1 hz
        · exact .inr hb
        · exact hcover z (.inr hz)

/-- A checked filter keeps what is in the list, and drops only what its test refuses. -/
lemma filterM_cases {ys : List α} (h : xs.filterM p = .ok ys) :
    (∀ z ∈ ys, z ∈ xs) ∧ ∀ z ∈ xs, z ∈ ys ∨ p z = .ok false := by
  obtain ⟨zs, hzs, h⟩ := bind_eq_ok.1 h
  cases h
  obtain ⟨hsub, hcover⟩ := filterAuxM_cases hzs
  constructor
  · intro z hz
    simpa using hsub z (mem_reverse.1 hz)
  · intro z hz
    simpa using hcover z (.inr hz)

lemma sum_fits {xs : List Int} {s : Int} (h : sum xs = .ok s) : Fits s := by
  exact foldlM_induction Fits (fun _ _ _ _ _ ht => (add_eq_ok.1 ht).2 ▸ (add_eq_ok.1 ht).1)
    fits_zero h

lemma foldlM_add_eq {xs : List Int} {s : Int} (h : xs.foldlM add a = .ok s) : s = a + xs.sum := by
  induction xs generalizing a with
  | nil =>
    rw [foldlM_nil_eq_ok] at h
    simp [h]
  | cons x xs ih =>
    obtain ⟨t, ht, h⟩ := foldlM_cons_eq_ok.1 h
    rw [ih h, ← (add_eq_ok.1 ht).2, sum_cons]
    ring

lemma sum_eq {xs : List Int} {s : Int} (h : sum xs = .ok s) : s = xs.sum := by
  simpa using foldlM_add_eq h

lemma mapM_word (xs : List Int) :
    xs.mapM word = if ∀ x ∈ xs, Fits x then .ok xs else .error .arithmetic := by
  induction xs with
  | nil => rfl
  | cons x xs ih =>
    rw [mapM_cons, ih, word]
    by_cases hx : Fits x
    · by_cases hxs : ∀ y ∈ xs, Fits y
      · rw [if_pos hx, if_pos hxs, if_pos (forall_mem_cons.2 ⟨hx, hxs⟩)]
        rfl
      · rw [if_pos hx, if_neg hxs, if_neg fun h => hxs (forall_mem_cons.1 h).2]
        rfl
    · rw [if_neg hx, if_neg fun h => hx (forall_mem_cons.1 h).1]
      rfl

def sumWords (xs : List Int) : Checked Int := do sum (← xs.mapM word)

lemma sumWords_eq {xs : List Int} {s : Int} (h : sumWords xs = .ok s) : s = xs.sum := by
  rw [sumWords, mapM_word] at h
  split at h
  · exact sum_eq h
  · cases h

lemma sumWords_filter (xs : List Int) : sumWords (xs.filter (· ≠ 0)) = sumWords xs := by
  have hfits : (∀ x ∈ xs.filter (· ≠ 0), Fits x) ↔ ∀ x ∈ xs, Fits x := by
    refine ⟨fun h x hx => ?_, fun h x hx => h x (mem_of_mem_filter hx)⟩
    by_cases h0 : x = 0
    · exact h0 ▸ fits_zero
    · exact h x (mem_filter.2 ⟨hx, by simpa using h0⟩)
  have hfold (a : Int) (ha : Fits a) : (xs.filter (· ≠ 0)).foldlM add a = xs.foldlM add a := by
    clear hfits
    induction xs generalizing a with
    | nil => rfl
    | cons x xs ih =>
      rw [foldlM_cons]
      by_cases h0 : x = 0
      · have hx : add a x = .ok a := add_eq_ok.2 (by simpa [h0] using ha)
        rw [filter_cons_of_neg (by simpa using h0), hx]
        exact ih a ha
      · rw [filter_cons_of_pos (by simpa using h0), foldlM_cons]
        cases hx : add a x with
        | error e => rfl
        | ok b => exact ih b ((add_eq_ok.1 hx).2 ▸ (add_eq_ok.1 hx).1)
  rw [sumWords, sumWords, mapM_word, mapM_word]
  simp only [hfits]
  split
  · exact hfold 0 fits_zero
  · rfl

/-- The computation fails only where a word overflows. -/
def OnlyOverflow (x : Checked α) : Prop := ∀ a, x = .error a → a = .arithmetic

namespace OnlyOverflow

lemma ok (a : α) : OnlyOverflow (.ok a) := fun _ h => by cases h

lemma pure (a : α) : OnlyOverflow (Pure.pure a : Checked α) := ok a

lemma arithmetic : OnlyOverflow (.error .arithmetic : Checked α) := fun _ h => by
  cases h
  rfl

lemma bind {x : Checked α} {f : α → Checked β} (hx : OnlyOverflow x)
    (hf : ∀ a, x = .ok a → OnlyOverflow (f a)) : OnlyOverflow (x >>= f) := by
  cases x with
  | error e => exact fun a h => hx a (by cases h; rfl)
  | ok a => exact hf a rfl

lemma word (x : Int) : OnlyOverflow (word x) := by
  unfold Checked.word
  split
  · exact ok x
  · exact arithmetic

lemma word_bind {x : Int} {f : Int → Checked β}
    (hf : ∀ a, Checked.word x = .ok a → OnlyOverflow (f a)) :
    OnlyOverflow (Checked.word x >>= f) :=
  (word x).bind hf

lemma floorDiv (a b : Int) : OnlyOverflow (floorDiv a b) := by
  unfold Checked.floorDiv
  split
  · exact arithmetic
  · exact word _

lemma floorMod (a b : Int) : OnlyOverflow (floorMod a b) :=
  (floorDiv a b).bind (fun _ _ => (word _).bind (fun _ _ => word _))

lemma euclidDiv (a b : Int) : OnlyOverflow (euclidDiv a b) := by
  unfold Checked.euclidDiv
  split
  · exact arithmetic
  · exact word _

lemma euclidMod (a b : Int) : OnlyOverflow (euclidMod a b) :=
  (euclidDiv a b).bind (fun _ _ => ok _)

lemma gcd (a b : Int) : OnlyOverflow (gcd a b) :=
  (word _).bind (fun _ _ => (word _).bind (fun _ _ => ok _))

lemma foldlM {f : β → α → Checked β} (hf : ∀ s x, OnlyOverflow (f s x))
    (xs : List α) (s : β) :
    OnlyOverflow (xs.foldlM f s) := by
  induction xs generalizing s with
  | nil => exact ok s
  | cons x xs ih => exact (hf s x).bind (fun t _ => ih t)

lemma mapM {f : α → Checked β} (hf : ∀ x ∈ xs, OnlyOverflow (f x)) :
    OnlyOverflow (xs.mapM f) := by
  induction xs with
  | nil => exact ok []
  | cons x xs ih =>
    rw [mapM_cons]
    exact (hf x mem_cons_self).bind (fun y _ =>
      (ih (fun z hz => hf z (mem_cons_of_mem x hz))).bind (fun ys _ => ok _))

lemma filterM {p : α → Checked Bool} (hp : ∀ z, OnlyOverflow (p z))
    (xs : List α) : OnlyOverflow (xs.filterM p) := by
  have haux (acc : List α) : OnlyOverflow (xs.filterAuxM p acc) := by
    induction xs generalizing acc with
    | nil => exact ok _
    | cons w ws ih => exact (hp w).bind (fun b _ => ih _)
  exact (haux []).bind (fun _ _ => pure _)

lemma sum (xs : List Int) : OnlyOverflow (sum xs) := foldlM (fun _ _ => word _) xs 0

end OnlyOverflow

/-- The computation gives something with the property, or stops for the one reason it may have. -/
def Returns (stop : ε) (x : Except ε α) (P : α → Prop) : Prop :=
  x = .error stop ∨ ∃ a, x = .ok a ∧ P a

namespace Returns
variable {stop : ε} {x : Except ε α} {P Q : α → Prop}
variable {a : α} {f : α → Except ε β} {xs : List α} {b : β}

lemma ok (h : P a) : Returns stop (.ok a) P := .inr ⟨a, rfl, h⟩

lemma bind {Q : β → Prop} (hx : Returns stop x P)
    (hf : ∀ a, x = .ok a → P a → Returns stop (f a) Q) : Returns stop (x >>= f) Q := by
  obtain rfl | ⟨a, rfl, ha⟩ := hx
  · exact .inl rfl
  · exact hf a rfl ha

lemma of_ok (hx : Returns stop x P) (h : x = .ok a) : P a := by
  obtain rfl | ⟨b, rfl, hb⟩ := hx
  · cases h
  · cases h
    exact hb

lemma weaken (hx : Returns stop x P) (h : ∀ a, P a → Q a) : Returns stop x Q :=
  hx.imp_right fun ⟨a, ha, hp⟩ => ⟨a, ha, h a hp⟩

lemma of_overflow {x : Checked α} (h : OnlyOverflow x) (hp : ∀ a, x = .ok a → P a) :
    Returns .arithmetic x P := by
  cases x with
  | error e => exact .inl (congrArg Except.error (h e rfl))
  | ok a => exact ok (hp a rfl)

lemma map (hx : Returns stop x P) (f : α → β) : Returns stop (f <$> x) (fun _ => True) := by
  obtain rfl | ⟨a, rfl, _⟩ := hx
  · exact .inl rfl
  · exact ok trivial

lemma mapM_forall₂ {γ : Type} {P : γ → α → Prop} {R : γ → β → Prop} {cs : List γ}
    (hxs : Forall₂ P cs xs) (hf : ∀ c x, P c x → Returns stop (f x) (R c)) :
    Returns stop (xs.mapM f) (Forall₂ R cs) := by
  induction hxs with
  | nil => exact ok .nil
  | cons hx _ ih =>
    rw [mapM_cons]
    exact (hf _ _ hx).bind fun y _ hy => ih.bind fun ys _ hys => ok (.cons hy hys)

lemma mapM {R : α → β → Prop} (hf : ∀ x ∈ xs, Returns stop (f x) (R x)) :
    Returns stop (xs.mapM f) (Forall₂ R xs) :=
  mapM_forall₂ (P := fun c x => c = x ∧ x ∈ xs) (forall₂_same.2 fun _ hx => ⟨rfl, hx⟩)
    fun _ x h => h.1 ▸ hf x h.2

lemma foldlM_range' {f : β → Nat → Except ε β} {I : Nat → β → Prop} {start count : Nat}
    (hf : ∀ b i, start ≤ i → i < start + count → I i b → Returns stop (f b i) (I (i + 1)))
    (hb : I start b) : Returns stop ((range' start count).foldlM f b) (I (start + count)) := by
  induction count generalizing start b with
  | zero => exact ok hb
  | succ count ih =>
    rw [range'_succ, foldlM_cons, show start + (count + 1) = start + 1 + count by omega]
    refine (hf b start le_rfl (by omega) hb).bind fun c _ hc => ih (fun b i hi hlt => ?_) hc
    exact hf b i (by omega) (by omega)

end Returns

lemma OnlyOverflow.returns {x : Checked α} (h : OnlyOverflow x) :
    Returns .arithmetic x (fun _ => True) :=
  .of_overflow h fun _ _ => trivial

/-- What the computation gives has the property, and where `N` holds only an overflow stops it. -/
structure Delivers (N : Prop) (x : Checked α) (P : α → Prop) : Prop where
  of_ok : ∀ {a}, x = .ok a → P a
  overflow : N → OnlyOverflow x

namespace Delivers
variable {N : Prop} {x : Checked α} {P Q : α → Prop} {xs : List α}

lemma ok {a : α} (h : P a) : Delivers N (.ok a) P :=
  ⟨fun h' => by cases h'; exact h, fun _ => .ok a⟩

section
variable (hx : Delivers N x P)
include hx

lemma bind {f : α → Checked β} {Q : β → Prop}
    (hf : ∀ a, P a → Delivers N (f a) Q) : Delivers N (x >>= f) Q := by
  refine ⟨fun h => ?_, fun hN => (hx.overflow hN).bind fun a ha =>
    (hf a (hx.of_ok ha)).overflow hN⟩
  obtain ⟨a, ha, h⟩ := bind_eq_ok.1 h
  exact (hf a (hx.of_ok ha)).of_ok h

lemma weaken (h : ∀ a, P a → Q a) : Delivers N x Q :=
  ⟨fun ha => h _ (hx.of_ok ha), hx.overflow⟩

lemma with_eq : Delivers N x (fun a => x = .ok a ∧ P a) :=
  ⟨fun ha => ⟨ha, hx.of_ok ha⟩, hx.overflow⟩

lemma returns (hN : N) : Returns .arithmetic x P :=
  .of_overflow (hx.overflow hN) fun _ => hx.of_ok

end

lemma word (n : Int) : Delivers N (word n) (fun r => Fits n ∧ r = n) :=
  ⟨fun h => (word_eq_ok.1 h).imp_right Eq.symm, fun _ => .word n⟩

lemma mapM {f : α → Checked β} {R : α → β → Prop}
    (hf : ∀ x ∈ xs, Delivers N (f x) (R x)) :
    Delivers N (xs.mapM f) (Forall₂ R xs) :=
  ⟨fun h => forall₂_of_mapM h fun x hx _ => (hf x hx).of_ok, fun hN => .mapM fun x hx =>
    (hf x hx).overflow hN⟩

end Delivers

end Checked

lemma mem_of_lookup [BEq α] [LawfulBEq α] {xs : List (α × β)} {k : α} {x : β}
    (h : xs.lookup k = some x) : (k, x) ∈ xs := by
  obtain ⟨_, _, rfl, _⟩ := lookup_eq_some_iff.1 h
  simp

end LazyTensor
