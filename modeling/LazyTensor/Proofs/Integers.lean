import LazyTensor.Element
import Mathlib.Algebra.Order.BigOperators.Group.List
import Mathlib.Algebra.Order.Ring.Int

/-! Integers on their way through a double. The format holds every integer of at most 53 bits, so
the bytes of the short integer types are met again when they are decoded and encoded. -/
namespace LazyTensor
open List Binary

namespace Double
variable {n lo hi : Int}

lemma decode_normal (negative : Bool) {q k : Nat} {e : Int} (hq : 2 ^ 52 ≤ q) (hq' : q < 2 ^ 53)
    (hk : k < 2046) (he : k - 1074 = e) :
    decode .double (signBits .double negative + (k * 2 ^ 52 + q)) = .finite negative q e := by
  have hsign : signBits .double negative = if negative then 2 ^ 63 else 0 := rfl
  have hfield : (signBits .double negative + (k * 2 ^ 52 + q)) / 2 ^ 52 % 2048 = k + 1 := by
    rw [hsign]
    split <;> omega
  have hfraction :
      (signBits .double negative + (k * 2 ^ 52 + q)) % 2 ^ 52 = q - 2 ^ 52 := by
    rw [hsign]
    split <;> omega
  have hnegative :
      decide (2 ^ 63 ≤ signBits .double negative + (k * 2 ^ 52 + q)) = negative := by
    rw [hsign]
    cases negative
    · simp; omega
    · simp
  change Binary.Number.ofFields .double (decide (2 ^ 63 ≤ _)) (_ / 2 ^ 52 % 2048) (_ % 2 ^ 52) = _
  have hspecial : k + 1 ≠ Binary.Format.double.special := (by omega : k + 1 ≠ 2047)
  have hhidden : Binary.Format.double.hidden = 2 ^ 52 := rfl
  have hleast : Binary.Format.double.least = -1074 := rfl
  rw [hnegative, hfield, hfraction, Binary.Number.ofFields, if_neg hspecial, if_neg (by omega),
    hhidden, hleast, Nat.add_sub_cancel' hq, ← he,
    show (-1074 : Int) + (k + 1 : Nat) - 1 = k - 1074 by omega]

/-- The leading bit of a short integer moves to the place of the hidden one, and no bit is lost. -/
lemma number_ofInt (h : n.natAbs < 2 ^ 53) :
    ∃ m e, (ofInt n).number = .finite (decide (n < 0)) m e ∧ wholePart m e = n.natAbs := by
  by_cases hn : n.natAbs = 0
  · obtain rfl := Int.natAbs_eq_zero.1 hn
    exact ⟨0, -1074, rfl, if_neg (by decide) |>.trans (Nat.zero_div _)⟩
  obtain ⟨hlow, hhigh⟩ := (Nat.log2_eq_iff hn).1 rfl
  have hl : n.natAbs.log2 < 53 := (Nat.log2_lt hn).2 h
  obtain ⟨i, hi⟩ : ∃ i, n.natAbs.log2 + i = 52 := ⟨52 - n.natAbs.log2, by omega⟩
  have hq : 2 ^ 52 ≤ n.natAbs * 2 ^ i := by
    rw [← hi, pow_add]
    exact Nat.mul_le_mul_right _ hlow
  have hq' : n.natAbs * 2 ^ i < 2 ^ 53 := by
    rw [show 53 = n.natAbs.log2 + 1 + i by omega, pow_add]
    exact Nat.mul_lt_mul_of_pos_right hhigh (Nat.two_pow_pos i)
  have hbits : encodeMagnitude .double n.natAbs 0 =
      (n.natAbs.log2 + 1022) * 2 ^ 52 + n.natAbs * 2 ^ i := by
    have hunit : max ((0 : Int) + n.natAbs.log2 - 52) (-1074) = -i := by omega
    have hround : roundTo n.natAbs 0 (-i) = n.natAbs * 2 ^ i := by
      rw [roundTo, if_pos (by omega), zero_sub, neg_neg, Int.toNat_natCast]
      rfl
    change (if n.natAbs = 0 then 0 else min ((max ((0 : Int) + n.natAbs.log2 - 52) (-1074) -
      -1074).toNat * 2 ^ 52 + roundTo _ 0 (max ((0 : Int) + n.natAbs.log2 - 52) (-1074)))
      (2047 * 2 ^ 52)) = _
    rw [if_neg hn, hunit, hround]
    omega
  refine ⟨n.natAbs * 2 ^ i, -i, ?_, ?_⟩
  · have hsign : signBits .double (decide (n < 0)) ≤ 2 ^ 63 := by
      unfold signBits
      split <;> decide
    rw [number_eq_decode]
    change decode .double (signBits .double (decide (n < 0)) + _).toUInt64.toNat = _
    rw [hbits, Nat.toUInt64, UInt64.toNat_ofNat', Nat.mod_eq_of_lt (by omega)]
    exact decode_normal _ hq hq' (by omega) (by omega)
  · rw [wholePart, neg_neg, Int.toNat_natCast]
    split
    · rw [show i = 0 by omega]
      simp
    · exact Nat.mul_div_cancel _ (Nat.two_pow_pos i)

lemma saturate_ofInt (h : n.natAbs < 2 ^ 53) (hlo : lo ≤ n) (hhi : n ≤ hi) :
    (ofInt n).saturate lo hi = n := by
  obtain ⟨m, e, hnumber, hwhole⟩ := number_ofInt h
  rw [saturate, hnumber]
  simp only [hwhole, signed, decide_eq_true_eq]
  split <;> omega

end Double

namespace Scalar
variable {t : Scalar} {bits : Nat} {chunks : List (List UInt8)}

/-- The integer that the bits of an integer type stand for. -/
def integer : Scalar → Nat → Int
  | uint8, bits => bits
  | t, bits => (bits : Int).bmod t.patterns

/-- The integer that the bits stand for is short enough for a double. -/
def Short (t : Scalar) (bits : Nat) : Prop := (t.integer bits).natAbs < 2 ^ 53

lemma toBits_signed {lo hi : Int} (hto : ∀ x, t.toBits x = (x.saturate lo hi % t.patterns).toNat)
    (hof : t.ofBits bits = .ofInt ((bits : Int).bmod t.patterns))
    (hlo : lo * 2 = -t.patterns) (hhi : hi * 2 = t.patterns - 2) (hbits : bits < t.patterns)
    (h : ((bits : Int).bmod t.patterns).natAbs < 2 ^ 53) : t.toBits (t.ofBits bits) = bits := by
  have hp : 0 < t.patterns := by omega
  have h1 := Int.le_bmod (x := bits) hp
  have h2 := Int.bmod_lt (x := bits) hp
  rw [hto, hof, Double.saturate_ofInt h (by omega) (by omega), Int.bmod_emod,
    Int.emod_eq_of_lt (by omega) (by omega), Int.toNat_natCast]

lemma toBits_ofBits (ht : t.bounds?.isSome) (hbits : bits < t.patterns) (h : t.Short bits) :
    t.toBits (t.ofBits bits) = bits := by
  cases t with
  | bool | float16 | float32 | float64 => cases ht
  | int8 | int32 | int64 => exact toBits_signed (fun _ => rfl) rfl (by decide) (by decide) hbits h
  | uint8 =>
    have hbits : bits < 256 := hbits
    have hsmall : ((bits : Int)).natAbs < 2 ^ 53 := h
    change ((Double.ofInt bits).saturate 0 255 % 256).toNat = bits
    rw [Double.saturate_ofInt hsmall (by omega) (by omega)]
    omega

/-- Only long integers can be too long. -/
lemma Short.of_ne (ht : t.bounds?.isSome) (hne : t ≠ .int64) (hbits : bits < t.patterns) :
    t.Short bits := by
  have hp : 0 < t.patterns := by omega
  have h1 := Int.le_bmod (x := bits) hp
  have h2 := Int.bmod_lt (x := bits) hp
  cases t with
  | bool | float16 | float32 | float64 => cases ht
  | int64 => exact absurd rfl hne
  | uint8 =>
    have hbits : bits < 256 := hbits
    change (bits : Int).natAbs < 2 ^ 53
    omega
  | int8 | int32 =>
    simp only [patterns] at h1 h2
    simp only [Short, integer, patterns]
    omega

lemma splitBytes_joinBytes (bytes : List UInt8) :
    splitBytes bytes.length (joinBytes bytes) = bytes := by
  induction bytes with
  | nil => rfl
  | cons b bs ih =>
    have hb := b.toNat_lt
    rw [joinBytes, length_cons, splitBytes, Nat.add_mul_mod_self_left, Nat.mod_eq_of_lt hb,
      Nat.add_mul_div_left _ _ (by decide), Nat.div_eq_of_lt hb, zero_add, ih]
    simp

lemma joinBytes_lt (bytes : List UInt8) : joinBytes bytes < 256 ^ bytes.length := by
  induction bytes with
  | nil => decide
  | cons b bs ih =>
    have hb := b.toNat_lt
    rw [joinBytes, length_cons, pow_succ']
    omega

lemma patterns_eq (t : Scalar) : t.patterns = 256 ^ t.size := by cases t <;> rfl

lemma size_pos (t : Scalar) : 0 < t.size := by cases t <;> decide

lemma decode_flatten (h : ∀ c ∈ chunks, c.length = t.size) :
    t.decode chunks.flatten = chunks.map fun c => t.ofBits (joinBytes c) := by
  have hupTo (n : Nat) (hn : chunks.length ≤ n) :
      t.decodeUpTo n chunks.flatten = chunks.map fun c => t.ofBits (joinBytes c) := by
    induction chunks generalizing n with
    | nil =>
      cases n with
      | zero => rfl
      | succ n => simp [decodeUpTo, t.size_pos.ne]
    | cons c chunks ih =>
      obtain ⟨hc, h⟩ := forall_mem_cons.1 h
      cases n with
      | zero => cases hn
      | succ n =>
        rw [decodeUpTo, flatten_cons, take_left' hc, drop_left' hc, if_pos hc, map_cons,
          ih h n (Nat.le_of_succ_le_succ hn)]
  refine hupTo _ ?_
  rw [length_flatten, ← length_map (f := length)]
  exact length_le_sum_of_one_le _ fun i hi => by
    obtain ⟨c, hc, rfl⟩ := mem_map.1 hi
    rw [h c hc]
    exact t.size_pos

/-- Bytes of the integer types come back when they are decoded and encoded. Those of long integers
do if the integers are short. -/
theorem encode_decode (ht : t.bounds?.isSome) (h : ∀ c ∈ chunks, c.length = t.size)
    (hlong : t = .int64 → ∀ c ∈ chunks, t.Short (joinBytes c)) :
    t.encode (t.decode chunks.flatten) = chunks.flatten := by
  have hsame : ∀ c ∈ chunks, splitBytes t.size (t.toBits (t.ofBits (joinBytes c))) = c := by
    intro c hc
    have hbits : joinBytes c < t.patterns := by
      rw [patterns_eq, ← h c hc]
      exact joinBytes_lt c
    have hshort : t.Short (joinBytes c) := by
      by_cases hint : t = .int64
      · exact hlong hint c hc
      · exact .of_ne ht hint hbits
    rw [toBits_ofBits ht hbits hshort, ← h c hc, splitBytes_joinBytes]
  rw [decode_flatten h, encode, flatMap_map, flatMap_def, map_congr_left hsame, map_id']

/-- A double does not hold all bits of a long integer. -/
theorem long_rounds :
    int64.encode (int64.decode [1, 0, 0, 0, 0, 0, 32, 0]) = [0, 0, 0, 0, 0, 0, 32, 0] := rfl

end Scalar

end LazyTensor
