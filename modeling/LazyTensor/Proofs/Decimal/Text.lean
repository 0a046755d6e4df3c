import LazyTensor.Decimal.Text
import LazyTensor.Proofs.Decimal.Shortest
import LazyTensor.Proofs.SymInt.Key
import Mathlib.Data.List.TakeWhile

/-! Texts of doubles. A text stands for a number that rounds to the double it was written for, so
the text tells which double it was. -/
namespace LazyTensor.Decimal
open Text List
variable {cs ds text : List Char} {c : Char} {m : Nat} {e : Int} {q : ℚ} {x : Double}

def intValue : List Char → Int
  | '-' :: cs => -(Nat.ofDigitChars 10 cs 0 : Int)
  | cs => Nat.ofDigitChars 10 cs 0

/-- The number that digits with a point and an exponent stand for. -/
def value (cs : List Char) : ℚ :=
  let mantissa := cs.takeWhile (· != 'e')
  let whole := mantissa.takeWhile (· != '.')
  let fraction := (mantissa.dropWhile (· != '.')).drop 1
  Nat.ofDigitChars 10 (whole ++ fraction) 0 / 10 ^ fraction.length *
    10 ^ intValue ((cs.dropWhile (· != 'e')).drop 1)

lemma intValue_toString (n : Int) : intValue (toString n).toList = n := by
  rw [toList_int]
  split
  · obtain ⟨c, cs, hc, hd⟩ := toDigits_cons n.toNat
    have hne : c ≠ '-' := by
      rintro rfl
      exact absurd hd (by decide)
    rw [hc, intValue.eq_2 _ (fun cs h => hne (cons.inj h).1), ← hc, Nat.ofDigitChars_ten_toDigits]
    omega
  · rw [intValue, Nat.ofDigitChars_ten_toDigits]
    omega

def Digits (cs : List Char) : Prop := ∀ c ∈ cs, c.isDigit = true

lemma digits_toDigits (n : Nat) : Digits (Nat.toDigits 10 n) := fun _ => isDigit_toDigits

lemma digits_replicate (n : Nat) : Digits (replicate n '0') := by
  intro c hc
  rw [eq_of_mem_replicate hc]
  decide

lemma Digits.append (hc : Digits cs) (hd : Digits ds) : Digits (cs ++ ds) :=
  forall_mem_append.2 ⟨hc, hd⟩

lemma Digits.ne (h : Digits cs) (hc : c.isDigit = false) : ∀ d ∈ cs, (d != c) = true := by
  intro d hd
  rw [bne_iff_ne]
  rintro rfl
  rw [h d hd] at hc
  cases hc

lemma span_of_ne (h : ∀ d ∈ cs, (d != c) = true) (rest : List Char) :
    (cs ++ c :: rest).takeWhile (· != c) = cs ∧ (cs ++ c :: rest).dropWhile (· != c) =
      c :: rest := by
  constructor
  · rw [takeWhile_append_of_pos h]
    simp
  · rw [dropWhile_append_of_pos h]
    simp

lemma value_exponent {exponent : List Char} (h : ∀ d ∈ cs, (d != 'e') = true) :
    value (cs ++ 'e' :: exponent) = value cs * 10 ^ intValue exponent := by
  obtain ⟨htake, hdrop⟩ := span_of_ne h exponent
  have hwhole : cs.takeWhile (· != 'e') = cs := takeWhile_eq_self_iff.2 h
  have hnone : cs.dropWhile (· != 'e') = [] := dropWhile_eq_nil_iff.2 h
  simp only [value, htake, hdrop, hwhole, hnone, drop_succ_cons, drop_zero, drop_nil]
  rw [show intValue [] = 0 from rfl, zpow_zero, mul_one]

lemma value_digits (h : Digits cs) : value cs = Nat.ofDigitChars 10 cs 0 := by
  have he := h.ne (c := 'e') (by decide)
  have hp := h.ne (c := '.') (by decide)
  have hte : cs.takeWhile (· != 'e') = cs := takeWhile_eq_self_iff.2 he
  have hde : cs.dropWhile (· != 'e') = [] := dropWhile_eq_nil_iff.2 he
  have htp : cs.takeWhile (· != '.') = cs := takeWhile_eq_self_iff.2 hp
  have hdp : cs.dropWhile (· != '.') = [] := dropWhile_eq_nil_iff.2 hp
  simp [value, hte, hde, htp, hdp, intValue]

lemma value_point (hc : Digits cs) (hd : Digits ds) :
    value (cs ++ '.' :: ds) = Nat.ofDigitChars 10 (cs ++ ds) 0 / 10 ^ ds.length := by
  obtain ⟨htake, hdrop⟩ := span_of_ne (hc.ne (c := '.') (by decide)) ds
  have he : ∀ d ∈ cs ++ '.' :: ds, (d != 'e') = true := by
    have h1 := hc.ne (c := 'e') (by decide)
    have h2 := hd.ne (c := 'e') (by decide)
    simp only [forall_mem_append, forall_mem_cons]
    exact ⟨h1, by decide, h2⟩
  have hte : (cs ++ '.' :: ds).takeWhile (· != 'e') = cs ++ '.' :: ds := takeWhile_eq_self_iff.2 he
  have hde : (cs ++ '.' :: ds).dropWhile (· != 'e') = [] := dropWhile_eq_nil_iff.2 he
  simp [value, hte, hde, htake, hdrop, intValue]

/-- How a positional text is made up: digits, and digits after a point if there is a fraction. -/
lemma toList_positional (d : Nat) (g : Int) :
    0 ≤ g ∧ (positional d g).toList = Nat.toDigits 10 d ++ replicate g.toNat '0' ∨
    g < 0 ∧ ∃ cs ds, (positional d g).toList = cs ++ '.' :: ds ∧ ds.length = (-g).toNat ∧
      cs ≠ [] ∧
      ∃ k, cs ++ ds = replicate k '0' ++ Nat.toDigits 10 d := by
  have hdigits : (toString d).toList = Nat.toDigits 10 d := Nat.toList_repr
  have hlength : (toString d).length = (Nat.toDigits 10 d).length := by
    rw [← hdigits, String.length_toList]
  unfold positional
  dsimp only
  split
  · next hg => exact .inl ⟨hg, by simp⟩
  · next hg =>
    rw [hdigits, hlength]
    generalize hk : (-g).toNat + 1 - (Nat.toDigits 10 d).length = k
    generalize hpadded : replicate k '0' ++ Nat.toDigits 10 d = padded
    have hlen : (-g).toNat < padded.length := by
      rw [← hpadded, length_append, length_replicate]
      omega
    refine .inr ⟨by omega, padded.take (padded.length - (-g).toNat),
      padded.drop (padded.length - (-g).toNat), by simp, ?_, ?_, k, ?_⟩
    · rw [length_drop]
      omega
    · intro hnil
      have := congrArg length hnil
      rw [length_take, length_nil] at this
      omega
    · rw [take_append_drop, hpadded]

lemma value_padded (k d : Nat) :
    Nat.ofDigitChars 10 (replicate k '0' ++ Nat.toDigits 10 d) 0 = d := by
  rw [Nat.ofDigitChars_append, Nat.ofDigitChars_replicate_zero, Nat.mul_zero,
    Nat.ofDigitChars_ten_toDigits]

lemma ofDigitChars_zeros (d k : Nat) :
    Nat.ofDigitChars 10 (Nat.toDigits 10 d ++ replicate k '0') 0 = d * 10 ^ k := by
  rw [Nat.ofDigitChars_append, Nat.ofDigitChars_replicate_zero, Nat.ofDigitChars_ten_toDigits,
    Nat.mul_comm]

/-- A text of digits with at most one point, of the given value. -/
structure Spelled (text : List Char) (q : ℚ) : Prop where
  value : value text = q
  chars : ∀ c ∈ text, (c.isDigit || c ∈ ['.', 'e', '-']) = true
  head : ∃ c cs, text = c :: cs ∧ c.isDigit = true

lemma Digits.chars (h : Digits cs) :
    ∀ c ∈ cs, (c.isDigit || c ∈ ['.', 'e', '-']) = true := fun c hc => by simp [h c hc]

lemma digits_head (h : Digits cs) (hne : cs ≠ []) (rest : List Char) :
    ∃ c ds, cs ++ rest = c :: ds ∧ c.isDigit = true := by
  obtain ⟨c, ds, rfl⟩ := exists_cons_of_ne_nil hne
  exact ⟨c, ds ++ rest, rfl, h c mem_cons_self⟩

lemma positional_spelled (d : Nat) (g : Int) : Spelled (positional d g).toList (d * 10 ^ g) := by
  obtain ⟨hg, htext⟩ | ⟨hg, cs, ds, htext, hlen, hne, k, hk⟩ := toList_positional d g
  · have hdigits := (digits_toDigits d).append (digits_replicate g.toNat)
    rw [htext]
    refine ⟨?_, hdigits.chars, digits_head (digits_toDigits d) Nat.toDigits_ne_nil _⟩
    rw [value_digits hdigits, ofDigitChars_zeros, zpow_eq_div, show (-g).toNat = 0 by omega]
    simp
  · have hdigits : Digits (cs ++ ds) := hk ▸ (digits_replicate k).append (digits_toDigits d)
    obtain ⟨hcs, hds⟩ := forall_mem_append.1 hdigits
    rw [htext]
    refine ⟨?_, ?_, digits_head hcs hne _⟩
    · rw [value_point hcs hds, hk, value_padded, hlen, zpow_eq_div, show g.toNat = 0 by omega]
      simp [div_eq_mul_inv]
    · simp only [forall_mem_append, forall_mem_cons]
      exact ⟨Digits.chars hcs, by decide, Digits.chars hds⟩

lemma int_chars (n : Int) : ∀ c ∈ (toString n).toList,
    (c.isDigit || c ∈ ['.', 'e', '-']) = true := by
  rw [toList_int]
  split
  · exact (digits_toDigits _).chars
  · exact forall_mem_cons.2 ⟨by decide, (digits_toDigits _).chars⟩

lemma exponential_spelled (d : Nat) (g : Int) : Spelled (exponential d g).toList (d * 10 ^ g) := by
  have hdigits : (toString d).toList = Nat.toDigits 10 d := Nat.toList_repr
  have hall := digits_toDigits d
  have hvalue := Nat.ofDigitChars_ten_toDigits (n := d)
  unfold exponential
  rw [hdigits]
  split
  · next hnil => exact absurd hnil Nat.toDigits_ne_nil
  · next c hc =>
    rw [hc] at hall hvalue
    have htext : (String.ofList [c] ++ "e" ++ toString g).toList = [c] ++ 'e' ::
        (toString g).toList := by
      simp
    rw [htext]
    refine ⟨?_, ?_, digits_head hall (by simp) _⟩
    · rw [value_exponent (hall.ne (by decide)), value_digits hall, hvalue, intValue_toString]
    · simp only [forall_mem_append, forall_mem_cons (a := 'e')]
      exact ⟨hall.chars, by decide, int_chars g⟩
  · next c cs _ hc =>
    rw [hc] at hall hvalue
    obtain ⟨hhead, htail⟩ := forall_mem_cons.1 hall
    have hone : Digits [c] := by simpa [Digits] using hhead
    have htext : (String.ofList [c] ++ "." ++ String.ofList cs ++ "e" ++
        toString (g + cs.length)).toList =
        ([c] ++ '.' :: cs) ++ 'e' :: (toString (g + cs.length)).toList := by
      simp
    have hmantissa : ∀ x ∈ [c] ++ '.' :: cs, (x != 'e') = true := by
      simp only [forall_mem_append, forall_mem_cons (a := '.')]
      exact ⟨hone.ne (by decide), by decide, Digits.ne htail (by decide)⟩
    rw [htext]
    refine ⟨?_, ?_, ⟨c, _, rfl, hhead⟩⟩
    · rw [value_exponent hmantissa, value_point hone htail, singleton_append, hvalue,
        intValue_toString, zpow_add₀ (by norm_num), zpow_natCast]
      field_simp
    · simp only [forall_mem_append, forall_mem_cons (a := '.'), forall_mem_cons (a := 'e')]
      exact ⟨⟨hone.chars, by decide, Digits.chars htail⟩, by decide, int_chars _⟩

lemma pointed_spelled {d : Nat} {g : Int} (hg : 0 ≤ g) :
    Spelled (positional d g ++ ".0").toList (d * 10 ^ g) := by
  obtain ⟨_, htext⟩ | ⟨hlt, _⟩ := toList_positional d g
  · have hdigits := (digits_toDigits d).append (digits_replicate g.toNat)
    have hzero : Digits ['0'] := by simp [Digits]
    rw [String.toList_append, htext]
    refine ⟨?_, ?_, ?_⟩
    · rw [show ".0".toList = '.' :: ['0'] from rfl, value_point hdigits hzero,
        Nat.ofDigitChars_append, ofDigitChars_zeros, zpow_eq_div, show (-g).toNat = 0 by omega]
      simp [Nat.ofDigitChars_cons]
    · exact forall_mem_append.2 ⟨hdigits.chars, by simp⟩
    · rw [append_assoc]
      exact digits_head (digits_toDigits d) Nat.toDigits_ne_nil _
  · omega

lemma spelled_zero : Spelled "0".toList 0 := by
  have h := positional_spelled 0 0
  rwa [show positional 0 0 = "0" from by decide, Nat.cast_zero, zero_mul] at h

lemma spelled_zero_pointed : Spelled "0.0".toList 0 := by
  have h := pointed_spelled (d := 0) (le_refl 0)
  rwa [show positional 0 0 ++ ".0" = "0.0" from by decide, Nat.cast_zero, zero_mul] at h

/-- The value rounds to the number, and is zero only if the number is. -/
def Rounds (m : Nat) (e : Int) (q : ℚ) : Prop :=
  if m = 0 then q = 0 else q ≠ 0 ∧ (Interval.around .double m e).Holds q

lemma rounds_zero (hm : m = 0) : Rounds m e 0 := by
  rw [Rounds, if_pos hm]

lemma rounds_shortest (hm : m ≠ 0) (hc : Canonical m e) :
    Rounds m e ((shortest .double m e).1 * 10 ^ (shortest .double m e).2) := by
  obtain ⟨hholds, hne⟩ := shortest_holds (Nat.pos_of_ne_zero hm) hc.lt e
  rw [Rounds, if_neg hm]
  exact ⟨mul_ne_zero (by exact_mod_cast hne) (by positivity), hholds⟩

lemma Rounds.unique {n : Nat} {f : Int} (hm : Canonical m e) (hn : Canonical n f)
    (h : Rounds m e q) (h' : Rounds n f q) : m = n ∧ e = f := by
  unfold Rounds at h h'
  split at h <;> split at h'
  · next hm0 hn0 =>
    have := hm.full (by omega)
    have := hn.full (by omega)
    omega
  · exact absurd h h'.1
  · exact absurd h' h.1
  · next hm0 hn0 => exact around_unique hm hn (by omega) (by omega) h.2 h'.2

def signed (negative : Bool) (text : List Char) : List Char :=
  if negative then '-' :: text else text

lemma toList_withSign (negative : Bool) (text : String) :
    (withSign negative text).toList = signed negative text.toList := by
  cases negative <;> simp [withSign, signed]

/-- A text of the number: a sign, and digits of a value that rounds to it. -/
inductive Spells : Binary.Number → List Char → Prop
  | finite {negative : Bool} {m : Nat} {e : Int} {text : List Char} {q : ℚ}
      (canonical : Canonical m e) (spelled : Spelled text q) (rounds : Rounds m e q) :
      Spells (.finite negative m e) (signed negative text)
  | infinite {negative : Bool} : Spells (.infinite negative) (signed negative "inf".toList)

lemma signed_inj {a b : Bool} {s t : List Char} (hs : s.head? ≠ some '-')
    (ht : t.head? ≠ some '-') (h : signed a s = signed b t) : a = b ∧ s = t := by
  cases a <;> cases b <;> simp only [signed, if_true, if_false, Bool.false_eq_true] at h
  · exact ⟨rfl, h⟩
  · exact absurd (by rw [h]; rfl) hs
  · exact absurd (by rw [← h]; rfl) ht
  · exact ⟨rfl, (cons.inj h).2⟩

lemma Spelled.head_ne (h : Spelled text q) (hc : c.isDigit = false) : text.head? ≠ some c := by
  obtain ⟨d, ds, rfl, hd⟩ := h.head
  intro heq
  cases heq
  rw [hd] at hc
  cases hc

lemma Spells.unique {x y : Binary.Number} (hx : Spells x text) (hy : Spells y text) : x = y := by
  generalize ht : text = text' at hy
  cases hx with
  | @finite a m e s q hc hs hr =>
    cases hy with
    | @finite b n f t p hc' hs' hr' =>
      obtain ⟨rfl, rfl⟩ := signed_inj (hs.head_ne (by decide)) (hs'.head_ne (by decide)) ht
      obtain rfl := hs.value.symm.trans hs'.value
      obtain ⟨rfl, rfl⟩ := hr.unique hc hc' hr'
      rfl
    | infinite =>
      obtain ⟨_, rfl⟩ := signed_inj (hs.head_ne (by decide)) (by decide) ht
      exact absurd rfl (hs.head_ne (c := 'i') (by decide))
  | infinite =>
    cases hy with
    | finite hc hs hr =>
      obtain ⟨_, rfl⟩ := signed_inj (by decide) (hs.head_ne (by decide)) ht
      exact absurd rfl (hs.head_ne (c := 'i') (by decide))
    | infinite =>
      obtain ⟨rfl, _⟩ := signed_inj (by decide) (by decide) ht
      rfl

lemma Spells.chars {x : Binary.Number} (h : Spells x text) :
    ∀ c ∈ text, c ∉ [' ', '(', ')'] := by
  have hsigned (negative : Bool) {text : List Char} (h : ∀ c ∈ text, c ∉ [' ', '(', ')']) :
      ∀ c ∈ signed negative text, c ∉ [' ', '(', ')'] := by
    cases negative
    · exact h
    · exact forall_mem_cons.2 ⟨by decide, h⟩
  cases h with
  | finite _ hs _ =>
    refine hsigned _ fun c hc hmem => ?_
    have hclass := hs.chars c hc
    have hnone : ∀ d ∈ [' ', '(', ')'], (d.isDigit || d ∈ ['.', 'e', '-']) = false := by simp
    exact Bool.false_ne_true ((hnone c hmem).symm.trans hclass)
  | infinite => exact hsigned _ (by simp)

lemma canonical_number {negative : Bool} (h : x.number = .finite negative m e) : Canonical m e := by
  rw [Double.number_eq_decode, Binary.decode] at h
  have hfraction : x.bits.toNat % Binary.Format.double.hidden < 2 ^ 52 := Nat.mod_lt _ (by decide)
  have hhidden : Binary.Format.double.hidden = 2 ^ 52 := rfl
  have hleast : Binary.Format.double.least = -1074 := rfl
  unfold Binary.Number.ofFields at h
  split at h
  · split at h <;> cases h
  · split at h <;> cases h <;> constructor <;> omega

lemma ofFields_inj {s s' : Bool} {k k' r r' : Nat} (hr : r < 2 ^ 52) (hr' : r' < 2 ^ 52)
    (h : Binary.Number.ofFields .double s k r = Binary.Number.ofFields .double s' k' r') :
    s = s' ∧ k = k' ∧ r = r' := by
  have hhidden : Binary.Format.double.hidden = 2 ^ 52 := rfl
  have hpad : Nat.pow 2 (52 - Binary.Format.double.fraction) = 1 := rfl
  unfold Binary.Number.ofFields at h
  rw [hpad] at h
  split at h <;> split at h <;> (try split at h) <;> (try split at h) <;>
    simp only [Binary.Number.finite.injEq, Binary.Number.infinite.injEq, Binary.Number.nan.injEq,
      reduceCtorEq] at h <;> exact ⟨by tauto, by omega, by omega⟩

lemma number_inj {y : Double} (h : x.number = y.number) : x.same y = true := by
  rw [Double.number_eq_decode, Double.number_eq_decode] at h
  obtain ⟨hs, hk, hr⟩ := ofFields_inj (Nat.mod_lt _ (by decide)) (Nat.mod_lt _ (by decide)) h
  have hx := x.bits.toNat_lt
  have hy := y.bits.toNat_lt
  rw [decide_eq_decide] at hs
  simp only [Binary.Format.sign, Binary.Format.special, Binary.Format.hidden] at hs hk hr
  exact beq_iff_eq.2 (UInt64.toNat_inj.1 (by omega))

lemma plain_spells (h : x.isNaN = false) : Spells x.number (plain x).toList := by
  unfold plain
  unfold Double.isNaN at h
  split
  · next negative m e hx =>
    have hc := canonical_number hx
    rw [hx, toList_withSign]
    split
    · next hm =>
      exact .finite hc spelled_zero (rounds_zero hm)
    · next hm => exact .finite hc (positional_spelled _ _) (rounds_shortest hm hc)
  · next negative hx =>
    rw [hx, toList_withSign]
    exact .infinite
  · next hx => simp [hx] at h

lemma pointed_spells (h : x.isNaN = false) : Spells x.number (pointed x).toList := by
  unfold pointed
  unfold Double.isNaN at h
  split
  · next negative m e hx =>
    have hc := canonical_number hx
    rw [hx, toList_withSign]
    split
    · next hm =>
      exact .finite hc spelled_zero_pointed (rounds_zero hm)
    · next hm =>
      dsimp only
      split
      · exact .finite hc (exponential_spelled _ _) (rounds_shortest hm hc)
      · split
        · next hg => exact .finite hc (pointed_spelled hg) (rounds_shortest hm hc)
        · exact .finite hc (positional_spelled _ _) (rounds_shortest hm hc)
  · next negative hx =>
    rw [hx, toList_withSign]
    exact .infinite
  · next hx => simp [hx] at h

end LazyTensor.Decimal
