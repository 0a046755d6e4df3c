import LazyTensor.Proofs.SymInt.Value

/-! Unique readability of keys. A key followed by a delimiter can be read back from its text up
to the order of the parts of sums and conjunctions, so expressions with equal keys have equal
ranges, variables and values. -/
namespace LazyTensor
open List Variable

namespace Text
variable {p : Char → Bool} {s t : List Char} {m n : Nat}

/-- Nothing follows, or a character outside the class. -/
def Stops (p : Char → Bool) (s : List Char) : Prop := ∀ c ∈ s.head?, p c = false

lemma stops_cons {c : Char} (h : p c = false) : Stops p (c :: s) := by
  intro d hd
  simp only [head?_cons, Option.mem_some_iff] at hd
  exact hd ▸ h

lemma append_inj_of_stops {u v : List Char} (hu : ∀ c ∈ u, p c = true)
    (hv : ∀ c ∈ v, p c = true) (hs : Stops p s) (ht : Stops p t) (h : u ++ s = v ++ t) :
    u = v ∧ s = t := by
  induction u generalizing v with
  | nil =>
    cases v with
    | nil => exact ⟨rfl, h⟩
    | cons c v =>
      rw [nil_append, cons_append] at h
      have hc := hs c (by rw [h]; simp)
      rw [hv c mem_cons_self] at hc
      exact absurd hc (by decide)
  | cons c u ih =>
    cases v with
    | nil =>
      rw [nil_append, cons_append] at h
      have hc := ht c (by rw [← h]; simp)
      rw [hu c mem_cons_self] at hc
      exact absurd hc (by decide)
    | cons d v =>
      rw [cons_append, cons_append] at h
      obtain ⟨rfl, htail⟩ := cons.inj h
      obtain ⟨rfl, hst⟩ := ih (fun x hx => hu x (mem_cons_of_mem c hx))
        (fun x hx => hv x (mem_cons_of_mem c hx)) htail
      exact ⟨rfl, hst⟩

lemma toDigits_inj (h : Nat.toDigits 10 m = Nat.toDigits 10 n) : m = n := by
  have hm := Nat.ofDigitChars_ten_toDigits (n := m)
  rw [h, Nat.ofDigitChars_ten_toDigits] at hm
  exact hm.symm

lemma toList_int (n : Int) : (toString n).toList =
    if 0 ≤ n then Nat.toDigits 10 n.toNat else '-' :: Nat.toDigits 10 (-n).toNat := by
  rw [Int.toString_eq_repr, Int.repr_eq_if]
  split
  · exact Nat.toList_repr
  · simp [String.toList_append, Nat.toList_repr]

lemma isDigit_toDigits {c : Char} (h : c ∈ Nat.toDigits 10 n) : c.isDigit = true :=
  Nat.isDigit_of_mem_toDigits (by omega) (by omega) h

lemma toDigits_cons (n : Nat) : ∃ c cs, Nat.toDigits 10 n = c :: cs ∧ c.isDigit = true := by
  obtain ⟨c, cs, hc⟩ := exists_cons_of_ne_nil (Nat.toDigits_ne_nil (n := n) (b := 10))
  exact ⟨c, cs, hc, isDigit_toDigits (hc ▸ mem_cons_self)⟩

lemma digits_read (hs : Stops Char.isDigit s) (ht : Stops Char.isDigit t)
    (h : Nat.toDigits 10 m ++ s = Nat.toDigits 10 n ++ t) : m = n ∧ s = t := by
  obtain ⟨hmn, hst⟩ := append_inj_of_stops (fun _ => isDigit_toDigits)
    (fun _ => isDigit_toDigits) hs ht h
  exact ⟨toDigits_inj hmn, hst⟩

lemma head_int (n : Int) : ∃ c cs, (toString n).toList = c :: cs ∧
    (c.isDigit = true ∨ c = '-') := by
  rw [toList_int]
  split
  · obtain ⟨c, cs, hc, hd⟩ := toDigits_cons n.toNat
    exact ⟨c, cs, hc, .inl hd⟩
  · exact ⟨'-', _, rfl, .inr rfl⟩

lemma not_neg_digits : Nat.toDigits 10 n ++ s ≠ '-' :: t := by
  obtain ⟨c, cs, hc, hd⟩ := toDigits_cons n
  intro h
  rw [hc, cons_append] at h
  obtain ⟨rfl, _⟩ := cons.inj h
  exact absurd hd (by decide)

lemma int_read {m n : Int} (hs : Stops Char.isDigit s) (ht : Stops Char.isDigit t)
    (h : (toString m).toList ++ s = (toString n).toList ++ t) : m = n ∧ s = t := by
  rw [toList_int, toList_int] at h
  split at h <;> split at h
  · obtain ⟨hmn, hst⟩ := digits_read hs ht h
    exact ⟨by omega, hst⟩
  · exact absurd h not_neg_digits
  · exact absurd h.symm not_neg_digits
  · rw [cons_append, cons_append] at h
    obtain ⟨hmn, hst⟩ := digits_read hs ht (cons.inj h).2
    exact ⟨by omega, hst⟩

end Text

open Text

namespace Variable

lemma toList_text (v : Variable) : v.text.toList = v.name.toList ++
    '[' :: ((toString v.lo).toList ++ '-' :: ((toString v.hi).toList ++ [']'])) := by
  have h : v.text = v.name ++ "[" ++ toString v.lo ++ "-" ++ toString v.hi ++ "]" := rfl
  simp [h, String.toList_append]

lemma Proper.word {v : Variable} (h : v.Proper) :
    ∀ c ∈ v.name.toList, (c.isAlphanum || c == '_') = true := by
  obtain he | hi := h.named
  · simp [he]
  · intro c hc
    unfold isIdentifier at hi
    cases hn : v.name.toList with
    | nil => simp [hn] at hc
    | cons d ds =>
      rw [hn] at hi hc
      simp only [Bool.and_eq_true, Bool.or_eq_true, all_eq_true, decide_eq_true_eq] at hi
      obtain rfl | hc := mem_cons.1 hc
      · obtain ha | rfl := hi.1
        · simp [Char.isAlphanum, ha]
        · decide
      · obtain ha | rfl := hi.2 c hc
        · simp [ha]
        · decide

lemma not_word_bracket : (('[' : Char).isAlphanum || '[' == '_') = false := by decide

lemma text_read {v w : Variable} (hv : v.Proper) (hw : w.Proper) {s t : List Char}
    (h : v.text.toList ++ s = w.text.toList ++ t) : v = w ∧ s = t := by
  rw [toList_text, toList_text] at h
  simp only [append_assoc, cons_append, nil_append] at h
  obtain ⟨_, h⟩ := append_inj_of_stops hv.word hw.word (stops_cons not_word_bracket)
    (stops_cons not_word_bracket) h
  obtain ⟨hlo, h⟩ := int_read (stops_cons (by decide)) (stops_cons (by decide)) (cons.inj h).2
  obtain ⟨hhi, h⟩ := int_read (stops_cons (by decide)) (stops_cons (by decide)) (cons.inj h).2
  refine ⟨?_, (cons.inj h).2⟩
  cases v
  cases w
  simp_all [String.toList_inj]

end Variable

namespace SymInt
variable {e p a b : SymInt} {ps qs : List SymInt} {u s t : List Char} {n : Int} {v : Variable}

/-- Expressions whose keys can be read back: names are proper, and sums and conjunctions have
at least two parts. -/
inductive Readable : SymInt → Prop
  | num (n : Int) : Readable (num n)
  | var {v : Variable} : v.Proper → Readable (var v)
  | mul {a : SymInt} (c : Int) : Readable a → Readable (mul a c)
  | div {a : SymInt} (c : Int) : Readable a → Readable (div a c)
  | mod {a : SymInt} (c : Int) : Readable a → Readable (mod a c)
  | lt {a : SymInt} (c : Int) : Readable a → Readable (lt a c)
  | sum {ps : List SymInt} : (∀ p ∈ ps, Readable p) → 2 ≤ ps.length → Readable (sum ps)
  | conj {ps : List SymInt} : (∀ p ∈ ps, Readable p) → 2 ≤ ps.length → Readable (conj ps)

lemma Regular.readable {scope : Variable → Prop} (h : e.Regular scope) : e.Readable := by
  induction h with
  | num _ => exact .num _
  | var hp _ _ => exact .var hp
  | mul _ _ _ _ _ _ _ ih => exact .mul _ ih
  | div _ _ _ _ _ ih => exact .div _ ih
  | mod _ _ _ _ _ ih => exact .mod _ ih
  | sum _ _ h2 _ _ _ ih => exact .sum ih h2

/-- Nothing that an expression stands for tells the two apart. -/
structure Agree (a b : SymInt) : Prop where
  value : ∀ σ, a.value σ = b.value σ
  range : a.range = b.range
  vars : ∀ v, v ∈ a.occurrences ↔ v ∈ b.occurrences

def sorted (ps : List SymInt) : List SymInt := ps.mergeSort (fun a b => decide (a.key ≤ b.key))

lemma mem_sorted : p ∈ sorted ps ↔ p ∈ ps := mem_mergeSort

/-- The parts behind the first one, each with the separator in front of it. -/
def rest (separator : List Char) (ps : List SymInt) : List Char :=
  ps.flatMap (fun p => separator ++ p.key.toList)

lemma joinSorted_perm (sep : String) {parts parts' : List String} (h : parts.Perm parts') :
    joinSorted sep parts = joinSorted sep parts' := by
  have hsorted (parts : List String) : (parts.mergeSort (fun a b => decide (a ≤ b))).Pairwise
      (fun a b => a ≤ b) := by
    have htrans (a b c : String) (hab : decide (a ≤ b) = true) (hbc : decide (b ≤ c) = true) :
        decide (a ≤ c) = true :=
      decide_eq_true (String.le_trans (of_decide_eq_true hab) (of_decide_eq_true hbc))
    have htotal (a b : String) : (decide (a ≤ b) || decide (b ≤ a)) = true := by
      simpa using String.le_total a b
    simpa using pairwise_mergeSort htrans htotal parts
  have hperm := ((mergeSort_perm parts (fun a b => decide (a ≤ b))).trans h).trans
    (mergeSort_perm parts' (fun a b => decide (a ≤ b))).symm
  rw [joinSorted, joinSorted, hperm.eq_of_pairwise (fun a b _ _ => String.le_antisymm)
    (hsorted parts) (hsorted parts')]

lemma renderAll_key (ps : List SymInt) : renderAll keySpelling ps = ps.map key := by
  induction ps with
  | nil => rfl
  | cons p ps ih => simp [renderAll, ih, key]

lemma intercalate_eq (sep : List Char) (p : SymInt) (ps : List SymInt) :
    sep.intercalate ((p :: ps).map (fun q => q.key.toList)) = p.key.toList ++ rest sep ps := by
  induction ps generalizing p with
  | nil => simp [rest]
  | cons q ps ih =>
    have hq := ih q
    rw [map_cons] at hq
    rw [map_cons, map_cons, intercalate_cons_cons, hq]
    simp [rest]

lemma toList_joinSorted (sep : String) (h : sorted ps = p :: qs) :
    (joinSorted sep (renderAll keySpelling ps)).toList =
      '(' :: (p.key.toList ++ (rest sep.toList qs ++ [')'])) := by
  have hs : (sorted ps).map key = (ps.map key).mergeSort (fun a b => decide (a ≤ b)) :=
    map_mergeSort (fun a _ b _ => rfl)
  have hm : ((sorted ps).map key).map String.toList = (p :: qs).map (fun q => q.key.toList) := by
    rw [map_map, h]
    rfl
  rw [joinSorted, renderAll_key, ← hs, String.toList_append, String.toList_append,
    String.toList_intercalate, hm, intercalate_eq]
  simp

/-- How a compound expression is written: the operand that comes first, and the text after it. -/
inductive Opened : SymInt → SymInt → List Char → Prop
  | mul (a : SymInt) (c : Int) : Opened (mul a c) a ('*' :: ((toString c).toList ++ [')']))
  | div (a : SymInt) (c : Int) : Opened (div a c) a ('/' :: '/' :: ((toString c).toList ++ [')']))
  | mod (a : SymInt) (c : Int) : Opened (mod a c) a ('%' :: ((toString c).toList ++ [')']))
  | lt (a : SymInt) (c : Int) : Opened (lt a c) a ('<' :: ((toString c).toList ++ [')']))
  | sum {ps qs : List SymInt} {p q : SymInt} : sorted ps = p :: q :: qs →
      Opened (sum ps) p (rest ['+'] (q :: qs) ++ [')'])
  | conj {ps qs : List SymInt} {p q : SymInt} : sorted ps = p :: q :: qs →
      Opened (conj ps) p (rest [' ', 'a', 'n', 'd', ' '] (q :: qs) ++ [')'])

lemma Opened.toList_key (h : Opened e p u) : e.key.toList = '(' :: (p.key.toList ++ u) := by
  cases h with
  | mul a c | mod a c | lt a c => simp [key, renderWith, String.toList_append]
  | div a c => simp [key, renderWith, String.toList_append, keySpelling]
  | sum h => exact toList_joinSorted "+" h
  | conj h => exact toList_joinSorted " and " h

lemma exists_sorted (h : 2 ≤ ps.length) : ∃ p q qs, sorted ps = p :: q :: qs := by
  have hl : (sorted ps).length = ps.length := length_mergeSort ps
  match hs : sorted ps with
  | [] => simp [hs] at hl; omega
  | [p] => simp [hs] at hl; omega
  | p :: q :: qs => exact ⟨p, q, qs, rfl⟩

lemma Readable.opened (h : e.Readable) :
    (∃ n, e = .num n) ∨ (∃ v, e = .var v ∧ v.Proper) ∨ ∃ p u, Opened e p u ∧
      p.Readable := by
  cases h with
  | num n => exact .inl ⟨n, rfl⟩
  | var hv => exact .inr (.inl ⟨_, rfl, hv⟩)
  | mul c ha => exact .inr (.inr ⟨_, _, .mul _ c, ha⟩)
  | div c ha => exact .inr (.inr ⟨_, _, .div _ c, ha⟩)
  | mod c ha => exact .inr (.inr ⟨_, _, .mod _ c, ha⟩)
  | lt c ha => exact .inr (.inr ⟨_, _, .lt _ c, ha⟩)
  | sum hps h2 =>
    obtain ⟨p, q, qs, hs⟩ := exists_sorted h2
    exact .inr (.inr ⟨p, _, .sum hs, hps p (mem_sorted.1 (by simp [hs]))⟩)
  | conj hps h2 =>
    obtain ⟨p, q, qs, hs⟩ := exists_sorted h2
    exact .inr (.inr ⟨p, _, .conj hs, hps p (mem_sorted.1 (by simp [hs]))⟩)

/-- What may stand after a key inside another one. -/
def delimiters : List Char := [')', '*', '/', '%', '<', '+', ' ']

def Delimited (s : List Char) : Prop := ∀ c ∈ s.head?, c ∈ delimiters

lemma delimited_cons {c : Char} (h : c ∈ delimiters) : Delimited (c :: s) := by
  intro d hd
  simp only [head?_cons, Option.mem_some_iff] at hd
  exact hd ▸ h

lemma Delimited.stops (h : Delimited s) : Stops Char.isDigit s := by
  intro c hc
  have hd := h c hc
  simp only [delimiters, mem_cons, not_mem_nil, or_false] at hd
  obtain rfl | rfl | rfl | rfl | rfl | rfl | rfl := hd <;> decide

lemma Opened.delimited (h : Opened e p u) (s : List Char) : Delimited (u ++ s) := by
  cases h with
  | mul _ _ | div _ _ | mod _ _ | lt _ _ | sum _ | conj _ => exact delimited_cons (by decide)

lemma rest_delimited {sep : Char} {seps : List Char} (hs : sep ∈ delimiters) (ps : List SymInt)
    (s : List Char) : Delimited (rest (sep :: seps) ps ++ ')' :: s) := by
  cases ps with
  | nil => exact delimited_cons (by decide)
  | cons p ps => exact delimited_cons hs

/-- The key of `a` can be read off any text that goes on with a delimiter. -/
def Reads (a : SymInt) : Prop := ∀ (b : SymInt), b.Readable →
    ∀ (s t : List Char), Delimited s →
  Delimited t → a.key.toList ++ s = b.key.toList ++ t → Agree a b ∧ s = t

lemma toList_key_num (n : Int) : (num n).key.toList = (toString n).toList := by
  rw [key, renderWith]

lemma toList_key_var (v : Variable) : (var v).key.toList = v.text.toList := by
  rw [key, renderWith, keySpelling]

lemma num_ne_var (hv : v.Proper) : (num n).key.toList ++ s ≠ (var v).key.toList ++ t := by
  intro h
  obtain ⟨c, cs, hc, hd⟩ := head_int n
  rw [toList_key_num, toList_key_var, toList_text, hc] at h
  cases hn : v.name.toList with
  | nil =>
    simp only [hn, nil_append, cons_append] at h
    obtain ⟨rfl, _⟩ := cons.inj h
    exact absurd hd (by decide)
  | cons d ds =>
    simp only [hn, cons_append] at h
    obtain ⟨rfl, _⟩ := cons.inj h
    obtain he | hi := hv.named
    · simp [he] at hn
    · have hfirst : (c.isAlpha = true ∨ c = '_') := by
        simp only [isIdentifier, hn, Bool.and_eq_true, Bool.or_eq_true, decide_eq_true_eq] at hi
        exact hi.1
      obtain hd | rfl := hd
      · obtain ha | rfl := hfirst
        · have h9 : c.val ≤ '9'.val := by
            simp only [Char.isDigit, Bool.and_eq_true, decide_eq_true_eq] at hd
            exact hd.2
          -- letters stand above the digits
          have hletter : 'A'.val ≤ c.val ∧ c.val ≤ 'Z'.val ∨ 'a'.val ≤ c.val ∧
              c.val ≤ 'z'.val := by
            have hbits : (decide ('A'.val ≤ c.val ∧ c.val ≤ 'Z'.val) ||
                decide ('a'.val ≤ c.val) && decide (c.val ≤ 'z'.val)) = true := ha
            simpa only [Bool.and_eq_true, Bool.or_eq_true, decide_eq_true_eq] using hbits
          obtain hu | hl := hletter
          · exact absurd (UInt32.le_trans hu.1 h9) (by decide)
          · exact absurd (UInt32.le_trans hl.1 h9) (by decide)
        · exact absurd hd (by decide)
      · obtain ha | ha := hfirst
        · exact absurd ha (by decide)
        · exact absurd ha (by decide)

lemma num_ne_opened (h : Opened e p u) : (num n).key.toList ++ s ≠ e.key.toList ++ t := by
  intro he
  obtain ⟨c, cs, hc, hd⟩ := head_int n
  rw [toList_key_num, hc, h.toList_key, cons_append, cons_append] at he
  obtain ⟨rfl, _⟩ := cons.inj he
  exact absurd hd (by decide)

lemma var_ne_opened (hv : v.Proper) (h : Opened e p u) :
    (var v).key.toList ++ s ≠ e.key.toList ++ t := by
  intro he
  rw [toList_key_var, toList_text, h.toList_key] at he
  have hw := hv.word
  cases hn : v.name.toList with
  | nil =>
    simp only [hn, nil_append, cons_append] at he
    exact absurd (cons.inj he).1 (by decide)
  | cons d ds =>
    simp only [hn, cons_append] at he
    have hd := hw d (by simp [hn])
    rw [(cons.inj he).1] at hd
    exact absurd hd (by decide)

lemma reads_num (n : Int) : Reads (num n) := by
  intro b hb s t hs ht h
  obtain ⟨m, rfl⟩ | ⟨v, rfl, hv⟩ | ⟨p, u, ho, _⟩ := hb.opened
  · rw [toList_key_num, toList_key_num] at h
    obtain ⟨rfl, hst⟩ := int_read hs.stops ht.stops h
    exact ⟨⟨fun _ => rfl, rfl, fun _ => Iff.rfl⟩, hst⟩
  · exact absurd h (num_ne_var hv)
  · exact absurd h (num_ne_opened ho)

lemma reads_var (hv : v.Proper) : Reads (var v) := by
  intro b hb s t _ _ h
  obtain ⟨m, rfl⟩ | ⟨w, rfl, hw⟩ | ⟨p, u, ho, _⟩ := hb.opened
  · exact absurd h.symm (num_ne_var hv)
  · rw [toList_key_var, toList_key_var] at h
    obtain ⟨rfl, hst⟩ := text_read hv hw h
    exact ⟨⟨fun _ => rfl, rfl, fun _ => Iff.rfl⟩, hst⟩
  · exact absurd h (var_ne_opened hv ho)

lemma Opened.read (ha : Opened a p u) (hp : Reads p) (hb : b.Readable)
    (h : a.key.toList ++ s = b.key.toList ++ t) :
    ∃ q w, Opened b q w ∧ Agree p q ∧ u ++ s = w ++ t := by
  obtain ⟨m, rfl⟩ | ⟨w, rfl, hw⟩ | ⟨q, w, ho, hq⟩ := hb.opened
  · exact absurd h.symm (num_ne_opened ha)
  · exact absurd h.symm (var_ne_opened hw ha)
  · rw [ha.toList_key, ho.toList_key] at h
    simp only [cons_append, append_assoc] at h
    obtain ⟨hpq, hrest⟩ := hp q hq _ _ (ha.delimited s) (ho.delimited t) (cons.inj h).2
    exact ⟨q, w, ho, hpq, hrest⟩

lemma const_read {m n : Int} {s t : List Char}
    (h : (toString m).toList ++ [')'] ++ s = (toString n).toList ++ [')'] ++ t) :
    m = n ∧ s = t := by
  simp only [append_assoc, cons_append, nil_append] at h
  obtain ⟨hmn, h⟩ := int_read (stops_cons (by decide)) (stops_cons (by decide)) h
  exact ⟨hmn, (cons.inj h).2⟩

lemma rest_read {sep : Char} {seps : List Char} (hsep : sep ∈ delimiters) (hne : sep ≠ ')')
    {ps qs : List SymInt} (hps : ∀ p ∈ ps, Reads p) (hqs : ∀ q ∈ qs, q.Readable)
    {s t : List Char} (h : rest (sep :: seps) ps ++ ')' :: s = rest (sep :: seps) qs ++ ')' :: t) :
    Forall₂ Agree ps qs ∧ s = t := by
  induction ps generalizing qs with
  | nil =>
    cases qs with
    | nil => exact ⟨.nil, (cons.inj h).2⟩
    | cons q qs => exact absurd (cons.inj h).1.symm hne
  | cons p ps ih =>
    cases qs with
    | nil => exact absurd (cons.inj h).1 hne
    | cons q qs =>
      simp only [rest, flatMap_cons, append_assoc, cons_append] at h
      have h := append_cancel_left (cons.inj h).2
      obtain ⟨hpq, h⟩ := hps p mem_cons_self q (hqs q mem_cons_self) _ _
        (rest_delimited hsep ps s) (rest_delimited hsep qs t) h
      obtain ⟨hall, hst⟩ := ih (fun r hr => hps r (mem_cons_of_mem p hr))
        (fun r hr => hqs r (mem_cons_of_mem q hr)) h
      exact ⟨.cons hpq hall, hst⟩

lemma sorted_perm (ps : List SymInt) : (sorted ps).Perm ps := mergeSort_perm ps _

lemma map_eq_of_agree {α : Type} {f : SymInt → α} (hf : ∀ a b, Agree a b → f a = f b)
    (h : Forall₂ Agree ps qs) : ps.map f = qs.map f := by
  induction h with
  | nil => rfl
  | cons hpq _ ih => rw [map_cons, map_cons, hf _ _ hpq, ih]

lemma mem_of_agree (h : Forall₂ Agree ps qs) :
    (∀ p ∈ ps, ∃ q ∈ qs, Agree p q) ∧ ∀ q ∈ qs, ∃ p ∈ ps, Agree p q := by
  induction h with
  | nil => simp
  | cons hpq _ ih =>
    constructor
    · intro r hr
      obtain rfl | hr := mem_cons.1 hr
      · exact ⟨_, mem_cons_self, hpq⟩
      · obtain ⟨q, hq, hrq⟩ := ih.1 r hr
        exact ⟨q, mem_cons_of_mem _ hq, hrq⟩
    · intro r hr
      obtain rfl | hr := mem_cons.1 hr
      · exact ⟨_, mem_cons_self, hpq⟩
      · obtain ⟨p, hp, hpr⟩ := ih.2 r hr
        exact ⟨p, mem_cons_of_mem _ hp, hpr⟩

lemma mem_occurrencesAll : v ∈ occurrencesAll ps ↔ ∃ p ∈ ps, v ∈ p.occurrences := by
  induction ps with
  | nil => simp
  | cons p ps ih => simp [ih]

section
variable (h : Forall₂ Agree (sorted ps) (sorted qs))
include h

lemma mem_of_sorted_agree : (∀ p ∈ ps, ∃ q ∈ qs, Agree p q) ∧
    ∀ q ∈ qs, ∃ p ∈ ps, Agree p q := by
  simpa [mem_sorted] using mem_of_agree h

lemma occurrencesAll_of_agree (v : Variable) : v ∈ occurrencesAll ps ↔
    v ∈ occurrencesAll qs := by
  obtain ⟨hl, hr⟩ := mem_of_sorted_agree h
  rw [mem_occurrencesAll, mem_occurrencesAll]
  constructor
  · rintro ⟨p, hp, hv⟩
    obtain ⟨q, hq, hpq⟩ := hl p hp
    exact ⟨q, hq, (hpq.vars v).1 hv⟩
  · rintro ⟨q, hq, hv⟩
    obtain ⟨p, hp, hpq⟩ := hr q hq
    exact ⟨p, hp, (hpq.vars v).2 hv⟩

lemma Agree.sum : Agree (sum ps) (sum qs) := by
  have total {f : SymInt → Int} (hf : ∀ a b, Agree a b → f a = f b) :
      (ps.map f).sum = (qs.map f).sum := by
    rw [← ((sorted_perm ps).map f).sum_eq, map_eq_of_agree hf h, ((sorted_perm qs).map f).sum_eq]
  refine ⟨fun σ => ?_, ?_, fun v => ?_⟩
  · rw [value_sum, value_sum]
    exact total (fun a b hab => hab.value σ)
  · rw [SymInt.range, SymInt.range, rangeSum_eq, rangeSum_eq,
      total (fun a b hab => by rw [lo, lo, hab.range]),
      total (fun a b hab => by rw [hi, hi, hab.range])]
  · simpa using occurrencesAll_of_agree h v

lemma Agree.conj (hp : ps ≠ []) (hq : qs ≠ []) : Agree (conj ps) (conj qs) := by
  obtain ⟨hl, hr⟩ := mem_of_sorted_agree h
  refine ⟨fun σ => ?_, ?_, fun v => ?_⟩
  · have hall : valueAll σ ps = valueAll σ qs := by
      rw [Bool.eq_iff_iff, valueAll_eq, valueAll_eq]
      constructor
      · intro hps q hq
        obtain ⟨p, hp, hpq⟩ := hr q hq
        exact hpq.value σ ▸ hps p hp
      · intro hqs p hp
        obtain ⟨q, hq, hpq⟩ := hl p hp
        exact hpq.value σ ▸ hqs q hq
    rw [SymInt.value, SymInt.value, hall]
  · obtain ⟨⟨p, hp, hpl⟩, ⟨p', hp', hph⟩, hpb⟩ := rangeConj_bounds hp
    obtain ⟨⟨q, hq, hql⟩, ⟨q', hq', hqh⟩, hqb⟩ := rangeConj_bounds hq
    obtain ⟨r, hr1, e1⟩ := hl p hp
    obtain ⟨r', hr2, e2⟩ := hl p' hp'
    obtain ⟨w, hw1, f1⟩ := hr q hq
    obtain ⟨w', hw2, f2⟩ := hr q' hq'
    have a1 := (hqb r hr1).1
    have a2 := (hqb r' hr2).2
    have b1 := (hpb w hw1).1
    have b2 := (hpb w' hw2).2
    simp only [lo, e1.range] at hpl a1
    simp only [hi, e2.range] at hph a2
    simp only [lo, ← f1.range] at hql b1
    simp only [hi, ← f2.range] at hqh b2
    rw [SymInt.range, SymInt.range]
    exact Prod.ext (by omega) (by omega)
  · simpa using occurrencesAll_of_agree h v

end

lemma exists_sorted_reads (h : 2 ≤ ps.length) (hps : ∀ p ∈ ps, Reads p) :
    ∃ p q qs, sorted ps = p :: q :: qs ∧ Reads p ∧ ∀ r ∈ q :: qs, Reads r := by
  obtain ⟨p, q, qs, hs⟩ := exists_sorted h
  exact ⟨p, q, qs, hs, forall_mem_cons.1 fun r hr => hps r (mem_sorted.1 (hs ▸ hr))⟩

/-- Every key can be read back. The induction follows the expression; the other one is opened in
the same way because the texts agree. -/
lemma Readable.reads (ha : a.Readable) : Reads a := by
  induction ha with
  | num n => exact reads_num n
  | var hv => exact reads_var hv
  | @mul a c _ ih | @mod a c _ ih | @lt a c _ ih =>
    intro b hb s t _ _ h
    obtain ⟨q, w, ho, hpq, h⟩ := Opened.read (by constructor) ih hb h
    cases ho with
    | mul _ d | mod _ d | lt _ d =>
      -- two operations differ in the sign between their operands
      first
      | exact absurd (cons.inj h).1 (by decide)
      | obtain ⟨rfl, hst⟩ := const_read (cons.inj h).2
        refine ⟨⟨fun σ => ?_, ?_, hpq.vars⟩, hst⟩
        · rw [value, value, hpq.value]
        · rw [range, range, hpq.range]
    | div _ _ | sum _ | conj _ => exact absurd (cons.inj h).1 (by decide)
  | @div a c _ ih =>
    intro b hb s t _ _ h
    obtain ⟨q, w, ho, hpq, h⟩ := (Opened.div a c).read ih hb h
    cases ho with
    | div _ d =>
      obtain ⟨rfl, hst⟩ := const_read (cons.inj (cons.inj h).2).2
      refine ⟨⟨fun σ => ?_, ?_, hpq.vars⟩, hst⟩
      · rw [value, value, hpq.value]
      · rw [range, range, hpq.range]
    | mul _ _ | mod _ _ | lt _ _ | sum _ | conj _ => exact absurd (cons.inj h).1 (by decide)
  | @sum ps _ h2 ih =>
    intro b hb s t _ _ h
    obtain ⟨p, p', ps', hs, hp, hmem⟩ := exists_sorted_reads h2 ih
    obtain ⟨q, w, ho, hpq, h⟩ := (Opened.sum hs).read hp hb h
    cases ho with
    | @sum qs qs' _ q' hq =>
      cases hb with
      | sum hqs _ =>
        rw [append_assoc, append_assoc] at h
        obtain ⟨hall, hst⟩ := rest_read (by decide) (by decide) hmem (fun r hr =>
          hqs r (mem_sorted.1 (by rw [hq]; exact mem_cons_of_mem q hr))) h
        exact ⟨.sum (by rw [hs, hq]; exact .cons hpq hall), hst⟩
    | mul _ _ | div _ _ | mod _ _ | lt _ _ | conj _ => exact absurd (cons.inj h).1 (by decide)
  | @conj ps _ h2 ih =>
    intro b hb s t _ _ h
    obtain ⟨p, p', ps', hs, hp, hmem⟩ := exists_sorted_reads h2 ih
    obtain ⟨q, w, ho, hpq, h⟩ := (Opened.conj hs).read hp hb h
    cases ho with
    | @conj qs qs' _ q' hq =>
      cases hb with
      | conj hqs hlen =>
        rw [append_assoc, append_assoc] at h
        obtain ⟨hall, hst⟩ := rest_read (by decide) (by decide) hmem (fun r hr =>
          hqs r (mem_sorted.1 (by rw [hq]; exact mem_cons_of_mem q hr))) h
        have hne (l : List SymInt) (hl : 2 ≤ l.length) : l ≠ [] := by
          rintro rfl
          simp at hl
        exact ⟨.conj (by rw [hs, hq]; exact .cons hpq hall) (hne ps h2) (hne qs hlen), hst⟩
    | mul _ _ | div _ _ | mod _ _ | lt _ _ | sum _ => exact absurd (cons.inj h).1 (by decide)

/-- Expressions with equal keys cannot be told apart. -/
lemma agree_of_key (ha : a.Readable) (hb : b.Readable) (h : a.key = b.key) : Agree a b := by
  have hnil : Delimited [] := by simp [Delimited]
  exact (ha.reads b hb [] [] hnil hnil (by rw [h])).1

lemma agree_of_beq (ha : a.Readable) (hb : b.Readable) (h : (a == b) = true) :
    Agree a b := agree_of_key ha hb (of_decide_eq_true h)

end SymInt

end LazyTensor
