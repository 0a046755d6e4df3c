import LazyTensor.Proofs.Kernel.Estimate

/-! Texts that can be read back. Each text is followed by something that does not extend it, so that
two equal lines start with equal parts; expressions count as equal when their keys are. -/
namespace LazyTensor
open List View Variable

namespace Text
variable {α : Type} {text : α → String}

/-- What is written as `text` in front of what may come `next` is known from the line, up to what is
taken for the same. -/
def Reads (text : α → String) (next : List Char → Prop) (same : α → α → Prop)
    (a b : α) : Prop :=
  ∀ s t, next s → next t → (text a).toList ++ s = (text b).toList ++ t → same a b ∧ s = t

def Any (_ : List Char) : Prop := True

/-- The next member of a list, or its end. -/
def Ends (s : List Char) : Prop := ∃ r, s = ',' :: r ∨ s = ']' :: r

lemma toString_self (s : String) : toString s = s := rfl

def Starts (c : Char) (s : List Char) : Prop := ∃ r, s = c :: r

lemma stops_text {p : Char → Bool} {lit : String} {c : Char} {s : List Char}
    (h : lit.toList.head? = some c) (hp : p c = false) : Stops p (lit.toList ++ s) := by
  obtain ⟨r, hr⟩ := head?_eq_some_iff.1 h
  rw [hr]
  exact stops_cons hp

lemma Ends.stops {s : List Char} (h : Ends s) : Stops Char.isDigit s := by
  obtain ⟨r, rfl | rfl⟩ := h <;> exact stops_cons (by decide)

lemma toList_commas_cons (a : String) (as : List String) :
    (commas (a :: as)).toList = a.toList ++ as.flatMap (fun b => ", ".toList ++ b.toList) := by
  induction as generalizing a with
  | nil => simp [commas]
  | cons b as ih =>
    have hb := ih b
    rw [commas, String.toList_intercalate, map_cons] at hb ⊢
    rw [map_cons, intercalate_cons_cons, hb]
    simp

lemma rest_read {same : α → α → Prop} {as bs : List α} {s t : List Char}
    (hread : ∀ a ∈ as, ∀ b ∈ bs, Reads text Ends same a b)
    (h : as.flatMap (fun a => ", ".toList ++ (text a).toList) ++ ']' :: s =
      bs.flatMap (fun b => ", ".toList ++ (text b).toList) ++ ']' :: t) :
    Forall₂ same as bs ∧ s = t := by
  have hends (as : List α) (s : List Char) :
      Ends (as.flatMap (fun a => ", ".toList ++ (text a).toList) ++ ']' :: s) := by
    cases as with
    | nil => exact ⟨s, .inr rfl⟩
    | cons a as => exact ⟨_, .inl rfl⟩
  induction as generalizing bs with
  | nil =>
    cases bs with
    | nil => exact ⟨.nil, (cons.inj h).2⟩
    | cons b bs => simp at h
  | cons a as ih =>
    cases bs with
    | nil => simp at h
    | cons b bs =>
      simp only [flatMap_cons, append_assoc, append_cancel_left_eq] at h
      obtain ⟨hab, h⟩ := hread a (by simp) b (by simp) _ _ (hends as s) (hends bs t) h
      obtain ⟨hrest, hst⟩ := ih (fun a ha b hb => hread a (by simp [ha]) b (by simp [hb])) h
      exact ⟨.cons hab hrest, hst⟩

lemma brackets_read {same : α → α → Prop} {as bs : List α}
    (hread : ∀ a ∈ as, ∀ b ∈ bs, Reads text Ends same a b)
    (hstart : ∀ a, ∃ c r, (text a).toList = c :: r ∧ c ≠ ']') :
    Reads (fun as => brackets (as.map text)) Any (Forall₂ same) as bs := by
  intro s t _ _ h
  have hopen (as : List α) (s : List Char) : (brackets (as.map text)).toList ++ s =
      '[' :: ((commas (as.map text)).toList ++ ']' :: s) := by
    simp [brackets, String.toList_append]
  rw [hopen, hopen] at h
  have h := (cons.inj h).2
  have hempty (a : α) (as : List α) (s t : List Char) :
      (commas ((a :: as).map text)).toList ++ s ≠ (commas []).toList ++ ']' :: t := by
    obtain ⟨c, r, hc, hne⟩ := hstart a
    rw [map_cons, toList_commas_cons, hc]
    intro heq
    exact hne (cons.inj heq).1
  cases as with
  | nil =>
    cases bs with
    | nil => exact ⟨.nil, (cons.inj h).2⟩
    | cons b bs => exact (hempty b bs _ _ h.symm).elim
  | cons a as =>
    cases bs with
    | nil => exact (hempty a as _ _ h).elim
    | cons b bs =>
      have hrest := rest_read (s := s) (t := t) hread (by
        simpa only [map_cons, toList_commas_cons, flatMap_cons, flatMap_map,
          append_assoc, append_cancel_left_eq] using h)
      exact hrest

lemma Reads.imp {next next' : List Char → Prop} {same same' : α → α → Prop}
    {a b : α} (h : Reads text next same a b) (hnext : ∀ s, next' s → next s)
    (hsame : same a b → same' a b) : Reads text next' same' a b := by
  intro s t hs ht heq
  obtain ⟨hab, hst⟩ := h s t (hnext s hs) (hnext t ht) heq
  exact ⟨hsame hab, hst⟩

lemma reads_int (m n : Int) : Reads (toString : Int → String) (Stops Char.isDigit) Eq m n :=
  fun _ _ hs ht h => int_read hs ht h

lemma reads_nat (m n : Nat) : Reads (toString : Nat → String) (Stops Char.isDigit) Eq m n := by
  intro s t hs ht h
  have htext (k : Nat) : (toString k).toList = Nat.toDigits 10 k := Nat.toList_repr
  rw [htext, htext] at h
  exact digits_read hs ht h

lemma ints_read (xs ys : List Int) : Reads ints Any Eq xs ys := by
  refine (brackets_read (fun x _ y _ => (reads_int x y).imp (fun _ => Ends.stops) id)
    fun x => ?_).imp (fun _ => id) (fun h => by simpa using h)
  obtain ⟨c, cs, hc, hd⟩ := head_int x
  refine ⟨c, cs, hc, ?_⟩
  rintro rfl
  exact absurd hd (by decide)

lemma nats_read (xs ys : List Nat) : Reads nats Any Eq xs ys := by
  refine (brackets_read (fun x _ y _ => (reads_nat x y).imp (fun _ => Ends.stops) id)
    fun x => ?_).imp (fun _ => id) (fun h => by simpa using h)
  obtain ⟨c, cs, hc, hd⟩ := toDigits_cons x
  refine ⟨c, cs, Nat.toList_repr.trans hc, ?_⟩
  rintro rfl
  exact absurd hd (by decide)

lemma toList_pair (a b : Int) : (parens [toString a, toString b]).toList =
    '(' :: ((toString a).toList ++ ", ".toList ++ (toString b).toList ++ [')']) := by
  simp [parens, toList_commas_cons, String.toList_append]

lemma pairs_read (xs ys : List (Int × Int)) : Reads pairs Any Eq xs ys := by
  have hread (x y : Int × Int) :
      Reads (fun p : Int × Int => parens [toString p.1, toString p.2]) Ends Eq x y := by
    intro s t _ _ h
    rw [toList_pair, toList_pair] at h
    simp only [cons_append, append_assoc] at h
    obtain ⟨h1, h⟩ := int_read (stops_text rfl (by decide)) (stops_text rfl (by decide))
      (cons.inj h).2
    rw [append_cancel_left_eq] at h
    obtain ⟨h2, h⟩ := int_read (stops_cons (by decide)) (stops_cons (by decide)) h
    exact ⟨Prod.ext h1 h2, by simpa using h⟩
  exact (brackets_read (fun x _ y _ => hread x y) fun x =>
    ⟨'(', _, toList_pair x.1 x.2, by decide⟩).imp (fun _ => id) (fun h => by simpa using h)

lemma flag_read (a b : Bool) : Reads flag Any Eq a b := by
  intro s t _ _ h
  cases a <;> cases b <;> simp_all [flag]

lemma mask_read (a b : Option (List (Int × Int))) : Reads maskText Any Eq a b := by
  intro s t _ _ h
  cases a with
  | none =>
    cases b with
    | none => exact ⟨rfl, by simpa using h⟩
    | some q => simp [maskText, optional] at h
  | some p =>
    cases b with
    | none => simp [maskText, optional] at h
    | some q =>
      have htext (m : List (Int × Int)) (s : List Char) : (maskText (some m)).toList ++ s =
          "Some(".toList ++ ((pairs m).toList ++ ')' :: s) := by
        simp [maskText, optional]
      rw [htext, htext, append_cancel_left_eq] at h
      obtain ⟨hpq, h⟩ := pairs_read p q _ _ trivial trivial h
      exact ⟨congrArg some hpq, (cons.inj h).2⟩

lemma code_read (codes : List α) {code : α → String}
    (hfree : ∀ a ∈ codes, ∀ b ∈ codes, (code a).toList <+: (code b).toList → a = b)
    {a b : α} (ha : a ∈ codes) (hb : b ∈ codes) : Reads code Any Eq a b := by
  intro s t _ _ h
  have hab : a = b := by
    obtain hab | hba := prefix_or_prefix_of_prefix (prefix_append _ s)
      (h ▸ prefix_append (code b).toList t)
    · exact hfree a ha b hb hab
    · exact (hfree b hb a ha hba).symm
  cases hab
  exact ⟨rfl, append_cancel_left h⟩

end Text

open Text Checked

lemma Op.mem_all (op : Op) : op ∈ Op.all := by
  cases op with
  | unary o | binary o | ternary o | reduce o | movement o | load o | buffer o =>
    cases o <;> decide

lemma Op.text_read (a b : Op) : Reads Op.text Any Eq a b :=
  code_read Op.all (by decide +kernel) a.mem_all b.mem_all

namespace Element

def samples : List Element :=
  [bool, int8, uint8, int32, int64, float16, float32, float64, half4, float2, float4, int2,
    image true 0 0, image false 0 0]

def sample : Element → Element
  | image half _ _ => image half 0 0
  | e => e

lemma sample_mem (e : Element) : e.sample ∈ samples := by
  cases e with
  | image half h w => cases half <;> simp [sample, samples]
  | _ => decide

def tail (mid fin : String) : Element → List Char → List Char
  | image _ h w, s =>
    (toString h).toList ++ (mid.toList ++ ((toString w).toList ++ (fin.toList ++ s)))
  | _, s => s

/-- A type in front of the character `next` is written as a code and the extent. -/
structure Written (text : Element → String) (next : Char) (code : Element → String)
    (mid fin : String) : Prop where
  free : ∀ d ∈ samples, ∀ e ∈ samples, (code d).toList <+: (code e).toList → d = e
  eq : ∀ e s, (text e).toList ++ next :: s = (code e.sample).toList ++ e.tail mid fin s
  stops : ∀ s, Stops Char.isDigit (mid.toList ++ s) ∧ Stops Char.isDigit (fin.toList ++ s)

lemma Written.read {text code : Element → String} {next : Char} {mid fin : String}
    (h : Written text next code mid fin) (d e : Element) : Reads text (Starts next) Eq d e := by
  rintro _ _ ⟨s, rfl⟩ ⟨t, rfl⟩ heq
  rw [h.eq, h.eq] at heq
  obtain ⟨hsample, heq⟩ :=
    code_read samples h.free d.sample_mem e.sample_mem _ _ trivial trivial heq
  have hboth : d = e ∧ s = t := by
    cases d with
    | image _ a b =>
      cases e with
      | image _ a' b' =>
        obtain ⟨ha, heq⟩ := int_read (h.stops _).1 (h.stops _).1 heq
        rw [append_cancel_left_eq] at heq
        obtain ⟨hb, heq⟩ := int_read (h.stops _).2 (h.stops _).2 heq
        simp only [sample, image.injEq, and_true] at hsample
        exact ⟨by rw [hsample, ha, hb], append_cancel_left heq⟩
      | _ => cases hsample
    | _ =>
      cases e with
      | image => cases hsample
      | _ => first | exact ⟨rfl, heq⟩ | cases hsample
  exact ⟨hboth.1, by rw [hboth.2]⟩

lemma written_text : Written text ' ' (fun e => match e with
    | image half _ _ => if half then "dtypes.imageh((" else "dtypes.imagef(("
    | e => e.text ++ " ") ", " ", 4)) " where
  free := by decide +kernel
  eq e s := by
    cases e with
    | image half h w =>
      cases half <;> simp [text, name, sample, tail, toString_self]
    | _ => simp [text, sample, tail]
  stops s := ⟨stops_text rfl (by decide), stops_text rfl (by decide)⟩

lemma written_debug : Written debug ',' (fun e => match e with
    | image half _ _ => "Image \x7b half: " ++ flag half ++ ", height: "
    | e => e.debug ++ ",") ", width: " " \x7d," where
  free := by decide +kernel
  eq e s := by
    cases e with
    | image half h w =>
      cases half <;> simp [debug, braces, toList_commas_cons, sample, tail, toString_self]
    | _ => simp [debug, sample, tail]
  stops s := ⟨stops_text rfl (by decide), stops_text rfl (by decide)⟩

end Element

namespace SymInt

def Named (e : SymInt) : Prop := ∀ v ∈ e.occurrences, isIdentifier v.name = true

lemma not_mem_int (n : Int) : '>' ∉ (toString n).toList := by
  have hd (k : Nat) : '>' ∉ Nat.toDigits 10 k := fun h => absurd (isDigit_toDigits h) (by decide)
  rw [toList_int]
  split
  · exact hd _
  · simpa using hd _

lemma not_mem_name {v : Variable} (h : isIdentifier v.name = true) :
    '>' ∉ v.name.toList := fun hc =>
  absurd (Variable.Proper.word (v := ⟨v.name, 0, 0⟩) ⟨.inr h, fits_zero, fits_zero⟩ _ hc)
    (by decide)

lemma not_mem_intercalate {sep : List Char} (hsep : '>' ∉ sep) {parts : List (List Char)}
    (h : ∀ p ∈ parts, '>' ∉ p) : '>' ∉ sep.intercalate parts := by
  induction parts with
  | nil => simp
  | cons p parts ih =>
    obtain ⟨hp, hrest⟩ := forall_mem_cons.1 h
    cases parts with
    | nil => simpa using hp
    | cons q parts =>
      rw [intercalate_cons_cons]
      simp only [mem_append, not_or]
      exact ⟨⟨hp, hsep⟩, ih hrest⟩

lemma not_mem_joinSorted {sep : String} (hsep : '>' ∉ sep.toList) {parts : List String}
    (h : ∀ p ∈ parts, '>' ∉ p.toList) : '>' ∉ (joinSorted sep parts).toList := by
  have hjoin : '>' ∉ sep.toList.intercalate
      ((parts.mergeSort (fun a b => decide (a ≤ b))).map String.toList) := by
    refine not_mem_intercalate hsep fun p hp => ?_
    obtain ⟨q, hq, rfl⟩ := mem_map.1 hp
    exact h q (mem_mergeSort.1 hq)
  simpa [joinSorted, String.toList_intercalate] using hjoin

mutual

lemma not_mem_key {e : SymInt} (h : e.Named) : '>' ∉ (e.renderWith keySpelling).toList := by
  cases e with
  | num n =>
    rw [renderWith]
    exact not_mem_int n
  | var v =>
    have hv := not_mem_name (h v (by simp))
    rw [renderWith, keySpelling, toList_text]
    simpa using ⟨hv, not_mem_int v.lo, not_mem_int v.hi⟩
  | mul a c | div a c | mod a c | lt a c =>
    have ha := not_mem_key (e := a) h
    rw [renderWith]
    simpa [keySpelling] using ⟨ha, not_mem_int c⟩
  | sum parts | conj parts =>
    rw [renderWith]
    exact not_mem_joinSorted (by decide) (not_mem_keys h)

lemma not_mem_keys {es : List SymInt}
    (h : ∀ v ∈ occurrencesAll es, isIdentifier v.name = true) :
    ∀ p ∈ renderAll keySpelling es, '>' ∉ p.toList := by
  cases es with
  | nil => simp [renderAll]
  | cons e es =>
    rw [renderAll]
    exact forall_mem_cons.2 ⟨not_mem_key fun v hv => h v (by simp [hv]),
      not_mem_keys fun v hv => h v (by simp [hv])⟩

end

lemma debug_read {a b : SymInt} (ha : a.Named) (hb : b.Named) :
    Text.Reads debug Any (fun a b => (a == b) = true) a b := by
  intro s t _ _ h
  have htext (e : SymInt) (s : List Char) : e.debug.toList ++ s = '<' ::
      (e.key.toList ++ '>' :: s) := by
    simp [debug]
  rw [htext, htext] at h
  have hstop (s : List Char) : Stops (fun c => c != '>') ('>' :: s) := stops_cons (by decide)
  have hrun {e : SymInt} (he : e.Named) : ∀ c ∈ e.key.toList, (c != '>') = true := by
    intro c hc
    simp only [bne_iff_ne, ne_eq]
    rintro rfl
    exact not_mem_key he hc
  obtain ⟨hkey, h⟩ := append_inj_of_stops (hrun ha) (hrun hb) (hstop s) (hstop t) (cons.inj h).2
  refine ⟨?_, (cons.inj h).2⟩
  show (a.key == b.key) = true
  rw [String.toList_inj.1 hkey, beq_self_eq_true]

end SymInt

lemma beq_of_forall₂ {α : Type} [BEq α] {as bs : List α}
    (h : Forall₂ (fun a b => (a == b) = true) as bs) : (as == bs) = true := by
  induction h with
  | nil => rfl
  | cons hab _ ih => simp [hab, ih]

def Shape.Named (shape : Shape) : Prop := ∀ d ∈ shape, d.Named

lemma Shape.debug_read {a b : Shape} (ha : a.Named) (hb : b.Named) :
    Reads Shape.debug Any (fun a b => (a == b) = true) a b := by
  refine (brackets_read (fun d hd e he => (SymInt.debug_read (ha d hd) (hb e he)).imp
    (fun _ _ => trivial) id) fun d => ?_).imp (fun _ => id) beq_of_forall₂
  exact ⟨'<', _, by rw [SymInt.debug, String.toList_append, String.toList_append]; rfl,
    by decide⟩

namespace View

lemma toList_debug (v : View) (s : List Char) : v.debug.toList ++ s =
    "View \x7b shape: ".toList ++ (v.shape.debug.toList ++ (", strides: ".toList ++
      ((Text.ints v.strides).toList ++ (", offset: ".toList ++ ((toString v.offset).toList ++
        (", mask: ".toList ++ ((maskText v.mask).toList ++ (", contiguous: ".toList ++
          ((Text.flag v.contiguous).toList ++ (" \x7d".toList ++ s)))))))))) := by
  simp [debug, braces, toList_commas_cons]

lemma debug_read {v w : View} (hv : v.shape.Named) (hw : w.shape.Named) :
    Text.Reads debug Any (fun v w => (v == w) = true) v w := by
  intro s t _ _ h
  rw [toList_debug, toList_debug, append_cancel_left_eq] at h
  obtain ⟨hshape, h⟩ := Shape.debug_read hv hw _ _ trivial trivial h
  rw [append_cancel_left_eq] at h
  obtain ⟨hstrides, h⟩ := ints_read _ _ _ _ trivial trivial h
  rw [append_cancel_left_eq] at h
  obtain ⟨hoffset, h⟩ := int_read (stops_text rfl (by decide)) (stops_text rfl (by decide)) h
  rw [append_cancel_left_eq] at h
  obtain ⟨hmask, h⟩ := mask_read _ _ _ _ trivial trivial h
  rw [append_cancel_left_eq] at h
  obtain ⟨hcontiguous, h⟩ := flag_read _ _ _ _ trivial trivial h
  refine ⟨?_, append_cancel_left h⟩
  show (v.shape == w.shape && v.strides == w.strides && v.offset == w.offset && v.mask == w.mask
    && v.contiguous == w.contiguous) = true
  simp [hshape, hstrides, hoffset, hmask, hcontiguous]

end View

namespace Layout

def Named (l : Layout) : Prop := ∀ v ∈ l.views, v.shape.Named

lemma beq_of_views {l l' : Layout}
    (h : Forall₂ (fun v w => (v == w) = true) l.views l'.views) : (l == l') = true := by
  have hrev := rel_reverse h
  simp only [views, reverse_append, reverse_cons, reverse_nil, nil_append,
    reverse_reverse, singleton_append] at hrev
  cases hrev with
  | cons htop hbelow =>
    show (l.top == l'.top && l.below == l'.below) = true
    simp [htop, beq_of_forall₂ hbelow]

lemma toList_debug (l : Layout) (s : List Char) : l.debug.toList ++ s =
    "ShapeTracker \x7b views: ".toList ++ ((Text.brackets (l.views.map View.debug)).toList ++
      (" \x7d".toList ++ s)) := by
  simp [debug, braces, toList_commas_cons]

lemma debug_read {l l' : Layout} (hl : l.Named) (hl' : l'.Named) :
    Reads debug Any (fun l l' => (l == l') = true) l l' := by
  intro s t _ _ h
  rw [toList_debug, toList_debug, append_cancel_left_eq] at h
  obtain ⟨hviews, h⟩ :=
    brackets_read (fun v hv w hw => (View.debug_read (hl v hv) (hl' w hw)).imp
    (fun _ _ => trivial) id) (fun v =>
    ⟨'V', _, by simpa using View.toList_debug v [], by decide⟩)
    _ _ trivial trivial h
  exact ⟨beq_of_views hviews, append_cancel_left h⟩

end Layout

end LazyTensor
