import LazyTensor.Proofs.View.Movement

/-! Reading through a stack of views. -/
namespace LazyTensor
open List Shape View

open Checked SymInt

variable {A : Assignment}
variable {shape : Shape} {idxs : List SymInt}

lemma SymInt.Condition.zero_of_hi {scope : Variable → Prop} {e : SymInt} (h : e.Condition scope)
    (h0 : e.hi = 0) : e = num 0 := by
  cases h with
  | zero => rfl
  | one => simp at h0
  | test ht =>
    have := ht.range.2
    omega
  | conj hne hps =>
    have := (tests_range hne hps).2
    omega

/-- The access has the outcome of a numeric walk. -/
structure Access.Reads (A : Assignment) (a : Access) (o : Option Int) : Prop where
  index : a.index.Regular A.scope
  valid : a.valid.Condition A.scope
  hidden : o = none → a.valid.value A.value = 0
  found : ∀ x, o = some x → a.valid.value A.value = 1 ∧ a.index.value A.value = x

/-- A view through which indices can be read: numbers for dimensions, all of them positive. -/
def View.Readable (v : View) : Prop := ∃ dims, v.Grid dims ∧ ∀ d ∈ dims, 0 < d

namespace Layout
variable {vs : List View} {o : Option Int} {r : Access}
variable {a : Access}

lemma descendTo_cons {v : View} {dims : List Int} {x : Int} (hv : v.Grid dims)
    (hpos : ∀ d ∈ dims, 0 < d) (h : descendTo (v :: vs) x = .ok o) :
    (v.allows (place dims x) = false ∧ o = none) ∨ (v.allows (place dims x) = true ∧
        descendTo vs (v.offset + spread (dims.zip v.strides) x) = .ok o) := by
  simp only [descendTo, hv.shape, ints?_eq_some.2 rfl, bind_eq_ok] at h
  obtain ⟨out, hout, h⟩ := h
  cases digits_eq hpos hout
  by_cases ha : v.allows (place dims x) = true
  · rw [if_pos ha] at h
    obtain ⟨y, hy, h⟩ := bind_eq_ok.1 h
    rw [offsetAt_place hv hy] at h
    exact .inr ⟨ha, h⟩
  · rw [if_neg ha, pure_eq_ok] at h
    exact .inl ⟨by simpa using ha, h.symm⟩

/-- Walking down keeps an access well formed, and keeps it next to a numeric walk. -/
lemma descend_delivers (hvs : ∀ v ∈ vs, v.Readable) (hi : a.index.Regular A.scope)
    (hc : a.valid.Condition A.scope) : Delivers A.Nonneg (descend vs a)
      (fun r => r.index.Regular A.scope ∧ r.valid.Condition A.scope ∧ ∀ o o', a.Reads A o →
        o.elim (.ok none) (descendTo vs) = .ok o' → r.Reads A o') := by
  induction vs generalizing a with
  | nil =>
    refine .ok ⟨hi, hc, fun o o' ha hn => ?_⟩
    cases o with
    | none | some x =>
      cases hn
      exact ha
  | cons v vs ih =>
    obtain ⟨⟨dims, hv, hpos⟩, hvs⟩ := forall_mem_cons.1 hvs
    rw [descend]
    split
    · -- the condition is zero, so the walk has already ended
      rename_i h0
      refine .ok ⟨.num (by decide), hc, fun o o' ha hn => ?_⟩
      have hz := hc.zero_of_hi h0
      cases o with
      | none =>
        cases hn
        exact ⟨.num (by decide), hc, ha.hidden, fun x hx => by cases hx⟩
      | some x =>
        have := (ha.found x rfl).1
        rw [hz, value_num] at this
        omega
    · refine (valid_delivers hv hpos hi.means (p := a.valid.value A.value = 1)
        ⟨by simpa using hc, by simp⟩).bind fun valid hd => ?_
      refine (addressFlat_delivers hv hpos hi.means).bind fun index hm => ?_
      refine (ih hvs hm.regular hd.condition).weaken fun r hr =>
        ⟨hr.1, hr.2.1, fun o o' ha hn => ?_⟩
      have hbit := hd.condition.bit A.value
      cases o with
      | none =>
        refine hr.2.2 none o' ⟨hm.regular, hd.condition, fun _ => ?_, fun x hx =>
          by cases hx⟩ hn
        have h0 := ha.hidden rfl
        have hv0 := hd.value
        grind
      | some x =>
        obtain ⟨h1, hx⟩ := ha.found x rfl
        rw [hx, h1] at hd
        rw [hx] at hm
        obtain ⟨hall, rfl⟩ | ⟨hall, hn⟩ := descendTo_cons hv hpos hn
        · refine hr.2.2 none none ⟨hm.regular, hd.condition, fun _ => ?_, fun x hx =>
            by cases hx⟩ rfl
          have hv0 := hd.value
          grind
        · refine hr.2.2 (some (v.offset + spread (dims.zip v.strides) x)) o'
            ⟨hm.regular, hd.condition, (fun hnone => by cases hnone), ?_⟩ hn
          rintro y ⟨⟩
          exact ⟨hd.value.2 ⟨rfl, hall⟩, hm.value⟩

lemma descendTo_overflow (hvs : ∀ v ∈ vs, v.Readable) (x : Int) :
    OnlyOverflow (descendTo vs x) := by
  induction vs generalizing x with
  | nil => exact .ok _
  | cons v vs ih =>
    obtain ⟨⟨dims, hv, _⟩, hvs⟩ := forall_mem_cons.1 hvs
    simp only [descendTo, hv.shape, ints?_eq_some.2 rfl]
    refine (digits_overflow dims x).bind (fun _ _ => ?_)
    split
    · exact (v.offsetAt_overflow _).bind (fun _ _ => ih hvs _)
    · exact .ok _

end Layout

/-! The top view, with one index for each axis. -/

namespace View
variable {v : View} {idxs : List SymInt} {p : List Int}
variable {shape : Shape} {e : SymInt} {dims : List Int}

lemma regular_of_means (hi : Forall₂ (Means A) idxs p) : ∀ e ∈ idxs, e.Regular A.scope := by
  induction hi with
  | nil => simp
  | cons he _ ih => exact forall_mem_cons.2 ⟨he.regular, ih⟩

lemma moving_sum {strides : List Int} (hi : Forall₂ (Means A) idxs p)
    (hs : Forall₂ (fun i d => d.is 1 = true → i = 0) p shape)
    (hlen : strides.length = shape.length) :
    ((((idxs.zip shape).zip strides).filter (fun ((_, d), st) => !d.is 1 && st != 0)).map
      (fun t => t.1.1.value A.value * t.2)).sum = (zipWith (· * ·) p strides).sum := by
  induction hi generalizing shape strides with
  | nil => simp
  | @cons e i es is he _ ih =>
    cases hs with
    | @cons _ d _ ds hd hds =>
      cases strides with
      | nil => cases hlen
      | cons st strides =>
        rw [zip_cons_cons, zip_cons_cons, zipWith_cons_cons, sum_cons,
          ← ih hds (by simpa using hlen)]
        by_cases hmove : (!d.is 1 && st != 0) = true
        · simp only [filter_cons, hmove, if_true, map_cons, sum_cons, he.value]
        · simp only [filter_cons, hmove, Bool.false_eq_true, if_false]
          have hzero : i * st = 0 := by
            simp only [Bool.and_eq_true, Bool.not_eq_true', bne_iff_ne, not_and_or,
              Bool.not_eq_false, not_not] at hmove
            cases hmove with
            | inl h1 => rw [hd h1, zero_mul]
            | inr h0 => rw [h0, mul_zero]
          rw [hzero, zero_add]

lemma address_delivers {N : Prop} (hv : v.Sound) (hi : Forall₂ (Means A) idxs p)
    (hs : Forall₂ (fun i d => d.is 1 = true → i = 0) p v.shape) : Delivers N (v.address idxs)
      (Means A · (v.offset + (zipWith (· * ·) p v.strides).sum)) := by
  unfold address
  rw [if_neg (by simp [hi.length_eq, hs.length_eq])]
  refine (Delivers.mapM (R := fun t e => Means A e (t.1.1.value A.value * t.2)) fun t ht => ?_).bind
    fun terms hterms => ?_
  · obtain ⟨h1, h2⟩ := of_mem_zip (mem_of_mem_filter ht)
    exact times_delivers (regular_of_means hi _ (of_mem_zip h1).1).means (hv.strides_fit _ h2)
  have hall := means_all hterms
  have hm := total_delivers (N := N) (A := A) (forall_mem_cons.2 ⟨.num hv.offset_fits, hall.1⟩)
  rwa [map_cons, sum_cons, value_num, hall.2, moving_sum hi hs hv.strides_length] at hm

lemma flattenTerms_means {out : List SymInt × Int} (hi : Forall₂ (Means A) idxs p)
    (hlen : p.length = dims.length) (h : flattenTerms (idxs.zip (ofInts dims)) = .ok out) :
    out.2 = dims.prod ∧ Fits out.2 ∧ (∀ t ∈ out.1, t.Regular A.scope) ∧
      (out.1.map (value A.value)).sum = Shape.rank dims p := by
  induction hi generalizing dims out with
  | nil =>
    cases length_eq_zero_iff.1 hlen.symm
    cases h
    exact ⟨rfl, fits_one, by simp, rfl⟩
  | @cons e i es is he _ ih =>
    cases dims with
    | nil => cases hlen
    | cons d ds =>
      simp only [ofInts, map_cons, zip_cons_cons, flattenTerms, num?,
        Option.getD_some, bind_eq_ok, mul_eq_ok, pure_eq_ok] at h
      obtain ⟨⟨_, _⟩, hterms, t, ht, _, ⟨hf, rfl⟩, rfl⟩ := h
      obtain ⟨rfl, hfit, hreg, hsum⟩ := ih (by simpa using hlen) hterms
      have hm := times_means he hfit ht
      refine ⟨by simp [mul_comm], hf, by simpa [or_imp, forall_and] using ⟨hreg, hm.regular⟩,
        ?_⟩
      rw [map_append, sum_append, hsum, Shape.rank, add_comm]
      simp [hm.value]

lemma flatten_means (hi : Forall₂ (Means A) idxs p)
    (h : Shape.flatten (ofInts dims) idxs = .ok e) : Means A e (Shape.rank dims p) := by
  unfold Shape.flatten at h
  split at h
  · cases h
  · rename_i hlen
    simp only [bind_eq_ok] at h
    obtain ⟨out, hout, h⟩ := h
    have hp : p.length = dims.length := by
      rw [← hi.length_eq]
      simpa [ofInts] using hlen
    obtain ⟨_, _, hreg, hsum⟩ := flattenTerms_means hi hp hout
    exact hsum ▸ total_means hreg h

lemma flattenTerms_overflow (xs : List (SymInt × SymInt)) : OnlyOverflow (flattenTerms xs) := by
  induction xs with
  | nil => exact .ok _
  | cons x xs ih =>
    exact ih.bind (fun _ _ => (times_overflow _ _).bind (fun _ _ =>
      (OnlyOverflow.word _).bind (fun _ _ => .ok _)))

lemma flatten_overflow (h : idxs.length = shape.length) : OnlyOverflow (shape.flatten idxs) := by
  unfold Shape.flatten
  rw [if_neg (by simpa using h)]
  exact (flattenTerms_overflow _).bind (fun _ _ => total_overflow _)

/-- A mask stands only over dimensions that are numbers, and the position lies inside them. -/
def MaskInside (v : View) (p : List Int) : Prop :=
  v.mask = none ∨ ∃ dims, v.Grid dims ∧ Shape.Inside dims p

lemma validAt_delivers (hi : Forall₂ (Means A) idxs p) (hlen : idxs.length = v.shape.length)
    (hm : v.MaskInside p) : Delivers A.Nonneg (v.validAt idxs)
      (Decides A · (v.allows p = true)) := by
  obtain hnone | ⟨dims, hv, hin⟩ := hm
  · refine Delivers.bind (P := fun _ => True)
      ⟨fun _ => trivial, fun _ => flatten_overflow hlen⟩ fun flat _ => ?_
    simp only [valid, hnone]
    exact .ok ((conjunction_decides (by simp)).congr (by simp [allows, hnone]))
  · refine Delivers.bind (P := (Means A · (rank dims p)))
      ⟨fun h => flatten_means hi (hv.shape ▸ h), fun _ => flatten_overflow hlen⟩
        fun flat hflat => ?_
    have hd : Delivers _ (valid _ _ none) _ := valid_delivers hv hin.pos hflat (p := True) (by simp)
    rw [place_rank hin] at hd
    exact hd.weaken fun _ h => h.congr (by simp)

end View

/-! The counters of the axes. -/

namespace Layout

lemma isIdentifier_counter (i : Nat) : Variable.isIdentifier s!"idx{i}" = true := by
  have hlist : (s!"idx{i}" : String).toList = 'i' :: 'd' :: 'x' :: Nat.toDigits 10 i := by
    simp [toString, String.toList_append, Nat.toList_repr]
  rw [Variable.isIdentifier, hlist]
  have hall : (Nat.toDigits 10 i).all (fun c => c.isAlphanum || c = '_') = true := by
    rw [all_eq_true]
    intro c hc
    have hd := Nat.isDigit_of_mem_toDigits (b := 10) (by omega) (by omega) hc
    simp [Char.isAlphanum, hd]
  simp [hall]

def Counts (d e : SymInt) : Prop :=
  ∃ v : Variable, v.Proper ∧ v.lo = 0 ∧ v.hi = max (d.hi - 1) 0 ∧ e = ofVariable v

lemma ofVariable_eq_var {u v : Variable} (h : ofVariable u = var v) : u = v := by
  unfold ofVariable at h
  split at h
  · cases h
  · cases h
    rfl

lemma counters_count (h : shape.counters = .ok idxs) : Forall₂ Counts shape idxs := by
  unfold counters at h
  generalize 0 = k at h
  induction shape generalizing k idxs with
  | nil =>
    cases h
    exact .nil
  | cons d ds ih =>
    rw [zipIdx_cons] at h
    simp only [mapM_cons, bind_eq_ok, pure_eq_ok, sub_eq_ok, counter] at h
    obtain ⟨e, ⟨_, ⟨hf, rfl⟩, v, hv, rfl⟩, es, hes, rfl⟩ := h
    unfold Variable.counter at hv
    split at hv
    · cases hv
      have hmax : Fits (max (d.hi - 1) 0) := by
        cases max_cases (d.hi - 1) 0 with
        | inl h => rwa [h.1]
        | inr h =>
          rw [h.1]
          exact fits_zero
      have hproper : Variable.Proper ⟨s!"idx{k}", 0, max (d.hi - 1) 0⟩ :=
        ⟨.inr (isIdentifier_counter k), fits_zero, hmax⟩
      exact .cons ⟨_, hproper, rfl, rfl, rfl⟩ (ih _ hes)
    · cases hv

lemma counters_overflow (shape : Shape) : OnlyOverflow shape.counters := by
  refine OnlyOverflow.mapM (fun x _ => (OnlyOverflow.word _).bind (fun _ _ => ?_))
  simp only [counter, Variable.counter, le_max_right, if_true]
  exact .ok _

lemma counters_mean {p : List Int} (hc : Forall₂ Counts shape idxs)
    (hp : Forall₂ (fun d i => 0 ≤ i ∧ i ≤ max (d.hi - 1) 0) shape p)
    (hA : Forall₂ (fun e i => ∀ v, e = var v → A.scope v ∧ A.value v = i) idxs p) :
    Forall₂ (Means A) idxs p := by
  induction hc generalizing p with
  | nil =>
    cases hp
    exact .nil
  | @cons d e ds es he _ ih =>
    cases hp with
    | @cons _ i _ is hi his =>
      cases hA with
      | cons hv hvs =>
        refine .cons ?_ (ih his hvs)
        obtain ⟨v, hproper, hlo, hhi, rfl⟩ := he
        unfold ofVariable at hv ⊢
        split
        · rename_i hsame
          have h0 : i = 0 := by omega
          rw [hlo, h0]
          exact means_num fits_zero
        · rename_i hdiff
          rw [if_neg hdiff] at hv
          obtain ⟨hs, rfl⟩ := hv v rfl
          exact ⟨.var hproper (by omega) hs, by rw [value]⟩

section
variable {l : Layout} {idxs : List SymInt} {p : List Int} {a : Access}
  (htop : l.top.Sound) (hbelow : ∀ v ∈ l.below, v.Readable) (hi : Forall₂ (Means A) idxs p)
  (hs : Forall₂ (fun i d => d.is 1 = true → i = 0) p l.top.shape) (hm : l.top.MaskInside p)
include htop hbelow hi hs hm

lemma access_delivers : Delivers A.Nonneg (l.access idxs) (fun a =>
    a.index.Regular A.scope ∧ a.valid.Condition A.scope ∧ ∀ o, l.offsetOf p = .ok o →
      a.Reads A o) := by
  refine (address_delivers htop hi hs).bind fun index haddr => ?_
  refine (validAt_delivers hi (by rw [hi.length_eq, hs.length_eq]) hm).bind fun valid hd => ?_
  refine (descend_delivers hbelow haddr.regular hd.condition).weaken
    fun a ha => ⟨ha.1, ha.2.1, fun o hn => ?_⟩
  have hbit := hd.condition.bit A.value
  unfold offsetOf at hn
  split at hn
  · rename_i hall
    obtain ⟨x, hx, hn⟩ := bind_eq_ok.1 hn
    refine ha.2.2 (some x) o ⟨haddr.regular, hd.condition, ?_, ?_⟩ hn
    · intro hnone
      cases hnone
    · rintro y ⟨⟩
      exact ⟨hd.value.2 hall, by rw [haddr.value, offsetAt_eq hx]⟩
  · rename_i hall
    cases hn
    refine ha.2.2 none none ⟨haddr.regular, hd.condition, ?_, ?_⟩ rfl
    · intro _
      have := hd.value
      grind
    · intro y hy
      cases hy

end

lemma offsetOf_overflow {l : Layout} (hbelow : ∀ v ∈ l.below, v.Readable) (p : List Int) :
    OnlyOverflow (l.offsetOf p) := by
  unfold offsetOf
  split
  · exact (l.top.offsetAt_overflow p).bind (fun _ _ => descendTo_overflow hbelow _)
  · exact .ok _

end Layout

end LazyTensor
