import LazyTensor.Proofs.SymInt.Linear

/-! Linear arithmetic makes no atoms of its own. -/
namespace LazyTensor.SymInt
variable {a e r b t : SymInt} {c n : Int} {ts es : List SymInt}

open Checked

variable {A : Assignment}

lemma atoms_of_isAtom (h : a.isAtom = true) : a.atoms = [a] := by
  obtain ⟨hs, hn, he⟩ := (atomic_of_isAtom h).flat
  rw [atoms_term hs hn, he]

@[simp] lemma atoms_mul (a : SymInt) (c : Int) : (mul a c).atoms = [a] := atoms_term rfl rfl

lemma Regular.mem_atoms {scope : Variable → Prop} (h : e.Regular scope) (ha : a ∈ e.atoms) :
    a.Regular scope ∧ a.isAtom = true := by
  obtain ⟨t, ht, rfl⟩ := List.mem_map.1 ha
  exact ((h.loose t ht).atomCoeff (kind_index scope)).1

/-! Sums. -/

lemma total_atoms (h : ∀ e ∈ es, e.Regular A.scope) (hr : total es = .ok r) :
    r.atoms.Sublist (es.flatMap atoms) := by
  rw [flatMap_atoms]
  exact (total_flat (kind_index _) (fun e he => (h e he).loose) hr).2.2.1.atoms

lemma plus_atoms (ha : a.Regular A.scope) (hb : b.Regular A.scope) (h : a.plus b = .ok r) :
    r.atoms.Sublist (a.atoms ++ b.atoms) := by
  simpa using total_atoms (A := A) (by simp [ha, hb]) h

lemma times_atoms (he : e.Regular A.scope) (hc : Fits c) (h : e.times c = .ok r) :
    r.atoms.Sublist e.atoms := (times_multiplies (kind_index _) e he.loose hc h).atoms

lemma plusInt_atoms (he : e.Regular A.scope) (hn : Fits n) (h : e.plusInt n = .ok r) :
    r.atoms.Sublist e.atoms := by
  simpa using plus_atoms he (.num hn) h

lemma minus_num (h : e.minus (num n) = .ok r) : Fits (-n) ∧ e.plusInt (-n) = .ok r := by
  obtain ⟨_, hr, h⟩ := bind_eq_ok.1 h
  rw [negate, times.eq_def] at hr
  obtain ⟨m, hm, ⟨⟩⟩ := bind_eq_ok.1 hr
  obtain ⟨hf, rfl⟩ := mul_eq_ok.1 hm
  rw [mul_neg_one] at hf h
  exact ⟨hf, h⟩

/-! Terms that are distinct stay as they are. -/

lemma total_keeps (h : ∀ t ∈ ts, t.Regular A.scope ∧ t.isSum = false)
    (hd : ((ts.filter (fun p => !p.isNum)).map (fun p => p.atomCoeff.1.key)).Nodup)
    (hr : total ts = .ok r) (ht : t ∈ ts) (hn : t.isNum = false) : t ∈ r.terms := by
  have hflat : ts.flatMap symbols = ts.filter (fun p => !p.isNum) := by
    rw [← symbols_termsAll, termsAll_flat fun t ht => (h t ht).2]
  have hs := (total_flat (kind_index _) (fun t ht => (h t ht).1.loose) hr).2.2.2
  rw [hflat] at hs
  have hmem : t ∈ r.symbols := hs hd ▸ List.mem_filter.2 ⟨ht, by simp [hn]⟩
  exact List.mem_of_mem_filter hmem

/-! The lower end. -/

lemma total_lo (h : ∀ e ∈ es, e.Regular A.scope) (hr : total es = .ok r) :
    (es.map lo).sum ≤ r.lo := by
  refine total_lo_of (kind_index A.scope) (fun ha hb hk => ?_) (fun e he => (h e he).loose) hr
  funext c
  simp only [lowEnd, lo, hi, (agree_atoms ha hb hk).range]

lemma plus_lo (ha : a.Regular A.scope) (hb : b.Regular A.scope) (h : a.plus b = .ok r) :
    a.lo + b.lo ≤ r.lo := by
  simpa using total_lo (A := A) (by simp [ha, hb]) h

/-! Failures. -/

lemma scale_overflow (a : SymInt) (c : Int) : OnlyOverflow (scale a c) := by
  unfold scale
  split
  · exact .ok _
  split
  · exact .ok _
  · exact (OnlyOverflow.word _).bind (fun _ _ => (OnlyOverflow.word _).bind (fun _ _ => .pure _))

lemma addCoeff_overflow (gs : List (SymInt × Int)) (a : SymInt) (c : Int) :
    OnlyOverflow (addCoeff gs a c) := by
  induction gs with
  | nil => exact .ok _
  | cons g gs ih =>
    unfold addCoeff
    split
    · exact (OnlyOverflow.word _).bind (fun _ _ => .pure _)
    · exact ih.bind (fun _ _ => .pure _)

lemma mergeTerms_overflow (ts : List SymInt) : OnlyOverflow (mergeTerms ts) :=
  (OnlyOverflow.foldlM (fun _ _ => addCoeff_overflow _ _ _) ts []).bind
    (fun _ _ => .mapM (fun _ _ => scale_overflow _ _))

lemma assemble_overflow (ts : List SymInt) (k : Int) : OnlyOverflow (assemble ts k) := by
  unfold assemble
  split
  · exact .pure _
  · exact .pure _
  · exact (OnlyOverflow.sum _).bind (fun _ _ => (OnlyOverflow.sum _).bind (fun _ _ => .pure _))

lemma total_overflow (es : List SymInt) : OnlyOverflow (total es) := by
  unfold total
  split
  · exact .pure _
  · exact .pure _
  · refine (OnlyOverflow.sum _).bind (fun k _ => ?_)
    dsimp only
    split
    · exact assemble_overflow _ k
    · exact (mergeTerms_overflow _).bind (fun ts _ => assemble_overflow ts k)

lemma plus_overflow (a b : SymInt) : OnlyOverflow (a.plus b) := total_overflow _

mutual

lemma times_overflow (e : SymInt) (c : Int) : OnlyOverflow (e.times c) := by
  rw [times.eq_def]
  dsimp only
  split
  · exact .ok _
  split
  · exact .ok _
  split
  · exact (OnlyOverflow.word _).bind (fun _ _ => .pure _)
  · exact (OnlyOverflow.word _).bind (fun d _ => times_overflow _ d)
  · exact (timesAll_overflow _ c).bind (fun qs _ => total_overflow qs)
  · exact scale_overflow _ c

lemma timesAll_overflow (es : List SymInt) (c : Int) : OnlyOverflow (timesAll es c) := by
  match es with
  | [] => exact .ok _
  | e :: es =>
    exact (times_overflow e c).bind (fun _ _ => (timesAll_overflow es c).bind (fun _ _ => .pure _))

end

lemma minus_overflow (a b : SymInt) : OnlyOverflow (a.minus b) :=
  (times_overflow b (-1)).bind (fun _ _ => plus_overflow _ _)

section
variable {N : Prop} {x y : Int}

lemma total_delivers (h : ∀ e ∈ es, e.Regular A.scope) :
    Delivers N (total es) (Means A · (es.map (value A.value)).sum) :=
  ⟨total_means h, fun _ => total_overflow es⟩

lemma plus_delivers (ha : Means A a x) (hb : Means A b y) :
    Delivers N (a.plus b) (Means A · (x + y)) :=
  ⟨plus_means ha hb, fun _ => plus_overflow a b⟩

lemma minus_delivers (ha : Means A a x) (hb : Means A b y) :
    Delivers N (a.minus b) (Means A · (x - y)) :=
  ⟨minus_means ha hb, fun _ => minus_overflow a b⟩

lemma times_delivers (he : Means A e x) (hc : Fits c) :
    Delivers N (e.times c) (Means A · (x * c)) :=
  ⟨times_means he hc, fun _ => times_overflow e c⟩

lemma negate_delivers (he : Means A e x) : Delivers N e.negate (Means A · (-x)) :=
  ⟨negate_means he, fun _ => times_overflow e _⟩

end

end LazyTensor.SymInt
