import LazyTensor.Proofs.Texture.Narrow

/-! Addressing of images. Where every narrowed variable keeps to its narrowed range, the coordinates
are those of the flat index, and what is left of the condition fails unless all of it holds or the
texel lies outside. -/
namespace LazyTensor.Texture
open List VarMap
variable {sub : VarMap SymInt}

open Checked SymInt

/-! Conditions that the edges of the image cover. -/

section
variable {A : Assignment} {e s c : SymInt} {k dim : Int}

lemma splitConstant_means (he : e.Regular A.scope) (h : splitConstant e = .ok (s, k)) :
    Means A s (e.value A.value - k) := by
  unfold splitConstant at h
  split at h
  · rename_i ps
    simp only [bind_eq_ok, pure_eq_ok, Prod.mk.injEq] at h
    obtain ⟨n, hn, t, ht, rfl, rfl⟩ := h
    cases he with
    | sum hps _ _ _ _ _ =>
      have hm := total_means (fun p hp => hps p (mem_of_mem_filter hp)) ht
      refine ⟨hm.regular, ?_⟩
      have hparts := sum_split_nums _ (value_num A.value) ps
      rw [hm.value, value_sum, sum_eq hn]
      omega
  · cases h
    simpa using means_num fits_zero
  · cases h
    simpa using he.means

lemma isBound_outside (hc : c.Condition A.scope) (he : e.Regular A.scope)
    (h : isBound c e dim = .ok true) (hv : c.value A.value ≠ 1) :
    e.value A.value < 0 ∨ dim ≤ e.value A.value := by
  unfold isBound at h
  split at h
  · rename_i a b
    simp only [bind_eq_ok] at h
    obtain ⟨⟨_, k⟩, hsplit, h⟩ := h
    have hs := splitConstant_means he hsplit
    cases hc with
    | test ht =>
      obtain ⟨_, _, heq, ha, _⟩ := ht.open_lt
      cases heq
      have hle : b ≤ a.value A.value := by
        rw [value] at hv
        by_contra hlt
        exact hv (if_pos (by omega))
      split at h
      · cases h
      split at h
      · rename_i heq
        have hvalue := (agree_of_beq ha.readable hs.regular.readable heq).value A.value
        simp only [bind_eq_ok, pure_eq_ok, add_eq_ok] at h
        obtain ⟨_, ⟨_, rfl⟩, h⟩ := h
        have hdim : b + k = dim := by simpa using h
        rw [hs.value] at hvalue
        omega
      simp only [bind_eq_ok] at h
      obtain ⟨n, hn, h⟩ := h
      split at h
      · rename_i heq
        have hneg := negate_means ha.means hn
        have hvalue := (agree_of_beq hneg.regular.readable hs.regular.readable heq).value A.value
        simp only [bind_eq_ok, pure_eq_ok, add_eq_ok, sub_eq_ok] at h
        obtain ⟨_, ⟨_, rfl⟩, _, ⟨_, rfl⟩, h⟩ := h
        have hzero : k - b + 1 = 0 := by simpa using h
        rw [hs.value, hneg.value] at hvalue
        omega
      · cases h
  · cases h

lemma isBound_overflow (c e : SymInt) (dim : Int) : OnlyOverflow (isBound c e dim) := by
  unfold isBound
  split
  · have hsplit : OnlyOverflow (splitConstant e) := by
      unfold splitConstant
      split
      · exact (OnlyOverflow.sum _).bind (fun _ _ => (total_overflow _).bind (fun _ _ => .pure _))
      · exact .ok _
      · exact .ok _
    refine hsplit.bind (fun x _ => ?_)
    obtain ⟨_, k⟩ := x
    dsimp only
    split
    · exact .pure _
    split
    · exact (OnlyOverflow.word _).bind (fun _ _ => .pure _)
    refine (times_overflow _ _).bind (fun n _ => ?_)
    split
    · exact (OnlyOverflow.word _).bind (fun _ _ => (OnlyOverflow.word _).bind (fun _ _ => .pure _))
    · exact .pure _
  · exact .ok _

end

/-- What stays of a condition: it holds where the condition does, and wherever it holds in vain
the texel at `x` and `y` lies outside the image. -/
structure Weakens (A : Assignment) (height width x y : Int) (valid r : SymInt) : Prop where
  condition : r.Condition A.scope
  keeps : valid.value A.value = 1 → r.value A.value = 1
  covered : r.value A.value = 1 → valid.value A.value = 1 ∨ isOutside height width (x, y) = true

section
variable {A : Assignment} {height width x y : Int} {valid r s : SymInt} {t : Texel}
variable {v : Variable} {limit : Nat}

lemma Weakens.refl (h : valid.Condition A.scope) : Weakens A height width x y valid valid :=
  ⟨h, id, .inl⟩

lemma Weakens.trans (h : Weakens A height width x y valid r)
    (h' : Weakens A height width x y r s) : Weakens A height width x y valid s :=
  ⟨h'.condition, fun hv => h'.keeps (h.keeps hv), fun hs => (h'.covered hs).elim h.covered .inr⟩

lemma dropBounds_weakens (hx : t.x.Regular A.scope) (hy : t.y.Regular A.scope)
    (hv : t.valid.Condition A.scope) (h : dropBounds height width t = .ok r) :
    Weakens A height width (t.x.value A.value) (t.y.value A.value) t.valid r := by
  simp only [dropBounds, bind_eq_ok, pure_eq_ok] at h
  obtain ⟨_, hkept, rfl⟩ := h
  obtain ⟨hsub, hdrop⟩ := filterM_cases hkept
  obtain ⟨hconds, hall⟩ := hv.conditions
  have hd := conjunction_decides (A := A) (fun c hc => (hconds c (hsub c hc)).1)
  refine ⟨hd.condition, fun hone => ?_, fun hone => ?_⟩
  · exact hd.value.2 (fun c hc => (hall _).1 hone c (hsub c hc))
  · by_cases hout : isOutside height width (t.x.value A.value, t.y.value A.value) = true
    · exact .inr hout
    refine .inl ((hall _).2 (fun c hc => ?_))
    obtain hin | hfalse := hdrop c hc
    · exact hd.value.1 hone c hin
    by_contra hne
    have hinside : ¬(t.x.value A.value < 0 ∨ width ≤ t.x.value A.value) ∧
        ¬(t.y.value A.value < 0 ∨ height ≤ t.y.value A.value) := by
      simp only [isOutside, Bool.or_eq_true, decide_eq_true_eq] at hout
      omega
    simp only [bind_eq_ok] at hfalse
    obtain ⟨bx, hbx, hfalse⟩ := hfalse
    split at hfalse
    · rename_i htrue
      rw [htrue] at hbx
      exact hinside.1 (isBound_outside (hconds c hc).1 hx hbx hne)
    · simp only [bind_eq_ok, pure_eq_ok] at hfalse
      obtain ⟨bY, hby, hfalse⟩ := hfalse
      have hbY : bY = true := by simpa using hfalse
      rw [hbY] at hby
      exact hinside.2 (isBound_outside (hconds c hc).1 hy hby hne)

lemma dropBounds_overflow (height width : Int) (t : Texel) :
    OnlyOverflow (dropBounds height width t) := by
  refine (OnlyOverflow.filterM (fun c => ?_) _).bind (fun _ _ => .pure _)
  refine (isBound_overflow _ _ _).bind (fun b _ => ?_)
  split
  · exact .pure _
  · exact (isBound_overflow _ _ _).bind (fun _ _ => .pure _)

/-! Conditions that enumeration shows to be redundant. -/

lemma mem_zip_of_mapM {α : Type} {f g h : α → Checked SymInt} {cs : List α}
    {vs xs ys : List SymInt} (hv : cs.mapM f = .ok vs) (hx : cs.mapM g = .ok xs)
    (hy : cs.mapM h = .ok ys) {c : α} (hc : c ∈ cs) :
    ∃ v x y, f c = .ok v ∧ g c = .ok x ∧ h c = .ok y ∧
      (v, x, y) ∈ vs.zip (xs.zip ys) := by
  rw [mapM_eq_ok] at hv hx hy
  induction cs generalizing vs xs ys with
  | nil => cases hc
  | cons d ds ih =>
    obtain ⟨v, vs', hfd, hv', rfl⟩ := forall₂_cons_left_iff.1 hv
    obtain ⟨x, xs', hgd, hx', rfl⟩ := forall₂_cons_left_iff.1 hx
    obtain ⟨y, ys', hhd, hy', rfl⟩ := forall₂_cons_left_iff.1 hy
    obtain rfl | hc := mem_cons.1 hc
    · exact ⟨v, x, y, hfd, hgd, hhd, mem_cons_self⟩
    · obtain ⟨v, x, y, hfc, hgc, hhc, hin⟩ := ih hv' hx' hy' hc
      exact ⟨v, x, y, hfc, hgc, hhc, mem_cons_of_mem _ hin⟩

lemma redundant_outside {points : List (SymInt × Int × Int)} {v : SymInt} {p : Int × Int}
    (h : redundant height width points = true) (hin : (v, p) ∈ points) (hv : v.lo = 0) :
    isOutside height width p = true := by
  simp only [redundant, all_eq_true, Bool.and_eq_true] at h
  refine (h p ?_).1
  exact mem_map.2 ⟨(v, p), mem_filter.2 ⟨hin, by simpa using hv⟩, rfl⟩

def Texel.allVars (t : Texel) : List Variable :=
  ((VarMap.ofEntries (t.x.vars.map (·, ()))).map (·.1)
    ++ (VarMap.ofEntries (t.y.vars.map (·, ()))).map (·.1)).foldl
      (fun vs v => if vs.contains v then vs else vs ++ [v]) t.valid.vars

lemma mem_ofEntries_unit {vs : List Variable} :
    v ∈ (ofEntries (vs.map (·, ()))).map (·.1) ↔ v ∈ vs := by
  constructor
  · intro h
    obtain ⟨x, hx, rfl⟩ := mem_map.1 h
    exact ofEntries_induction (P := fun x => x.1 ∈ vs) (by simp) x hx
  · intro h
    have hv : v ∈ (vs.map (·, ())).map (·.1) := by simpa using h
    obtain ⟨x, _, hx⟩ := exists_value? hv
    exact mem_map.2 ⟨_, mem_of_value? hx, rfl⟩

lemma Texel.mem_allVars : v ∈ t.allVars ↔ v ∈ t.valid.vars ∨ v ∈ t.x.vars ∨
    v ∈ t.y.vars := by
  rw [Texel.allVars, mem_foldl_unseen, mem_append, mem_ofEntries_unit, mem_ofEntries_unit]

lemma dropRedundant_cases (h : dropRedundant height width limit t = .ok r) :
    r = t.valid ∨ r = .num 1 ∧ ∃ vs xs ys, t.valid.expand t.allVars = .ok vs ∧
      t.x.expand t.allVars = .ok xs ∧ t.y.expand t.allVars = .ok ys ∧
      redundant height width ((vs.zip (xs.zip ys)).map (fun p => (p.1, p.2.1.lo, p.2.2.lo))) =
        true := by
  simp only [dropRedundant, bind_eq_ok] at h
  obtain ⟨n, hn, h⟩ := h
  split at h
  · simp only [bind_eq_ok, pure_eq_ok] at h
    obtain ⟨vs, hvs, xs, hxs, ys, hys, rfl⟩ := h
    split
    · rename_i hred
      exact .inr ⟨rfl, vs, xs, ys, hvs, hxs, hys, hred⟩
    · exact .inl rfl
  · cases h
    exact .inl rfl

lemma dropRedundant_weakens (hx : t.x.Regular A.scope) (hy : t.y.Regular A.scope)
    (hv : t.valid.Condition A.scope) (h : dropRedundant height width limit t = .ok r) :
    Weakens A height width (t.x.value A.value) (t.y.value A.value) t.valid r := by
  obtain rfl | ⟨rfl, vs, xs, ys, hvs, hxs, hys, hred⟩ := dropRedundant_cases h
  · exact .refl hv
  refine ⟨.one, fun _ => value_num _ _, fun _ => ?_⟩
  by_cases hone : t.valid.value A.value = 1
  · exact .inl hone
  right
  have hscope (v : Variable) (hm : v ∈ t.allVars) : A.scope v := by
    obtain hm | hm | hm := Texel.mem_allVars.1 hm
    · exact hv.scope_of_mem (mem_vars.1 hm)
    · exact hx.scope_of_mem (mem_vars.1 hm)
    · exact hy.scope_of_mem (mem_vars.1 hm)
  have hchoice : t.allVars.map A.value ∈ choices (t.allVars.map (fun v => (v.lo, v.hi))) :=
    mem_choices (fun v hm => ⟨A.lo_le v (hscope v hm), A.le_hi v (hscope v hm)⟩)
  obtain ⟨v, x, y, hfv, hfx, hfy, hin⟩ := mem_zip_of_mapM hvs hxs hys hchoice
  have ev := hv.substitute_numbers (fun w hw => Texel.mem_allVars.2 (.inl hw)) hfv
  have ex := hx.substitute_numbers (fun w hw => Texel.mem_allVars.2 (.inr (.inl hw))) hfx
  have ey := hy.substitute_numbers (fun w hw => Texel.mem_allVars.2 (.inr (.inr hw))) hfy
  rw [← ex, ← ey]
  refine redundant_outside hred (mem_map.2 ⟨(v, x, y), hin, rfl⟩) ?_
  have hzero : t.valid.value A.value = 0 := (hv.bit A.value).resolve_right hone
  exact ev.trans hzero

lemma dropRedundant_overflow {scope : Variable → Prop} (hx : t.x.Regular scope)
    (hy : t.y.Regular scope) (hv : t.valid.Condition scope) :
    OnlyOverflow (dropRedundant height width limit t) := by
  have hcount (vs : List Variable) : OnlyOverflow (assignments vs) :=
    OnlyOverflow.foldlM (fun _ _ => (OnlyOverflow.word _).bind (fun _ _ =>
      (OnlyOverflow.word _).bind (fun _ _ => .pure _))) _ _
  refine (hcount t.allVars).bind (fun n _ => ?_)
  split
  · refine (expand_overflow (fun w hw => Texel.mem_allVars.2 (.inl hw)) (.inr hv)).bind
      (fun _ _ => ?_)
    refine (expand_overflow (fun w hw => Texel.mem_allVars.2 (.inr (.inl hw))) (.inl hx)).bind
      (fun _ _ => ?_)
    exact (expand_overflow (fun w hw => Texel.mem_allVars.2 (.inr (.inr hw))) (.inl hy)).bind
      (fun _ _ => .pure _)
  · exact .pure _

end


/-! The stages of addressing. -/

def replacements (valid : SymInt) : Checked (VarMap SymInt) :=
  if valid.lo = 0 then narrowed valid else pure []

def replaced (sub : VarMap SymInt) (e : SymInt) : Checked SymInt :=
  if sub.isEmpty then pure e else e.substitute sub

def bounded (height width : Int) (t : Texel) : Checked SymInt :=
  if t.valid.lo = 0 && t.x.vars.all (fun v => !t.y.vars.contains v) then dropBounds height width t
  else pure t.valid

def enumerated (height width : Int) (limit : Nat) (t : Texel) : Checked SymInt :=
  if t.valid.lo = 0 && !isMod t.x then dropRedundant height width limit t else pure t.valid

lemma bind_ite {α β : Type} {c : Prop} [Decidable c] (x y : Checked α) (f : α → Checked β) :
    (if c then x else y) >>= f = if c then x >>= f else y >>= f := by
  split <;> rfl

def located (sub : VarMap SymInt) (height width : Int) (index valid : SymInt) (limit : Nat) :
    Checked Texel := do
  let valid ← replaced sub valid
  let index ← replaced sub index
  let x ← (← index.quotient 4).remainder width
  let y ← index.quotient (← Checked.mul 4 width)
  let valid ← bounded height width { x, y, valid }
  let valid ← enumerated height width limit { x, y, valid }
  pure { x, y, valid }

lemma locate_eq (height width : Int) (index valid : SymInt) (limit : Nat) :
    locate height width index valid limit = (do
      let sub ← replacements valid
      located sub height width index valid limit) := by
  simp only [located, replacements, replaced, bounded, enumerated, bind_ite]
  rfl

lemma replaced_cases {e r : SymInt} (h : replaced sub e = .ok r) :
    r = e ∨ e.substitute sub = .ok r := by
  unfold replaced at h
  split at h
  · cases h
    exact .inl rfl
  · exact .inr h

lemma replacements_cases {valid : SymInt} (h : replacements valid = .ok sub) :
    sub = [] ∨ narrowed valid = .ok sub := by
  unfold replacements at h
  split at h
  · exact .inr h
  · cases h
    exact .inl rfl

lemma replacements_replaces {valid : SymInt} (h : replacements valid = .ok sub) : Replaces sub := by
  obtain rfl | h := replacements_cases h
  · exact fun x hx => by cases hx
  · exact narrowed_replaces h

section
variable {height width : Int} {index valid e : SymInt} {limit : Nat} {t : Texel}
  {ρ : String → Int} {A B : Assignment} {N : Prop}

lemma replaced_delivers {P : SymInt → Prop} (hself : sub = [] → P e)
    (h : Delivers N (e.substitute sub) P) :
    Delivers N (replaced sub e) P := by
  unfold replaced
  split
  · rename_i hnil
    exact .ok (hself (isEmpty_iff.1 hnil))
  · exact h

section
variable (hx : t.x.Regular A.scope) (hy : t.y.Regular A.scope) (hv : t.valid.Condition A.scope)
include hx hy hv

lemma bounded_delivers : Delivers N (bounded height width t)
    (Weakens A height width (t.x.value A.value) (t.y.value A.value) t.valid) := by
  unfold bounded
  split
  · exact ⟨dropBounds_weakens hx hy hv, fun _ => dropBounds_overflow _ _ _⟩
  · exact .ok (.refl hv)

lemma enumerated_delivers : Delivers N (enumerated height width limit t)
    (Weakens A height width (t.x.value A.value) (t.y.value A.value) t.valid) := by
  unfold enumerated
  split
  · exact ⟨dropRedundant_weakens hx hy hv, fun _ => dropRedundant_overflow hx hy hv⟩
  · exact .ok (.refl hv)

end

/-- The coordinates are those of the index, and what is left of the condition weakens it only
outside the image. -/
lemma located_delivers (hm : ∀ v, A.scope v → Means B (image sub v) (A.value v))
    (hself : sub = [] → A = B) (hw : 0 < width) (hf : Fits width) (hi : index.Regular A.scope)
    (hv : valid.Condition A.scope) :
    let n := index.value A.value
    Delivers B.Nonneg (located sub height width index valid limit) (fun t =>
      Means B t.x (n / 4 % width) ∧ Means B t.y (n / (4 * width)) ∧
        t.valid.Condition B.scope ∧
        (valid.value A.value = 1 → t.valid.value B.value = 1) ∧ (t.valid.value B.value = 1 →
          valid.value A.value = 1 ∨ isOutside height width (n / 4 % width, n / (4 * width)) =
            true)) := by
  intro n
  refine (replaced_delivers (fun h => ?_) (hv.substitute_delivers hm)).bind fun cond hc => ?_
  · cases hself h
    exact ⟨hv, Iff.rfl⟩
  refine (replaced_delivers (fun h => ?_) (substitute_delivers hm hi)).bind fun flat hn => ?_
  · cases hself h
    exact hi.means
  refine (quotient_delivers hn (by decide) (by decide)).bind fun q hq => ?_
  refine (remainder_delivers hq hw hf).bind fun x hx => (Delivers.word _).bind fun k hk => ?_
  obtain ⟨hkf, rfl⟩ := hk
  refine (quotient_delivers hn (by omega) hkf).bind fun y hy => ?_
  refine (bounded_delivers hx.regular hy.regular hc.condition).bind fun v₁ hb => ?_
  refine (enumerated_delivers hx.regular hy.regular hb.condition).bind fun v₂ he => .ok ?_
  have hboth := hb.trans he
  rw [hx.value, hy.value] at hboth
  exact ⟨hx, hy, hboth.condition, fun hone => hboth.keeps (hc.value.2 hone),
    fun hone => (hboth.covered hone).imp_left hc.value.1⟩

lemma locate_weakens (hw : 0 < width) (hf : Fits width)
    (hi : index.Regular (Assignment.named ρ).scope)
    (hv : valid.Condition (Assignment.named ρ).scope) (hin : Within valid ρ)
    (h : locate height width index valid limit = .ok t) :
    let n := index.value (Assignment.named ρ).value
    Means (Assignment.named ρ) t.x (n / 4 % width) ∧
      Means (Assignment.named ρ) t.y (n / (4 * width)) ∧
      Weakens (Assignment.named ρ) height width (n / 4 % width)
        (n / (4 * width)) valid t.valid := by
  intro n
  rw [locate_eq, bind_eq_ok] at h
  obtain ⟨sub, hsub, h⟩ := h
  have hmeans := (replacements_replaces hsub).means (ρ := ρ) (by
    obtain rfl | hsub := replacements_cases hsub
    · exact fun x hx => by cases hx
    · exact hin sub hsub)
  obtain ⟨hx, hy, hcond, hkeeps, hcovered⟩ :=
    (located_delivers hmeans (fun _ => rfl) hw hf hi hv).of_ok h
  exact ⟨hx, hy, hcond, hkeeps, hcovered⟩

lemma locate_overflow (hw : 0 < width) (hf : Fits width)
    (hi : index.Regular Assignment.least.scope) (hv : valid.Condition Assignment.least.scope) :
    OnlyOverflow (locate height width index valid limit) := by
  rw [locate_eq]
  have hnarrow : OnlyOverflow (replacements valid) := by
    unfold replacements
    split
    · exact narrowed_overflow valid
    · exact .pure _
  refine hnarrow.bind fun sub hsub => ?_
  have hr := replacements_replaces hsub
  refine (located_delivers (A := hr.least) hr.least_means ?_ hw hf hi hv).overflow
    fun _ h => h.nonneg
  rintro rfl
  rfl

end

/-- Under bindings of its variables by name, the texel is at `x` and `y` and its condition is
`k`. -/
def Texel.Reads (t : Texel) (ρ : String → Int) (x y k : Int) : Prop :=
  ∀ vals : Bindings,
    (∀ v ∈ t.x.vars ++ t.y.vars ++ t.valid.vars, VarMap.value? vals v = some (ρ v.name)) →
      t.x.eval vals = .ok (some x) ∧ t.y.eval vals = .ok (some y) ∧
      t.valid.eval vals = .ok (some k)

/-- Unless a word overflows, an index and a condition get a texel. At values in range at which
every narrowed variable keeps to its narrowed range, it is the texel of the flat index, its
condition is one where the original holds, and elsewhere the condition is zero or the texel lies
outside the image. Where the condition holds and its comparisons are direct, the narrowed ranges
are kept by themselves. -/
theorem locate_faithful {f : Formula} {c : Clause} {index valid : SymInt} {width : Int}
    (hi : f.build = .ok index) (hv : c.build = .ok valid) (hw : 0 < width) (hf : Fits width)
    (height : Int) (limit : Nat) :
    locate height width index valid limit = .error .arithmetic ∨
      ∃ t, locate height width index valid limit = .ok t ∧ ∀ ρ : String → Int,
        (∀ v ∈ f.vars ++ c.vars, v.lo ≤ ρ v.name ∧ ρ v.name ≤ v.hi) →
        (Within valid ρ ∨
          c.holds (fun v => ρ v.name) = true ∧ ∀ d ∈ valid.conditions, direct d = true) →
        let n := f.value (fun v => ρ v.name)
        ∃ k, t.Reads ρ (n / 4 % width) (n / (4 * width)) k ∧
          (c.holds (fun v => ρ v.name) = true → k = 1) ∧
          (c.holds (fun v => ρ v.name) = false →
            k = 0 ∨ isOutside height width (n / 4 % width, n / (4 * width)) = true) := by
  have hleast : OnlyOverflow (locate height width index valid limit) := by
    have hm :=
      (Formula.build_delivers (A := Assignment.least) fun v hm => Formula.vars_counts hm).of_ok hi
    have hd := (c.build_delivers (A := Assignment.least) fun v hm => c.vars_counts hm).of_ok hv
    exact locate_overflow hw hf hm.regular hd.condition
  refine hleast.error_or_ok.imp_right ?_
  rintro ⟨t, ht⟩
  refine ⟨t, ht, fun ρ hρ hwithin => ?_⟩
  have hscope : ∀ v ∈ f.vars ++ c.vars, v.Counts → (Assignment.named ρ).scope v :=
    fun v hm hc => ⟨hc, hρ v hm⟩
  have hm := (Formula.build_delivers (A := Assignment.named ρ)
    fun v hm => hscope v (List.mem_append_left _ hm) (Formula.vars_counts hm)).of_ok hi
  have hd := (c.build_delivers (A := Assignment.named ρ)
    fun v hm => hscope v (List.mem_append_right _ hm) (c.vars_counts hm)).of_ok hv
  have hin : Within valid ρ := by
    obtain hin | ⟨hone, hdirect⟩ := hwithin
    · exact hin
    · exact within_of_direct hd.condition (hd.value.mpr hone) hdirect
  obtain ⟨hx, hy, hweak⟩ := locate_weakens hw hf hm.regular hd.condition hin ht
  rw [hm.value] at hx hy hweak
  refine ⟨t.valid.value (Assignment.named ρ).value, fun vals hvals => ?_, fun hone =>
    ?_, fun hno => ?_⟩
  · refine ⟨?_, ?_, ?_⟩
    · rw [hx.regular.eval_occurring (fun v hv => hvals v (by simp [hv])), hx.value]
      rfl
    · rw [hy.regular.eval_occurring (fun v hv => hvals v (by simp [hv])), hy.value]
      rfl
    · exact hweak.condition.eval_occurring (fun v hv => hvals v (by simp [hv]))
  · exact hweak.keeps (hd.value.mpr hone)
  · obtain hzero | hone := hweak.condition.bit (Assignment.named ρ).value
    · exact .inl hzero
    · refine (hweak.covered hone).elim (fun h => ?_) .inr
      have hyes : c.holds (fun v => ρ v.name) = true := hd.value.mp h
      simp [hyes] at hno

lemma fits_three : Fits 3 := by decide

lemma fits_four : Fits 4 := by decide

lemma three_positive : (0 : Int) < 3 := by decide

def counting (name : String) (hi : Int) (h : Variable.declare name 0 hi = .ok ⟨name, 0, hi⟩)
    (fits : Fits hi) : Formula := .var ⟨name, 0, hi⟩ h fits

/-- Four elements a texel down a column, where two steps of a counter stay in one row. -/
def column : Formula :=
  .times (.quotient (counting "p" 9 rfl (by decide)) 2 (by decide) (by decide)) 4 fits_four

/-- The row lies above the lower edge of the image, and another counter below three. -/
def columnInside : Clause :=
  .all [.compare .less (.quotient (counting "p" 9 rfl (by decide)) 2 (by decide) (by decide)) 4,
    .compare .less (counting "z" 5 rfl (by decide)) 3]

def columnAt (p z : Int) : String → Int := fun name => if name = "p" then p else z

/-- The condition on the second counter goes by narrowing, the one on the row by the edge of the
image. -/
theorem column_locate_faithful :
    ∃ index valid t, column.build = .ok index ∧ columnInside.build = .ok valid ∧
      locate 4 1 index valid 0 = .ok t ∧
      columnInside.holds (fun v => columnAt 7 2 v.name) = true ∧ t.Reads (columnAt 7 2) 0 3 1 ∧
      columnInside.holds (fun v => columnAt 9 2 v.name) = false ∧
      ∃ k, t.Reads (columnAt 9 2) 0 4 k ∧ (k = 0 ∨ isOutside 4 1 (0, 4) = true) := by
  have hi : column.build = .ok (.mul (.div (.var ⟨"p", 0, 9⟩) 2) 4) := rfl
  have hv : columnInside.build =
      .ok (.conj [.lt (.div (.var ⟨"p", 0, 9⟩) 2) 4, .lt (.var ⟨"z", 0, 5⟩) 3]) := rfl
  obtain h | ⟨t, ht, h⟩ := locate_faithful hi hv (by decide : (0 : Int) < 1) (by decide) 4 0
  · have hok : (locate 4 1 (.mul (.div (.var ⟨"p", 0, 9⟩) 2) 4)
        (.conj [.lt (.div (.var ⟨"p", 0, 9⟩) 2) 4, .lt (.var ⟨"z", 0, 5⟩) 3])
          0).isOk = true := by
      rfl
    simp [h, Except.isOk, Except.toBool] at hok
  have hwithin (p : Int) : Within (.conj [.lt (.div (.var ⟨"p", 0, 9⟩) 2) 4,
      .lt (.var ⟨"z", 0, 5⟩) 3]) (columnAt p 2) := by
    intro sub hsub x hx
    cases hsub
    cases List.mem_singleton.mp hx
    change 0 ≤ columnAt p 2 "z" ∧ columnAt p 2 "z" ≤ 2
    simp [columnAt]
  obtain ⟨k, hk, hone, _⟩ := h (columnAt 7 2) (by decide) (.inl (hwithin 7))
  obtain ⟨l, hl, _, hout⟩ := h (columnAt 9 2) (by decide) (.inl (hwithin 9))
  cases hone rfl
  exact ⟨_, _, t, hi, hv, ht, rfl, hk, rfl, l, hl, hout rfl⟩

def row : Formula := .times (counting "x" 9 rfl (by decide)) 4 fits_four

def rowInside : Clause := .compare .less (counting "x" 9 rfl (by decide)) 6

/-- Twice the third of the counter, and one more, stays below six. -/
def rowThirds : Clause :=
  .compare .less (.plus (.times (.quotient (counting "x" 9 rfl (by decide)) 3 three_positive
    fits_three) 2 (by decide)) (.num 1 (by decide))) 6

/-- Narrowing loses conditions: `x < 6` is dropped although the texel at seven lies inside the
image. It also narrows wrongly: `(x / 3) * 2 + 1 < 6` holds at five, but is taken for `x < 3`, and
the texel of five is the sixth of the first row of an image of three columns. -/
theorem narrowed_locate_unfaithful :
    (∃ index valid t, row.build = .ok index ∧ rowInside.build = .ok valid ∧
      locate 1 16 index valid defaultLimit = .ok t ∧ rowInside.holds (fun _ => 7) = false ∧
      t.Reads (fun _ => 7) 7 0 1 ∧ isOutside 1 16 (7, 0) = false) ∧
    ∃ index valid t, row.build = .ok index ∧ rowThirds.build = .ok valid ∧
      locate 4 3 index valid defaultLimit = .ok t ∧ rowThirds.holds (fun _ => 5) = true ∧
      t.Reads (fun _ => 5) 5 0 1 ∧ row.value (fun _ => 5) / 4 % 3 = 2 ∧
      row.value (fun _ => 5) / (4 * 3) = 1 := by
  have hread (n : Int) (w : Variable) : Texel.Reads ⟨.var w, .num 0, .num 1⟩
      (fun _ => n) n 0 1 := by
    intro vals h
    have hw := h w (by simp [vars, occurrences])
    simp [SymInt.eval, hw]
  refine ⟨⟨_, _, _, rfl, rfl, rfl, rfl, hread 7 ⟨"x", 0, 5⟩, rfl⟩, ?_⟩
  exact ⟨_, _, _, rfl, rfl, rfl, rfl, hread 5 ⟨"x", 0, 2⟩, rfl, rfl⟩

end LazyTensor.Texture
