import LazyTensor.Proofs.Program.Reload

/-! What a kept instruction reads. -/
namespace LazyTensor.Machine
open View Checked Loaded

open Program

/-- Where the first computation gives something, the second one gives something that is related. -/
def Mirrors {ε α β : Type} (R : α → β → Prop) (x : Except ε α)
    (y : Except ε β) : Prop :=
  ∀ a, x = .ok a → ∃ b, y = .ok b ∧ R a b

namespace Mirrors
variable {ε α β γ δ : Type} {R : α → β → Prop} {S : γ → δ → Prop}
  {x : Except ε α} {y : Except ε β}

lemma ok {a : α} {b : β} (h : R a b) : Mirrors R (.ok a : Except ε α) (.ok b) := by
  rintro _ ⟨⟩
  exact ⟨b, rfl, h⟩

lemma error {e : ε} : Mirrors R (.error e) y := by
  rintro _ ⟨⟩

lemma same (x : Except ε α) : Mirrors Eq x x := fun a h => ⟨a, h, rfl⟩

lemma bind {f : α → Except ε γ} {g : β → Except ε δ} (hx : Mirrors R x y)
    (hf : ∀ a b, R a b → Mirrors S (f a) (g b)) : Mirrors S (x >>= f) (y >>= g) := by
  intro c h
  obtain ⟨a, ha, h⟩ := bind_eq_ok.1 h
  obtain ⟨b, hb, hab⟩ := hx a ha
  obtain ⟨d, hd, hcd⟩ := hf a b hab c h
  exact ⟨d, bind_eq_ok.2 ⟨b, hb, hd⟩, hcd⟩

lemma bind_same {f : α → Except ε γ} {g : α → Except ε δ}
    (hf : ∀ a, Mirrors S (f a) (g a)) :
    Mirrors S (x >>= f) (x >>= g) :=
  (same x).bind fun a _ h => h ▸ hf a

lemma lift {x : Checked α} {y : Checked β} (h : Mirrors R x y) :
    Mirrors R (liftM x : Fallible α) (liftM y) := by
  intro a ha
  obtain ⟨b, hb, hab⟩ := h a (lift_eq_ok.1 ha)
  exact ⟨b, lift_eq_ok.2 hb, hab⟩

lemma ite {c : Prop} [Decidable c] {x' : Except ε α} {y' : Except ε β} (h : c → Mirrors R x y)
    (h' : ¬c → Mirrors R x' y') : Mirrors R (if c then x else x') (if c then y else y') := by
  split
  · next hc => exact h hc
  · next hc => exact h' hc

end Mirrors

/-- Kept instructions hold the same values. -/
structure SameRegs (code : List Instr) (regs regs' : Array Reg) : Prop where
  size : regs.size = code.length
  pruned_size : regs'.size = (prune code).length
  same : ∀ i, Live code i → regs'[place code i]? = regs[i]?

/-- The buffers are the same, and so are the shared memories that are kept. -/
structure SameStore (code : List Instr) (p q : Loaded) (s s' : Store) : Prop where
  globals : s'.globals = s.globals
  shared : ∀ n m, Paired code p.regions q.regions (.shared n) (.shared m) →
    s'.shared[m]? = s.shared[n]?

variable {code : List Instr} {p q : Loaded} {u : Instr} {i k : Nat} {regs regs' : Array Reg}
  {s s' : Store} {v idx : Reg}

lemma SameRegs.set (h : SameRegs code regs regs') (hi : Live code i) (v : Reg) :
    SameRegs code (regs.setIfInBounds i v) (regs'.setIfInBounds (place code i) v) := by
  refine ⟨by simp [h.size], by simp [h.pruned_size], fun j hj => ?_⟩
  obtain ⟨u, hu⟩ := hi.exists
  have hlt : i < regs.size := h.size ▸ (List.getElem?_eq_some_iff.1 hu).1
  have hlt' : place code i < regs'.size := by
    rw [h.pruned_size, length_prune]
    exact place_lt hi (h.size ▸ hlt)
  rw [Array.getElem?_setIfInBounds, Array.getElem?_setIfInBounds, if_pos hlt, if_pos hlt',
    h.same j hj]
  by_cases hij : i = j
  · simp [hij]
  · rw [if_neg hij, if_neg fun heq => hij (place_inj hi hj heq)]

lemma SameRegs.skip (h : SameRegs code regs regs') (hi : ¬Live code i) (v : Reg) :
    SameRegs code (regs.setIfInBounds i v) regs' := by
  refine ⟨by simp [h.size], h.pruned_size, fun j hj => ?_⟩
  have hij : i ≠ j := fun hij => hi (hij ▸ hj)
  rw [Array.getElem?_setIfInBounds_ne hij]
  exact h.same j hj


lemma nth_map (f : Nat → Nat) (xs : List Nat) (k : Nat) : nth (xs.map f) k = f <$> nth xs k := by
  unfold nth
  cases hx : xs[k]? <;> simp [hx]

lemma input_moved (ho : Ordered code) (hi : Live code i) (hu : code[i]? = some u) (k : Nat) :
    Mirrors (fun j j' => Live code j ∧ j' = place code j) (nth u.inputs k)
      (nth (u.moved (place code)).inputs k) :=
  fun j hj => ⟨place code j, nth_map_eq_ok _ hj, hi.input ho hu (nth_mem hj), rfl⟩

lemma reg_place (h : SameRegs code regs regs') (hi : Live code i) :
    reg regs' (place code i) = reg regs i := by
  rw [reg, h.same i hi, reg]

namespace Reloaded

variable (hr : Reloaded code p q)
include hr

lemma instr_eq_ok : p.instr i = .ok u ↔ code[i]? = some u := by
  simp only [instr, hr.code_eq, List.getElem?_toArray]
  cases code[i]? <;> simp

lemma instr_place (ho : Ordered code) (hi : Live code i) (hu : code[i]? = some u) :
    q.instr (place code i) = .ok (u.moved (place code)) := by
  simp [instr, hr.pruned_eq, prune_place ho hi hu]

lemma instr_moved (ho : Ordered code) (hi : Live code i) : Mirrors
    (fun u u' => code[i]? = some u ∧ u' = u.moved (place code)) (p.instr i)
      (q.instr (place code i)) :=
  fun _ h => ⟨_, hr.instr_place ho hi (hr.instr_eq_ok.1 h), hr.instr_eq_ok.1 h, rfl⟩

variable (ho : Ordered code) (hregs : SameRegs code regs regs')
include ho hregs

lemma read_place (hi : Live code i) (n m : Nat) (hn : i < n) (hm : place code i < m) :
    q.read regs' m (place code i) = p.read regs n i := by
  induction i using Nat.strongRecOn generalizing n m with
  | ind i ih =>
    obtain ⟨u, hu⟩ := hi.exists
    obtain ⟨n, rfl⟩ := Nat.exists_eq_add_one_of_ne_zero (Nat.ne_zero_of_lt hn)
    obtain ⟨m, rfl⟩ := Nat.exists_eq_add_one_of_ne_zero (Nat.ne_zero_of_lt hm)
    rw [Loaded.read, Loaded.read, hr.instr_eq_ok.2 hu, hr.instr_place ho hi hu]
    have hnth : nth (u.moved (place code)).inputs 0 = place code <$> nth u.inputs 0 := nth_map _ _ _
    have hlane : lane? (u.moved (place code)) = lane? u := rfl
    simp only [ok_bind, hlane, hnth]
    cases lane? u with
    | none => exact reg_place hregs hi
    | some l =>
      cases hj : nth u.inputs 0 with
      | error e => rfl
      | ok j =>
        have hmem := nth_mem hj
        have hji := ho i u hu j hmem
        have hlive := hi.input ho hu hmem
        have hplace := place_lt hlive hji
        have hread := ih j hji hlive n m (by omega) (by omega)
        show (q.read regs' m (place code j) >>= _) = (p.read regs n j >>= _)
        rw [hread]

section
variable (hi : Live code i) (hu : code[i]? = some u)
include hi hu

lemma operand_moved : q.operand regs' (u.moved (place code)) k = p.operand regs u k := by
  have hnth : nth (u.moved (place code)).inputs k = place code <$> nth u.inputs k := nth_map _ _ _
  rw [operand, operand, hnth]
  cases hj : nth u.inputs k with
  | error e => rfl
  | ok j =>
    have hmem := nth_mem hj
    have hji := ho i u hu j hmem
    have hlive := hi.input ho hu hmem
    have hlt := (List.getElem?_eq_some_iff.1 hu).1
    refine hr.read_place ho hregs hlive _ _ ?_ ?_
    · simp only [hr.code_eq, List.size_toArray]
      omega
    · simp only [hr.pruned_eq, List.size_toArray, length_prune]
      have := place_lt hlive (hji.trans hlt)
      omega

lemma scalar_moved : q.scalar regs' (u.moved (place code)) k = p.scalar regs u k := by
  rw [scalar, scalar, hr.operand_moved ho hregs hi hu]

lemma aluValue_moved (op : Op) :
    q.aluValue regs' (u.moved (place code)) op = p.aluValue regs u op := by
  have hoperand : q.operand regs' (u.moved (place code)) = p.operand regs u :=
    funext fun k => hr.operand_moved ho hregs hi hu
  have hlength : (u.moved (place code)).inputs.length = u.inputs.length := by simp [Instr.moved]
  rw [aluValue, aluValue, hoperand, hlength]
  rfl

lemma castValue_moved (keepBits : Bool) :
    q.castValue regs' (u.moved (place code)) keepBits = p.castValue regs u keepBits := by
  have hscalar : q.scalar regs' (u.moved (place code)) = p.scalar regs u :=
    funext fun k => hr.scalar_moved ho hregs hi hu
  have hlength : (u.moved (place code)).inputs.length = u.inputs.length := by simp [Instr.moved]
  have hnth : nth (u.moved (place code)).inputs 0 = place code <$> nth u.inputs 0 := nth_map _ _ _
  rw [castValue, castValue, hscalar, hlength, hr.operand_moved ho hregs hi hu, hnth]
  split
  · rfl
  · cases p.operand regs u 0 with
    | error e => rfl
    | ok x =>
      cases hj : nth u.inputs 0 with
      | error e => rfl
      | ok j =>
        have hlive := hi.input ho hu (nth_mem hj)
        obtain ⟨w, hw⟩ := hlive.exists
        have hinstr := hr.instr_eq_ok.2 hw
        have hinstr' := hr.instr_place ho hlive hw
        show (q.instr (place code j) >>= _) = (p.instr j >>= _)
        rw [hinstr, hinstr']
        rfl

end

lemma write_place (hi : Live code i) :
    Mirrors (SameRegs code) (p.write regs i v) (q.write regs' (place code i) v) := by
  refine (hr.instr_moved ho hi).bind fun u _ ⟨hu, hu'⟩ => ?_
  subst hu'
  have hlane : lane? (u.moved (place code)) = lane? u := rfl
  rw [hlane]
  cases lane? u with
  | none => exact .ok (hregs.set hi v)
  | some l =>
    refine (input_moved ho hi hu 0).bind fun j _ ⟨hlive, hj⟩ => ?_
    rw [hj, reg_place hregs hlive]
    exact .bind_same fun r => .ok (hregs.set hlive _)

omit ho hregs

variable (hstore : SameStore code p q s s')
include hstore

lemma region_place (hi : Live code i) :
    Mirrors (fun a b => b.2 = a.2 ∧ Paired code p.regions q.regions a.1 b.1) (p.region s i)
      (q.region s' (place code i)) := by
  unfold region
  cases hp : p.regions.lookup i with
  | none => exact .error
  | some r =>
    obtain ⟨r', hq⟩ := Option.isSome_iff_exists.1 ((hr.memories.defined i hi).1 (by simp [hp]))
    have hpaired : Paired code p.regions q.regions r r' := ⟨i, hi, hp, hq⟩
    rw [hq]
    cases hr.memories.alike r r' hpaired with
    | global slot =>
      simp only [hstore.globals]
      cases s.globals[slot]? with
      | none => exact .error
      | some data => exact .ok ⟨rfl, hpaired⟩
    | @shared n m _ hn hm =>
      simp only [hstore.shared n m hpaired]
      cases s.shared[n]? with
      | none => exact .error
      | some data => exact .ok ⟨rfl, hpaired⟩

include ho

section
variable (hi : Live code i) (hu : code[i]? = some u)
include hi hu

lemma spot_moved : Mirrors (fun x y => ∃ r', y = { x with region := r' } ∧
    Paired code p.regions q.regions x.region r') (p.spot s u idx)
      (q.spot s' (u.moved (place code)) idx) := by
  refine (input_moved ho hi hu 0).lift.bind fun j _ ⟨hlive, hj⟩ => ?_
  subst hj
  refine (hr.instr_moved ho hlive).lift.bind fun w _ ⟨_, hw⟩ => ?_
  subst hw
  refine .bind_same fun pl => ?_
  refine (hr.region_place hstore hlive).bind fun ⟨r, data⟩ ⟨r', _⟩ ⟨hdata, hpaired⟩ =>
    ?_
  cases hdata
  exact .ok ⟨r', rfl, hpaired⟩

lemma loadMemory_moved {lanes : Nat} : Mirrors Eq (p.loadMemory s u idx lanes)
    (q.loadMemory s' (u.moved (place code)) idx lanes) := by
  refine (hr.spot_moved ho hstore hi hu).bind fun ⟨_, pl, r, _⟩ _ ⟨r', hy, _⟩ => ?_
  subst hy
  cases pl with
  | none => exact .ok rfl
  | some a => exact .ite (fun _ => .error) fun _ => .ite (fun _ => .ok rfl) fun _ => .error

lemma storeMemory_moved : Mirrors (SameStore code p q) (p.storeMemory s u idx v)
    (q.storeMemory s' (u.moved (place code)) idx v) := by
  refine (hr.spot_moved ho hstore hi hu).bind fun ⟨_, pl, r, _⟩ _ ⟨r', hy, hpaired⟩ => ?_
  subst hy
  cases pl with
  | none => exact .ok hstore
  | some a =>
    refine .ite (fun _ => .error) fun _ => .ite (fun _ => ?_) fun _ => .error
    cases hr.memories.alike r r' hpaired with
    | global _ => exact .ok ⟨by rw [hstore.globals], hstore.shared⟩
    | @shared n m _ hn hm =>
      refine .ok ⟨hstore.globals, fun n' m' hother => ?_⟩
      have hapart := hr.memories.apart n n' m m' hpaired hother
      simp only [Array.getElem?_modify, hstore.shared n' m' hother, hapart]

end

end Reloaded

end LazyTensor.Machine
