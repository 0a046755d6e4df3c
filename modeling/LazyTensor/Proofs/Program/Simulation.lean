import LazyTensor.Proofs.Program.Operands

/-! A program and its pruned code run alike. -/
namespace LazyTensor.Machine
open List Checked

open Program Loaded

/-- Both threads hold the same values and see the same memory. -/
structure Same (code : List Instr) (p q : Loaded) (s s' : State) : Prop where
  regs : SameRegs code s.regs s'.regs
  store : SameStore code p q s.store s'.store

variable {code : List Instr} {p q : Loaded} {t : Thread} {u : Instr} {i j : Nat} {s s' s₁ : State}
  {v : Reg}

lemma Same.set (h : Same code p q s s') (hi : Live code i) (v : Reg) :
    Same code p q (setReg s i v) (setReg s' (place code i) v) :=
  ⟨h.regs.set hi v, h.store⟩

lemma Same.skip (h : Same code p q s s') (hi : ¬Live code i) (v : Reg) :
    Same code p q (setReg s i v) s' :=
  ⟨h.regs.skip hi v, h.store⟩

def Moved (code : List Instr) (p q : Loaded) (a b : Nat × State) : Prop :=
  b.1 = place code a.1 ∧ Same code p q a.2 b.2

lemma sameRegs_replicate (code : List Instr) (v : Reg) :
    SameRegs code (Array.replicate code.toArray.size v)
      (Array.replicate (prune code).toArray.size v) := by
  refine ⟨by simp, by simp, fun i hi => ?_⟩
  obtain ⟨u, hu⟩ := hi.exists
  have hlt := (List.getElem?_eq_some_iff.1 hu).1
  have hlt' : Program.place code i < (prune code).length := by
    rw [length_prune]
    exact place_lt hi hlt
  simp [hlt, hlt']

lemma Same.exec_skip {pc : Nat} (hs : Same code p q s s') (hi : ¬Live code i)
    (hplain : u.kind.isPlain) (hstore : u.kind ≠ .store) (h : p.exec t i u s = .ok (pc, s₁)) :
    pc = i + 1 ∧ Same code p q s₁ s' := by
  unfold exec at h
  split at h
  · next hk => simp [hk] at hplain
  · next hk => simp [hk] at hplain
  · next hk => exact absurd hk hstore
  · obtain ⟨x, hx, h⟩ := bind_eq_ok.1 h
    cases x with
    | none =>
      cases h
      exact ⟨rfl, hs⟩
    | some v =>
      cases h
      exact ⟨rfl, hs.skip hi v⟩

lemma lookup_map {f : Nat → Nat} {k : Nat} {xs : List (Nat × Nat)}
    (h : ∀ e ∈ xs, f k = f e.1 → k = e.1) :
    (xs.map (Prod.map f f)).lookup (f k) = (xs.lookup k).map f := by
  induction xs with
  | nil => rfl
  | cons e xs ih =>
    obtain ⟨hself, hrest⟩ := forall_mem_cons.1 h
    rw [map_cons, lookup_cons, lookup_cons]
    by_cases hk : k = e.1
    · simp [hk]
    · rw [beq_false_of_ne hk, Prod.map_fst, beq_false_of_ne fun hf => hk (hself hf)]
      exact ih hrest

namespace Reloaded
variable {pc : Nat} {ts ts' ts₁ : List (Thread × Array Reg)} {vals : Bindings}

lemma ends_place (hr : Reloaded code p q) (hi : Live code i) {e : Nat}
    (h : p.ends.lookup i = some e) :
    q.ends.lookup (place code i) = some (place code e) ∧ Live code e := by
  refine ⟨?_, (hr.ended _ (mem_of_lookup h)).2⟩
  rw [hr.ends, lookup_map fun e he => place_inj hi (hr.ended e he).1, h]
  rfl

variable (hr : Reloaded code p q) (ho : Ordered code) (hs : Same code p q s s')
  (hi : Live code i) (hu : code[i]? = some u)
include hr ho hs hi hu

lemma loadValue_moved {lanes : Nat} : Mirrors Eq (p.loadValue s u lanes)
    (q.loadValue s' (u.moved (place code)) lanes) := by
  have hlength : (u.moved (place code)).inputs.length = u.inputs.length := by
    simp [Instr.moved]
  simp only [loadValue, isGated, hr.operand_moved ho hs.regs hi hu,
    hr.scalar_moved ho hs.regs hi hu, hlength]
  refine .bind_same fun idx => .bind_same fun gated => ?_
  cases gated with
  | true => exact .same _
  | false => exact hr.loadMemory_moved ho hs.store hi hu

lemma value_moved : Mirrors Eq (p.value t u s) (q.value t (u.moved (place code)) s') := by
  have hkind : (u.moved (place code)).kind = u.kind := rfl
  have harg : (u.moved (place code)).arg = u.arg := rfl
  unfold value
  rw [hkind, harg]
  split
  · exact .same _
  · split
    · exact .same _
    · exact .error
  · exact .same _
  · exact .same _
  · exact .same _
  · exact .same _
  · exact .same _
  · exact .same _
  · rw [map_eq_pure_bind, map_eq_pure_bind]
    exact (hr.loadValue_moved ho hs hi hu).bind fun _ _ hv => .ok (congrArg some hv)
  · rw [hr.castValue_moved ho hs.regs hi hu]
    exact .same _
  · rw [hr.aluValue_moved ho hs.regs hi hu]
    exact .same _
  · exact .error

lemma enterLoop_moved : Mirrors (Moved code p q) (p.enterLoop i u s)
    (q.enterLoop (place code i) (u.moved (place code)) s') := by
  simp only [enterLoop, hr.scalar_moved ho hs.regs hi hu]
  refine .bind_same fun start => .bind_same fun stop => .ite (fun _ => ?_) fun _ => ?_
  · cases he : p.ends.lookup i with
    | none => exact .error
    | some e =>
      obtain ⟨hend, hlive⟩ := hr.ends_place hi he
      rw [hend]
      exact .ok ⟨(place_succ_of_live hlive).symm, hs.set hi _⟩
  · exact .ok ⟨(place_succ_of_live hi).symm, hs.set hi _⟩

lemma nextRound_moved : Mirrors (Moved code p q) (p.nextRound i u s)
    (q.nextRound (place code i) (u.moved (place code)) s') := by
  refine (input_moved ho hi hu 0).lift.bind fun l _ ⟨hlive, hl⟩ => ?_
  subst hl
  refine (hr.instr_moved ho hlive).lift.bind fun w _ ⟨hw, hw'⟩ => ?_
  subst hw'
  rw [hr.scalar_moved ho hs.regs hlive hw, reg_place hs.regs hlive]
  refine .bind_same fun stop => .bind_same fun r => .bind_same fun count => .bind_same fun r' => ?_
  refine .ite (fun _ => .ok ⟨?_, hs.set hlive _⟩) fun _ => .ok ⟨?_, hs.set hlive _⟩
  · exact (place_succ_of_live hlive).symm
  · exact (place_succ_of_live hi).symm

lemma storeValue_moved :
    Mirrors (Same code p q) (p.storeValue u s) (q.storeValue (u.moved (place code)) s') := by
  have hlength : (u.moved (place code)).inputs.length = u.inputs.length := by
    simp [Instr.moved]
  simp only [storeValue, hr.operand_moved ho hs.regs hi hu, hlength]
  refine .ite (fun _ => .bind_same fun v => ?_) fun _ => .bind_same fun idx =>
    .bind_same fun v => ?_
  · refine (input_moved ho hi hu 0).lift.bind fun j _ hj => ?_
    obtain ⟨hlive, rfl⟩ := hj
    exact (hr.write_place ho hs.regs hlive).lift.bind fun _ _ hregs => .ok ⟨hregs, hs.store⟩
  · exact (hr.storeMemory_moved ho hs.store hi hu).bind fun _ _ hstore => .ok ⟨hs.regs, hstore⟩

lemma exec_keep : Mirrors (Moved code p q) (p.exec t i u s)
    (q.exec t (place code i) (u.moved (place code)) s') := by
  have hkind : (u.moved (place code)).kind = u.kind := rfl
  have hsucc := (place_succ_of_live hi).symm
  unfold exec
  rw [hkind]
  split
  · exact hr.enterLoop_moved ho hs hi hu
  · exact hr.nextRound_moved ho hs hi hu
  · exact (hr.storeValue_moved ho hs hi hu).bind fun _ _ h => .ok ⟨hsucc, h⟩
  · refine (hr.value_moved ho hs hi hu).bind fun x _ hx => ?_
    subst hx
    cases x with
    | none => exact .ok ⟨hsucc, hs⟩
    | some v => exact .ok ⟨hsucc, hs.set hi v⟩

omit hi hu

variable (hn : nesting code = some [])
include hn

/-- Up to the same position. Steps that were dropped are saved, so the pruned code needs no more. -/
lemma runSteps_place {n m stop : Nat} (hnm : n ≤ m) : Mirrors (Same code p q)
    (p.runSteps t stop n pc s) (q.runSteps t (place code stop) m (place code pc) s') := by
  induction n generalizing m pc s s' with
  | zero => exact .error
  | succ n ih =>
    obtain ⟨m, rfl⟩ : ∃ k, m = k + 1 := ⟨m - 1, by omega⟩
    rw [runSteps]
    split
    · next hlt =>
      by_cases hi : Live code pc
      · have hstep : Mirrors (Moved code p q) (p.step t pc s) (q.step t (place code pc) s') :=
          (hr.instr_moved ho hi).lift.bind fun u _ hu => hu.2 ▸ hr.exec_keep ho hs hi hu.1
        rw [runSteps, if_pos (place_lt hi hlt)]
        refine hstep.bind fun ⟨_, s₂⟩ ⟨_, s₂'⟩ ⟨hpc, hsame⟩ => ?_
        cases hpc
        exact ih hsame (Nat.le_of_succ_le_succ hnm)
      · intro s₁ h
        obtain ⟨⟨pc', s₂⟩, hstep, h⟩ := bind_eq_ok.1 h
        obtain ⟨u, hu, hexec⟩ := bind_eq_ok.1 hstep
        have hu : code[pc]? = some u := hr.instr_eq_ok.1 (lift_eq_ok.1 hu)
        have hstore : u.kind ≠ .store := fun hk =>
          hi (live_of_effect hu (by simp [hk, InstrKind.hasEffect]))
        obtain ⟨rfl, hsame⟩ := hs.exec_skip hi (plain_of_dead ho hn hu hi) hstore hexec
        rw [← place_succ_of_dead hi]
        exact ih hsame (Nat.le_of_succ_le hnm) s₁ h
    · next hge =>
      have hle := place_mono code (Nat.not_lt.1 hge)
      rw [runSteps, if_neg (Nat.not_lt.2 hle)]
      exact .ok hs

omit hs

lemma stepLimit_eq : q.stepLimit = p.stepLimit := by
  have hloops : (prune code).countP (fun u => u.kind == .loop) =
      code.countP (fun u => u.kind == .loop) := by
    refine prune_induction ho (motive := fun old new =>
      new.countP (fun u => u.kind == .loop) = old.countP (fun u => u.kind == .loop)) rfl ?_ ?_
    · intro old new u _ _ _ ih
      simp only [countP_append, ih]
      rfl
    · intro old new u hu hi ih
      have hplain := plain_of_dead ho hn hu hi
      have hkind : u.kind ≠ .loop := by
        intro hk
        simp [hk] at hplain
      simp [countP_append, ih, hkind]
  simp only [stepLimit, hr.pruned_eq, hr.code_eq, countP_toArray, hloops]

variable {s s' s₁ : Store}

def SameThread (code : List Instr) (a b : Thread × Array Reg) : Prop :=
  b.1 = a.1 ∧ SameRegs code a.2 b.2

lemma runPhase_place {phase : Nat × Nat} (hts : Forall₂ (SameThread code) ts ts')
    (hs : SameStore code p q s s') :
    Mirrors (fun a b => Forall₂ (SameThread code) a.1 b.1 ∧ SameStore code p q a.2 b.2)
      (p.runPhase phase ts s) (q.runPhase (phase.map (place code) (place code)) ts' s') := by
  induction hts generalizing s s' with
  | nil => exact .ok ⟨.nil, hs⟩
  | @cons a b ts ts' hab _ ih =>
    obtain ⟨t, regs⟩ := a
    obtain ⟨t', regs'⟩ := b
    obtain ⟨rfl, hregs⟩ := hab
    have hstart : Same code p q { regs, store := s } { regs := regs', store := s' } :=
      ⟨hregs, hs⟩
    rw [runPhase, runPhase, hr.stepLimit_eq ho hn]
    refine (hr.runSteps_place ho hstart hn le_rfl).bind fun x x' hx => ?_
    exact (ih hx.store).bind fun _ _ h => .ok ⟨.cons ⟨rfl, hx.regs⟩ h.1, h.2⟩

lemma runPhases_place {phases : List (Nat × Nat)} (hts : Forall₂ (SameThread code) ts ts')
    (hs : SameStore code p q s s') : Mirrors (fun a b => SameStore code p q a.2 b.2)
      (phases.foldlM (fun (ts, store) phase => p.runPhase phase ts store) (ts, s))
      ((phases.map (Prod.map (place code) (place code))).foldlM
        (fun (ts, store) phase => q.runPhase phase ts store) (ts', s')) := by
  induction phases generalizing ts ts' s s' with
  | nil => exact .ok hs
  | cons phase phases ih =>
    rw [map_cons, foldlM_cons, foldlM_cons]
    exact (hr.runPhase_place ho hn hts hs).bind fun _ _ h => ih h.1 h.2

omit ho hn in
lemma sameStore_zeros (globals : Array (Array Double)) : SameStore code p q
    { globals, shared := (p.shared.map (fun n => Array.replicate n 0.0)).toArray }
    { globals, shared := (q.shared.map (fun n => Array.replicate n 0.0)).toArray } := by
  refine ⟨rfl, fun n m hpaired => ?_⟩
  cases hr.memories.alike _ _ hpaired with
  | shared hn hm => simp [hn, hm]

lemma runGroup_of_whole {threads : List (List Int)} {group : List Int}
    {globals globals₁ : Array (Array Double)}
    (h : p.runGroup threads vals globals group = .ok globals₁) :
    q.runGroup threads vals globals group = .ok globals₁ := by
  obtain ⟨⟨⟩, hroom, h⟩ := bind_eq_ok.1 h
  obtain ⟨⟨ts, s⟩, hphases, h⟩ := bind_eq_ok.1 h
  cases h
  have hroom' : q.shared.forM (fun n => (liftM (room n) : Fallible Unit)) = .ok () :=
    forM_eq_ok.2 fun n hn => forM_eq_ok.1 hroom n (hr.memories.sizes hn)
  have hregs : SameRegs code (Array.replicate p.code.size [0.0])
      (Array.replicate q.code.size [0.0]) := by
    rw [hr.code_eq, hr.pruned_eq]
    exact sameRegs_replicate code [0.0]
  have hts : Forall₂ (SameThread code)
      (threads.map
        (fun self => (({ group, self, vals } : Thread), Array.replicate p.code.size [0.0])))
      (threads.map (fun self => ({ group, self, vals }, Array.replicate q.code.size [0.0]))) := by
    rw [forall₂_map_left_iff, forall₂_map_right_iff]
    exact forall₂_same.2 fun _ _ => ⟨rfl, hregs⟩
  obtain ⟨⟨ts', s'⟩, hphases', hs⟩ :=
    hr.runPhases_place ho hn hts (hr.sameStore_zeros globals) _ hphases
  rw [← hr.phases] at hphases'
  exact bind_eq_ok.2
    ⟨(), hroom', bind_eq_ok.2 ⟨(ts', s'), hphases', congrArg Except.ok hs.globals⟩⟩

omit hn in
lemma storedSlot_moved (hi : Live code i) (hu : code[i]? = some u) :
    q.storedSlot (u.moved (place code)) = p.storedSlot u := by
  have hkind : (u.moved (place code)).kind = u.kind := rfl
  have hinputs : (u.moved (place code)).inputs = u.inputs.map (place code) := rfl
  simp only [storedSlot, hkind, hinputs, length_map, head?_map]
  cases hj : u.inputs.head? with
  | none => rfl
  | some j =>
    have hlive : Live code j := hi.input ho hu (mem_of_head? hj)
    have hdefined := hr.memories.defined j hlive
    cases hp : p.regions.lookup j with
    | none =>
      rw [hp] at hdefined
      have hq : q.regions.lookup (place code j) = none :=
        Option.not_isSome_iff_eq_none.1 fun hsome => Bool.false_ne_true (hdefined.2 hsome)
      simp [hp, hq]
    | some r =>
      obtain ⟨r', hq⟩ := Option.isSome_iff_exists.1 (hdefined.1 (by simp [hp]))
      cases hr.memories.alike r r' ⟨j, hlive, hp, hq⟩ with
      | global slot | shared hn hm => simp [hp, hq]

omit hn in
lemma stored_eq : q.stored = p.stored := by
  simp only [stored, hr.code_eq, hr.pruned_eq]
  refine prune_induction ho
    (motive := fun old new => new.filterMap q.storedSlot = old.filterMap p.storedSlot) rfl ?_ ?_
  · intro old new u hu hi _ ih
    rw [filterMap_append, filterMap_append, ih]
    simp only [filterMap_cons, hr.storedSlot_moved ho hi hu, filterMap_nil]
  · intro old new u hu hi ih
    have hkind : u.kind ≠ .store := fun hk =>
      hi (live_of_effect hu (by simp [hk, InstrKind.hasEffect]))
    rw [filterMap_append, ih]
    simp [storedSlot, hkind]

/-- What the whole program leaves in the buffers, the pruned one leaves there too. -/
lemma run_of_whole {m m' : Memory} {buffers : List Buffer}
    {globalSize localSize : Option (List Int)}
    (h : p.run m buffers globalSize localSize vals = .ok m') :
    q.run m buffers globalSize localSize vals = .ok m' := by
  obtain ⟨groups, hgroups, h⟩ := bind_eq_ok.1 h
  obtain ⟨threads, hthreads, h⟩ := bind_eq_ok.1 h
  obtain ⟨globals, hglobals, h⟩ := bind_eq_ok.1 h
  rw [← hr.stored_eq ho] at h
  exact bind_eq_ok.2 ⟨groups, hgroups, bind_eq_ok.2 ⟨threads, hthreads,
    bind_eq_ok.2
      ⟨globals, foldlM_of_step (fun _ _ _ => hr.runGroup_of_whole ho hn) hglobals, h⟩⟩⟩

end Reloaded

end LazyTensor.Machine

namespace LazyTensor.Kernel

open Program Build

/-- Dropping the instructions that nothing reads changes no run: whatever the launch, the bindings
and the buffers, if the machine runs all that was built for a kernel, it runs the program of the
kernel too, and leaves the same memory. -/
theorem prune_keeps_runs {k : Kernel} {limit : Nat} {names names' : Names} {p : Program}
    {b : Builder} (h : (program names).run { kernel := k, limit } = .ok ((p, names'), b))
    (device : String) :
    ∃ whole pruned, Machine.load device { p with code := b.code.toList } = .ok whole ∧
      Machine.load device p = .ok pruned ∧
      ∀ (m m' : Memory) (buffers : List Buffer) (globalSize localSize : Option (List Int))
        (vals : Bindings), whole.run m buffers globalSize localSize vals = .ok m' →
        pruned.run m buffers globalSize localSize vals = .ok m' := by
  have hw := program_run h
  obtain ⟨whole, hwhole⟩ :=
    Machine.load_of_nesting (p := { p with code := b.code.toList }) device hw.nested
  obtain ⟨pruned, hpruned, hr⟩ := Machine.load_prune hw.ordered hw.nested hw.pruned hwhole
  exact ⟨whole, pruned, hwhole, hpruned, fun _ _ _ _ _ _ =>
    hr.run_of_whole hw.ordered hw.nested⟩

/-- The difference of two buffers, written as the sum of one and the negated other. It is built as a
difference at once, and the negation is left over. -/
def difference : Fallible Kernel := do
  let row ← Layout.ofShape [.num 2]
  ofTree { op := .binary .add, srcs := [leaf 1 row, .apply (.unary .neg) .none [leaf 2 row]] } {}

def pairs (count : Nat) : List Buffer :=
  (List.range count).map (fun block => { element := .float32, size := 2, block })

def zeroPairs (count : Nat) : Memory := { blocks := List.replicate count (List.replicate 8 0) }

theorem difference_prune_keeps_run : ∃ k p names b whole pruned m, difference = .ok k ∧
    (program []).run { kernel := k, limit := 0 } = .ok ((p, names), b) ∧
    p.code.length < b.code.size ∧
    Machine.load "VM" { p with code := b.code.toList } = .ok whole ∧
    Machine.load "VM" p = .ok pruned ∧
    whole.run (zeroPairs 3) (pairs 3) (some [2]) (some [1]) [] = .ok m ∧
    pruned.run (zeroPairs 3) (pairs 3) (some [2]) (some [1]) [] = .ok m := by
  have hrun : (difference >>= fun k =>
      liftM ((program []).run { kernel := k, limit := 0 })).toOption.any (fun r =>
        r.1.1.code.length < r.2.code.size &&
        (Machine.load "VM" { r.1.1 with code := r.2.code.toList } >>= fun whole =>
          whole.run (zeroPairs 3) (pairs 3) (some [2]) (some [1]) []).toOption.any (fun _ =>
          true)) := by
    decide +kernel
  obtain ⟨⟨⟨p, names⟩, b⟩, hrun, htest⟩ := Checked.exists_of_any hrun
  obtain ⟨k, hk, hrun⟩ := Checked.bind_eq_ok.1 hrun
  have hrun := Checked.lift_eq_ok.1 hrun
  obtain ⟨hless, htest⟩ := Bool.and_eq_true_iff.1 htest
  obtain ⟨m, hm, _⟩ := Checked.exists_of_any htest
  obtain ⟨whole, hload, hm⟩ := Checked.bind_eq_ok.1 hm
  obtain ⟨whole', pruned, hwhole, hpruned, hsame⟩ := prune_keeps_runs hrun "VM"
  cases hload.symm.trans hwhole
  exact ⟨k, p, names, b, whole, pruned, m, hk, hrun, of_decide_eq_true hless, hload, hpruned, hm,
    hsame _ _ _ _ _ _ hm⟩

end LazyTensor.Kernel
