import LazyTensor.Proofs.Program.Lower

/-! The phases of a program. Loops are opened and closed in pairs, barriers stand where no loop is
open, and after the loops of a reduce nothing is built that depends on their counters. -/
namespace LazyTensor
open Program List Builder

/-- A sound builder and the loops that are open in its code. -/
structure Builder.Ready (b : Builder) (stack : List Nat) : Prop where
  sound : b.Sound [] (fun _ => True)
  nested : nesting b.code.toList = some stack

def Builder.Extends (b b' : Builder) : Prop :=
  ∃ more, b'.code.toList = b.code.toList ++ more ∧ ∀ u ∈ more, u.kind ≠ .endLoop

namespace Builder
variable {b b' b'' : Builder} {stack : List Nat}
variable {u : Instr} {loops : List Nat}

def pushed (b : Builder) (u : Instr) : Builder := { b with code := b.code.push u }

def holding (b : Builder) (name : String) (id : Nat) : Builder :=
  { b with counters := (name, id) :: b.counters }

@[simp] lemma pushed_code (b : Builder) (u : Instr) :
    (b.pushed u).code.toList = b.code.toList ++ [u] := by simp [pushed]

@[simp] lemma pushed_size (b : Builder) (u : Instr) : (b.pushed u).code.size = b.code.size + 1 := by
  simp [pushed]

@[simp] lemma holding_code (b : Builder) (name : String) (id : Nat) :
    (b.holding name id).code = b.code := rfl

lemma extends_pushed (h : u.kind ≠ .endLoop) : b.Extends (b.pushed u) :=
  ⟨[u], by simp, by simpa using h⟩

lemma Extends.refl : b.Extends b := ⟨[], by simp, by simp⟩

lemma Extends.trans (h : b.Extends b') (h' : b'.Extends b'') : b.Extends b'' := by
  obtain ⟨more, he, hmore⟩ := h
  obtain ⟨more', he', hmore'⟩ := h'
  exact ⟨more ++ more', by rw [he', he, append_assoc], forall_mem_append.2 ⟨hmore, hmore'⟩⟩

lemma Extends.size_le (h : b.Extends b') : b.code.size ≤ b'.code.size := by
  obtain ⟨_, he, _⟩ := h
  have := congrArg length he
  simp only [length_append, Array.length_toList] at this
  omega

lemma Adds.extends (h : b.Adds loops b') : b.Extends b' := by
  obtain ⟨more, he, hmore⟩ := h
  refine ⟨more, he, fun u hu hk => ?_⟩
  have := (hmore u hu).1
  simp [hk] at this

section
variable (h : b.Ready stack)
include h

lemma Ready.quiet {P : String → Prop} (hs : b'.Sound [] (fun _ => True))
    (hq : b.Quiet loops P b') : b'.Ready stack :=
  ⟨hs, hq.adds.nesting.trans h.nested⟩

lemma Ready.change (hcode : b'.code = b.code) (hsaved : b'.saved = b.saved)
    (hloads : ∀ e ∈ b'.loads, e.2 < b.code.size)
    (hcounters : ∀ name id, b'.counters.lookup name = some id → id < b.code.size)
    (hslots : ∀ id, some id ∈ b'.slots → id < b.code.size) : b'.Ready stack := by
  have hclear {id : Nat} (hid : id < b.code.size) : Clear [] b'.code.toList id := by
    rw [clear_nil, hcode]
    simpa using hid
  refine ⟨⟨hcode ▸ h.sound.ordered, by simp, hsaved ▸ hcode ▸ h.sound.saved,
    fun e he => hclear (hloads e he), fun name id _ hid => hclear (hcounters name id hid),
    fun id hid => hclear (hslots id hid)⟩, hcode ▸ h.nested⟩

lemma Ready.loads_lt : ∀ e ∈ b.loads, e.2 < b.code.size :=
  fun e he => by simpa using (h.sound.loads e he).1

lemma Ready.counters_lt : ∀ name id, b.counters.lookup name = some id → id < b.code.size :=
  fun name id hid => by simpa using (h.sound.counters name id trivial hid).1

lemma Ready.slots_lt : ∀ id, some id ∈ b.slots → id < b.code.size :=
  fun id hid => by simpa using (h.sound.slots id hid).1

lemma Ready.push {stack' : List Nat} (hu : ∀ j ∈ u.inputs, j < b.code.size)
    (hn : enter stack u b.code.size = some stack') : (b.pushed u).Ready stack' := by
  have hclear {id : Nat} (hid : Clear [] b.code.toList id) : Clear []
      (b.pushed u).code.toList id := by
    rw [pushed_code]
    exact hid.append h.sound.ordered
  refine ⟨⟨?_, by simp, fun e he => ?_, fun e he => hclear (h.sound.loads e he),
    fun name id hn hid => hclear (h.sound.counters name id hn hid),
    fun id hid => hclear (h.sound.slots id hid)⟩, ?_⟩
  · rw [pushed_code]
    exact h.sound.ordered.snoc fun j hj => by simpa using hu j hj
  · rw [pushed_code]
    exact getElem?_append_some (h.sound.saved e he) [u]
  · rw [pushed_code, nesting_snoc, h.nested]
    simpa using hn

lemma Ready.hold (name : String) {id : Nat} (hid : id < b.code.size) :
    (b.holding name id).Ready stack := by
  refine h.change rfl rfl h.loads_lt (fun n i hi => ?_) h.slots_lt
  rw [holding, lookup_cons] at hi
  split at hi
  · cases hi
    exact hid
  · exact h.counters_lt n i hi

end

end Builder

namespace Build
variable {α : Type} {b b' : Builder} {stack : List Nat}
variable {counters : List Counter} {loops : List Nat}

lemma emit_run {u : Instr} (hk : u.kind = .loop ∨ u.kind = .endLoop ∨ u.kind = .barrier) :
    (emit u false).run b = .ok (b.code.size, b.pushed u) := by
  have hout : Peephole.outcome b.code u = .keep := by
    unfold Peephole.outcome
    split <;> simp_all
  have hrun : (emit u false).run b = (insert u false).run b := by
    simp only [emit, StateT.run_bind, StateT.run_get, pure_bind, hout]
  rw [hrun]
  rfl

/-- What is built first keeps the open loops as they are. -/
lemma Gives.run_bind {β : Type} {x : Build α} {f : α → Build β}
    {Q : α → Builder → Prop} {c : β} (hx : Gives [] (fun _ => True) b x Q) (h : b.Ready stack)
    (hrun : (x >>= f).run b = .ok (c, b')) :
    ∃ a b₁, b.Quiet [] (fun _ => True) b₁ ∧ Q a b₁ ∧ b₁.Ready stack ∧
      (f a).run b₁ = .ok (c, b') := by
  obtain ⟨a, b₁, ha, hrun⟩ := run_bind_eq_ok.1 hrun
  obtain ⟨h₁, hQ⟩ := hx a b₁ ha
  exact ⟨a, b₁, h₁, hQ, h.quiet h₁.sound h₁, hrun⟩

/-- What opening the loops of counters leaves behind. -/
structure Opened (counters : List Counter) (loops : List Nat) (b b' : Builder) : Prop where
  extends_ : b.Extends b'
  kernel : b'.kernel = b.kernel
  slots : b'.slots = b.slots
  increasing : loops.Pairwise (· < ·)
  fresh : ∀ l ∈ loops, b.code.size ≤ l
  starts : ∀ l ∈ loops, ∃ u, b'.code.toList[l]? = some u ∧ u.kind = .loop
  counters : ∀ name, (∀ c ∈ counters, c.var.name ≠ name) →
    b'.counters.lookup name = b.counters.lookup name

lemma openLoops_run (h : b.Ready stack) (hrun : (openLoops counters).run b = .ok (loops, b')) :
    b'.Ready (loops.reverse ++ stack) ∧ Opened counters loops b b' := by
  induction counters generalizing b stack loops with
  | nil =>
    cases hrun
    exact ⟨h, .refl, rfl, rfl, .nil, by simp, by simp, fun _ _ => rfl⟩
  | cons c counters ih =>
    unfold openLoops at hrun
    split at hrun
    · obtain ⟨hready, ho⟩ := ih h hrun
      exact ⟨hready, ho.extends_, ho.kernel, ho.slots, ho.increasing, ho.fresh, ho.starts,
        fun name hn => ho.counters name fun d hd => hn d (by simp [hd])⟩
    obtain ⟨start, b₁, h₁, hstart, hready₁, hrun⟩ :=
      (constant_gives h.sound).run_bind h hrun
    obtain ⟨stop, b₂, h₂, hstop, hready₂, hrun⟩ :=
      (index_gives h₁.sound fun _ _ => trivial).run_bind hready₁ hrun
    obtain ⟨id, b₃, hid, hrun⟩ := run_bind_eq_ok.1 hrun
    rw [emit_run (.inl rfl)] at hid
    cases hid
    obtain ⟨_, b₄, hhold, hrun⟩ := run_bind_eq_ok.1 hrun
    cases hhold
    obtain ⟨rest, b₅, hrest, hrun⟩ := run_bind_eq_ok.1 hrun
    cases hrun
    have hinputs : ∀ j ∈ [start, stop], j < b₂.code.size := by
      have hstart := clear_nil.1 (h₂.clear h₁.sound hstart)
      have hstop := clear_nil.1 hstop
      simpa using ⟨by simpa using hstart, by simpa using hstop⟩
    generalize hu : ({ kind := .loop, element := some .int32, inputs := [start, stop] } : Instr) = u
      at hrest
    have hpushed : (b₂.pushed u).Ready (b₂.code.size :: stack) :=
      hready₂.push (hu ▸ hinputs) (by subst hu; rfl)
    obtain ⟨hready, ho⟩ := ih (hpushed.hold _ (by simp)) hrest
    have hbefore := h₁.adds.extends.trans h₂.adds.extends
    have hfresh : ∀ l ∈ rest, b₂.code.size < l := fun l hl => by
      have := ho.fresh l hl
      simp only [holding_code, pushed_size] at this
      omega
    refine ⟨by simpa using hready,
      (hbefore.trans (extends_pushed (by subst hu; simp))).trans ho.extends_,
      ho.kernel.trans (h₂.kernel.trans h₁.kernel), ho.slots.trans (h₂.slots.trans h₁.slots),
      pairwise_cons.2 ⟨hfresh, ho.increasing⟩, ?_, ?_, fun name hn => ?_⟩
    · refine forall_mem_cons.2 ⟨hbefore.size_le, fun l hl => ?_⟩
      exact hbefore.size_le.trans (hfresh l hl).le
    · obtain ⟨more, he, _⟩ := ho.extends_
      refine forall_mem_cons.2 ⟨⟨u, ?_, by subst hu; rfl⟩, ho.starts⟩
      rw [he]
      exact getElem?_append_some (by simp) more
    · rw [ho.counters name fun d hd => hn d (by simp [hd])]
      have hne : (name == c.var.name) = false := beq_eq_false_iff_ne.2 (hn c (by simp)).symm
      simp only [holding, pushed, lookup_cons, hne]
      rw [h₂.counters, h₁.counters]

def loopEnds (loops : List Nat) : List Instr :=
  loops.reverse.map (fun l => { kind := .endLoop, inputs := [l] })

lemma closeLoops_run (loops : List Nat) (b : Builder) :
    (closeLoops loops).run b = .ok ((), (loopEnds loops).foldl pushed b) := by
  unfold closeLoops loopEnds
  induction loops.reverse generalizing b with
  | nil => rfl
  | cons l ls ih =>
    have hone : (discard (emit { kind := .endLoop, inputs := [l] } false) : Build PUnit).run b =
        .ok ((), b.pushed { kind := .endLoop, inputs := [l] }) := by
      change ((emit { kind := .endLoop, inputs := [l] } false).run b >>= fun r => pure ((), r.2)) =
        _
      rw [emit_run (.inr (.inl rfl))]
      rfl
    change (discard (emit { kind := .endLoop, inputs := [l] } false) >>= fun _ => ls.forM _).run b =
      _
    rw [StateT.run_bind, hone]
    exact ih _

lemma foldl_pushed (us : List Instr) (b : Builder) :
    (us.foldl pushed b).code.toList = b.code.toList ++ us ∧
      (us.foldl pushed b).kernel = b.kernel ∧
      (us.foldl pushed b).counters = b.counters ∧
      (us.foldl pushed b).slots = b.slots := by
  induction us generalizing b with
  | nil => simp
  | cons u us ih =>
    obtain ⟨hcode, hrest⟩ := ih (b.pushed u)
    exact ⟨by simp [hcode], hrest⟩

/-- What closing loops leaves behind. -/
structure Closed (loops : List Nat) (b b' : Builder) : Prop where
  code : b'.code.toList = b.code.toList ++ loopEnds loops
  kernel : b'.kernel = b.kernel
  counters : b'.counters = b.counters
  slots : b'.slots = b.slots

lemma closeLoops_ready (h : b.Ready (loops.reverse ++ stack))
    (hl : ∀ l ∈ loops, l < b.code.size) (hrun : (closeLoops loops).run b = .ok ((), b')) :
    b'.Ready stack ∧ Closed loops b b' := by
  obtain ⟨hcode, hkernel, hcounters, hslots⟩ := foldl_pushed (loopEnds loops) b
  rw [closeLoops_run] at hrun
  obtain rfl : (loopEnds loops).foldl pushed b = b' := by
    cases hrun
    rfl
  refine ⟨?_, hcode, hkernel, hcounters, hslots⟩
  clear hcode hkernel hcounters hslots hrun
  unfold loopEnds
  replace hl : ∀ l ∈ loops.reverse, l < b.code.size := by simpa using hl
  generalize loops.reverse = ls at h hl
  induction ls generalizing b with
  | nil => exact h
  | cons l ls ih =>
    have hpushed : (b.pushed { kind := .endLoop, inputs := [l] }).Ready (ls ++ stack) :=
      h.push (by simpa using hl l (by simp)) (by simp [enter])
    refine ih hpushed fun x hx => ?_
    have := hl x (by simp [hx])
    simp only [pushed_size]
    omega

lemma Closed.size_le (h : Closed loops b b') : b.code.size ≤ b'.code.size := by
  have := congrArg length h.code
  simp only [length_append, Array.length_toList] at this
  omega

lemma Opened.start_lt {b'' : Builder} (ho : Opened counters loops b b') (he : b'.Extends b'') :
    ∀ l ∈ loops, l < b''.code.size := by
  intro l hl
  obtain ⟨u, hu, _⟩ := ho.starts l hl
  have hlt := (List.getElem?_eq_some_iff.1 hu).1
  rw [Array.length_toList] at hlt
  exact hlt.trans_le he.size_le

/-! Definitions and launch indices. -/

lemma holdAll_run {xs : List α} {u : α → Instr} {name : α → String}
    (hu : ∀ x, (u x).kind.isPlain ∧ (u x).inputs = []) (h : b.Ready stack)
    (hrun : (xs.forM fun x => do
      let id ← emit (u x) true
      holdCounter (name x) id).run b = .ok ((), b')) :
    b'.Ready stack ∧ b.Extends b' ∧ b'.kernel = b.kernel := by
  induction xs generalizing b with
  | nil =>
    cases hrun
    exact ⟨h, .refl, rfl⟩
  | cons x xs ih =>
    obtain ⟨_, b₂, hone, hrest⟩ := run_bind_eq_ok.1 hrun
    obtain ⟨id, b₁, h₁, hid, hready, hhold⟩ :=
      (emit_gives h.sound (hu x).1 (by simp [(hu x).2])).run_bind h hone
    cases hhold
    obtain ⟨hdone, hext, hkernel⟩ := ih (hready.hold (name x) (by simpa using hid.1)) hrest
    exact ⟨hdone, h₁.adds.extends.trans hext, hkernel.trans h₁.kernel⟩

lemma defineVars_run (h : b.Ready stack) (hrun : defineVars.run b = .ok ((), b')) :
    b'.Ready stack ∧ b.Extends b' ∧ b'.kernel = b.kernel := by
  obtain ⟨k, b₀, hk, hrun⟩ := run_bind_eq_ok.1 hrun
  cases hk
  exact holdAll_run (fun _ => ⟨rfl, rfl⟩) h hrun

lemma openOuter_run {locals : Bool} {global inner : List Counter} {outer : List Nat}
    (h : b.Ready []) (hrun : (openOuter locals global inner).run b = .ok (outer, b')) :
    b'.Ready outer.reverse ∧ b.Extends b' ∧ b'.kernel = b.kernel ∧
      outer.Pairwise (· < ·) ∧
      (locals → outer = []) ∧ ∀ l ∈ outer, l < b'.code.size := by
  unfold openOuter at hrun
  split at hrun
  · obtain ⟨_, b₁, hglobal, hrun⟩ := run_bind_eq_ok.1 hrun
    obtain ⟨_, b₂, hinner, hrun⟩ := run_bind_eq_ok.1 hrun
    cases hrun
    obtain ⟨h₁, he₁, hk₁⟩ := holdAll_run (fun _ => ⟨rfl, rfl⟩) h hglobal
    obtain ⟨h₂, he₂, hk₂⟩ := holdAll_run (fun _ => ⟨rfl, rfl⟩) h₁ hinner
    exact ⟨h₂, he₁.trans he₂, hk₂.trans hk₁, .nil, fun _ => rfl, by simp⟩
  · next hlocals =>
    obtain ⟨hready, ho⟩ := openLoops_run h hrun
    exact ⟨by simpa using hready, ho.extends_, ho.kernel, ho.increasing, fun hl =>
      absurd hl hlocals,
      ho.start_lt .refl⟩

lemma defineSlots_run (h : b.Ready stack) (hrun : defineSlots.run b = .ok ((), b')) :
    b'.Ready stack ∧ b.Extends b' ∧ b'.kernel = b.kernel := by
  have hgives : Gives [] (fun _ => True) b (b.kernel.slots.mapM defineSlot)
      (fun ids b' => ∀ o ∈ ids, ∀ id ∈ o, Clear [] b'.code.toList id) := by
    refine .mapM h.sound (fun o _ _ hs hq ho id hid => hq.clear hs (ho id hid)) fun s _ b' h' => ?_
    unfold defineSlot
    split
    · exact .map ((emit_gives h'.sound rfl (by simp)).weaken fun id _ _ hid => by simpa using hid)
    · exact .pure h'.sound (by simp)
  obtain ⟨ids, b₁, h₁, hslots, hready, hset⟩ := hgives.run_bind h
    (show (b.kernel.slots.mapM defineSlot >>= fun ids =>
      modify (fun b => { b with slots := ids })).run b = .ok ((), b') from hrun)
  cases hset
  refine ⟨hready.change rfl rfl hready.loads_lt hready.counters_lt fun id hid => ?_,
    h₁.adds.extends, h₁.kernel⟩
  simpa using (hslots _ hid id rfl).1

/-- Shared memory is defined for a grouped reduce only. The target and the groups of the kernel
stay as they are. -/
lemma defineShared_run (h : b.Ready stack) (hrun : defineShared.run b = .ok ((), b')) :
    b'.Ready stack ∧ b.Extends b' ∧ b'.kernel.target = b.kernel.target ∧
      b'.kernel.groups = b.kernel.groups ∧ (b.kernel.groups = [] → b'.kernel = b.kernel) := by
  obtain ⟨k, b₁, hk, hrun⟩ := run_bind_eq_ok.1 hrun
  cases hk
  by_cases hg : b.kernel.groups.isEmpty
  · rw [if_pos hg] at hrun
    cases hrun
    exact ⟨h, .refl, rfl, rfl, fun _ => rfl⟩
  · rw [if_neg hg] at hrun
    obtain ⟨_, _, hrun⟩ := run_bind_checked_eq_ok.1 hrun
    obtain ⟨_, _, hrun⟩ := run_bind_checked_eq_ok.1 hrun
    obtain ⟨_, _, hrun⟩ := run_bind_checked_eq_ok.1 hrun
    obtain ⟨_, _, hrun⟩ := run_bind_checked_eq_ok.1 hrun
    obtain ⟨_, b₁, hset, hrun⟩ := run_bind_eq_ok.1 hrun
    have h₁ : b₁.Ready stack ∧ b.Extends b₁ ∧ b₁.kernel.target = b.kernel.target ∧
        b₁.kernel.groups = b.kernel.groups := by
      cases hset
      exact ⟨h.change rfl rfl h.loads_lt h.counters_lt h.slots_lt, .refl, rfl, rfl⟩
    obtain ⟨hready, hext, htarget, hgroups⟩ := h₁
    obtain ⟨id, b₂, h₂, hid, hready₂, hrun⟩ :=
      (emit_gives hready.sound rfl (by simp)).run_bind hready hrun
    cases hrun
    refine ⟨hready₂.change rfl rfl hready₂.loads_lt hready₂.counters_lt fun i hi => ?_,
      hext.trans h₂.adds.extends, by rw [← htarget, ← h₂.kernel], by
      rw [← hgroups, ← h₂.kernel],
      fun he => absurd (by simp [he]) hg⟩
    obtain hi | hi := mem_append.1 hi
    · exact hready₂.slots_lt i hi
    · cases mem_singleton.1 hi
      simpa using hid.1

end Build

end LazyTensor
