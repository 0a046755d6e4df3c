import LazyTensor.Proofs.Program.Phases

/-! The code of a whole program, before unused instructions are dropped. -/
namespace LazyTensor
open Program List Source Checked

namespace Build
variable {b b' : Builder} {stack : List Nat} {loops : List Nat} {P : String → Prop}
variable {idxs full still : List SymInt} {op : ReduceOp} {i i' : Indices} {acc : List Nat}
  {loaded : Loaded} {k : Kernel} {limit : Nat} {names names' : Names} {p : Program}
variable {counters : List Counter} {name : String}

lemma loadSlots_gives (hb : b.Sound loops P) (hP : ∀ j : Nat, P s!"_uidx{j}")
    {wanted : Kernel → Slot → Bool} (hi : ∀ x ∈ idxs, SymInt.Over P x) :
    Gives loops P b (loadSlots wanted idxs) (fun loaded b' => ∀ e ∈ loaded,
      (∃ s, b.kernel.slots[e.1]? = some s ∧ wanted b.kernel s) ∧ b'.ClearsAll loops e.2) := by
  refine .bind_kernel (.mapM hb (fun e _ _ hs hq he => ⟨he.1, hq.clearAll hs he.2⟩)
    fun x hx b₁ h₁ => ?_)
  refine (load_gives h₁.sound hP hi (by simp)).bind fun ids b₂ h₂ hids =>
    .pure h₂.sound ⟨?_, hids⟩
  obtain ⟨hmem, hwanted⟩ := mem_filter.1 hx
  exact ⟨x.1, mem_zipIdx_iff_getElem?.1 (mem_of_mem_drop hmem), hwanted⟩

/-- The counters of a reduce have names of their own. -/
def OtherName (counters : List Counter) (name : String) : Prop :=
  ∀ c ∈ counters, c.var.name ≠ name

/-- What the reduce within a thread leaves behind. Its loops are closed, and what may be used later
is clear of them. -/
structure Reduced (counters : List Counter) (acc : List Nat) (loaded : Loaded) (b b' : Builder) :
    Prop where
  kernel : b'.kernel = b.kernel
  size : b.code.size ≤ b'.code.size
  valid : ∀ id ∈ acc, id < b'.code.size
  early : ∀ e ∈ loaded, (∃ s, b.kernel.slots[e.1]? = some s ∧ isEarly b.kernel s) ∧
    ∀ id ∈ e.2, id < b'.code.size
  split : ∃ mid loops, b.Extends mid ∧ b'.code.toList = mid.code.toList ++ loopEnds loops ∧
    loops.Pairwise (· < ·) ∧ (∀ l ∈ loops, b.code.size ≤ l) ∧
    b'.Sound loops (OtherName counters) ∧ ∀ id ∈ acc, b'.Clears loops id

lemma reduceThread_run {srcs : List Source} (h : b.Ready stack)
    (hrun : (reduceThread op srcs i full counters).run b = .ok ((acc, loaded), b')) :
    b'.Ready stack ∧ Reduced counters acc loaded b b' := by
  obtain ⟨acc', b₁, h₁, hacc, hready₁, hrun⟩ :=
    (load_gives h.sound (fun _ => trivial) (fun _ _ _ _ => trivial) (by simp)).run_bind h hrun
  obtain ⟨loops, b₂, hloops, hrun⟩ := run_bind_eq_ok.1 hrun
  obtain ⟨hready₂, ho⟩ := openLoops_run hready₁ hloops
  obtain ⟨_, b₃, h₃, hloaded, hready₃, hrun⟩ :=
    (loadSlots_gives hready₂.sound (fun _ => trivial) fun _ _ _ _ => trivial).run_bind
      hready₂ hrun
  obtain ⟨k, b₄, hk, hrun⟩ := run_bind_eq_ok.1 hrun
  cases hk
  obtain ⟨_, _, hrun⟩ := run_bind_checked_eq_ok.1 hrun
  have hacc : ∀ id ∈ acc', id < b₁.code.size := fun id hid => by simpa using (hacc id hid).1
  have hlater := ho.extends_.trans h₃.adds.extends
  obtain ⟨_, b₄, h₄, _, hready₄, hrun⟩ := (lowerReduce_gives hready₃.sound
    (fun id hid => clear_nil.2 (by simpa using (hacc id hid).trans_le hlater.size_le))
    (fun e he => (hloaded e he).2)).discard.run_bind hready₃ hrun
  obtain ⟨_, b₅, hclose, hrun⟩ := run_bind_eq_ok.1 hrun
  have hafter := h₃.adds.extends.trans h₄.adds.extends
  obtain ⟨hready₅, hc⟩ := closeLoops_ready hready₄ (ho.start_lt hafter) hclose
  cases hrun
  have hready : ({ b₅ with loads := [] } : Builder).Ready stack :=
    hready₅.change rfl rfl (by simp) hready₅.counters_lt hready₅.slots_lt
  -- what stood before the loops were opened does not depend on them
  have hbefore {id : Nat} (hid : id < b₁.code.size) : b₅.Clears loops id := by
    refine .of_before hready.sound.ordered ?_ fun l hl => hid.trans_le (ho.fresh l hl)
    have := (hlater.trans h₄.adds.extends).size_le.trans hc.size_le
    rw [Array.length_toList]
    omega
  have hext := h₁.adds.extends.trans (hlater.trans h₄.adds.extends)
  refine ⟨hready,
    hc.kernel.trans (h₄.kernel.trans (h₃.kernel.trans (ho.kernel.trans h₁.kernel))),
    hext.size_le.trans hc.size_le, fun id hid => by
    simpa using (hbefore (hacc id hid)).1, ?_, b₄, loops, hext, hc.code, ho.increasing,
    ?_, ⟨hready.sound.ordered, ?_, hready.sound.saved, by simp, ?_, ?_⟩, fun id hid =>
    hbefore (hacc id hid)⟩
  · intro e he
    obtain ⟨hearly, hids⟩ := hloaded e he
    rw [ho.kernel, h₁.kernel] at hearly
    refine ⟨hearly, fun id hid => ?_⟩
    have hlt := (h₄.clear hready₃.sound (hids id hid)).1
    rw [Array.length_toList] at hlt
    exact hlt.trans_le hc.size_le
  · exact fun l hl => h₁.adds.extends.size_le.trans (ho.fresh l hl)
  · intro l hl
    obtain ⟨u, hu, hk⟩ := ho.starts l hl
    obtain ⟨more, he, _⟩ := hafter
    refine ⟨u, ?_, hk⟩
    rw [hc.code, he]
    exact getElem?_append_some (getElem?_append_some hu more) _
  · intro name id hname hid
    rw [hc.counters, h₄.counters, h₃.counters, ho.counters name hname] at hid
    exact hbefore (hready₁.counters_lt name id hid)
  · intro id hid
    rw [hc.slots, h₄.slots, h₃.slots, ho.slots] at hid
    exact hbefore (hready₁.slots_lt id hid)

lemma upcastMiddle_run {axis : Nat} (h : b.Ready stack)
    (hrun : (upcastMiddle axis).run b = .ok ((), b')) : b'.Ready stack ∧ b'.code = b.code := by
  obtain ⟨k, b₁, hk, hrun⟩ := run_bind_eq_ok.1 hrun
  cases hk
  obtain ⟨n, _, hrun⟩ := run_bind_checked_eq_ok.1 hrun
  obtain ⟨k₁, _, hrun⟩ := run_bind_checked_eq_ok.1 hrun
  obtain ⟨k₂, _, hrun⟩ := run_bind_checked_eq_ok.1 hrun
  cases hrun
  exact ⟨h.change rfl rfl h.loads_lt h.counters_lt h.slots_lt, rfl⟩

lemma upcastMiddles_run {axes : List Nat} (h : b.Ready stack)
    (hrun : (axes.forM upcastMiddle).run b = .ok ((), b')) :
    b'.Ready stack ∧ b'.code = b.code := by
  induction axes generalizing b with
  | nil =>
    cases hrun
    exact ⟨h, rfl⟩
  | cons _ axes ih =>
    obtain ⟨_, b₁, hone, hrest⟩ := run_bind_eq_ok.1 hrun
    obtain ⟨h₁, hcode₁⟩ := upcastMiddle_run h hone
    obtain ⟨h₂, hcode₂⟩ := ih h₁ hrest
    exact ⟨h₂, hcode₂.trans hcode₁⟩

/-- The reduce across the threads waits outside of all loops, and closes the loops that it opens. -/
lemma reduceGroup_run {acc' : List Nat} (h : b.Ready []) (hacc : ∀ id ∈ acc, id < b.code.size)
    (hrun : (reduceGroup op acc i still).run b = .ok ((acc', i'), b')) :
    b'.Ready [] ∧ b.code.size ≤ b'.code.size ∧ ∀ id ∈ acc', id < b'.code.size := by
  have hclear {b : Builder} {ids : List Nat} (hi : ∀ id ∈ ids, id < b.code.size) :
      ∀ id ∈ ids, Clear [] b.code.toList id :=
        fun id hid => clear_nil.2 (by simpa using hi id hid)
  obtain ⟨k, b₀, hk, hrun⟩ := run_bind_eq_ok.1 hrun
  cases hk
  obtain ⟨stores, b₁, h₁, hstores, hready₁, hrun⟩ :=
    (store_gives h.sound (fun _ _ _ _ => trivial) (hclear hacc)).run_bind h hrun
  obtain ⟨barrier, b₂, hbarrier, hrun⟩ := run_bind_eq_ok.1 hrun
  rw [emit_run (.inr (.inr rfl))] at hbarrier
  cases hbarrier
  have hready₂ : (b₁.pushed { kind := .barrier, inputs := stores }).Ready [] :=
    hready₁.push (fun j hj => by simpa using (hstores j hj).1) rfl
  have hbarrier : b₁.code.size <
      (b₁.pushed { kind := .barrier, inputs := stores }).code.size := by simp
  generalize b₁.pushed { kind := .barrier, inputs := stores } = b₂ at *
  obtain ⟨_, _, hrun⟩ := run_bind_checked_eq_ok.1 hrun
  obtain ⟨_, _, hrun⟩ := run_bind_checked_eq_ok.1 hrun
  obtain ⟨_, _, hrun⟩ := run_bind_checked_eq_ok.1 hrun
  obtain ⟨_, _, hrun⟩ := run_bind_checked_eq_ok.1 hrun
  obtain ⟨_, b₃, hmiddle, hrun⟩ := run_bind_eq_ok.1 hrun
  obtain ⟨hready₃, hcode₃⟩ := upcastMiddles_run hready₂ hmiddle
  rw [← hcode₃] at hbarrier
  obtain ⟨k, b₀, hk, hrun⟩ := run_bind_eq_ok.1 hrun
  cases hk
  obtain ⟨_, _, hrun⟩ := run_bind_checked_eq_ok.1 hrun
  obtain ⟨acc₁, b₄, h₄, hacc₁, hready₄, hrun⟩ :=
    (load_gives hready₃.sound (fun _ => trivial) (fun _ _ _ _ => trivial) (by simp)).run_bind
      hready₃ hrun
  obtain ⟨_, b₅, hloops, hrun⟩ := run_bind_eq_ok.1 hrun
  obtain ⟨hready₅, ho⟩ := openLoops_run hready₄ hloops
  have hacc₁ : ∀ id ∈ acc₁, id < b₅.code.size := by
    intro id hid
    have hlt : id < b₄.code.size := by simpa using (hacc₁ id hid).1
    exact hlt.trans_le ho.extends_.size_le
  have hbarrier₅ : b₁.code.size < b₅.code.size :=
    hbarrier.trans_le (h₄.adds.extends.trans ho.extends_).size_le
  have hwait : ∀ x ∈ some b₁.code.size, Clear [] b₅.code.toList x := by
    simpa [clear_nil] using hbarrier₅
  obtain ⟨_, b₆, h₆, hlate, hready₆, hrun⟩ :=
    (load_gives hready₅.sound (fun _ => trivial) (fun _ _ _ _ => trivial) hwait).run_bind
      hready₅ hrun
  obtain ⟨_, _, hrun⟩ := run_bind_checked_eq_ok.1 hrun
  obtain ⟨_, b₇, h₇, _, hready₇, hrun⟩ :=
    (accumulate_gives hready₆.sound (by simpa using hlate)
    (h₆.clearAll hready₅.sound (hclear hacc₁))).discard.run_bind hready₆ hrun
  obtain ⟨_, b₈, hclose, hrun⟩ := run_bind_eq_ok.1 hrun
  have hafter := h₆.adds.extends.trans h₇.adds.extends
  obtain ⟨hready₈, hc⟩ := closeLoops_ready hready₇ (ho.start_lt hafter) hclose
  cases hrun
  have hlate := hafter.size_le.trans hc.size_le
  exact ⟨hready₈.change rfl rfl (by simp) hready₈.counters_lt hready₈.slots_lt,
    (h₁.adds.extends.size_le.trans hbarrier₅.le).trans hlate,
    fun id hid => (hacc₁ id hid).trans_le hlate⟩

lemma reduceCounters_name (h : reduceCounters k = .ok counters) :
    ∀ c ∈ counters, ∃ n : Nat, c.var.name = s!"ridx{n}" := by
  simp only [reduceCounters, bind_eq_ok] at h
  obtain ⟨_, _, _, _, _, _, h⟩ := h
  intro c hc
  obtain ⟨n, _, hn⟩ := exists_of_mapM h hc
  simp only [bind_eq_ok] at hn
  obtain ⟨_, _, hn⟩ := hn
  exact ⟨n, Counter.make_name hn⟩

lemma reduce_run (h : b.Ready stack) (hgroups : b.kernel.groups ≠ [] → stack = [])
    (hrun : (reduce i full).run b = .ok ((acc, loaded, i', still), b')) :
    b'.Ready stack ∧ b.code.size ≤ b'.code.size ∧ (∀ id ∈ acc, id < b'.code.size) ∧
      (∀ e ∈ loaded, ∀ id ∈ e.2, id < b'.code.size) ∧
      (b.kernel.groups = [] → i' = i ∧ (∀ x ∈ still, x = .num 0) ∧
        ∃ counters : List Counter, (∀ c ∈ counters, ∃ n : Nat, c.var.name = s!"ridx{n}") ∧
          Reduced counters acc loaded b b') := by
  obtain ⟨k, b₀, hk, hrun⟩ := run_bind_eq_ok.1 hrun
  cases hk
  split at hrun
  · obtain ⟨counters, hcounters, hrun⟩ := run_bind_checked_eq_ok.1 hrun
    obtain ⟨⟨_, _⟩, b₁, hthread, hrun⟩ := run_bind_eq_ok.1 hrun
    obtain ⟨hready₁, hr⟩ := reduceThread_run h hthread
    dsimp only at hrun
    split at hrun
    · cases hrun
      exact ⟨hready₁, hr.size, hr.valid, fun e he => (hr.early e he).2,
        fun _ => ⟨rfl, by simp, counters, reduceCounters_name hcounters, hr⟩⟩
    · next hne =>
      obtain rfl := hgroups (by simpa using hne)
      obtain ⟨⟨_, i₂⟩, b₂, hgroup, hrun⟩ := run_bind_eq_ok.1 hrun
      obtain ⟨hready₂, hsize, hacc₂⟩ := reduceGroup_run hready₁ hr.valid hgroup
      cases hrun
      exact ⟨hready₂, hr.size.trans hsize, hacc₂, fun e he id hid =>
        ((hr.early e he).2 id hid).trans_le hsize,
        fun he => absurd (by simp [he]) hne⟩
  · cases hrun
    exact ⟨h, le_rfl, by simp, by simp, fun _ =>
      ⟨rfl, by simp, [], by simp, rfl, le_rfl, by simp, by simp, b, [],
      .refl, by simp [loopEnds], .nil, by simp, h.sound.restrict fun _ _ => trivial, by simp⟩⟩

lemma finish_gives (hb : b.Sound loops P) (hP : ∀ j : Nat, P s!"_uidx{j}")
    (hi : ∀ x ∈ idxs, SymInt.Over P x) {tree : OpTree} (ha : b.ClearsAll loops acc)
    (hl : LeavesClear loops b loaded (ofTree tree).outer) :
    Gives loops P b (finish idxs acc loaded tree) (fun _ _ => True) := by
  refine (loadSlots_gives hb hP hi).bind fun late b₁ h₁ hlate => ?_
  have hleaves : LeavesClear loops b₁ (late ++ loaded) (ofTree tree).outer := by
    intro t ht i ids hi hids
    unfold loadedSlot at hids
    rw [lookup_append] at hids
    cases hfound : late.lookup i with
    | some _ =>
      rw [hfound] at hids
      cases hids
      exact (hlate _ (mem_of_lookup hfound)).2
    | none =>
      rw [hfound] at hids
      exact hl.quiet hb h₁ t ht i ids hi hids
  refine (lower_gives h₁.sound (h₁.clearAll hb ha) _ hleaves).bind
    fun values b₂ h₂ hvalues => ?_
  exact (store_gives h₂.sound hi hvalues).discard

lemma head_counter {c : Char} (h : name.toList.head? = some c) (n : Nat) :
    (s!"{name}{n}").toList.head? = some c := by
  change (name ++ toString n).toList.head? = some c
  rw [String.toList_append, head?_append, h]
  rfl

section
variable {counters : List Counter} (hc : ∀ c ∈ counters, ∃ n : Nat, c.var.name = s!"ridx{n}")
include hc

lemma otherName (h : name.toList.head? ≠ some 'r') : OtherName counters name := by
  intro c hmem he
  obtain ⟨n, hn⟩ := hc c hmem
  exact h (he ▸ hn ▸ head_counter rfl n)

lemma otherName_counter (c : Char) (h : name.toList.head? = some c) (hr : c ≠ 'r')
    (n : Nat) : OtherName counters s!"{name}{n}" :=
  otherName hc (by rw [head_counter h n]; simpa using hr)

end

lemma sealed_of_phases {pre late : List Instr} {outer : List Nat}
    (hpre : ∀ u ∈ pre, u.kind ≠ .endLoop) (hloops : loops.Pairwise (· < ·))
    (houter : outer.Pairwise (· < ·)) (holder : ∀ d ∈ outer, ∀ l ∈ loops, d < l)
    (hlate : ∀ u ∈ late, u.kind.isPlain ∧ ∀ j ∈ u.inputs,
      Clear loops (pre ++ loopEnds loops ++ late) j)
    (ho : Ordered (pre ++ loopEnds loops ++ late ++ loopEnds outer)) :
    Sealed (pre ++ loopEnds loops ++ late ++ loopEnds outer) := by
  have hends : Sealed (pre ++ loopEnds loops) := by
    refine (Sealed.of_noEnds hpre).ends (pairwise_reverse.2 hloops) ho.of_append.of_append ?_
    rintro l ⟨u, hu, hk, _⟩
    exact absurd hk (hpre u hu)
  have hended : ∀ l, Ended (pre ++ loopEnds loops) l → l ∈ loops := by
    rintro l ⟨u, hu, hk, hl⟩
    obtain hu | hu := mem_append.1 hu
    · exact absurd hk (hpre u hu)
    · obtain ⟨x, hx, rfl⟩ := mem_map.1 hu
      cases mem_singleton.1 hl
      exact mem_reverse.1 hx
  obtain ⟨hsealed, hended⟩ := hends.plain ho.of_append hended hlate
  exact hsealed.ends (pairwise_reverse.2 houter) ho fun l hl d hd =>
    holder d (mem_reverse.1 hd) l (hended l hl)

/-- No leaf outside of the reduce is one of those below it. Leaves are the same if their slots,
types and layouts are. -/
def OuterLate (k : Kernel) : Prop :=
  ∀ t ∈ (Source.ofTree k.tree).outer, ∀ i s, leafSlot k t.op t.arg = .ok i →
    k.slots[i]? = some s →
    isEarly k s = false

lemma body_run {sizes : Option (List SymInt) × Option (List SymInt)} (h : b.Ready [])
    (hnone : ∀ u ∈ b.code.toList, u.kind ≠ .endLoop)
    (hlocal : b.kernel.groups ≠ [] → b.kernel.target.locals)
    (hrun : body.run b = .ok (sizes, b')) :
    b'.Ready [] ∧ (b.kernel.groups = [] → OuterLate b.kernel → Sealed b'.code.toList) := by
  obtain ⟨k, b₀, hk, hrun⟩ := run_bind_eq_ok.1 hrun
  cases hk
  obtain ⟨_, _, hrun⟩ := run_bind_checked_eq_ok.1 hrun
  obtain ⟨_, _, hrun⟩ := run_bind_checked_eq_ok.1 hrun
  obtain ⟨_, _, hrun⟩ := run_bind_checked_eq_ok.1 hrun
  obtain ⟨_, _, hrun⟩ := run_bind_checked_eq_ok.1 hrun
  obtain ⟨⟨globalIdxs, _⟩, hglobal, hrun⟩ := run_bind_checked_eq_ok.1 hrun
  obtain ⟨_, _, hrun⟩ := run_bind_checked_eq_ok.1 hrun
  obtain ⟨⟨innerIdxs, _⟩, hinner, hrun⟩ := run_bind_checked_eq_ok.1 hrun
  obtain ⟨_, _, hrun⟩ := run_bind_checked_eq_ok.1 hrun
  obtain ⟨_, _, hrun⟩ := run_bind_checked_eq_ok.1 hrun
  obtain ⟨upcast, hupcast, hrun⟩ := run_bind_checked_eq_ok.1 hrun
  obtain ⟨outer, b₁, houter, hrun⟩ := run_bind_eq_ok.1 hrun
  obtain ⟨h₁, hext₁, hkernel₁, hincreasing, hlaunch, houterlt⟩ := openOuter_run h houter
  obtain ⟨⟨acc, loaded, i, still⟩, b₂, hreduce, hrun⟩ := run_bind_eq_ok.1 hrun
  obtain ⟨h₂, hsize₂, hacc, hloaded, hplain⟩ := reduce_run h₁
    (fun hne => by rw [hlaunch (hlocal (hkernel₁ ▸ hne))]; rfl) hreduce
  obtain ⟨_, b₃, hfinish, hrun⟩ := run_bind_eq_ok.1 hrun
  obtain ⟨h₃, _⟩ := finish_gives h₂.sound (fun _ => trivial) (fun _ _ _ _ => trivial)
    (fun id hid => clear_nil.2 (by simpa using hacc id hid))
    (.of_loaded (fun e he id hid => clear_nil.2 (by simpa using hloaded e he id hid)) _) _ _ hfinish
  have hready₃ : b₃.Ready (outer.reverse ++ []) := by simpa using h₂.quiet h₃.sound h₃
  obtain ⟨_, b₄, hclose, hrun⟩ := run_bind_eq_ok.1 hrun
  obtain ⟨hready₄, hc⟩ := closeLoops_ready hready₃
    (fun l hl => (houterlt l hl).trans_le (hsize₂.trans h₃.adds.extends.size_le)) hclose
  obtain rfl : b₄ = b' := by
    split at hrun <;> (cases hrun; rfl)
  refine ⟨hready₄, fun hg hlate => ?_⟩
  obtain ⟨rfl, hstill, counters, hnames, hr⟩ := hplain (hkernel₁ ▸ hg)
  obtain ⟨mid, loops, hmid, hcode₂, hloops, hfresh, hsound₂, hclear⟩ := hr.split
  have hidxs : ∀ x ∈ globalIdxs ++ innerIdxs ++ still ++ upcast,
      SymInt.Over (OtherName counters) x := by
    have hg := (over_launchIndices (otherName_counter hnames 'g' rfl (by decide)) hglobal).1
    have hi := (over_launchIndices (otherName_counter hnames 'l' rfl (by decide)) hinner).1
    have hs : ∀ x ∈ still, SymInt.Over (OtherName counters) x :=
      fun x hx => by simp [hstill x hx]
    have hu := over_upcastCounters (otherName hnames (by simp)) hupcast
    simp only [forall_mem_append]
    exact ⟨⟨⟨hg, hi⟩, hs⟩, hu⟩
  -- a leaf outside of the reduce is not among the buffers that were loaded for it
  have hleaves : LeavesClear loops b₂ loaded (ofTree b.kernel.tree).outer := by
    intro t ht i ids hi hids
    unfold loadedSlot at hids
    split at hids
    · next found hfound =>
      obtain ⟨s, hs, hearly⟩ := (hr.early _ (mem_of_lookup hfound)).1
      rw [hr.kernel, hkernel₁] at hi
      rw [hkernel₁] at hs hearly
      rw [hlate t ht i s hi hs] at hearly
      cases hearly
    · cases hids
  obtain ⟨h₃', _⟩ :=
    finish_gives hsound₂ (otherName_counter hnames '_' rfl (by decide)) hidxs hclear
    hleaves _ _ hfinish
  obtain ⟨_, hcode₃, hmore⟩ := h₃'.adds
  obtain ⟨pre, hcode₁, hpre⟩ := hext₁.trans hmid
  have hordered := hready₄.sound.ordered
  rw [hc.code, hcode₃, hcode₂] at hordered ⊢
  rw [hcode₃, hcode₂] at hmore
  refine sealed_of_phases (fun u hu => ?_) hloops hincreasing (fun d hd l hl => ?_) hmore hordered
  · rw [hcode₁] at hu
    exact (mem_append.1 hu).elim (hnone u) (hpre u)
  · exact (houterlt d hd).trans_le (hfresh l hl)

/-- The code of a program before unused instructions are dropped. -/
structure Whole (k : Kernel) (p : Program) (code : List Instr) : Prop where
  ordered : Ordered code
  nested : nesting code = some []
  pruned : p.code = prune code
  isSealed : k.groups = [] → OuterLate k → Sealed code

lemma program_run (hrun : (program names).run { kernel := k, limit } = .ok ((p, names'), b')) :
    Whole k p b'.code.toList := by
  have h₀ : ({ kernel := k, limit } : Builder).Ready [] :=
    ⟨⟨fun i u hu => by simp at hu, by simp, by simp, by simp, by simp, by simp⟩, rfl⟩
  generalize hb₀ : ({ kernel := k, limit } : Builder) = b₀ at hrun h₀
  have hnone : ∀ u ∈ b₀.code.toList, u.kind ≠ .endLoop := by
    rw [← hb₀]
    simp
  obtain rfl : b₀.kernel = k := by rw [← hb₀]
  obtain ⟨k, b, hk, hrun⟩ := run_bind_eq_ok.1 hrun
  cases hk
  split at hrun
  · obtain ⟨_, _, hthrow, _⟩ := run_bind_eq_ok.1 hrun
    cases hthrow
  next hlocal =>
  obtain ⟨_, b₁, hslots, hrun⟩ := run_bind_eq_ok.1 hrun
  obtain ⟨h₁, hext₁, hkernel₁⟩ := defineSlots_run h₀ hslots
  obtain ⟨_, b₂, hvars, hrun⟩ := run_bind_eq_ok.1 hrun
  obtain ⟨h₂, hext₂, hkernel₂⟩ := defineVars_run h₁ hvars
  obtain ⟨_, b₃, hshared, hrun⟩ := run_bind_eq_ok.1 hrun
  obtain ⟨h₃, hext₃, htarget, hgroups, hsame⟩ := defineShared_run h₂ hshared
  obtain ⟨k, b, hk, hrun⟩ := run_bind_eq_ok.1 hrun
  cases hk
  obtain ⟨_, _, hrun⟩ := run_bind_checked_eq_ok.1 hrun
  obtain ⟨_, b₄, hbody, hrun⟩ := run_bind_eq_ok.1 hrun
  rw [hkernel₂, hkernel₁] at htarget hgroups hsame
  have hlocal₃ : b₃.kernel.groups ≠ [] → b₃.kernel.target.locals := by
    rw [htarget, hgroups]
    intro hne
    simpa [hne] using hlocal
  obtain ⟨_, hcode, hmore⟩ := (hext₁.trans hext₂).trans hext₃
  have hnone₃ : ∀ u ∈ b₃.code.toList, u.kind ≠ .endLoop := by
    rw [hcode]
    exact forall_mem_append.2 ⟨hnone, hmore⟩
  obtain ⟨h₄, hsealed⟩ := body_run h₃ hnone₃ hlocal₃ hbody
  cases hrun
  refine ⟨h₄.sound.ordered, h₄.nested, rfl, fun hg hlate => hsealed (hgroups.trans hg) ?_⟩
  rw [hsame hg]
  exact hlate

lemma run_of_linearize (h : k.linearize limit names = .ok (p, names')) :
    ∃ b, (program names).run { kernel := k, limit } = .ok ((p, names'), b) := by
  obtain ⟨⟨r, b⟩, hrun, hr⟩ := map_eq_ok.1 h
  exact ⟨b, hr ▸ hrun⟩

end Build

end LazyTensor
