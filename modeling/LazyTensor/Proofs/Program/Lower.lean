import LazyTensor.Proofs.OpTree
import LazyTensor.Proofs.Program.Emit

/-! Loads, stores and arithmetic add plain instructions. -/
namespace LazyTensor.Build
open Program List View Source SymInt Checked
variable {loaded : Loaded}

variable {loops : List Nat} {P : String → Prop} {b : Builder}

section
variable (hb : b.Sound loops P)
variable {i : Nat} {r : LaneRead}
variable {idxs : List SymInt} {places : List Place} {offs : List Nat}
include hb

lemma address_gives {a : Access} (ha : a.Over P) :
    Gives loops P b (address i a) (fun r b' => b'.Clears loops r.1 ∧ SymInt.Over P r.2) := by
  refine .bind_get (.bind_checked fun slot _ => ?_)
  split
  · refine .bind_checked fun t ht => ?_
    obtain ⟨hx, hy, hv⟩ := Texture.over_locate ha.1 ha.2 ht
    refine (index_gives hb hx).bind fun x b₁ h₁ hx => ?_
    refine (index_gives h₁.sound hy).bind fun y b₂ h₂ hy => ?_
    refine (emit_gives h₂.sound rfl (by simpa using ⟨h₂.clear h₁.sound hx, hy⟩)).bind
      fun id b₃ h₃ hid => ?_
    exact .pure h₃.sound ⟨hid, hv⟩
  · exact (index_gives hb ha.1).bind fun id b₁ h₁ hid => .pure h₁.sound ⟨hid, ha.2⟩

lemma slotId_gives : GivesClear loops P b (slotId i) := by
  refine .bind_get (.bind_checked fun slot hslot => ?_)
  split
  · exact .pure hb (hb.slots _ (nth_mem hslot))
  · exact .throw

lemma defineAcc_gives : GivesClear loops P b (defineAcc r) := by
  unfold defineAcc
  split
  · exact emit_gives hb rfl (by simp)
  · exact .throw

lemma gatedConstant_gives {c : Double} (hr : r.access.Over P) :
    GivesClear loops P b (gatedConstant r c) := by
  refine (constant_gives hb).bind fun id b₁ h₁ hid => ?_
  split
  · refine (index_gives h₁.sound hr.2).bind fun cond b₂ h₂ hcond => ?_
    refine (constant_gives h₂.sound).bind fun other b₃ h₃ hother => ?_
    refine alu_gives h₃.sound ?_
    have hid := h₃.clear h₂.sound (h₂.clear h₁.sound hid)
    have hcond := h₃.clear h₂.sound hcond
    simpa using ⟨hcond, hid, hother⟩
  · exact .pure h₁.sound hid

lemma loadMemory_gives (hr : r.access.Over P) (hbarrier : ∀ x ∈ r.barrier, b.Clears loops x) :
    GivesClear loops P b (loadMemory r) := by
  refine (slotId_gives hb).bind fun buffer b₁ h₁ hbuffer => ?_
  refine (address_gives h₁.sound hr).bind fun place b₂ h₂ hplace => ?_
  have hbuffer := h₂.clear h₁.sound hbuffer
  have hbarrier : b₂.ClearsAll loops r.barrier.toList := fun x hx =>
    (h₁.trans h₂).clear hb (hbarrier x (by simpa using hx))
  simp only [pure_bind]
  split
  · refine (index_gives h₂.sound hplace.2).bind fun cond b₃ h₃ hcond => ?_
    refine (constant_gives h₃.sound).bind fun other b₄ h₄ hother => ?_
    have h₃₄ := h₃.trans h₄
    have hcond := h₄.clear h₃.sound hcond
    refine emit_gives h₄.sound rfl
      (forall_mem_append.2 ⟨?_, h₃₄.clearAll h₂.sound hbarrier⟩)
    simpa using ⟨h₃₄.clear h₂.sound hbuffer, h₃₄.clear h₂.sound hplace.1,
      hcond, hother⟩
  · refine emit_gives h₂.sound rfl (forall_mem_append.2 ⟨?_, hbarrier⟩)
    simpa using ⟨hbuffer, hplace.1⟩

omit hb in
lemma remember_gives {x : Build Nat} {key : String} (hx : GivesClear loops P b x) :
    Gives loops P b (do
      let id ← x
      modify (fun b => { b with loads := (key, id) :: b.loads })
      pure id) (fun id b' => b'.Clears loops id) := by
  refine hx.bind fun id b₁ h₁ hid => ?_
  intro r b' hrun
  cases hrun
  refine ⟨⟨⟨h₁.sound.ordered, h₁.sound.starts, h₁.sound.saved, ?_, h₁.sound.counters,
    h₁.sound.slots⟩, .refl, rfl, rfl, rfl⟩, hid⟩
  exact forall_mem_cons.2 ⟨hid, h₁.sound.loads⟩

lemma loadLane_gives (hr : r.access.Over P) (hbarrier : ∀ x ∈ r.barrier, b.Clears loops x) :
    GivesClear loops P b (loadLane r) := by
  have hsettle : r.settle.access.Over P ∧ r.settle.barrier = r.barrier := by
    unfold LaneRead.settle
    split
    · exact ⟨⟨over_num 0, over_num 1⟩, rfl⟩
    · exact ⟨hr, rfl⟩
  rw [← hsettle.2] at hbarrier
  refine .bind_get ?_
  split
  · next id hid => exact .pure hb (hb.loads _ (mem_of_lookup hid))
  · split
    · exact remember_gives (defineAcc_gives hb)
    · exact remember_gives (gatedConstant_gives hb hsettle.1)
    · exact remember_gives (loadMemory_gives hb hsettle.1 hbarrier)

lemma load_gives (hP : ∀ j : Nat, P s!"_uidx{j}")
    (hi : ∀ x ∈ idxs, SymInt.Over P x) {acc : Option Double} {barrier : Option Nat}
    (hbarrier : ∀ x ∈ barrier, b.Clears loops x) :
    GivesAllClear loops P b (load i idxs acc barrier) := by
  refine .bind_kernel (.bind_checked fun slot _ => .bind_checked fun plan hplan => ?_)
  have hplan := over_planLoad hi hP hplan
  refine .mapM_clear hb fun rep _ b₁ h₁ => ?_
  refine .bind_checked fun idx hidx => .bind_checked fun valid hvalid => ?_
  have hsub : ∀ x ∈ VarMap.ofEntries ((plan.lanes.zip rep).filterMap (fun p =>
      p.1.map (fun v => (v, num p.2)))), SymInt.Over P x.2 := by
    refine VarMap.ofEntries_induction fun x hx => ?_
    obtain ⟨p, _, hx⟩ := mem_filterMap.1 hx
    obtain ⟨v, _, rfl⟩ := Option.map_eq_some_iff.1 hx
    exact over_num p.2
  refine (loadLane_gives h₁.sound ⟨hplan.1.replaced hsub hidx, hplan.2.replaced hsub hvalid⟩
    fun x hx => h₁.clear hb (hbarrier x hx)).bind fun id b₂ h₂ hid => ?_
  split
  · exact .pure h₂.sound hid
  · exact .bind_checked fun lane _ => emit_gives h₂.sound rfl (by simpa using hid)

end

/-! Stores. -/

/-- Places at indices over known names, with values that are clear. -/
def PlacesOver (loops : List Nat) (P : String → Prop) (b : Builder)
    (places : List Place) : Prop :=
  ∀ p ∈ places, (∀ x ∈ p.1, SymInt.Over P x) ∧ b.Clears loops p.2

lemma gatherPlaces_over {d : Nat} {first : SymInt} (hf : SymInt.Over P first)
    {groups : List (List SymInt × List Nat)} (hp : PlacesOver loops P b places)
    (hg : ∀ g ∈ groups, (∀ x ∈ g.1, SymInt.Over P x) ∧ b.ClearsAll loops g.2) :
    ∀ g ∈ gatherPlaces d first places groups,
      (∀ x ∈ g.1, SymInt.Over P x) ∧ b.ClearsAll loops g.2 := by
  induction places generalizing groups with
  | nil => exact hg
  | cons p places ih =>
    obtain ⟨idxs, id⟩ := p
    have hown := hp (idxs, id) (by simp)
    have hkey : ∀ x ∈ idxs.set d first, SymInt.Over P x := by
      intro x hx
      obtain hx | rfl := mem_or_eq_of_mem_set hx
      · exact hown.1 x hx
      · exact hf
    refine ih (fun q hq => hp q (by simp [hq])) fun g hmem => ?_
    split at hmem
    · obtain ⟨g', hg', rfl⟩ := mem_map.1 hmem
      split
      · exact ⟨(hg g' hg').1, forall_mem_append.2 ⟨(hg g' hg').2, by simpa using hown.2⟩⟩
      · exact hg g' hg'
    · obtain hmem | hmem := mem_append.1 hmem
      · exact hg g hmem
      · cases mem_singleton.1 hmem
        exact ⟨hkey, by simpa using hown.2⟩

section
variable (hb : b.Sound loops P)
variable {i : Nat} {values : List (List Nat)} {op : Op} {acc : List Nat}
include hb

lemma vectorPlaces_gives {expanded : List (List SymInt)}
    (he : ∀ es ∈ expanded, ∀ x ∈ es, SymInt.Over P x) (hp : PlacesOver loops P b places) :
    Gives loops P b (vectorPlaces i expanded places) (fun ps b' => PlacesOver loops P b' ps) := by
  have hkeep : Gives loops P b (pure places : Build (List Place))
      (fun ps b' => PlacesOver loops P b' ps) := .pure hb hp
  refine .bind_kernel (.bind_checked fun dims _ => ?_)
  split
  · next d _ =>
    refine .bind_checked fun lanes hlanes => ?_
    have hlanes := he lanes (nth_mem hlanes)
    split
    · next first rest _ =>
      split
      · refine .bind_checked fun layout _ => .bind_checked fun fits _ => ?_
        split
        · have hgroups := gatherPlaces_over (d := d) (hlanes first (by simp)) hp (forall_mem_nil _)
          refine .mapM hb (fun p b₁ b₂ hs hq h => ⟨h.1, hq.clear hs h.2⟩)
            fun g hg b₁ h₁ => ?_
          refine (emit_gives h₁.sound rfl (h₁.clearAll hb (hgroups g hg).2)).bind
            fun id b₂ h₂ hid => ?_
          exact .pure h₂.sound ⟨(hgroups g hg).1, hid⟩
        · exact hkeep
      · exact hkeep
    · exact hkeep
  · exact hkeep

lemma store_gives (hi : ∀ x ∈ idxs, SymInt.Over P x) {values : List Nat}
    (hv : b.ClearsAll loops values) :
    GivesAllClear loops P b (store i idxs values) := by
  refine (slotId_gives hb).bind fun buffer b₁ h₁ hbuffer => ?_
  refine .bind_checked fun expanded hexpanded => .bind_checked fun offsets hoffsets => ?_
  have hexpanded : ∀ es ∈ expanded, ∀ x ∈ es, SymInt.Over P x := by
    intro es hes
    obtain ⟨x, hx, hes⟩ := exists_of_mapM hexpanded hes
    exact (hi x hx).unroll hes
  have hoffsets : ∀ idxs ∈ offsets, ∀ x ∈ idxs, SymInt.Over P x := by
    intro idxs hidxs x hx
    obtain ⟨rep, _, hidxs⟩ := exists_of_mapM hoffsets hidxs
    obtain ⟨⟨r, e⟩, hre, hx⟩ := exists_of_mapM hidxs hx
    exact hexpanded e (of_mem_zip hre).2 x (nth_mem hx)
  have hplaces : PlacesOver loops P b₁ (offsets.zip values) := fun p hp =>
    ⟨hoffsets p.1 (of_mem_zip hp).1, h₁.clear hb (hv p.2 (of_mem_zip hp).2)⟩
  split
  · exact .bind (Q := fun _ _ => False) .throw fun _ _ _ h => h.elim
  refine (vectorPlaces_gives h₁.sound hexpanded hplaces).bind fun places b₂ h₂ hplaces => ?_
  refine .bind_kernel (.bind_checked fun layout _ =>
    .mapM_clear h₂.sound fun p hp b₃ h₃ => ?_)
  refine .bind_checked fun a ha => ?_
  have ha := Layout.over_access (hplaces p hp).1 ha
  refine (address_gives h₃.sound ha).bind fun place b₄ h₄ hplace => ?_
  have h₁₄ := (h₂.trans h₃).trans h₄
  refine emit_gives h₄.sound rfl ?_
  have hvalue := (h₃.trans h₄).clear h₂.sound (hplaces p hp).2
  simpa using ⟨h₁₄.clear h₁.sound hbuffer, hplace.1, hvalue⟩

/-! Arithmetic. -/

section
variable (hv : ∀ ids ∈ values, b.ClearsAll loops ids)
include hv

lemma accumulateLane_gives {lane off : Nat}
    (ha : b.ClearsAll loops acc) : GivesClear loops P b
      (accumulateLane op values acc lane off) := by
  refine .bind_checked fun operands hoperands => .bind_checked fun target htarget => .bind_get ?_
  have htarget := ha target (nth_mem htarget)
  have hoperands : b.ClearsAll loops operands := by
    intro id hid
    obtain ⟨ids, hids, hid⟩ := exists_of_mapM hoperands hid
    exact hv ids hids id (nth_mem hid)
  refine (alu_gives hb (forall_mem_append.2 ⟨hoperands, by simpa using htarget⟩)).bind
    fun id b₁ h₁ hid => ?_
  have hboth : b₁.ClearsAll loops [target, id] := by simpa using ⟨h₁.clear hb htarget, hid⟩
  exact (emit_gives h₁.sound rfl hboth).discard.bind fun _ b₂ h₂ _ =>
    .pure h₂.sound (h₂.clear h₁.sound hid)

lemma accumulate_gives
    (ha : b.ClearsAll loops acc) : GivesAllClear loops P b (accumulate op values acc offs) := by
  refine .bind_checked fun first _ => .mapM_clear hb fun p _ b₁ h₁ => ?_
  exact accumulateLane_gives h₁.sound (fun ids hids => h₁.clearAll hb (hv ids hids))
    (h₁.clearAll hb ha)

lemma aluLanes_gives : GivesAllClear loops P b (aluLanes op values) := by
  refine .bind_checked fun first _ => .mapM_clear hb fun lane _ b₁ h₁ => ?_
  refine .bind_checked fun operands hoperands => ?_
  have hoperands : b.ClearsAll loops operands := by
    intro id hid
    obtain ⟨ids, hids, hid⟩ := exists_of_mapM hoperands hid
    exact hv ids hids id (nth_mem hid)
  have helement : Gives loops P b₁ (aluElement op operands) (fun _ _ => True) := by
    refine .bind_get ?_
    dsimp only
    split
    · exact .pure h₁.sound trivial
    · exact .bind_checked fun _ _ => .pure h₁.sound trivial
    · split
      · exact .pure h₁.sound trivial
      · exact .pure h₁.sound trivial
  refine helement.bind fun element b₂ h₂ _ => alu_gives h₂.sound ?_
  exact (h₁.trans h₂).clearAll hb hoperands

end

end

def LeavesClear (loops : List Nat) (b : Builder) (loaded : Loaded) (trees : List OpTree) : Prop :=
  ∀ t ∈ trees, ∀ i ids, leafSlot b.kernel t.op t.arg = .ok i →
    loadedSlot loaded i = .ok ids →
    ∀ id ∈ ids, b.Clears loops id

lemma LeavesClear.quiet {b' : Builder} {trees : List OpTree}
    (h : LeavesClear loops b loaded trees) (hb : b.Sound loops P) (hq : b.Quiet loops P b') :
    LeavesClear loops b' loaded trees := by
  intro t ht i ids hi hids
  rw [hq.kernel] at hi
  exact hq.clearAll hb (h t ht i ids hi hids)

lemma LeavesClear.of_loaded (h : ∀ e ∈ loaded, b.ClearsAll loops e.2)
    (trees : List OpTree) : LeavesClear loops b loaded trees := by
  intro t _ i ids _ hids
  unfold loadedSlot at hids
  split at hids
  · next hfound =>
    cases hids
    exact h _ (mem_of_lookup hfound)
  · cases hids

mutual

/-- A tree over clear leaves and accumulators gives clear values. -/
lemma lower_gives {b : Builder} (hb : b.Sound loops P) {acc : List Nat} {loaded : Loaded}
    (ha : b.ClearsAll loops acc) (s : Source) (hl : LeavesClear loops b loaded s.outer) :
    GivesAllClear loops P b (lower acc loaded s) := by
  cases s with
  | buffer id => exact .throw
  | apply op arg srcs =>
    have halu {op : Op} (hsrcs : LeavesClear loops b loaded (outerAll srcs)) :
        GivesAllClear loops P b (do aluLanes op (← lowerAll acc loaded srcs)) :=
      (lowerAll_gives hb ha srcs hsrcs).bind fun ids b₁ h₁ hids =>
        aluLanes_gives h₁.sound hids
    obtain ⟨hown, hsrcs⟩ := forall_mem_cons.1 hl
    unfold lower
    split
    · refine .bind_kernel (.bind_checked fun i hi => .checked hb fun ids hids => ?_)
      exact hown i ids hi hids
    · exact lowerFirst_gives hb ha srcs hsrcs
    · exact lowerFirst_gives hb ha srcs hsrcs
    · refine (lowerFirst_gives hb ha srcs hsrcs).bind fun ids b₁ h₁ hids => ?_
      split
      · exact .pure h₁.sound hids
      · exact .mapM_clear h₁.sound fun id hid b₂ h₂ =>
          emit_gives h₂.sound rfl (by simpa using h₂.clear h₁.sound (hids id hid))
    · exact .pure hb ha
    · exact halu hsrcs
    · exact halu hsrcs
    · exact halu hsrcs
    · exact .throw

lemma lowerFirst_gives {b : Builder} (hb : b.Sound loops P) {acc : List Nat} {loaded : Loaded}
    (ha : b.ClearsAll loops acc) (srcs : List Source)
    (hl : LeavesClear loops b loaded (outerAll srcs)) :
    GivesAllClear loops P b (lowerFirst acc loaded srcs) := by
  match srcs with
  | [] => exact .throw
  | s :: ss => exact lower_gives hb ha s (forall_mem_append.1 hl).1

lemma lowerAll_gives {b : Builder} (hb : b.Sound loops P) {acc : List Nat} {loaded : Loaded}
    (ha : b.ClearsAll loops acc) (srcs : List Source)
    (hl : LeavesClear loops b loaded (outerAll srcs)) :
    Gives loops P b (lowerAll acc loaded srcs)
      (fun values b' => ∀ ids ∈ values, b'.ClearsAll loops ids) := by
  match srcs with
  | [] => exact .pure hb (by simp)
  | s :: ss =>
    obtain ⟨hs, hss⟩ := forall_mem_append.1 hl
    refine (lower_gives hb ha s hs).bind fun ids b₁ h₁ hids => ?_
    refine (lowerAll_gives h₁.sound (h₁.clearAll hb ha) ss (.quiet hss hb h₁)).bind
      fun rest b₂ h₂ hrest => ?_
    exact .pure h₂.sound (forall_mem_cons.2 ⟨h₂.clearAll h₁.sound hids, hrest⟩)

end

lemma lowerReduce_gives (hb : b.Sound loops P) {op : ReduceOp} {srcs : List Source}
    {acc : List Nat} (ha : b.ClearsAll loops acc)
    (hl : ∀ e ∈ loaded, b.ClearsAll loops e.2) :
    GivesAllClear loops P b (lowerReduce op srcs acc offs loaded) := by
  refine .bind_checked fun s _ => .bind_checked fun src _ => .bind_checked fun parts _ => ?_
  split
  · refine (lowerAll_gives hb ha _ (.of_loaded hl _)).bind fun values b₁ h₁ hv => ?_
    exact accumulate_gives h₁.sound hv (h₁.clearAll hb ha)
  · refine (lower_gives hb ha _ (.of_loaded hl _)).bind fun ids b₁ h₁ hids => ?_
    exact accumulate_gives h₁.sound (by simpa using hids) (h₁.clearAll hb ha)

end LazyTensor.Build
