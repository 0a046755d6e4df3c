import LazyTensor.Proofs.Program.Code
import LazyTensor.Proofs.Program.Indices

/-! What building code keeps. A builder is sound if its code is ordered and all that it remembers
stands in the code; peepholes and reuse only ever give instructions that their operands reach, so
code that is built from clear operands is clear. -/
namespace LazyTensor
open Program List Option

/-- The code is ordered, and the instructions that the builder may give out depend on none of the
loops. Of the counters this is said only of those with a name of the given kind. -/
structure Builder.Sound (loops : List Nat) (P : String → Prop) (b : Builder) : Prop where
  ordered : Ordered b.code.toList
  starts : ∀ l ∈ loops, ∃ u, b.code.toList[l]? = some u ∧ u.kind = .loop
  saved : ∀ e ∈ b.saved, b.code.toList[e.2]? = some e.1
  loads : ∀ e ∈ b.loads, Clear loops b.code.toList e.2
  counters : ∀ name id, P name → b.counters.lookup name = some id →
    Clear loops b.code.toList id
  slots : ∀ id, some id ∈ b.slots → Clear loops b.code.toList id

def Builder.Adds (loops : List Nat) (b b' : Builder) : Prop :=
  ∃ more, b'.code.toList = b.code.toList ++ more ∧
    ∀ u ∈ more, u.kind.isPlain ∧ ∀ j ∈ u.inputs, Clear loops b'.code.toList j

/-- A sound builder that has added plain instructions and still works on the same kernel. -/
structure Builder.Quiet (loops : List Nat) (P : String → Prop) (b b' : Builder) : Prop where
  sound : b'.Sound loops P
  adds : b.Adds loops b'
  kernel : b'.kernel = b.kernel
  counters : b'.counters = b.counters
  slots : b'.slots = b.slots

abbrev Builder.Clears (b : Builder) (loops : List Nat) (i : Nat) : Prop :=
  Clear loops b.code.toList i

def Builder.ClearsAll (b : Builder) (loops ids : List Nat) : Prop :=
  ∀ id ∈ ids, b.Clears loops id

namespace Builder
variable {loops : List Nat} {P : String → Prop} {b b' b'' : Builder} {i : Nat}

@[simp] lemma clearsAll_nil : b.ClearsAll loops [] := forall_mem_nil _

@[simp] lemma clearsAll_cons {ids : List Nat} :
    b.ClearsAll loops (i :: ids) ↔ b.Clears loops i ∧ b.ClearsAll loops ids := forall_mem_cons

lemma Sound.restrict {P' : String → Prop} (h : b.Sound loops P)
    (hP : ∀ name, P' name → P name) :
    b.Sound loops P' :=
  ⟨h.ordered, h.starts, h.saved, h.loads, fun name id hn hid =>
    h.counters name id (hP name hn) hid,
    h.slots⟩

lemma Adds.clear (h : b.Adds loops b') (ho : Ordered b.code.toList)
    (hi : b.Clears loops i) : b'.Clears loops i := by
  obtain ⟨_, he, _⟩ := h
  unfold Clears
  rw [he]
  exact hi.append ho

lemma Adds.nesting (h : b.Adds loops b') : nesting b'.code.toList = nesting b.code.toList := by
  obtain ⟨_, he, hplain⟩ := h
  rw [he, nesting_append_plain fun u hu => (hplain u hu).1]

lemma Adds.refl : b.Adds loops b := ⟨[], by simp, by simp⟩

lemma Adds.trans (h : b.Adds loops b') (h' : b'.Adds loops b'') (ho : Ordered b'.code.toList) :
    b.Adds loops b'' := by
  have hkeep {j : Nat} := h'.clear ho (i := j)
  obtain ⟨more, he, hmore⟩ := h
  obtain ⟨more', he', hmore'⟩ := h'
  refine ⟨more ++ more', by rw [he', he, append_assoc], fun u hu => ?_⟩
  obtain hu | hu := mem_append.1 hu
  · exact ⟨(hmore u hu).1, fun j hj => hkeep ((hmore u hu).2 j hj)⟩
  · exact hmore' u hu

lemma Quiet.refl (h : b.Sound loops P) : b.Quiet loops P b := ⟨h, .refl, rfl, rfl, rfl⟩

lemma Quiet.trans (h : b.Quiet loops P b') (h' : b'.Quiet loops P b'') : b.Quiet loops P b'' :=
  ⟨h'.sound, h.adds.trans h'.adds h.sound.ordered, h'.kernel.trans h.kernel,
    h'.counters.trans h.counters, h'.slots.trans h.slots⟩

lemma Quiet.clear (h : b.Quiet loops P b') (hb : b.Sound loops P)
    (hi : b.Clears loops i) : b'.Clears loops i := h.adds.clear hb.ordered hi

lemma Quiet.clearAll (h : b.Quiet loops P b') (hb : b.Sound loops P) {ids : List Nat}
    (hi : b.ClearsAll loops ids) : b'.ClearsAll loops ids :=
  fun i hmem => h.clear hb (hi i hmem)

lemma Sound.push (h : b.Sound loops P) {u : Instr} (hk : u.kind.isPlain)
    (hu : ∀ j ∈ u.inputs, Clear loops b.code.toList j) {saved : List (Instr × Nat)}
    (hs : ∀ e ∈ saved, e = (u, b.code.size) ∨ e ∈ b.saved) :
    b.Quiet loops P { b with code := b.code.push u, saved } ∧
      Clear loops (b.code.push u).toList b.code.size := by
  have hpush : (b.code.push u).toList = b.code.toList ++ [u] := by simp
  have hlast : (b.code.push u).toList[b.code.size]? = some u := by simp
  have hkeep {j : Nat} (hj : Clear loops b.code.toList j) : Clear loops
      (b.code.push u).toList j := by
    rw [hpush]
    exact hj.append h.ordered
  have hsound : ({ b with code := b.code.push u, saved } : Builder).Sound loops P := by
    refine ⟨?_, fun l hl => ?_, fun e he => ?_, fun e he => hkeep (h.loads e he),
      fun name id hn hid => hkeep (h.counters name id hn hid), fun id hid =>
      hkeep (h.slots id hid)⟩
    · rw [hpush]
      exact h.ordered.snoc fun j hj => (hu j hj).1
    · obtain ⟨w, hw, hloop⟩ := h.starts l hl
      exact ⟨w, by simpa using getElem?_append_some hw [u], hloop⟩
    · obtain rfl | he := hs e he
      · exact hlast
      · simpa using getElem?_append_some (h.saved e he) [u]
  refine ⟨⟨hsound, ⟨[u], hpush, fun w hw => ?_⟩, rfl, rfl, rfl⟩, ?_⟩
  · cases mem_singleton.1 hw
    exact ⟨hk, fun j hj => hkeep (hu j hj)⟩
  · refine Clear.of_inputs hlast (fun hl => ?_) fun j hj => hkeep (hu j hj)
    -- a loop is there before the instruction is
    obtain ⟨w, hw, _⟩ := h.starts _ hl
    simp at hw

/-- An instruction that is given out again is there, with the kind, type and operands asked for. -/
lemma Sound.found (h : b.Sound loops P) {u w : Instr} {reusable : Bool}
    (hfind : (if reusable then b.saved.find? (fun e => e.1 == u) else none) = some (w, i)) :
    b.code.toList[i]? = some w ∧ w.kind = u.kind ∧ w.element = u.element ∧
      w.inputs = u.inputs := by
  cases reusable with
  | false => cases hfind
  | true =>
    refine ⟨h.saved _ (mem_of_find?_eq_some hfind), ?_⟩
    have heq : (w.kind == u.kind && w.element == u.element && w.inputs == u.inputs &&
      w.arg == u.arg) = true := find?_some (p := fun e : Instr × Nat => e.1 == u) hfind
    simp only [Bool.and_eq_true, beq_iff_eq] at heq
    exact ⟨heq.1.1.1, heq.1.1.2, heq.1.2⟩

end Builder

namespace Peephole
variable {code : List Instr} {ids : List Nat} {id : Nat}

/-- One of the instructions, or an operand of one of them. -/
def Near (code : List Instr) (ids : List Nat) (id : Nat) : Prop :=
  id ∈ ids ∨ ∃ x ∈ ids, ∃ w, code[x]? = some w ∧ id ∈ w.inputs

lemma Near.clear {loops : List Nat} (h : Near code ids id) (ho : Ordered code)
    (hi : ∀ j ∈ ids, Clear loops code j) : Clear loops code id := by
  obtain h | ⟨x, hx, w, hw, hid⟩ := h
  · exact hi id h
  · exact (hi x hx).input ho hw hid

variable {array : Array Instr} {u w : Instr} {element : Option Element}

lemma negated?_near {x : Nat} (hx : x ∈ ids) (h : negated? array x = some id) :
    Near array.toList ids id := by
  unfold negated? at h
  split at h
  · next w hw =>
    split at h
    · exact .inr ⟨x, hx, w, by simpa using hw, mem_of_head? h⟩
    · cases h
  · cases h

lemma vector?_near (h : vector? array ids = some id) : Near array.toList ids id := by
  simp only [vector?] at h
  split at h
  · next v vs hsources =>
    split at h
    · cases h
      cases ids with
      | nil => cases hsources
      | cons x _ =>
        rw [zipIdx_cons, mapM_cons] at hsources
        obtain ⟨y, hy, hsources⟩ := bind_eq_some_iff.1 hsources
        obtain ⟨ys, _, hsources⟩ := bind_eq_some_iff.1 hsources
        cases hsources
        split at hy
        · next w hw =>
          split at hy
          · exact .inr ⟨x, by simp, w, by simpa using hw, mem_of_head? hy⟩
          · cases hy
        · cases hy
    · cases h
  · cases h

def Outcome.Near (code : List Instr) (ids : List Nat) : Outcome → Prop
  | .use id => Peephole.Near code ids id
  | .replace w => w.kind.isPlain ∧ ∀ j ∈ w.inputs, Peephole.Near code ids j
  | _ => True

lemma alu_near (op : Op) : (alu array element op ids).Near array.toList ids := by
  unfold alu
  split
  · next a b =>
    split
    · next c hc =>
      have hc := negated?_near (by simp : b ∈ [a, b]) hc
      unfold difference
      split
      · exact .inl (by simp)
      · refine ⟨rfl, fun j hj => ?_⟩
        obtain rfl | hj := mem_cons.1 hj
        · exact .inl (by simp)
        · cases mem_singleton.1 hj
          exact hc
    · split
      · exact .inl (by simp)
      split
      · exact .inl (by simp)
      · trivial
  · split <;> trivial
  · split
    · exact .inl (by simp)
    split
    · exact .inl (by simp)
    split
    · exact .inl (by simp)
    split
    · exact .inl (by simp)
    · trivial
  · split
    · exact .inl (by simp)
    · trivial
  · split
    · exact .inl (by simp)
    · trivial
  · trivial

lemma gather_near : (gather array element ids).Near array.toList ids := by
  simp only [gather]
  split
  · next v hv => exact vector?_near (mem_filter_iff.1 hv).1
  · split
    · split <;> trivial
    · trivial

/-- A peephole refers to the operands of the instruction and to theirs, and to nothing else. -/
lemma outcome_near (array : Array Instr) (u : Instr) :
    (outcome array u).Near array.toList u.inputs := by
  unfold outcome
  split
  · next a b _ hinputs =>
    split
    · exact .inl (by simp [hinputs])
    · trivial
  · split <;> trivial
  · split
    · exact gather_near
    · trivial
  · split
    · exact alu_near _
    · trivial
  · trivial

end Peephole

namespace Build
variable {α β γ : Type} {loops : List Nat} {P : String → Prop} {b : Builder}
variable {f : α → Build β} {c : Checked α}

lemma run_bind_eq_ok {x : Build α} {c : β} {b' : Builder} :
    (x >>= f).run b = .ok (c, b') ↔ ∃ a b₁, x.run b = .ok (a, b₁) ∧
      (f a).run b₁ = .ok (c, b') := by
  rw [StateT.run_bind, Checked.bind_eq_ok]
  constructor
  · rintro ⟨⟨a, b₁⟩, hx, hf⟩
    exact ⟨a, b₁, hx, hf⟩
  · rintro ⟨a, b₁, hx, hf⟩
    exact ⟨(a, b₁), hx, hf⟩

lemma run_checked_eq_ok {a : α} {b' : Builder} :
    (liftM c : Build α).run b = .ok (a, b') ↔ c = .ok a ∧ b' = b := by
  cases c with
  | error e =>
    constructor
    · intro h
      cases h
    · rintro ⟨h, _⟩
      cases h
  | ok x =>
    constructor
    · intro h
      cases h
      exact ⟨rfl, rfl⟩
    · rintro ⟨h, rfl⟩
      cases h
      rfl

lemma run_bind_checked_eq_ok {r : β × Builder} :
    ((liftM c : Build α) >>= f).run b = .ok r ↔ ∃ a, c = .ok a ∧ (f a).run b = .ok r := by
  obtain ⟨x, b'⟩ := r
  rw [run_bind_eq_ok]
  constructor
  · rintro ⟨a, b₁, hc, hf⟩
    obtain ⟨hok, rfl⟩ := run_checked_eq_ok.1 hc
    exact ⟨a, hok, hf⟩
  · rintro ⟨a, hc, hf⟩
    exact ⟨a, b, run_checked_eq_ok.2 ⟨hc, rfl⟩, hf⟩

/-- If the computation gives a value then it has added plain instructions only, and the value is as
said. -/
def Gives (loops : List Nat) (P : String → Prop) (b : Builder) (x : Build α)
    (Q : α → Builder → Prop) : Prop :=
  ∀ a b', x.run b = .ok (a, b') → b.Quiet loops P b' ∧ Q a b'

abbrev GivesClear (loops : List Nat) (P : String → Prop) (b : Builder) (x : Build Nat) : Prop :=
  Gives loops P b x (fun id b' => b'.Clears loops id)

abbrev GivesAllClear (loops : List Nat) (P : String → Prop) (b : Builder)
    (x : Build (List Nat)) : Prop :=
  Gives loops P b x (fun ids b' => b'.ClearsAll loops ids)

namespace Gives
variable {Q : α → Builder → Prop} {R : β → Builder → Prop}
variable {x : Build α} {f : α → Build β} {c : Checked α} {xs : List γ}

lemma pure {a : α} (hb : b.Sound loops P) (h : Q a b) :
    Gives loops P b (Pure.pure a : Build α) Q := by
  intro a' b' hrun
  cases hrun
  exact ⟨.refl hb, h⟩

lemma throw {e : Abort} : Gives loops P b (MonadExcept.throw e : Build α) Q := by
  intro a' b' hrun
  cases hrun

lemma bind (hx : Gives loops P b x Q)
    (hf : ∀ a b', b.Quiet loops P b' → Q a b' → Gives loops P b' (f a) R) :
    Gives loops P b (x >>= f) R := by
  intro c b' hrun
  obtain ⟨a, b₁, hrun, hrest⟩ := run_bind_eq_ok.1 hrun
  obtain ⟨hquiet, hq⟩ := hx a b₁ hrun
  obtain ⟨hquiet', hr⟩ := hf a b₁ hquiet hq c b' hrest
  exact ⟨hquiet.trans hquiet', hr⟩

lemma weaken {Q' : α → Builder → Prop} (hx : Gives loops P b x Q)
    (h : ∀ a b', b.Quiet loops P b' → Q a b' → Q' a b') : Gives loops P b x Q' := by
  intro a b' hrun
  obtain ⟨hquiet, hq⟩ := hx a b' hrun
  exact ⟨hquiet, h a b' hquiet hq⟩

lemma map {f : α → β} (hx : Gives loops P b x (fun a b' => R (f a) b')) :
    Gives loops P b (f <$> x) R := by
  rw [map_eq_pure_bind]
  exact bind hx fun a b' hquiet hr => pure hquiet.sound hr

lemma discard (hx : Gives loops P b x Q) : Gives loops P b (Functor.discard x) (fun _ _ => True) :=
  map (hx.weaken fun _ _ _ _ => trivial)

lemma checked (hb : b.Sound loops P) (h : ∀ a, c = .ok a → Q a b) :
    Gives loops P b (liftM c : Build α) Q := by
  intro a b' hrun
  obtain ⟨hc, rfl⟩ := run_checked_eq_ok.1 hrun
  exact ⟨.refl hb, h a hc⟩

lemma bind_checked (h : ∀ a, c = .ok a → Gives loops P b (f a) R) :
    Gives loops P b ((liftM c : Build α) >>= f) R := by
  intro r b' hrun
  obtain ⟨a, hc, hrun⟩ := run_bind_checked_eq_ok.1 hrun
  exact h a hc r b' hrun

lemma bind_get {f : Builder → Build β} (h : Gives loops P b (f b) R) :
    Gives loops P b (MonadState.get >>= f) R := h

lemma bind_kernel {f : Kernel → Build β} (h : Gives loops P b (f b.kernel) R) :
    Gives loops P b (kernel >>= f) R := h

lemma mapM {f : γ → Build α} (hb : b.Sound loops P)
    (stays : ∀ a b₁ b₂, b₁.Sound loops P → b₁.Quiet loops P b₂ →
      Q a b₁ → Q a b₂)
    (hf : ∀ x ∈ xs, ∀ b', b.Quiet loops P b' → Gives loops P b' (f x) Q) :
    Gives loops P b (xs.mapM f) (fun ys b' => ∀ y ∈ ys, Q y b') := by
  induction xs generalizing b with
  | nil => exact pure hb (by simp)
  | cons x xs ih =>
    rw [mapM_cons]
    refine bind (hf x (by simp) b (.refl hb)) fun y b₁ h₁ hy => ?_
    refine bind (ih h₁.sound fun z hz b' h' => hf z (by simp [hz]) b' (h₁.trans h'))
      fun ys b₂ h₂ hys => ?_
    exact pure h₂.sound (forall_mem_cons.2 ⟨stays y b₁ b₂ h₁.sound h₂ hy, hys⟩)

lemma mapM_clear {f : γ → Build Nat} (hb : b.Sound loops P)
    (hf : ∀ x ∈ xs, ∀ b', b.Quiet loops P b' →
    GivesClear loops P b' (f x)) : GivesAllClear loops P b (xs.mapM f) :=
  mapM hb (fun _ _ _ hs hq h => hq.clear hs h) hf

end Gives

section
variable (hb : b.Sound loops P)
variable {reusable : Bool}
variable {u : Instr} {element : Element}
include hb

lemma insert_gives (hk : u.kind.isPlain) (hu : b.ClearsAll loops u.inputs) :
    GivesClear loops P b (insert u reusable) := by
  refine .bind_get ?_
  split
  · next w id hfind =>
    -- an equal instruction is there: it has the same operands, and it is no loop
    obtain ⟨hcode, hkind, _, hinputs⟩ := hb.found hfind
    refine .pure hb (Clear.of_inputs hcode (fun hl => ?_) (hinputs ▸ hu))
    obtain ⟨x, hx, hloop⟩ := hb.starts id hl
    cases hcode.symm.trans hx
    rw [hkind] at hloop
    simp [hloop] at hk
  · intro id b' hrun
    cases hrun
    refine hb.push hk hu fun e he => ?_
    split at he
    · exact mem_cons.1 he
    · exact .inr he

lemma constant_gives {x : Double} : GivesClear loops P b (constant x element) :=
  insert_gives hb rfl (by simp)

lemma emit_gives (hk : u.kind.isPlain) (hu : b.ClearsAll loops u.inputs) :
    GivesClear loops P b (emit u reusable) := by
  have hnear := Peephole.outcome_near b.code u
  refine .bind_get ?_
  cases hout : Peephole.outcome b.code u with
  | keep => exact insert_gives hb hk hu
  | use id =>
    rw [hout] at hnear
    exact .pure hb (hnear.clear hb.ordered hu)
  | constant x e => exact constant_gives hb
  | replace w =>
    rw [hout] at hnear
    exact insert_gives hb hnear.1 fun j hj => (hnear.2 j hj).clear hb.ordered hu

lemma alu_gives {op : Op} {element : Option Element} {inputs : List Nat}
    (hi : b.ClearsAll loops inputs) :
    GivesClear loops P b (alu op element inputs reusable) :=
  emit_gives hb rfl hi

lemma aluConst_gives {op : BinaryOp} {a : Nat} {c : Int} (ha : b.Clears loops a) :
    GivesClear loops P b (aluConst op a c element) :=
  (constant_gives hb).bind fun k b₁ h₁ hk =>
    alu_gives h₁.sound (by simpa using ⟨h₁.clear hb ha, hk⟩)

end

mutual

lemma index_gives {b : Builder} (hb : b.Sound loops P) {e : SymInt} (he : SymInt.Over P e) :
    GivesClear loops P b (index e) := by
  cases e with
  | num n => exact constant_gives hb
  | var v =>
    refine .bind_get ?_
    split
    · next id hid => exact .pure hb (hb.counters v.name id (SymInt.over_var.1 he) hid)
    · exact .throw
  | mul a c | div a c | mod a c | lt a c =>
    exact (index_gives hb (e := a) he).bind fun i b₁ h₁ hi => aluConst_gives h₁.sound hi
  | sum ps | conj ps =>
    have hps : ∀ p ∈ ps, SymInt.Over P p := SymInt.over_sum.1 he
    match ps with
    | [] => exact .throw
    | p :: ps =>
      exact (index_gives hb (hps p (by simp))).bind fun i b₁ h₁ hi =>
        indexRest_gives h₁.sound hi fun q hq => hps q (by simp [hq])

lemma indexRest_gives {b : Builder} (hb : b.Sound loops P) {op : BinaryOp} {element : Element}
    {acc : Nat} (ha : b.Clears loops acc) {ps : List SymInt} (hps : ∀ p ∈ ps, SymInt.Over P p) :
    GivesClear loops P b (indexRest op element acc ps) := by
  match ps with
  | [] => exact .pure hb ha
  | p :: ps =>
    refine (index_gives hb (hps p (by simp))).bind fun i b₁ h₁ hi => ?_
    refine (alu_gives h₁.sound (by simpa using ⟨h₁.clear hb ha, hi⟩)).bind
      fun j b₂ h₂ hj => ?_
    exact indexRest_gives h₂.sound hj fun q hq => hps q (by simp [hq])

end

end Build

end LazyTensor
