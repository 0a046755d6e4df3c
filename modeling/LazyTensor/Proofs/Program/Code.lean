import LazyTensor.Program.Instr
import LazyTensor.Proofs.Checked
import Mathlib.Data.List.Induction

/-! Well-formed code: operands come before the instructions that read them, loops are nested, and
barriers stand outside of loops. -/
namespace LazyTensor
open List

/-- The instruction neither opens nor closes a loop, and splits no program into phases. -/
@[simp] def InstrKind.isPlain : InstrKind → Bool
  | loop | endLoop | barrier | matrix => false
  | _ => true

namespace Program

def Ordered (code : List Instr) : Prop := ∀ i (u : Instr), code[i]? = some u →
    ∀ j ∈ u.inputs, j < i

/-- The loops that are open after an instruction, the innermost first. There are none where the
end of a loop names another than the innermost one, where a barrier stands inside of a loop, and
after a matrix product, which no device can run. -/
def enter (loops : List Nat) (u : Instr) (i : Nat) : Option (List Nat) :=
  match u.kind, loops with
  | .loop, loops => some (i :: loops)
  | .endLoop, l :: loops => if u.inputs = [l] then some loops else none
  | .endLoop, [] => none
  | .barrier, [] => some []
  | .barrier, _ :: _ => none
  | .matrix, _ => none
  | _, loops => some loops

def nesting (code : List Instr) : Option (List Nat) :=
  code.zipIdx.foldlM (fun loops (u, i) => enter loops u i) []

/-- The value of an instruction takes part in the one at `i`. -/
inductive DependsOn (code : List Instr) (l : Nat) : Nat → Prop
  | self : DependsOn code l l
  | input {i j : Nat} {u : Instr} (hu : code[i]? = some u) (hj : j ∈ u.inputs)
      (h : DependsOn code l j) : DependsOn code l i

/-- An instruction that is there and depends on none of the loops. -/
def Clear (loops : List Nat) (code : List Instr) (i : Nat) : Prop :=
  i < code.length ∧ ∀ l ∈ loops, ¬DependsOn code l i

variable {code more : List Instr} {u : Instr} {loops ls : List Nat} {i j l : Nat}

lemma getElem?_append_some (h : code[i]? = some u) (more : List Instr) :
    (code ++ more)[i]? = some u := by
  rw [List.getElem?_append_left (List.getElem?_eq_some_iff.1 h).1, h]

lemma Ordered.snoc (h : Ordered code) (hu : ∀ j ∈ u.inputs, j < code.length) :
    Ordered (code ++ [u]) := by
  intro i w hw j hj
  obtain hi | hi := Nat.lt_or_ge i code.length
  · rw [getElem?_append_left hi] at hw
    exact h i w hw j hj
  · have hlt : i < (code ++ [u]).length := (List.getElem?_eq_some_iff.1 hw).1
    obtain rfl : i = code.length := by simp at hlt; omega
    obtain rfl : u = w := by simpa using hw
    exact hu j hj

lemma nesting_snoc (code : List Instr) (u : Instr) :
    nesting (code ++ [u]) = (nesting code).bind (fun ls => enter ls u code.length) := by
  simp [nesting, zipIdx_append, foldlM_append]

lemma enter_plain (h : u.kind.isPlain) (ls : List Nat) (i : Nat) : enter ls u i = some ls := by
  unfold enter
  split <;> simp_all

lemma nesting_append_plain (h : ∀ u ∈ more, u.kind.isPlain) :
    nesting (code ++ more) = nesting code := by
  induction more using reverseRecOn with
  | nil => simp
  | append_singleton more u ih =>
    rw [← append_assoc, nesting_snoc, ih (fun w hw => h w (by simp [hw]))]
    simp [enter_plain (h u (by simp))]

lemma DependsOn.le (h : Ordered code) (hd : DependsOn code l i) : l ≤ i := by
  induction hd with
  | self => exact le_rfl
  | input hu hj _ ih => exact ih.trans (h _ _ hu _ hj).le

lemma DependsOn.of_append (h : Ordered code) (hi : i < code.length)
    (hd : DependsOn (code ++ more) l i) : DependsOn code l i := by
  induction hd with
  | self => exact .self
  | input hu hj _ ih =>
    rw [getElem?_append_left hi] at hu
    exact .input hu hj (ih ((h _ _ hu _ hj).trans hi))

lemma DependsOn.append (hd : DependsOn code l i) : DependsOn (code ++ more) l i := by
  induction hd with
  | self => exact .self
  | input hu hj _ ih => exact .input (getElem?_append_some hu _) hj ih

lemma Clear.append (h : Ordered code) (hc : Clear loops code i) : Clear loops (code ++ more) i :=
  ⟨by simp; exact Nat.lt_add_right _ hc.1, fun l hl hd => hc.2 l hl (hd.of_append h hc.1)⟩

lemma Clear.input (hc : Clear loops code i) (h : Ordered code) (hu : code[i]? = some u)
    (hj : j ∈ u.inputs) : Clear loops code j :=
  ⟨(h i u hu j hj).trans hc.1, fun l hl hd => hc.2 l hl (.input hu hj hd)⟩

lemma Clear.of_inputs (hu : code[i]? = some u) (hi : i ∉ loops)
    (h : ∀ j ∈ u.inputs, Clear loops code j) : Clear loops code i := by
  refine ⟨(List.getElem?_eq_some_iff.1 hu).1, fun l hl hd => ?_⟩
  cases hd with
  | self => exact hi hl
  | input hw hj hd =>
    cases hu.symm.trans hw
    exact (h _ hj).2 l hl hd

lemma Clear.of_before (h : Ordered code) (hi : i < code.length) (hl : ∀ l ∈ loops, i < l) :
    Clear loops code i :=
  ⟨hi, fun l hmem hd => absurd (hd.le h) (Nat.not_le.2 (hl l hmem))⟩

lemma clear_nil : Clear [] code i ↔ i < code.length := by simp [Clear]

lemma Ordered.of_append (h : Ordered (code ++ more)) : Ordered code :=
  fun i u hu => h i u (getElem?_append_some hu more)

def Ended (code : List Instr) (l : Nat) : Prop := ∃ u ∈ code, u.kind = .endLoop ∧
    l ∈ u.inputs

/-- Nothing after the end of a loop depends on its counter. -/
def Sealed (code : List Instr) : Prop :=
  ∀ e u l, code[e]? = some u → u.kind = .endLoop → l ∈ u.inputs → ∀ j, e < j →
    ¬DependsOn code l j

lemma Sealed.of_noEnds (h : ∀ u ∈ code, u.kind ≠ .endLoop) : Sealed code :=
  fun _ u _ hu hk => absurd hk (h u (mem_of_getElem? hu))

lemma Sealed.snoc (h : Sealed code) (ho : Ordered (code ++ [u]))
    (hu : ∀ l, Ended code l → ∀ j ∈ u.inputs, ¬DependsOn code l j) :
    Sealed (code ++ [u]) := by
  intro e w l hw hk hl j hj hd
  have hle : l < e := ho e w hw l hl
  have hlt : e < (code ++ [u]).length := (List.getElem?_eq_some_iff.1 hw).1
  cases hd with
  | self => omega
  | input hx hy hd =>
    have hjlt : j < (code ++ [u]).length := (List.getElem?_eq_some_iff.1 hx).1
    simp only [length_append, length_singleton] at hlt hjlt
    rw [getElem?_append_left (by omega)] at hw
    obtain hj' | rfl : j < code.length ∨ j = code.length := by omega
    · exact h e w l hw hk hl j hj ((DependsOn.input hx hy hd).of_append ho.of_append hj')
    · obtain rfl : u = _ := by simpa using hx
      have hlt' := ho _ _ hx _ hy
      exact hu l ⟨w, mem_of_getElem? hw, hk, hl⟩ _ hy (hd.of_append ho.of_append hlt')

lemma Sealed.ends {ds : List Nat} (h : Sealed code) (hd : ds.Pairwise (· > ·))
    (ho : Ordered (code ++ ds.map (fun l => { kind := .endLoop, inputs := [l] })))
    (hbefore : ∀ l, Ended code l → ∀ d ∈ ds, d < l) :
    Sealed (code ++ ds.map (fun l => { kind := .endLoop, inputs := [l] })) := by
  induction ds generalizing code with
  | nil => simpa using h
  | cons d ds ih =>
    obtain ⟨hfirst, hrest⟩ := pairwise_cons.1 hd
    have hsplit : code ++ (d :: ds).map (fun l => ({ kind := .endLoop, inputs := [l] } : Instr)) =
        (code ++ [{ kind := .endLoop, inputs := [d] }]) ++
          ds.map (fun l => { kind := .endLoop, inputs := [l] }) := by simp
    rw [hsplit] at ho ⊢
    refine ih (h.snoc ho.of_append fun l hl j hj hdep => ?_) hrest ho fun l hl x hx => ?_
    · cases mem_singleton.1 hj
      have := hbefore l hl d (by simp)
      have := hdep.le ho.of_append.of_append
      omega
    · obtain ⟨w, hw, hk, hl⟩ := hl
      obtain hw | hw := mem_append.1 hw
      · exact hbefore l ⟨w, hw, hk, hl⟩ x (by simp [hx])
      · cases mem_singleton.1 hw
        cases mem_singleton.1 hl
        exact hfirst x hx

lemma Sealed.plain (h : Sealed code) (ho : Ordered (code ++ more))
    (hended : ∀ l, Ended code l → l ∈ loops)
    (hmore : ∀ u ∈ more, u.kind.isPlain ∧ ∀ j ∈ u.inputs, Clear loops (code ++ more) j) :
    Sealed (code ++ more) ∧ ∀ l, Ended (code ++ more) l → l ∈ loops := by
  induction more using reverseRecOn with
  | nil => simpa using ⟨h, hended⟩
  | append_singleton more u ih =>
    rw [← append_assoc] at ho hmore ⊢
    have hsub : ∀ w ∈ more, w.kind.isPlain ∧ ∀ j ∈ w.inputs,
        Clear loops (code ++ more) j := by
      intro w hw
      obtain ⟨hk, hc⟩ := hmore w (by simp [hw])
      obtain ⟨i, hi⟩ := mem_iff_getElem?.1 hw
      refine ⟨hk, fun j hj => ⟨?_, fun l hl hd => (hc j hj).2 l hl hd.append⟩⟩
      have hat : (code ++ more)[code.length + i]? = some w := by
        rw [getElem?_append_right (Nat.le_add_right _ _), Nat.add_sub_cancel_left, hi]
      exact (ho.of_append _ _ hat j hj).trans (List.getElem?_eq_some_iff.1 hat).1
    obtain ⟨hsealed, hin⟩ := ih ho.of_append hsub
    obtain ⟨hk, hc⟩ := hmore u (by simp)
    refine ⟨hsealed.snoc ho fun l hl j hj hd => (hc j hj).2 l (hin l hl) hd.append,
      fun l hl => ?_⟩
    obtain ⟨w, hw, hkw, hlw⟩ := hl
    obtain hw | hw := mem_append.1 hw
    · exact hin l ⟨w, hw, hkw, hlw⟩
    · cases mem_singleton.1 hw
      simp [hkw] at hk

end Program

end LazyTensor
