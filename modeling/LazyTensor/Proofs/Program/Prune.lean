import Mathlib.Data.List.Nodup
import LazyTensor.Program.Linearize
import LazyTensor.Proofs.Program.Code

/-! Dropping what nothing reads. What is kept is closed under operands and renumbered in its order,
so the code stays ordered, its loops stay nested, and dependences are the old ones. -/
namespace LazyTensor
open List Option

namespace Program

def liveStep (e : Instr × Nat) (s : List (Instr × Nat) × List Nat) :
    List (Instr × Nat) × List Nat :=
  if e.1.kind.hasEffect || s.2.contains e.2 then (e :: s.1, e.1.inputs ++ s.2) else s

def liveIn (xs : List (Instr × Nat)) : List (Instr × Nat) × List Nat :=
  xs.foldr liveStep ([], [])

lemma live_eq (code : List Instr) : live code = liveIn code.zipIdx := rfl

variable {xs ys : List (Instr × Nat)} {code : List Instr} {u w : Instr} {i j l : Nat}

lemma liveIn_cons (e : Instr × Nat) (xs : List (Instr × Nat)) :
    liveIn (e :: xs) = liveStep e (liveIn xs) := rfl

lemma mem_read : j ∈ (liveIn xs).2 ↔ ∃ e ∈ (liveIn xs).1, j ∈ e.1.inputs := by
  induction xs with
  | nil => simp [liveIn]
  | cons e xs ih =>
    rw [liveIn_cons, liveStep]
    split <;> simp [ih]

lemma liveIn_sublist (xs : List (Instr × Nat)) : ((liveIn xs).1).Sublist xs := by
  induction xs with
  | nil => exact .slnil
  | cons e xs ih =>
    rw [liveIn_cons, liveStep]
    split
    · exact ih.cons_cons e
    · exact ih.cons e

lemma liveIn_append (xs ys : List (Instr × Nat)) :
    ∃ zs, zs.Sublist xs ∧ (liveIn (xs ++ ys)).1 = zs ++ (liveIn ys).1 := by
  induction xs with
  | nil => exact ⟨[], .slnil, rfl⟩
  | cons e xs ih =>
    obtain ⟨zs, hzs, he⟩ := ih
    rw [cons_append, liveIn_cons, liveStep]
    split
    · exact ⟨e :: zs, hzs.cons_cons e, by simp [he]⟩
    · exact ⟨zs, hzs.cons e, he⟩

def Live (code : List Instr) (i : Nat) : Prop := i ∈ (live code).1.map (·.2)

instance (code : List Instr) (i : Nat) : Decidable (Live code i) :=
  inferInstanceAs (Decidable (i ∈ (live code).1.map (·.2)))

lemma getElem?_of_mem_live (h : (u, i) ∈ (live code).1) : code[i]? = some u := by
  have hmem := (liveIn_sublist code.zipIdx).mem h
  simpa using mem_zipIdx_iff_getElem?.1 hmem

lemma mem_live_of (h : Live code i) (hu : code[i]? = some u) : (u, i) ∈ (live code).1 := by
  obtain ⟨⟨w, j⟩, hmem, rfl⟩ := mem_map.1 h
  cases (getElem?_of_mem_live hmem).symm.trans hu
  exact hmem

lemma Live.exists (h : Live code i) : ∃ u, code[i]? = some u := by
  obtain ⟨⟨u, j⟩, hmem, rfl⟩ := mem_map.1 h
  exact ⟨u, getElem?_of_mem_live hmem⟩

lemma zipIdx_split (hu : code[i]? = some u) :
    code.zipIdx = (code.take i).zipIdx ++ (u, i) :: (code.drop (i + 1)).zipIdx (i + 1) := by
  obtain ⟨hi, rfl⟩ := List.getElem?_eq_some_iff.1 hu
  have hsplit : code = code.take i ++ code[i] :: code.drop (i + 1) := by simp
  conv_lhs => rw [hsplit]
  rw [zipIdx_append, zipIdx_cons]
  simp [Nat.min_eq_left hi.le]

lemma live_of_effect (hu : code[i]? = some u) (he : u.kind.hasEffect) : Live code i := by
  obtain ⟨zs, _, hlive⟩ := liveIn_append (code.take i).zipIdx
    ((u, i) :: (code.drop (i + 1)).zipIdx (i + 1))
  rw [Live, live_eq, zipIdx_split hu, hlive, liveIn_cons, liveStep, if_pos (by simp [he])]
  simp

lemma Live.input (h : Live code i) (ho : Ordered code) (hu : code[i]? = some u)
    (hj : j ∈ u.inputs) : Live code j := by
  have hji := ho i u hu j hj
  have hilt := (List.getElem?_eq_some_iff.1 hu).1
  obtain ⟨w, hw⟩ : ∃ w, code[j]? = some w := ⟨_, getElem?_eq_getElem (hji.trans hilt)⟩
  obtain ⟨zs, hzs, hlive⟩ := liveIn_append ((code.take j).zipIdx ++ [(w, j)])
    ((code.drop (j + 1)).zipIdx (j + 1))
  obtain ⟨zs', _, hlive'⟩ := liveIn_append (code.take j).zipIdx
    ((w, j) :: (code.drop (j + 1)).zipIdx (j + 1))
  have hmem := mem_live_of h hu
  rw [live_eq, zipIdx_split hw, ← singleton_append, ← append_assoc, hlive] at hmem
  -- the reader stands behind its operand, so it was met first
  have hread : j ∈ (liveIn ((code.drop (j + 1)).zipIdx (j + 1))).2 := by
    refine mem_read.2 ⟨(u, i), ?_, hj⟩
    obtain hmem | hmem := mem_append.1 hmem
    · obtain hmem | hmem := mem_append.1 (hzs.mem hmem)
      · have := (mem_zipIdx hmem).2.1
        simp at this
        omega
      · cases mem_singleton.1 hmem
        omega
    · exact hmem
  rw [Live, live_eq, zipIdx_split hw, hlive', liveIn_cons, liveStep, if_pos (by simp [hread])]
  simp

/-! The new positions. -/

def place (code : List Instr) (i : Nat) : Nat := ((live code).1.map (·.2)).countP (· < i)

lemma live_increasing (code : List Instr) : ((live code).1.map (·.2)).Pairwise (· < ·) := by
  have hsub := (liveIn_sublist code.zipIdx).map Prod.snd
  rw [zipIdx_map_snd] at hsub
  exact (pairwise_lt_range' 1).sublist hsub

lemma getElem?_countP_lt {ids : List Nat} (h : ids.Pairwise (· < ·)) (hi : i ∈ ids) :
    ids[ids.countP (· < i)]? = some i := by
  induction ids with
  | nil => cases hi
  | cons x ids ih =>
    obtain ⟨hx, hrest⟩ := pairwise_cons.1 h
    obtain rfl | hi := mem_cons.1 hi
    · have hzero : ids.countP (· < i) = 0 := by
        simpa [countP_eq_zero] using fun y hy => (hx y hy).le
      simp [hzero]
    · simp [hx i hi, ih hrest hi]

lemma idxOf_eq_place (h : Live code i) : ((live code).1.map (·.2)).idxOf i = place code i := by
  have hget := getElem?_countP_lt (live_increasing code) h
  obtain ⟨hlt, hget⟩ := List.getElem?_eq_some_iff.1 hget
  have hnodup : ((live code).1.map (·.2)).Nodup := (live_increasing code).imp Nat.ne_of_lt
  have hidx := hnodup.idxOf_getElem _ hlt
  rwa [hget] at hidx

lemma place_mono (code : List Instr) (h : i ≤ j) : place code i ≤ place code j :=
  countP_mono_left fun x _ hx => by simp at hx ⊢; omega

lemma countP_lt_succ (ids : List Nat) (i : Nat) :
    ids.countP (· < i + 1) = ids.countP (· < i) + ids.count i := by
  induction ids with
  | nil => rfl
  | cons x ids ih =>
    simp only [countP_cons, count_cons, ih, decide_eq_true_eq, beq_iff_eq]
    split <;> split <;> split <;> omega

lemma place_succ_of_live (h : Live code i) : place code (i + 1) = place code i + 1 := by
  have hnodup : ((live code).1.map (·.2)).Nodup := (live_increasing code).imp Nat.ne_of_lt
  rw [place, countP_lt_succ, count_eq_one_of_mem hnodup h]
  rfl

lemma place_succ_of_dead (h : ¬Live code i) : place code (i + 1) = place code i := by
  rw [place, countP_lt_succ, count_eq_zero_of_not_mem h]
  rfl

lemma place_lt (h : Live code i) (hij : i < j) : place code i < place code j := by
  have := place_mono code hij
  rw [place_succ_of_live h] at this
  omega

lemma place_inj (hi : Live code i) (hj : Live code j)
    (h : place code i = place code j) : i = j := by
  obtain hlt | heq | hlt := Nat.lt_trichotomy i j
  · exact absurd h (place_lt hi hlt).ne
  · exact heq
  · exact absurd h (place_lt hj hlt).ne'

end Program

def Instr.moved (u : Instr) (f : Nat → Nat) : Instr := { u with inputs := u.inputs.map f }

namespace Program
variable {code : List Instr} {u w : Instr} {i j l : Nat}

lemma prune_eq (ho : Ordered code) :
    prune code = (live code).1.map (fun e => e.1.moved (place code)) := by
  refine map_congr_left fun e he => ?_
  obtain ⟨u, i⟩ := e
  have hu := getElem?_of_mem_live he
  have hi : Live code i := mem_map.2 ⟨(u, i), he, rfl⟩
  simp only [Instr.moved, Instr.mk.injEq, true_and, and_true]
  exact map_congr_left fun j hj => idxOf_eq_place (hi.input ho hu hj)

lemma prune_place (ho : Ordered code) (h : Live code i) (hu : code[i]? = some u) :
    (prune code)[place code i]? = some (u.moved (place code)) := by
  have hid := getElem?_countP_lt (live_increasing code) h
  rw [getElem?_map] at hid
  obtain ⟨⟨w, k⟩, he, rfl⟩ := map_eq_some_iff.1 hid
  cases (getElem?_of_mem_live (mem_of_getElem? he)).symm.trans hu
  rw [prune_eq ho, getElem?_map]
  exact congrArg (Option.map _) he

lemma exists_of_prune (ho : Ordered code) (h : (prune code)[j]? = some w) :
    ∃ i u, Live code i ∧ code[i]? = some u ∧ place code i = j ∧
      w = u.moved (place code) := by
  rw [prune_eq ho, getElem?_map] at h
  obtain ⟨⟨u, i⟩, he, rfl⟩ := map_eq_some_iff.1 h
  have hmem := mem_of_getElem? he
  have hi : Live code i := List.mem_map.2 ⟨(u, i), hmem, rfl⟩
  refine ⟨i, u, hi, getElem?_of_mem_live hmem, ?_, rfl⟩
  have hnodup : ((live code).1.map (·.2)).Nodup := (live_increasing code).imp Nat.ne_of_lt
  have hat : ((live code).1.map (·.2))[j]? = some i := by rw [getElem?_map, he]; rfl
  obtain ⟨hlt, hat⟩ := List.getElem?_eq_some_iff.1 hat
  rw [← idxOf_eq_place hi]
  have hidx := hnodup.idxOf_getElem _ hlt
  rwa [hat] at hidx

lemma length_prune (code : List Instr) : (prune code).length = place code code.length := by
  rw [place, countP_eq_length.2]
  · simp [prune]
  · intro i hi
    obtain ⟨u, hu⟩ := Live.exists hi
    simpa using (List.getElem?_eq_some_iff.1 hu).1

lemma Ordered.prune (ho : Ordered code) : Ordered (prune code) := by
  intro j w hw k hk
  obtain ⟨i, u, hi, hu, rfl, rfl⟩ := exists_of_prune ho hw
  obtain ⟨x, hx, rfl⟩ := mem_map.1 hk
  exact place_lt (hi.input ho hu hx) (ho i u hu x hx)

lemma DependsOn.of_prune (ho : Ordered code) (hl : Live code l) (hi : Live code i)
    (h : DependsOn (prune code) (place code l) (place code i)) : DependsOn code l i := by
  generalize hp : place code i = p at h
  induction h generalizing i with
  | self => exact place_inj hi hl hp ▸ .self
  | input hw hj _ ih =>
    obtain ⟨u, hu⟩ := hi.exists
    subst hp
    cases hw.symm.trans (prune_place ho hi hu)
    obtain ⟨x, hx, rfl⟩ := mem_map.1 hj
    exact .input hu hx (ih (hi.input ho hu hx) rfl)

lemma Sealed.prune (hs : Sealed code) (ho : Ordered code) : Sealed (prune code) := by
  intro e w l hw hk hl j hj hd
  obtain ⟨e, u, he, hu, rfl, rfl⟩ := exists_of_prune ho hw
  obtain ⟨l, hmem, rfl⟩ := mem_map.1 hl
  have hlive := he.input ho hu hmem
  have hle := ho e u hu l hmem
  obtain ⟨x, hx, hj'⟩ : ∃ x, Live code x ∧ place code x = j := by
    cases hd with
    | self => exact ⟨l, hlive, rfl⟩
    | input hw _ _ =>
      obtain ⟨x, _, hx, _, hj', _⟩ := exists_of_prune ho hw
      exact ⟨x, hx, hj'⟩
  subst hj'
  have hex : e < x := by
    by_contra hxe
    exact absurd (place_mono code (Nat.not_lt.1 hxe)) (Nat.not_le.2 hj)
  exact hs e u l hu hk hmem x hex (DependsOn.of_prune ho hlive hx hd)

/-- Code and pruned code grow together: an instruction is added to both, or dropped. -/
lemma prune_induction (ho : Ordered code) {motive : List Instr → List Instr → Prop}
    (nil : motive [] [])
    (keep : ∀ old new u, code[old.length]? = some u → Live code old.length →
      new.length = place code old.length → motive old new →
      motive (old ++ [u]) (new ++ [u.moved (place code)]))
    (drop : ∀ old new u, code[old.length]? = some u → ¬Live code old.length →
      motive old new →
      motive (old ++ [u]) new) : motive code (prune code) := by
  have hprefix : ∀ i ≤ code.length, motive (code.take i)
      ((prune code).take (place code i)) := by
    intro i hi
    induction i with
    | zero =>
      have hzero : place code 0 = 0 := by simp [place]
      simpa [hzero] using nil
    | succ i ih =>
      have ih := ih (Nat.le_of_succ_le hi)
      have hold : (code.take i).length = i := length_take_of_le (Nat.le_of_succ_le hi)
      have hu : code[i]? = some code[i] := getElem?_eq_getElem hi
      have hnew : ((prune code).take (place code i)).length = place code i := by
        refine length_take_of_le ?_
        rw [length_prune]
        exact place_mono code (Nat.le_of_succ_le hi)
      rw [take_add_one, hu]
      by_cases hlive : Live code i
      · rw [place_succ_of_live hlive, take_add_one, prune_place ho hlive hu]
        refine keep _ _ _ ?_ ?_ ?_ ih
        · rwa [hold]
        · rwa [hold]
        · rwa [hold]
      · rw [place_succ_of_dead hlive]
        refine drop _ _ _ ?_ ?_ ih
        · rwa [hold]
        · rwa [hold]
  have hall := hprefix code.length le_rfl
  rwa [take_length, ← length_prune, take_length] at hall

lemma open_or_ended {stack : List Nat} (h : nesting code = some stack) (hu : code[i]? = some u)
    (hk : u.kind = .loop) : i ∈ stack ∨ Ended code i := by
  induction code using reverseRecOn generalizing stack with
  | nil => cases hu
  | append_singleton code w ih =>
    rw [nesting_snoc] at h
    obtain ⟨_, hbefore, henter⟩ := bind_eq_some_iff.1 h
    obtain hi | rfl : i < code.length ∨ i = code.length := by
      have := (List.getElem?_eq_some_iff.1 hu).1
      simp at this
      omega
    · rw [getElem?_append_left hi] at hu
      obtain hopen | ⟨x, hx, hkx, hix⟩ := ih hbefore hu
      · unfold enter at henter
        split at henter
        · cases henter
          exact .inl (mem_cons_of_mem _ hopen)
        · next l loops hend =>
          split at henter
          · next hinputs =>
            cases henter
            obtain rfl | hopen := mem_cons.1 hopen
            · exact .inr ⟨w, by simp, hend, by simp [hinputs]⟩
            · exact .inl hopen
          · cases henter
        · cases hopen
        · cases hopen
        · cases henter
        · cases henter
        · cases henter
          exact .inl hopen
      · exact .inr ⟨x, by simp [hx], hkx, hix⟩
    · obtain rfl : w = u := by simpa using hu
      simp only [enter, hk, some.injEq] at henter
      exact .inl (henter ▸ mem_cons_self)

section
variable (ho : Ordered code) (hn : nesting code = some []) (hu : code[i]? = some u)
include ho hn hu

lemma live_of_loop (hk : u.kind = .loop) : Live code i := by
  obtain hopen | ⟨w, hw, hkw, hiw⟩ := open_or_ended hn hu hk
  · cases hopen
  · obtain ⟨e, he⟩ := mem_iff_getElem?.1 hw
    exact (live_of_effect he (by simp [hkw, InstrKind.hasEffect])).input ho he hiw

lemma plain_of_dead (hi : ¬Live code i) : u.kind.isPlain := by
  by_contra hk
  cases hkind : u.kind with
  | loop => exact hi (live_of_loop ho hn hu hkind)
  | endLoop | barrier | matrix =>
    exact hi (live_of_effect hu (by simp [hkind, InstrKind.hasEffect]))
  | _ => simp [hkind] at hk

end

lemma enter_moved {ls ls' : List Nat} (f : Nat → Nat) (h : enter ls u i = some ls') :
    enter (ls.map f) (u.moved f) (f i) = some (ls'.map f) := by
  have hkind : (u.moved f).kind = u.kind := rfl
  by_cases hplain : u.kind.isPlain
  · rw [enter_plain hplain] at h
    cases h
    exact enter_plain (by rwa [hkind]) _ _
  · cases hk : u.kind <;> simp only [hk, InstrKind.isPlain, not_true] at hplain <;>
      cases ls <;> grind [enter, Instr.moved]

lemma nesting_prune (ho : Ordered code) (hn : nesting code = some []) :
    nesting (prune code) = some [] := by
  refine prune_induction ho (motive := fun old new => ∀ stack, nesting old = some stack →
      nesting new = some (stack.map (place code))) ?_ ?_ ?_ [] hn
  · intro stack h
    cases h
    rfl
  · intro old new u hu _ hlen ih stack h
    rw [nesting_snoc] at h
    obtain ⟨before, hbefore, henter⟩ := bind_eq_some_iff.1 h
    rw [nesting_snoc, ih before hbefore, hlen]
    exact enter_moved (place code) henter
  · intro old new u hu hdead ih stack h
    rw [nesting_append_plain (by simpa using plain_of_dead ho hn hu hdead)] at h
    exact ih stack h

end Program

end LazyTensor
