import LazyTensor.Proofs.Program.WellFormed

/-! Loading pruned code. Its loops, phases and memories are those of the code that it is made of,
each at its new place. -/
namespace LazyTensor.Machine
open List Checked Check

open Program

variable {code : List Instr} {u : Instr} {i : Nat} {r r' : Region}
  {regions regions' : List (Nat × Region)} {sizes sizes' : List Nat}

def Paired (code : List Instr) (regions regions' : List (Nat × Region)) (r r' : Region) : Prop :=
  ∃ i, Live code i ∧ regions.lookup i = some r ∧ regions'.lookup (place code i) = some r'

/-- The same buffer, or shared memories of one size. -/
inductive Alike (sizes sizes' : List Nat) : Region → Region → Prop
  | global (slot : Nat) : Alike sizes sizes' (.global slot) (.global slot)
  | shared {n m size : Nat} (hn : sizes[n]? = some size) (hm : sizes'[m]? = some size) :
      Alike sizes sizes' (.shared n) (.shared m)

/-- Kept instructions define like memories, and different ones where they did. -/
structure Memories (code : List Instr) (regions regions' : List (Nat × Region))
    (sizes sizes' : List Nat) : Prop where
  defined : ∀ i, Live code i →
    ((regions.lookup i).isSome ↔ (regions'.lookup (place code i)).isSome)
  alike : ∀ r r', Paired code regions regions' r r' → Alike sizes sizes' r r'
  apart : ∀ n n' m m', Paired code regions regions' (.shared n) (.shared m) →
    Paired code regions regions' (.shared n') (.shared m') → (n = n' ↔ m = m')
  sizes : sizes' ⊆ sizes

/-- A program and the one that is loaded of its pruned code. -/
structure Reloaded (code : List Instr) (p q : Loaded) : Prop where
  code_eq : p.code = code.toArray
  pruned_eq : q.code = (prune code).toArray
  device : q.device = p.device
  name : q.name = p.name
  ends : q.ends = p.ends.map (Prod.map (place code) (place code))
  ended : ∀ e ∈ p.ends, Live code e.1 ∧ Live code e.2
  phases : q.phases = p.phases.map (Prod.map (place code) (place code))
  memories : Memories code p.regions q.regions p.shared q.shared

/-- What is found out up to the same instruction. -/
structure Follows (code : List Instr) (c c' : Check) : Prop
    extends Reloaded code c.loaded c'.loaded where
  depth : c'.depth = c.depth
  start : c'.start = place code c.start

namespace Check

def opened (c : Check) : Check := { c with depth := c.depth + 1 }

def closed (c : Check) (l i : Nat) : Check :=
  { c with depth := c.depth - 1, loaded := { c.loaded with ends := (l, i) :: c.loaded.ends } }

def phased (c : Check) (i : Nat) : Check :=
  { c with
    start := i + 1
    loaded := { c.loaded with phases := c.loaded.phases ++ [(c.start, i + 1)] } }

def defining (c : Check) (i : Nat) (r : Region) (more : List Nat) : Check :=
  { c with loaded := { c.loaded with
    regions := (i, r) :: c.loaded.regions
    shared := c.loaded.shared ++ more } }

/-- All that one instruction can do to the check. -/
lemma step_cases {c d : Check} (h : c.step u i = .ok d) : (u.kind = .loop ∧ d = c.opened) ∨
    (∃ l, u.kind = .endLoop ∧ nth u.inputs 0 = .ok l ∧ c.depth ≠ 0 ∧ d = c.closed l i) ∨
    (u.kind = .barrier ∧ c.depth = 0 ∧ d = c.phased i) ∨
    (∃ slot e, u.kind = .defineGlobal ∧ u.arg = .global slot e ∧
      d = c.defining i (.global slot) []) ∨
    (∃ name size, u.kind = .defineLocal ∧ u.arg = .shared name size ∧
      d = c.defining i (.shared c.loaded.shared.length) [size.toNat]) ∨
    (d = c ∧ ∀ (c : Check) (f : Nat → Nat) (j : Nat), c.step (u.moved f) j = .ok c) := by
  unfold step at h
  split at h
  · next hk =>
    cases h
    exact .inl ⟨hk, rfl⟩
  · next hk =>
    split at h
    · cases h
    · next hdepth =>
      obtain ⟨l, hl, h⟩ := bind_eq_ok.1 h
      cases h
      exact .inr (.inl ⟨l, hk, lift_eq_ok.1 hl, hdepth, rfl⟩)
  · next hk =>
    split at h
    · cases h
    · next hdepth =>
      cases h
      exact .inr (.inr (.inl ⟨hk, by omega, rfl⟩))
  · cases h
  · next hk harg =>
    cases h
    exact .inr (.inr (.inr (.inl ⟨_, _, hk, harg, by simp [defining]⟩)))
  · next hk harg =>
    cases h
    exact .inr (.inr (.inr (.inr (.inl ⟨_, _, hk, harg, rfl⟩))))
  · cases h
    refine .inr (.inr (.inr (.inr (.inr ⟨rfl, fun c f j => ?_⟩))))
    unfold step
    split <;> simp_all [Instr.moved]

end Check

lemma nth_map_eq_ok {xs : List Nat} {k j : Nat} (f : Nat → Nat) (h : nth xs k = .ok j) :
    nth (xs.map f) k = .ok (f j) := by
  unfold nth at h ⊢
  cases hx : xs[k]? with
  | none => simp [hx] at h
  | some x =>
    rw [hx] at h
    cases h
    simp [hx]

lemma lookup_cons_of_ne {α : Type} {x y : Nat} {a : α} {xs : List (Nat × α)} (h : y ≠ x) :
    lookup y ((x, a) :: xs) = xs.lookup y := by
  rw [lookup_cons, beq_false_of_ne h]

lemma Alike.append (h : Alike sizes sizes' r r') (more more' : List Nat) :
    Alike (sizes ++ more) (sizes' ++ more') r r' := by
  cases h with
  | global slot => exact .global slot
  | shared hn hm =>
    have hlt := (List.getElem?_eq_some_iff.1 hn).1
    have hlt' := (List.getElem?_eq_some_iff.1 hm).1
    exact .shared (by rwa [getElem?_append_left hlt]) (by rwa [getElem?_append_left hlt'])

lemma Memories.drop (h : Memories code regions regions' sizes sizes') (hi : ¬Live code i)
    (r : Region) (more : List Nat) :
    Memories code ((i, r) :: regions) regions' (sizes ++ more) sizes' := by
  have hlookup : ∀ j, Live code j → ((i, r) :: regions).lookup j = regions.lookup j :=
    fun j hj => lookup_cons_of_ne fun hji => hi (hji ▸ hj)
  have hpaired : ∀ s s', Paired code ((i, r) :: regions) regions' s s' →
      Paired code regions regions' s s' :=
    fun s s' ⟨j, hj, hs, hs'⟩ => ⟨j, hj, hlookup j hj ▸ hs, hs'⟩
  constructor
  · intro j hj
    rw [hlookup j hj]
    exact h.defined j hj
  · intro s s' hs
    simpa using (h.alike s s' (hpaired s s' hs)).append more []
  · intro n n' m m' hn hn'
    exact h.apart n n' m m' (hpaired _ _ hn) (hpaired _ _ hn')
  · exact fun n hn => mem_append_left _ (h.sizes hn)

lemma Memories.keep (h : Memories code regions regions' sizes sizes') (hi : Live code i)
    (more : List Nat) (hnew : Alike (sizes ++ more) (sizes' ++ more) r r')
    (hfresh : ∀ n m, r = .shared n → r' = .shared m → sizes.length ≤ n ∧
      sizes'.length ≤ m) :
    Memories code ((i, r) :: regions) ((place code i, r') :: regions') (sizes ++ more)
      (sizes' ++ more) := by
  have hother : ∀ j, Live code j → j ≠ i → ((i, r) :: regions).lookup j =
      regions.lookup j ∧
      ((place code i, r') :: regions').lookup (place code j) = regions'.lookup (place code j) :=
    fun j hj hji =>
      ⟨lookup_cons_of_ne hji, lookup_cons_of_ne fun heq => hji (place_inj hj hi heq)⟩
  have hpaired : ∀ s s', Paired code ((i, r) :: regions) ((place code i, r') :: regions') s s' →
      s = r ∧ s' = r' ∨ Paired code regions regions' s s' := by
    rintro s s' ⟨j, hj, hs, hs'⟩
    by_cases hji : j = i
    · subst hji
      rw [lookup_cons_self] at hs hs'
      exact .inl ⟨(Option.some.inj hs).symm, (Option.some.inj hs').symm⟩
    · obtain ⟨hold, hold'⟩ := hother j hj hji
      exact .inr ⟨j, hj, hold ▸ hs, hold' ▸ hs'⟩
  have hbefore : ∀ n m, Paired code regions regions' (.shared n) (.shared m) →
      n < sizes.length ∧ m < sizes'.length := by
    intro n m hnm
    cases h.alike _ _ hnm with
    | shared hn hm =>
      exact ⟨(List.getElem?_eq_some_iff.1 hn).1, (List.getElem?_eq_some_iff.1 hm).1⟩
  constructor
  · intro j hj
    by_cases hji : j = i
    · subst hji
      simp [lookup_cons_self]
    · obtain ⟨hold, hold'⟩ := hother j hj hji
      rw [hold, hold']
      exact h.defined j hj
  · intro s s' hs
    obtain ⟨rfl, rfl⟩ | hs := hpaired s s' hs
    · exact hnew
    · exact (h.alike s s' hs).append more more
  · intro n n' m m' hn hn'
    obtain ⟨hr, hr'⟩ | hn := hpaired _ _ hn
    · have := hfresh n m hr.symm hr'.symm
      obtain ⟨hs, hs'⟩ | hn' := hpaired _ _ hn'
      · cases hr.trans hs.symm
        cases hr'.trans hs'.symm
        simp
      · have := hbefore _ _ hn'
        omega
    · have := hbefore _ _ hn
      obtain ⟨hs, hs'⟩ | hn' := hpaired _ _ hn'
      · have := hfresh n' m' hs.symm hs'.symm
        omega
      · exact h.apart n n' m m' hn hn'
  · intro n hn
    simp only [mem_append] at hn ⊢
    exact hn.imp_left fun hn => h.sizes hn

variable {c c' d : Check}

lemma Follows.keep (hf : Follows code c c') (ho : Ordered code) (hi : Live code i)
    (hu : code[i]? = some u) (h : c.step u i = .ok d) :
    ∃ d', c'.step (u.moved (place code)) (place code i) = .ok d' ∧ Follows code d d' := by
  have hkind : (u.moved (place code)).kind = u.kind := rfl
  have harg : (u.moved (place code)).arg = u.arg := rfl
  obtain ⟨hk, rfl⟩ | ⟨l, hk, hl, hdepth, rfl⟩ | ⟨hk, hdepth, rfl⟩ | ⟨slot, e, hk,
    ha, rfl⟩ | ⟨name, size, hk, ha, rfl⟩ | ⟨rfl, hstep⟩ := step_cases h
  · refine ⟨c'.opened, ?_, { hf with depth := congrArg (· + 1) hf.depth }⟩
    simp only [step, hkind, hk]
    rfl
  · have hlive : Live code l := hi.input ho hu (View.nth_mem hl)
    have hl' : nth (u.moved (place code)).inputs 0 = .ok (place code l) := nth_map_eq_ok _ hl
    refine ⟨c'.closed (place code l) (place code i), ?_, { hf with
      depth := congrArg (· - 1) hf.depth
      ends := congrArg ((place code l, place code i) :: ·) hf.ends
      ended := forall_mem_cons.2 ⟨⟨hlive, hi⟩, hf.ended⟩ }⟩
    rw [← hf.depth] at hdepth
    simp only [step, hkind, hk, hdepth, hl']
    rfl
  · refine ⟨c'.phased (place code i), ?_, { hf with
      start := (place_succ_of_live hi).symm
      phases := ?_ }⟩
    · have hopen : ¬0 < c'.depth := by simp [hf.depth, hdepth]
      simp only [step, hkind, hk, hopen]
      rfl
    · simp [phased, hf.phases, hf.start, place_succ_of_live hi]
  · refine ⟨c'.defining (place code i) (.global slot) [], ?_, { hf with
      memories := hf.memories.keep hi [] (.global slot) (by simp) }⟩
    simp only [step, hkind, hk, harg, ha, defining, append_nil]
  · refine ⟨c'.defining (place code i) (.shared c'.loaded.shared.length) [size.toNat],
      ?_, { hf with
      memories := hf.memories.keep hi [size.toNat] (.shared getElem?_concat_length
        getElem?_concat_length) ?_ }⟩
    · simp only [step, hkind, hk, harg, ha, defining]
    · rintro n m ⟨⟩ ⟨⟩
      exact ⟨le_rfl, le_rfl⟩
  · exact ⟨c', hstep c' _ _, hf⟩

lemma Follows.drop (hf : Follows code c c') (hplain : u.kind.isPlain) (hi : ¬Live code i)
    (hu : code[i]? = some u) (h : c.step u i = .ok d) : Follows code d c' := by
  obtain ⟨hk, rfl⟩ | ⟨l, hk, hl, hdepth, rfl⟩ | ⟨hk, hdepth, rfl⟩ | ⟨slot, e, hk,
    ha, rfl⟩ | ⟨name, size, hk, ha, rfl⟩ | ⟨rfl, hstep⟩ := step_cases h
  · simp [hk] at hplain
  · simp [hk] at hplain
  · simp [hk] at hplain
  · exact absurd (live_of_effect hu (by simp [hk, InstrKind.hasEffect])) hi
  · exact { hf with memories := hf.memories.drop hi _ _ }
  · exact hf

lemma Follows.start_of (code : List Instr) (device name : String) :
    Follows code { loaded := { device, name, code := code.toArray } }
      { loaded := { device, name, code := (prune code).toArray } } where
  code_eq := rfl
  pruned_eq := rfl
  device := rfl
  name := rfl
  ends := rfl
  ended := by simp
  phases := rfl
  memories := ⟨by simp, by simp [Paired], by simp [Paired], by simp⟩
  depth := rfl
  start := by simp [place]

lemma Follows.scan (ho : Ordered code) (hn : nesting code = some []) {device name : String}
    (h : scan { loaded := { device, name, code := code.toArray } } code = .ok c) :
    ∃ c', scan { loaded := { device, name, code := (prune code).toArray } } (prune code) =
      .ok c' ∧ Follows code c c' := by
  have hstart := Follows.start_of code device name
  revert h hstart
  generalize ({ loaded := { device, name, code := code.toArray } } : Check) = c₀
  generalize ({ loaded := { device, name, code := (prune code).toArray } } : Check) = c₀'
  intro h hstart
  refine prune_induction ho (motive := fun old new => ∀ c, c₀.scan old = .ok c →
    ∃ c', c₀'.scan new = .ok c' ∧ Follows code c c') ?_ ?_ ?_ c h
  · intro c h
    cases h
    exact ⟨c₀', rfl, hstart⟩
  · intro old new u hu hi hlen ih c h
    rw [scan_snoc] at h
    obtain ⟨c₁, hold, hstep⟩ := bind_eq_ok.1 h
    obtain ⟨c₁', hnew, hf⟩ := ih c₁ hold
    rw [scan_snoc, hnew, hlen]
    exact hf.keep ho hi hu hstep
  · intro old new u hu hi ih c h
    rw [scan_snoc] at h
    obtain ⟨c₁, hold, hstep⟩ := bind_eq_ok.1 h
    obtain ⟨c₁', hnew, hf⟩ := ih c₁ hold
    exact ⟨c₁', hnew, hf.drop (plain_of_dead ho hn hu hi) hi hu hstep⟩

/-- Where code can be loaded, so can the pruned code. -/
lemma load_prune {device : String} {p : Program} {whole : Loaded} (ho : Ordered code)
    (hn : nesting code = some []) (hp : p.code = prune code)
    (h : load device { p with code } = .ok whole) :
    ∃ q, load device p = .ok q ∧ Reloaded code whole q := by
  rw [load_eq] at h
  obtain ⟨c, hscan, h⟩ := bind_eq_ok.1 h
  split at h
  · next hdepth =>
    cases h
    obtain ⟨c', hscan', hf⟩ := Follows.scan ho hn hscan
    refine ⟨{ c'.loaded with phases := c'.loaded.phases ++ [(c'.start, (prune code).length)] },
      ?_, ?_⟩
    · rw [load_eq, hp, hscan']
      exact if_pos (hf.depth.trans hdepth)
    · exact { hf with phases := by simp [hf.phases, hf.start, length_prune] }
  · cases h

end LazyTensor.Machine
