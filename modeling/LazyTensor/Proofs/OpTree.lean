import LazyTensor.OpTree.Basic
import Mathlib.Data.List.Forall2

/-! Trees of operations: what stands above and below their reduces, and trees that are elementwise
down to leaves of one kind. -/
namespace LazyTensor.Source
open List
variable {ss : List Source}
variable {t : OpTree} {b : Nat}

mutual

/-- Operations that do not stand below a reduce, the reduces themselves included. -/
def outer : Source → List OpTree
  | buffer _ => []
  | apply op arg srcs =>
    { op, arg, srcs } :: match op with
      | .reduce _ => []
      | _ => outerAll srcs

def outerAll : List Source → List OpTree
  | [] => []
  | s :: ss => s.outer ++ outerAll ss

end

theorem mem_treesAll : t ∈ treesAll ss ↔ ∃ s ∈ ss, t ∈ s.trees := by
  induction ss with
  | nil => simp
  | cons s ss ih => simp [ih]

theorem mem_outerAll : t ∈ outerAll ss ↔ ∃ s ∈ ss, t ∈ s.outer := by
  induction ss with
  | nil => simp [outerAll]
  | cons s ss ih => simp [outerAll, ih]

theorem mem_buffersAll : b ∈ buffersAll ss ↔ ∃ s ∈ ss, b ∈ s.buffers := by
  induction ss with
  | nil => simp
  | cons s ss ih => simp [ih]

theorem mapBuffersAll_eq_map (f : Nat → Option Source) (ss : List Source) :
    mapBuffersAll f ss = ss.map (mapBuffers f) := by
  induction ss with
  | nil => rfl
  | cons s ss ih => rw [mapBuffersAll, ih, map_cons]

section Same
variable {P : Source → Source → Prop}

mutual

/-- What holds of equal leaves and passes on from sources holds of any two that are the same. -/
@[elab_as_elim] theorem of_same (hbuffer : ∀ b, P (.buffer b) (.buffer b))
    (happly : ∀ op arg arg' ss ts, (arg == arg') = true → List.Forall₂ P ss ts →
      P (.apply op arg ss) (.apply op arg' ts)) {s t : Source} (h : s.same t = true) : P s t := by
  cases s with
  | buffer a =>
    cases t with
    | buffer b =>
      cases eq_of_beq h
      exact hbuffer a
    | apply => cases h
  | apply op arg ss =>
    cases t with
    | buffer b => cases h
    | apply op' arg' ts =>
      simp only [same, Bool.and_eq_true] at h
      obtain ⟨⟨hop, harg⟩, hsrcs⟩ := h
      cases eq_of_beq hop
      exact happly op arg arg' ss ts harg (of_sameAll hbuffer happly hsrcs)

theorem of_sameAll (hbuffer : ∀ b, P (.buffer b) (.buffer b))
    (happly : ∀ op arg arg' ss ts, (arg == arg') = true → List.Forall₂ P ss ts →
      P (.apply op arg ss) (.apply op arg' ts)) {ss ts : List Source}
    (h : sameAll ss ts = true) : List.Forall₂ P ss ts := by
  cases ss with
  | nil =>
    cases ts with
    | nil => exact .nil
    | cons => cases h
  | cons s ss =>
    cases ts with
    | nil => cases h
    | cons t ts =>
      simp only [sameAll, Bool.and_eq_true] at h
      exact .cons (of_same hbuffer happly h.1) (of_sameAll hbuffer happly h.2)

end

end Same

/-- Elementwise operations down to leaves of one kind. Each has sources, as many as it accepts. -/
inductive Over (accepts : Op → Nat → Prop) (leaf : Source → Prop) : Source → Prop
  | leaf {s : Source} (h : leaf s) : Over accepts leaf s
  | apply {op : Op} {arg : OpArg} {srcs : List Source} (elementwise : op.isElementwise = true)
      (nonempty : srcs ≠ []) (count : accepts op srcs.length)
      (below : ∀ s ∈ srcs, Over accepts leaf s) : Over accepts leaf (.apply op arg srcs)

namespace Over
variable {accepts : Op → Nat → Prop} {leaf leaf' : Source → Prop} {s : Source} {t : OpTree}

section
variable (h : Over accepts leaf s)
include h

theorem imp (hl : ∀ l, leaf l → leaf' l) : Over accepts leaf' s := by
  induction h with
  | leaf h => exact .leaf (hl _ h)
  | apply he hne hc _ ih => exact .apply he hne hc ih

theorem mapBuffers {f : Nat → Option Source}
    (hl : ∀ l, leaf l → (∀ b ∈ l.buffers, b ∈ s.buffers) →
      Over accepts leaf' (l.mapBuffers f)) :
    Over accepts leaf' (s.mapBuffers f) := by
  induction h with
  | leaf h => exact hl _ h fun _ hb => hb
  | @apply op arg srcs he hne hc _ ih =>
    rw [Source.mapBuffers, mapBuffersAll_eq_map]
    refine .apply he (by simpa using hne) (by simpa using hc) fun s' hs' => ?_
    obtain ⟨src, hsrc, rfl⟩ := mem_map.1 hs'
    refine ih src hsrc fun l hleaf hsub => hl l hleaf fun b hb => ?_
    rw [buffers]
    exact mem_buffersAll.2 ⟨src, hsrc, hsub b hb⟩

theorem mem_buffers (hb : b ∈ s.buffers) : ∃ l, leaf l ∧ b ∈ l.buffers := by
  induction h with
  | leaf h => exact ⟨_, h, hb⟩
  | apply _ _ _ _ ih =>
    rw [buffers] at hb
    obtain ⟨src, hsrc, hb⟩ := mem_buffersAll.1 hb
    exact ih src hsrc hb

theorem mem_trees (ht : t ∈ s.trees) : t.op.isElementwise = true ∨ ∃ l, leaf l ∧
    t ∈ l.trees := by
  induction h with
  | leaf h => exact .inr ⟨_, h, ht⟩
  | apply he _ _ _ ih =>
    rw [trees] at ht
    obtain rfl | ht := mem_cons.1 ht
    · exact .inl he
    · obtain ⟨src, hsrc, ht⟩ := mem_treesAll.1 ht
      exact ih src hsrc ht

theorem mem_outer (ht : t ∈ s.outer) : t.op.isElementwise = true ∨ ∃ l, leaf l ∧
    t ∈ l.outer := by
  induction h with
  | leaf h => exact .inr ⟨_, h, ht⟩
  | @apply op arg srcs he _ _ _ ih =>
    rw [outer] at ht
    obtain rfl | ht := mem_cons.1 ht
    · exact .inl he
    · obtain ⟨src, hsrc, ht⟩ := mem_outerAll.1 ht
      exact ih src hsrc ht
    · rintro r rfl
      cases he

end

theorem or_eq {r : Source} (h : Over accepts (fun l => leaf l ∨ l = r) s) :
    Over accepts leaf s ∨ (∀ b ∈ r.buffers, b ∈ s.buffers) ∧
      ∀ t ∈ r.trees, t ∈ s.trees := by
  induction h with
  | leaf h =>
    obtain h | rfl := h
    · exact .inl (.leaf h)
    · exact .inr ⟨fun _ hb => hb, fun _ ht => ht⟩
  | @apply op arg srcs he hne hc _ ih =>
    by_cases hall : ∀ src ∈ srcs, Over accepts leaf src
    · exact .inl (.apply he hne hc hall)
    · simp only [Classical.not_forall] at hall
      obtain ⟨src, hsrc, hnot⟩ := hall
      obtain ⟨hbuffers, htrees⟩ := (ih src hsrc).resolve_left hnot
      rw [buffers, trees]
      exact .inr ⟨fun b hb => mem_buffersAll.2 ⟨src, hsrc, hbuffers b hb⟩,
        fun t ht => mem_cons_of_mem _ (mem_treesAll.2 ⟨src, hsrc, htrees t ht⟩)⟩

theorem exists_leaf (h : Over accepts leaf s) : ∃ l, leaf l ∧
    ∀ t ∈ l.trees, t ∈ s.trees := by
  induction h with
  | leaf h => exact ⟨_, h, fun _ ht => ht⟩
  | @apply op arg srcs _ hne _ _ ih =>
    obtain ⟨src, hsrc⟩ := exists_mem_of_ne_nil srcs hne
    obtain ⟨l, hl, hsub⟩ := ih src hsrc
    rw [trees]
    exact ⟨l, hl, fun t ht => mem_cons_of_mem _ (mem_treesAll.2 ⟨src, hsrc, hsub t ht⟩)⟩

end Over

end LazyTensor.Source
