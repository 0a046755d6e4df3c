import LazyTensor.Proofs.Layout.Total
import LazyTensor.Proofs.Kernel.Same

/-! The estimate of a tree whose leaves are layouts of numbers: it gives the shape of the result,
and charges every subtree once, unless a word overflows. -/
namespace LazyTensor
open Checked Shape Source Option List SymInt

def Op.sources : Op → Nat
  | unary _ => 1
  | binary _ => 2
  | ternary _ => 3
  | _ => 0

def Op.Fed (op : Op) (count : Nat) : Prop := op.sources ≤ count

lemma Layout.shape_beq {l l' : Layout} (h : (l == l') = true) : (l.shape == l'.shape) = true := by
  have hview : (l.top == l'.top && l.below == l'.below) = true := h
  have htop : (l.top.shape == l'.top.shape && l.top.strides == l'.top.strides
      && l.top.offset == l'.top.offset && l.top.mask == l'.top.mask
      && l.top.contiguous == l'.top.contiguous) = true := (Bool.and_eq_true _ _ ▸ hview).1
  simp only [Bool.and_eq_true] at htop
  exact htop.1.1.1.1

lemma OpArg.layout?_of_same {a b : OpArg} {l l' : Layout} (h : (a == b) = true)
    (hl : a.layout? = some l) (hl' : b.layout? = some l') : (l == l') = true := by
  have hsame : a.same b = true := h
  cases a <;> cases hl <;> cases b <;> cases hl' <;>
    simp only [same, Bool.and_eq_true, Bool.false_eq_true] at hsame <;> exact hsame.2

namespace Source

mutual

def shape? : Source → Option Shape
  | buffer _ => none
  | apply op arg srcs =>
    match op with
    | .reduce _ => arg.shape?
    | .buffer _ => arg.layout?.map Layout.shape
    | _ => firstShape? srcs

def firstShape? : List Source → Option Shape
  | [] => none
  | s :: _ => s.shape?

end

lemma shape?_of_same {s t : Source} {a b : List Int} (h : s.same t = true)
    (hs : s.shape? = some (ofInts a)) (ht : t.shape? = some (ofInts b)) : a = b := by
  revert hs ht
  refine of_same ?_ ?_ h
  · intro _ hs
    cases hs
  intro op arg arg' ss ts harg hsrcs hs ht
  cases op with
  | reduce r =>
    cases arg <;> cases hs
    cases arg' <;> cases ht
    exact eq_of_beq harg
  | buffer o =>
    obtain ⟨l, hl, hla⟩ := map_eq_some_iff.1 hs
    obtain ⟨l', hl', hlb⟩ := map_eq_some_iff.1 ht
    have hshape := Layout.shape_beq (OpArg.layout?_of_same harg hl hl')
    rw [hla, hlb] at hshape
    exact eq_of_beq hshape
  | unary | binary | ternary | movement | load =>
    cases hsrcs with
    | nil => cases hs
    | cons h _ => exact h hs ht

lemma length_trees_of_same {s t : Source} (h : s.same t = true) :
    s.trees.length = t.trees.length := by
  refine of_same (P := fun s t => s.trees.length = t.trees.length) (fun _ => rfl) ?_ h
  intro _ _ _ ss ts _ hsrcs
  rw [trees, trees, length_cons, length_cons]
  induction hsrcs with
  | nil => rfl
  | cons h _ ih =>
    simp only [treesAll, length_append, h] at ih ⊢
    omega

mutual

lemma length_trees_le {s : Source} {t : OpTree} (h : t ∈ s.trees) :
    (ofTree t).trees.length ≤ s.trees.length := by
  cases s with
  | buffer _ => cases h
  | apply op arg srcs =>
    obtain rfl | h := mem_cons.1 h
    · rfl
    · exact (length_treesAll_le h).trans (Nat.le_succ _)

lemma length_treesAll_le {ss : List Source} {t : OpTree} (h : t ∈ treesAll ss) :
    (ofTree t).trees.length ≤ (treesAll ss).length := by
  cases ss with
  | nil => cases h
  | cons s ss =>
    rw [treesAll, length_append]
    obtain h | h := mem_append.1 h
    · exact (length_trees_le h).trans (Nat.le_add_right _ _)
    · exact (length_treesAll_le h).trans (Nat.le_add_left _ _)

end

/-- The number of elements of the first source. -/
def firstCount (srcs : List Source) : Int := ((firstShape? srcs).bind ints?).elim 0 prod

lemma firstCount_eq {srcs : List Source} {ds : List Int}
    (h : firstShape? srcs = some (ofInts ds)) : firstCount srcs = ds.prod := by
  rw [firstCount, h, Option.bind_some, ints?_eq_some.2 rfl]
  rfl

end Source

namespace OpTree

/-- The sources that an estimate looks at. -/
def operands (t : OpTree) : List Source := t.srcs.take (max 1 t.op.sources)

/-- What a tree costs without its operands. Leaves, casts and movements are free. -/
def cost (t : OpTree) : Int :=
  match t.op, t.arg with
  | .buffer _, _ | .movement _, _ | .load _, _ | .unary .cast, .cast _ _ => 0
  | _, _ => firstCount t.srcs

end OpTree

namespace Estimated
variable {seen seen' seen'' : Estimated} {trees trees' : List OpTree} {n m : Int} {t : OpTree}
  {i : Estimate}

def Covers (seen : Estimated) (s : Source) : Prop :=
  ∃ e ∈ seen, (ofTree e.1).same s = true

/-- Entries have the shapes of their trees, no two are the same, and operands have entries. -/
structure Sound (seen : Estimated) : Prop where
  shapes : ∀ e ∈ seen, ∃ ds, e.2.shape = ofInts ds ∧ (ofTree e.1).shape? = some (ofInts ds)
  apart : seen.Pairwise fun e e' => (e'.1 == e.1) = false
  closed : ∀ e ∈ seen, ∀ s ∈ e.1.operands, seen.Covers s

/-- Entries were added for some of the trees, which together cost `n`. -/
structure Grows (seen : Estimated) (trees : List OpTree) (n : Int) (seen' : Estimated) :
    Prop where
  sound : seen'.Sound
  added : ∃ new, seen' = new ++ seen ∧ (∀ e ∈ new, e.1 ∈ trees) ∧
    (new.map (·.1.cost)).sum = n

lemma Covers.append {s : Source} (h : seen.Covers s) (new : Estimated) :
    Covers (new ++ seen) s := by
  obtain ⟨e, he, hs⟩ := h
  exact ⟨e, mem_append_right _ he, hs⟩

lemma Grows.refl (h : seen.Sound) : seen.Grows trees 0 seen := ⟨h, [], rfl, by simp, rfl⟩

lemma Grows.trans (h : seen.Grows trees n seen') (h' : seen'.Grows trees' m seen'') :
    seen.Grows (trees ++ trees') (n + m) seen'' := by
  obtain ⟨-, new, rfl, hnew, rfl⟩ := h
  obtain ⟨hs, new', rfl, hnew', rfl⟩ := h'
  refine ⟨hs, new' ++ new, (append_assoc _ _ _).symm, fun e he => ?_, by simp [add_comm]⟩
  exact mem_append.2 ((mem_append.1 he).symm.imp (hnew e) (hnew' e))

lemma Grows.mono (h : seen.Grows trees n seen') (hsub : trees ⊆ trees') :
    seen.Grows trees' n seen' := by
  obtain ⟨hs, new, heq, hnew, hsum⟩ := h
  exact ⟨hs, new, heq, fun e he => hsub (hnew e he), hsum⟩

lemma Grows.covers {s : Source} (h : seen.Grows trees n seen') (hs : seen.Covers s) :
    seen'.Covers s := by
  obtain ⟨-, new, rfl, -⟩ := h
  exact hs.append new

/-- The entry of a tree follows those of its sources. It is new, as it was not there before and is
larger than its sources. -/
lemma Grows.cons {ds : List Int} (h : seen.Grows (treesAll t.srcs) n seen')
    (hnone : seen.find? t = none) (hsrcs : ∀ s ∈ t.operands, seen'.Covers s)
    (hi : i.shape = ofInts ds) (ht : (ofTree t).shape? = some (ofInts ds)) :
    seen.Grows (ofTree t).trees (n + t.cost) ((t, i) :: seen') := by
  obtain ⟨hs, new, rfl, hnew, rfl⟩ := h
  have happart : ∀ e ∈ new ++ seen, (e.1 == t) = false := by
    intro e he
    obtain he | he := mem_append.1 he
    · refine Bool.eq_false_iff.2 fun hsame => ?_
      have hlen := length_trees_of_same hsame
      have hle := length_treesAll_le (hnew e he)
      rw [hlen, ofTree, Source.trees, length_cons] at hle
      omega
    · have := find?_eq_none.1 (map_eq_none_iff.1 hnone) e he
      exact Bool.eq_false_iff.2 this
  have hcovers : ∀ e ∈ (t, i) :: (new ++ seen), ∀ s ∈ e.1.operands,
      Covers ((t, i) :: (new ++ seen)) s := by
    refine forall_mem_cons.2 ⟨fun s h => (hsrcs s h).append [(t, i)], fun e he s h => ?_⟩
    exact (hs.closed e he s h).append [(t, i)]
  refine ⟨⟨forall_mem_cons.2 ⟨⟨ds, hi, ht⟩, hs.shapes⟩,
    pairwise_cons.2 ⟨happart, hs.apart⟩, hcovers⟩, (t, i) :: new, rfl, ?_, ?_⟩
  · exact forall_mem_cons.2 ⟨by simp [ofTree], fun e he => by
      rw [ofTree, Source.trees]; exact mem_cons_of_mem _ (hnew e he)⟩
  · rw [map_cons, sum_cons, add_comm]

end Estimated

namespace Source
variable {s : Source} {op : Op} {arg : OpArg} {srcs : List Source} {ds dt : List Int}
variable {seen : Estimated} {t : OpTree} {i : Estimate} {e : Element} {layout : Layout} {n : Int}

/-- The result has these dimensions, and the subtrees that are new are charged. -/
structure Charges (ds : List Int) (s : Source) (seen : Estimated) (r : Estimate × Estimated) :
    Prop where
  shape : r.1.shape = Shape.ofInts ds
  covers : r.2.Covers s
  flops : ∃ n, r.1.flops = .num n ∧ seen.Grows s.trees n r.2

/-- The tree can be estimated, and its result has these dimensions. -/
structure Estimable (ds : List Int) (s : Source) : Prop where
  shape : s.shape? = some (Shape.ofInts ds)
  returns : ∀ {seen : Estimated}, seen.Sound →
    Returns .arithmetic (s.estimate seen) (s.Charges ds seen)

lemma Estimable.of_new (hshape : (ofTree t).shape? = some (ofInts ds))
    (hnew : ∀ {seen : Estimated}, seen.Sound → seen.find? t = none →
      Returns .arithmetic ((ofTree t).estimate seen) ((ofTree t).Charges ds seen)) :
    (ofTree t).Estimable ds := by
  refine ⟨hshape, fun {seen} hseen => ?_⟩
  cases hfind : seen.find? t with
  | none => exact hnew hseen hfind
  | some i =>
    rw [ofTree, estimate, hfind]
    obtain ⟨e, he, rfl⟩ := map_eq_some_iff.1 hfind
    have hmem := mem_of_find?_eq_some he
    have hsame := find?_some he
    obtain ⟨es, hes, hfirst⟩ := hseen.shapes e hmem
    have hds : e.2.shape = ofInts ds := shape?_of_same hsame hfirst hshape ▸ hes
    exact .ok ⟨hds, ⟨e, hmem, hsame⟩, 0, rfl, .refl hseen⟩

/-- A tree is charged after its operands. -/
lemma Charges.of_operands {seen' : Estimated} (hnone : seen.find? t = none)
    (ht : (ofTree t).shape? = some (ofInts ds)) (hi : i.shape = ofInts ds)
    (hf : i.flops = .num (n + t.cost)) (hsrcs : ∀ s ∈ t.operands, seen'.Covers s)
    (h : seen.Grows (treesAll t.srcs) n seen') :
    (ofTree t).Charges ds seen (i, (t, i) :: seen') :=
  ⟨hi, ⟨_, mem_cons_self, same_refl _⟩, _, hf, h.cons hnone hsrcs hi ht⟩

lemma charge_returns (h : i.shape = ofInts ds) (hf : i.flops = .num n) :
    Returns .arithmetic i.charge
      (fun i => i.shape = ofInts ds ∧ i.flops = .num (n + ds.prod)) := by
  unfold Estimate.charge
  rw [h, hf]
  refine (product_returns ds).bind fun size _ hsize => ?_
  subst hsize
  exact (plus_overflow _ _).returns.bind fun _ hsum _ => .ok ⟨rfl, plus_num hsum⟩

lemma combine_returns {infos : List Estimate} {ns : List Int}
    (h : ∀ i ∈ infos, i.shape = ofInts ds)
    (hf : List.Forall₂ (fun i n => i.flops = .num n) infos ns) (hlen : 2 ≤ infos.length) :
    Returns .arithmetic (Estimate.combine op infos)
      (fun i => i.shape = ofInts ds ∧ i.flops = .num (ns.sum + ds.prod)) := by
  have hsum (a : Int) : Returns .arithmetic (infos.foldlM (fun acc i => acc.plus i.flops) (num a))
      (· = .num (ns.sum + a)) := by
    clear h hlen
    induction hf generalizing a with
    | nil => exact .ok (by simp)
    | @cons i n infos ns hi _ ih =>
      rw [foldlM_cons, hi]
      refine (plus_overflow _ _).returns.bind fun r hr _ => ?_
      cases plus_num hr
      exact (ih _).weaken fun r hr => by rw [hr, sum_cons]; ring_nf
  obtain ⟨first, second, rest, rfl⟩ : ∃ a b rest, infos = a :: b :: rest := by
    match infos, hlen with
    | a :: b :: rest, _ => exact ⟨a, b, rest, rfl⟩
  have hfirst : first.shape = ofInts ds := h first (by simp)
  unfold Estimate.combine
  rw [show nth (first :: second :: rest) 0 = .ok first from rfl,
    show nth (first :: second :: rest) 1 = .ok second from rfl, ok_bind, ok_bind, hfirst]
  refine (product_returns ds).bind fun size _ hsize => ?_
  subst hsize
  exact (hsum _).bind fun _ _ hsum => .ok ⟨rfl, hsum⟩

section
variable (h : ∀ s ∈ srcs, s.Estimable ds)
include h

lemma estimateFirst_returns (hne : srcs ≠ []) (hseen : seen.Sound) :
    Returns .arithmetic (estimateFirst seen srcs) (fun r => r.1.shape = ofInts ds ∧
      (∀ s ∈ srcs.take 1, r.2.Covers s) ∧
      ∃ n, r.1.flops = .num n ∧ seen.Grows (treesAll srcs) n r.2) := by
  cases srcs with
  | nil => exact (hne rfl).elim
  | cons s srcs =>
    refine ((h s (by simp)).returns hseen).weaken fun r hr => ⟨hr.shape, ?_, ?_⟩
    · simpa using hr.covers
    · obtain ⟨n, hn, hgrows⟩ := hr.flops
      exact ⟨n, hn, hgrows.mono (subset_append_left _ _)⟩

lemma estimateAll_returns (hseen : seen.Sound) :
    Returns .arithmetic (estimateAll seen srcs) (fun r => (∀ i ∈ r.1, i.shape = ofInts ds) ∧
      r.1.length = srcs.length ∧ (∀ s ∈ srcs, r.2.Covers s) ∧
      ∃ ns, List.Forall₂ (fun i n => i.flops = .num n) r.1 ns ∧
        seen.Grows (treesAll srcs) ns.sum r.2) := by
  induction srcs generalizing seen with
  | nil => exact .ok ⟨by simp, rfl, by simp, [], .nil, .refl hseen⟩
  | cons s srcs ih =>
    obtain ⟨hs, hsrcs⟩ := forall_mem_cons.1 h
    rw [estimateAll]
    refine (hs.returns hseen).bind fun x _ hx => ?_
    obtain ⟨n, hn, hgrows⟩ := hx.flops
    refine (ih hsrcs hgrows.sound).bind fun xs _ hxs => .ok ?_
    obtain ⟨hshapes, hlen, hcovers, ns, hns, hgrows'⟩ := hxs
    exact ⟨forall_mem_cons.2 ⟨hx.shape, hshapes⟩, congrArg (· + 1) hlen,
      forall_mem_cons.2 ⟨hgrows'.covers hx.covers, hcovers⟩, n :: ns, .cons hn hns,
      hgrows.trans hgrows'⟩

lemma firstShape?_of_estimable (hne : srcs ≠ []) :
    firstShape? srcs = some (ofInts ds) := by
  cases srcs with
  | nil => exact (hne rfl).elim
  | cons s srcs => exact (h s (by simp)).shape

end

lemma Estimable.mem {slot : Nat} (hl : layout.Suits False ds) :
    (ofTree (.mem slot e layout)).Estimable ds := by
  have hshape : (ofTree (.mem slot e layout)).shape? = some (ofInts ds) := congrArg some hl.sized.1
  refine .of_new hshape fun {seen} hseen hnone => ?_
  rw [ofTree, estimate, hnone]
  refine (Layout.size_returns hl).bind fun n _ _ => ?_
  refine (OnlyOverflow.word _).returns.bind fun _ _ _ => ?_
  exact .ok (.of_operands hnone hshape hl.sized.1 rfl (by simp [OpTree.operands, OpTree.mem])
    (.refl hseen))

lemma Estimable.const {v : Double} (hl : layout.Suits False ds) :
    (ofTree (.const v e layout)).Estimable ds := by
  have hshape : (ofTree (.const v e layout)).shape? = some (ofInts ds) := congrArg some hl.sized.1
  refine .of_new hshape fun {seen} hseen hnone => ?_
  rw [ofTree, estimate, hnone]
  exact .ok (.of_operands hnone hshape hl.sized.1 rfl (by simp [OpTree.operands, OpTree.const])
    (.refl hseen))

/-- A tree that is estimated from its first source alone. -/
lemma Estimable.of_first {f : Estimate → Checked Estimate}
    (hsrcs : ∀ s ∈ t.srcs, s.Estimable ds) (hne : t.srcs ≠ []) (hone : t.op.sources ≤ 1)
    (hshape : (ofTree t).shape? = some (ofInts dt))
    (hf : ∀ x n, x.shape = ofInts ds → x.flops = .num n → Returns .arithmetic (f x)
      (fun i => i.shape = ofInts dt ∧ i.flops = .num (n + t.cost)))
    (heq : ∀ seen : Estimated, seen.find? t = none → (ofTree t).estimate seen = do
      let (x, seen) ← estimateFirst seen t.srcs
      let i ← f x
      pure (i, (t, i) :: seen)) : (ofTree t).Estimable dt := by
  refine .of_new hshape fun {seen} hseen hnone => ?_
  rw [heq seen hnone]
  refine (estimateFirst_returns hsrcs hne hseen).bind fun x _ hx => ?_
  obtain ⟨hx, hcovers, n, hn, hgrows⟩ := hx
  refine (hf _ n hx hn).bind fun i _ hi => ?_
  refine .ok (.of_operands hnone hshape hi.1 hi.2 ?_ hgrows)
  rwa [OpTree.operands, max_eq_left hone]

lemma Estimable.reduce {r : ReduceOp} (h : s.Estimable ds) :
    (apply (.reduce r) (.shape (ofInts dt)) [s]).Estimable dt := by
  refine .of_first (t := { op := .reduce r, arg := .shape (ofInts dt), srcs := [s] })
    (f := fun x => do return { ← x.charge with shape := ofInts dt })
    (forall_mem_singleton.2 h) (by simp) (Nat.zero_le _) rfl (fun x n hx hn => ?_)
    fun seen hnone => ?_
  · refine (charge_returns hx hn).bind fun i _ hi => .ok ⟨rfl, ?_⟩
    have hcount : firstCount [s] = ds.prod := firstCount_eq h.shape
    rw [hi.2, ← hcount]
    rfl
  · rw [ofTree, estimate, hnone]
    simp

lemma Estimable.of_combine (hsrcs : ∀ s ∈ t.srcs, s.Estimable ds) (hlen : 2 ≤ t.srcs.length)
    (hcost : t.cost = firstCount t.srcs) (hshape : (ofTree t).shape? = some (ofInts ds))
    (heq : ∀ seen : Estimated, seen.find? t = none → (ofTree t).estimate seen = do
      let (xs, seen) ← estimateAll seen t.srcs
      let i ← Estimate.combine t.op xs
      pure (i, (t, i) :: seen)) : (ofTree t).Estimable ds := by
  have hne : t.srcs ≠ [] := fun h => by simp [h] at hlen
  refine .of_new hshape fun {seen} hseen hnone => ?_
  rw [heq seen hnone]
  refine (estimateAll_returns hsrcs hseen).bind fun xs _ hxs => ?_
  obtain ⟨hshapes, hlen', hcovers, ns, hns, hgrows⟩ := hxs
  refine (combine_returns hshapes hns (hlen' ▸ hlen)).bind fun i _ hi => ?_
  refine .ok (.of_operands hnone hshape hi.1 ?_ ?_ hgrows)
  · rw [hi.2, hcost, firstCount_eq (firstShape?_of_estimable hsrcs hne)]
  · exact fun s hs => hcovers s (mem_of_mem_take hs)

lemma Over.estimable {leaf : Source → Prop} (h : Over Op.Fed leaf s)
    (hl : ∀ l, leaf l → l.Estimable ds) : s.Estimable ds := by
  induction h with
  | leaf h => exact hl _ h
  | @apply op arg srcs he hne hfed _ ih =>
    have hfirst := firstShape?_of_estimable ih hne
    cases op with
    | unary u =>
      have hshape : (ofTree { op := .unary u, arg, srcs }).shape? = some (ofInts ds) := hfirst
      by_cases hcast : ∃ e bitcast, u = .cast ∧ arg = .cast e bitcast
      · -- a cast is not charged
        obtain ⟨e, bitcast, rfl, rfl⟩ := hcast
        refine .of_first (f := fun x => pure { x with element := e }) ih hne le_rfl hshape
          (fun x n hx hn => .ok ⟨hx, hn.trans (congrArg _ (add_zero n).symm)⟩)
          fun seen hnone => ?_
        rw [ofTree, estimate, hnone]
        simp
      · refine .of_first (t := { op := .unary u, arg, srcs }) ih hne le_rfl hshape
          (fun x n hx hn => (charge_returns hx hn).weaken fun i hi => ⟨hi.1, ?_⟩)
          fun seen hnone => ?_
        · rw [hi.2, ← firstCount_eq hfirst]
          unfold OpTree.cost
          split <;> simp_all
        rw [ofTree, estimate, hnone]
        cases u with
        | cast =>
          cases arg with
          | cast e bitcast => exact (hcast ⟨e, bitcast, rfl, rfl⟩).elim
          | _ => rfl
        | _ => rfl
    | binary b =>
      refine .of_combine (t := { op := .binary b, arg, srcs }) ih hfed rfl hfirst
        fun seen hnone => ?_
      rw [ofTree, estimate, hnone]
      rfl
    | ternary b =>
      have htwo : 2 ≤ srcs.length := (by decide : 2 ≤ 3).trans hfed
      refine .of_combine (t := { op := .ternary b, arg, srcs }) ih htwo rfl hfirst
        fun seen hnone => ?_
      rw [ofTree, estimate, hnone]
      rfl
    | reduce | movement | load | buffer => cases he

end Source

/-- The tree is charged for its subtrees, each of them once however often it occurs. -/
theorem OpTree.estimate_once {t : OpTree} {ds : List Int} (h : (ofTree t).Estimable ds) :
    Returns .arithmetic t.estimate (fun i => i.shape = ofInts ds ∧ ∃ seen : Estimated,
      seen.Sound ∧ seen.Covers (ofTree t) ∧ (∀ e ∈ seen, e.1 ∈ t.trees) ∧
      i.flops = .num (seen.map (·.1.cost)).sum) := by
  refine (h.returns ⟨by simp, .nil, by simp⟩).bind fun r _ hr => .ok ⟨hr.shape, r.2, ?_⟩
  obtain ⟨n, hn, hsound, new, hnew, htrees, rfl⟩ := hr.flops
  obtain rfl : r.2 = new := hnew.trans (append_nil _)
  exact ⟨hsound, hr.covers, htrees, hn⟩

/-- The sizes of a layout without elements overflow before the zero is met. -/
theorem hollow_overflows : ∃ l, Layout.ofShape (ofInts [2 ^ 32, 2 ^ 32, 0]) = .ok l ∧
    l.size = .ok 0 ∧
    OpTree.estimate { op := .reduce .sum, arg := .shape (ofInts [1, 1, 1]), srcs :=
      [.apply (.buffer .mem) (.mem { slot := 1, element := .int8, layout := l }) []] } =
        .error .arithmetic :=
  ⟨_, rfl, rfl, rfl⟩

end LazyTensor
