import LazyTensor.Proofs.Graph.Perform

/-! Every sound graph has values: they follow from the older ones, tensor by tensor. -/
namespace LazyTensor
open Checked List Source Option

namespace Reading
variable {R : Reading} {val val' : Nat → R.Value}

mutual

lemma source_congr {s : Source} (h : ∀ b ∈ s.buffers, val b = val' b) :
    R.source val s = R.source val' s := by
  cases s with
  | buffer b => exact h b (by simp)
  | apply op arg srcs =>
    rw [source, source, sources_congr (fun b hb => h b (by rw [buffers]; exact hb))]

lemma sources_congr {ss : List Source} (h : ∀ b ∈ buffersAll ss, val b = val' b) :
    R.sources val ss = R.sources val' ss := by
  cases ss with
  | nil => rfl
  | cons s ss =>
    rw [sources, sources, source_congr (fun b hb => h b (by simp [hb])),
      sources_congr (fun b hb => h b (by simp [hb]))]

end

lemma own_congr {id : Nat} {tree : OpTree} (h : ∀ b ∈ tree.buffers, val b = val' b) :
    R.own val id tree = R.own val' id tree := by
  have hs : R.sources val tree.srcs = R.sources val' tree.srcs := sources_congr h
  have hb : tree.buffers.map val = tree.buffers.map val' := map_congr_left h
  unfold own
  split
  · rw [h _ (by simp)]
  · rw [h _ (by simp)]
  · rw [hb]
  · rw [hs]

section
variable (R) (g : Graph) (trees : Nat → Option OpTree) (given : Nat → R.Value)

/-- The value of a tensor if its operation is the one that `trees` says, at most `n` steps deep. -/
def evalWithin : Nat → Nat → R.Value
  | 0, id => given id
  | n + 1, id =>
    match g.find? id with
    | none => given id
    | some t =>
      match t.base, trees id with
      | some b, _ => R.look t.layout (evalWithin n b)
      | none, some tree => R.own (evalWithin n) id tree
      | none, none => given id

def eval (id : Nat) : R.Value := R.evalWithin g trees given (id + 1) id

end

section
variable {g : Graph} {trees : Nat → Option OpTree} {given : Nat → R.Value}
  (hbase : ∀ {id t b}, g.find? id = some t → t.base = some b → b < id)
  (htrees : ∀ {id tree}, trees id = some tree → ∀ b ∈ tree.buffers, b < id)
variable {id : Nat} {t : Tensor}
include hbase htrees

lemma evalWithin_eq {n m : Nat} (hn : id < n) (hm : id < m) :
    R.evalWithin g trees given n id = R.evalWithin g trees given m id := by
  induction n generalizing m id with
  | zero => omega
  | succ n ih =>
    cases m with
    | zero => omega
    | succ m =>
      rw [evalWithin, evalWithin]
      cases ht : g.find? id with
      | none => rfl
      | some t =>
        dsimp only
        cases hb : t.base with
        | some b =>
          have := hbase ht hb
          dsimp only
          rw [ih (m := m) (by omega) (by omega)]
        | none =>
          cases htree : trees id with
          | none => rfl
          | some _ =>
            refine own_congr fun b hb => ?_
            have := htrees htree b hb
            exact ih (by omega) (by omega)

lemma eval_view {b : Nat} (ht : g.find? id = some t) (hb : t.base = some b) :
    R.eval g trees given id = R.look t.layout (R.eval g trees given b) := by
  have := hbase ht hb
  rw [eval, evalWithin, ht]
  dsimp only
  rw [hb]
  dsimp only
  rw [evalWithin_eq hbase htrees (by omega) (Nat.lt_succ_self b)]
  rfl

omit hbase htrees in
lemma eval_given (ht : g.find? id = some t) (hb : t.base = none) (htree : trees id = none) :
    R.eval g trees given id = given id := by
  rw [eval, evalWithin, ht]
  dsimp only
  rw [hb, htree]

lemma eval_own {tree : OpTree} (ht : g.find? id = some t) (hb : t.base = none)
    (htree : trees id = some tree) :
    R.eval g trees given id = R.own (R.eval g trees given) id tree := by
  rw [eval, evalWithin, ht]
  dsimp only
  rw [hb, htree]
  refine own_congr fun b hbm => ?_
  have := htrees htree b hbm
  exact evalWithin_eq hbase htrees (by omega) (Nat.lt_succ_self b)

end

end Reading

def deepest : List Nat → Nat
  | [] => 0
  | d :: ds => max d (deepest ds)

def Reading.depth : Reading where
  Value := Nat
  typed := False
  exact := False
  Fits _ _ := True
  elementwise _ _ ds := 1 + deepest ds
  reduce _ _ d := d
  move _ d := d
  look _ d := d
  load _ _ ds := deepest ds
  Accepts _ _ := True
  fits_move h := h.elim
  fits_elementwise h := h.elim
  elementwise_congr _ := rfl
  reduce_congr _ := rfl
  move_congr _ := rfl
  move_trivial _ _ := rfl
  move_merge _ _ := rfl
  move_elementwise _ := by simp
  look_whole _ _ := rfl
  look_move _ _ := rfl
  look_contiguous _ _ := rfl
  reduce_same _ := rfl
  reduce_permute _ _ := rfl
  expand_permute _ _ := rfl
  reshape_permute _ _ _ _ := rfl
  permute_ones _ _ _ := rfl
  reduce_cut _ _ _ _ := rfl

namespace Reading
variable {g : Graph}
variable {R : Reading} {id : Nat} {tree : OpTree}

def recorded (g : Graph) (id : Nat) : Option OpTree :=
  (g.find? id).bind fun t =>
    t.op.or ((g.cache.find? (fun e => e.2 == id)).map (fun e => e.1.op))

lemma recorded_eq {t : Tensor} (hg : R.Sound g) (ht : g.find? id = some t)
    (h : Records g id t tree) : recorded g id = some tree := by
  unfold recorded
  rw [ht]
  obtain hop | ⟨key, hk, rfl⟩ := h
  · simp [hop]
  · cases hop : t.op with
    | some tree => simp [hop, (hg.keyed hk ht).op tree hop]
    | none =>
      cases hf : g.cache.find? (fun e => e.2 == id) with
      | none =>
        have := find?_eq_none.1 hf _ hk
        simp at this
      | some e =>
        have hmem := mem_of_find?_eq_some hf
        have hid : e.2 = id := by simpa using find?_some hf
        cases hid
        simp [hop, hg.once hmem hk]

lemma recorded_lt (hg : R.Sound g) (h : recorded g id = some tree) :
    ∀ b ∈ tree.buffers, b < id := by
  obtain ⟨t, ht, h⟩ := bind_eq_some_iff.1 h
  obtain hop | ⟨_, h⟩ := or_eq_some_iff.1 h
  · exact fun b hb => ((hg.at_id ht).sources tree hop b hb).1
  · obtain ⟨⟨key, id'⟩, hf, rfl⟩ := map_eq_some_iff.1 h
    have hid : id' = id := by simpa using find?_some hf
    subst hid
    exact (hg.keyed (mem_of_find?_eq_some hf) ht).sources

lemma exists_depth (hg : depth.Sound g) : ∃ val, depth.Denotes g val := by
  have hbase : ∀ {id t b}, g.find? id = some t → t.base = some b → b < id :=
    fun ht hb => ((hg.at_id ht).base _ hb).1
  have htrees : ∀ {id tree}, recorded g id = some tree → ∀ b ∈ tree.buffers, b < id :=
    fun h => recorded_lt hg h
  refine ⟨depth.eval g (recorded g) fun _ => (0 : Nat), fun ht hb => eval_view hbase htrees ht hb,
    fun ht hb hr _ => eval_own hbase htrees ht hb (recorded_eq hg ht hr), fun hty => hty.elim⟩

end Reading

end LazyTensor
