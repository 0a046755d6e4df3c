import LazyTensor.Proofs.Graph.Run

/-! The tensors of a graph by id, and what stays the same while a graph grows: a tensor that is in
it keeps its operation, its layout, its base and its contents, and new ones come behind it. -/
namespace LazyTensor
open Checked List

/-- Two states of one tensor, in the second of which it may have lost its operation. -/
structure Tensor.Trimmed (t t' : Tensor) : Prop where
  device : t'.device = t.device
  layout : t'.layout = t.layout
  kind : t'.kind = t.kind
  base : t'.base = t.base

lemma Tensor.Trimmed.refl (t : Tensor) : t.Trimmed t := ⟨rfl, rfl, rfl, rfl⟩

lemma Tensor.Trimmed.shape {t t' : Tensor} (h : t.Trimmed t') : t'.shape = t.shape := by
  unfold Tensor.shape
  rw [h.layout]

/-- Two states of one tensor. Its links, its bindings and its element type may differ. -/
structure Tensor.Alike (t t' : Tensor) : Prop where
  device : t'.device = t.device
  layout : t'.layout = t.layout
  kind : t'.kind = t.kind
  op : t'.op = t.op
  realized : t'.realized = t.realized
  base : t'.base = t.base

namespace Tensor.Alike
variable {t t' t'' : Tensor}

lemma refl (t : Tensor) : t.Alike t := ⟨rfl, rfl, rfl, rfl, rfl, rfl⟩

lemma trans (h : t.Alike t') (h' : t'.Alike t'') : t.Alike t'' :=
  ⟨h'.device.trans h.device, h'.layout.trans h.layout, h'.kind.trans h.kind, h'.op.trans h.op,
    h'.realized.trans h.realized, h'.base.trans h.base⟩

lemma trimmed (h : t.Alike t') : t.Trimmed t' := ⟨h.device, h.layout, h.kind, h.base⟩

lemma shape (h : t.Alike t') : t'.shape = t.shape := h.trimmed.shape

end Tensor.Alike

namespace Graph
variable {g g' g'' : Graph} {id b x : Nat} {t tb : Tensor}
variable {f : Tensor → Tensor}

lemma tensor_eq_ok : g.tensor id = .ok t ↔ g.find? id = some t := by
  unfold tensor
  split <;> simp_all

lemma named_eq_ok : g.named id = .ok t ↔ g.find? id = some t := by
  unfold named
  split <;> simp_all [fail]

lemma baseOf_eq_ok : g.baseOf id = .ok b ↔ ∃ t, g.find? id = some t ∧ t.base.getD id = b := by
  simp only [baseOf, bind_eq_ok, tensor_eq_ok, pure_eq_ok]

lemma baseTensor_eq_ok : g.baseTensor id = .ok tb ↔
    ∃ t, g.find? id = some t ∧ g.find? (t.base.getD id) = some tb := by
  simp only [baseTensor, bind_eq_ok, baseOf_eq_ok, tensor_eq_ok]
  constructor
  · rintro ⟨_, ⟨t, ht, rfl⟩, hb⟩
    exact ⟨t, ht, hb⟩
  · rintro ⟨t, ht, hb⟩
    exact ⟨_, ⟨t, ht, rfl⟩, hb⟩

lemma isRealized_eq_ok {r : Bool} : g.isRealized id = .ok r ↔
    ∃ t tb, g.find? id = some t ∧ g.find? (t.base.getD id) = some tb ∧
    tb.realized.isSome = r := by
  simp only [isRealized, realized?, bind_eq_ok, baseTensor_eq_ok, pure_eq_ok]
  constructor
  · rintro ⟨_, ⟨tb, ⟨t, ht, hb⟩, rfl⟩, hr⟩
    exact ⟨t, tb, ht, hb, hr⟩
  · rintro ⟨t, tb, ht, hb, hr⟩
    exact ⟨_, ⟨tb, ⟨t, ht, hb⟩, rfl⟩, hr⟩

lemma shape_eq_ok {s : Shape} : g.shape id = .ok s ↔ ∃ t, g.find? id = some t ∧
    t.shape = s := by
  simp only [shape, bind_eq_ok, tensor_eq_ok, pure_eq_ok]

lemma pending?_eq_ok {op : OpTree} : g.pending? id = .ok (some op) ↔
    g.isRealized id = .ok false ∧ ∃ t, g.find? id = some t ∧ t.op = some op := by
  simp only [pending?, bind_eq_ok]
  constructor
  · rintro ⟨r, hr, h⟩
    cases r with
    | true => simp [pure_eq_ok] at h
    | false =>
      simp only [Bool.false_eq_true, if_false, bind_eq_ok, tensor_eq_ok, pure_eq_ok] at h
      exact ⟨hr, h⟩
  · rintro ⟨hr, t, ht, hop⟩
    refine ⟨false, hr, ?_⟩
    simp only [Bool.false_eq_true, if_false, bind_eq_ok, tensor_eq_ok, pure_eq_ok]
    exact ⟨t, ht, hop⟩

def Has (g : Graph) (id : Nat) : Prop := ∃ t, g.find? id = some t

lemma lt_of_find? (h : g.find? id = some t) : id < g.tensors.length := by
  unfold find? at h
  rcases hi : g.tensors[id]? with _ | o
  · simp [hi] at h
  · exact (List.getElem?_eq_some_iff.1 hi).1

lemma find?_set (h : id < g.tensors.length) :
    ({ g with tensors := g.tensors.set id (some t) } : Graph).find? x
      = if x = id then some t else g.find? x := by
  unfold find?
  by_cases hx : x = id
  · subst hx
    simp [h]
  · rw [if_neg hx]
    simp [getElem?_set_ne (Ne.symm hx)]

lemma find?_append : ({ g with tensors := g.tensors ++ [some t] } : Graph).find? x
      = if x = g.tensors.length then some t else g.find? x := by
  unfold find?
  rcases Nat.lt_trichotomy x g.tensors.length with hx | hx | hx
  · rw [if_neg (by omega)]
    simp [getElem?_append_left hx]
  · subst hx
    simp
  · rw [if_neg (by omega)]
    rw [getElem?_eq_none (by simp; omega), getElem?_eq_none (by omega)]

lemma update_eq_ok : g.update id f = .ok g' ↔
    ∃ t, g.find? id = some t ∧ { g with tensors := g.tensors.set id (some (f t)) } = g' := by
  simp only [update, bind_eq_ok, tensor_eq_ok, pure_eq_ok]

lemma find?_update (h : g.update id f = .ok g') :
    g'.find? x = (g.find? x).map fun t => if x = id then f t else t := by
  obtain ⟨t, ht, rfl⟩ := update_eq_ok.1 h
  rw [find?_set (lt_of_find? ht)]
  split
  · next hx =>
    rw [hx, ht]
    rfl
  · exact Option.map_id'.symm

/-- Everything of a graph is still there, and more may have come. -/
structure Extends (g g' : Graph) : Prop where
  config : g'.config = g.config
  devices : g'.devices = g.devices
  length : g.tensors.length ≤ g'.tensors.length
  keeps : ∀ {id t}, g.find? id = some t → ∃ t', g'.find? id = some t' ∧ t.Alike t'
  /-- No tensor takes the place of one that was dropped. -/
  back : ∀ {id t'}, id < g.tensors.length → g'.find? id = some t' →
    ∃ t, g.find? id = some t ∧ t.Alike t'
  cache : ∀ e ∈ g.cache, e ∈ g'.cache

namespace Extends

lemma refl (g : Graph) : g.Extends g :=
  ⟨rfl, rfl, le_rfl, fun h => ⟨_, h, .refl _⟩, fun _ h => ⟨_, h, .refl _⟩, fun _ h => h⟩

lemma same (hconfig : g'.config = g.config) (hdevices : g'.devices = g.devices)
    (ht : g'.tensors = g.tensors) (hc : g'.cache = g.cache) : g.Extends g' := by
  have hfind : ∀ x, g'.find? x = g.find? x := fun x => by rw [find?, find?, ht]
  exact ⟨hconfig, hdevices, by rw [ht], fun h => ⟨_, (hfind _).trans h, .refl _⟩,
    fun _ h => ⟨_, (hfind _).symm.trans h, .refl _⟩, fun e he => hc ▸ he⟩

lemma trans (h : g.Extends g') (h' : g'.Extends g'') : g.Extends g'' := by
  refine ⟨h'.config.trans h.config, h'.devices.trans h.devices, h.length.trans h'.length, ?_, ?_,
    fun e he => h'.cache e (h.cache e he)⟩
  · intro id t ht
    obtain ⟨t', ht', ha⟩ := h.keeps ht
    obtain ⟨t'', ht'', ha'⟩ := h'.keeps ht'
    exact ⟨t'', ht'', ha.trans ha'⟩
  · intro id t'' hid ht''
    obtain ⟨t', ht', ha'⟩ := h'.back (hid.trans_le h.length) ht''
    obtain ⟨t, ht, ha⟩ := h.back hid ht'
    exact ⟨t, ht, ha.trans ha'⟩

lemma has (h : g.Extends g') (hx : g.Has x) : g'.Has x := by
  obtain ⟨t, ht⟩ := hx
  obtain ⟨t', ht', _⟩ := h.keeps ht
  exact ⟨t', ht'⟩

lemma isRealized (h : g.Extends g') {r : Bool} (hr : g.isRealized x = .ok r) :
    g'.isRealized x = .ok r := by
  rw [isRealized_eq_ok] at hr ⊢
  obtain ⟨t, tb, ht, htb, rfl⟩ := hr
  obtain ⟨t', ht', ha⟩ := h.keeps ht
  obtain ⟨tb', htb', hab⟩ := h.keeps htb
  exact ⟨t', tb', ht', by rw [ha.base]; exact htb', by rw [hab.realized]⟩

end Extends

lemma Extends.update (hf : ∀ t : Tensor, t.Alike (f t)) (h : g.update id f = .ok g') :
    g.Extends g' := by
  have hfind := fun x => find?_update (x := x) h
  have halike (x : Nat) (t : Tensor) : t.Alike (if x = id then f t else t) := by
    split
    · exact hf t
    · exact .refl t
  obtain ⟨t, ht, rfl⟩ := update_eq_ok.1 h
  refine ⟨rfl, rfl, by simp, fun {x tx} htx => ?_, fun {x tx} _ htx => ?_, fun _ he => he⟩
  · exact ⟨_, by rw [hfind, htx]; rfl, halike x tx⟩
  · rw [hfind] at htx
    obtain ⟨t0, ht0, rfl⟩ := Option.map_eq_some_iff.1 htx
    exact ⟨t0, ht0, halike x t0⟩

/-- The id was given to a tensor that is not in the graph any more. -/
def Dropped (g : Graph) (id : Nat) : Prop := id < g.tensors.length ∧ g.find? id = none

/-- Ids of dropped tensors are not used again. -/
structure Ages (g g' : Graph) : Prop where
  length : g.tensors.length ≤ g'.tensors.length
  back : ∀ {id}, id < g.tensors.length → g'.Has id → g.Has id

namespace Ages

lemma refl (g : Graph) : g.Ages g := ⟨le_rfl, fun _ h => h⟩

lemma trans (h : g.Ages g') (h' : g'.Ages g'') : g.Ages g'' :=
  ⟨h.length.trans h'.length, fun hid hx => h.back hid (h'.back (hid.trans_le h.length) hx)⟩

lemma dropped (h : g.Ages g') (hx : g.Dropped x) : g'.Dropped x := by
  refine ⟨hx.1.trans_le h.length, Option.eq_none_iff_forall_not_mem.2 fun t ht => ?_⟩
  obtain ⟨t0, ht0⟩ := h.back hx.1 ⟨t, ht⟩
  cases hx.2.symm.trans ht0

end Ages

lemma Extends.ages (h : g.Extends g') : g.Ages g' := by
  refine ⟨h.length, fun hid ⟨t', ht'⟩ => ?_⟩
  obtain ⟨t, ht, _⟩ := h.back hid ht'
  exact ⟨t, ht⟩

/-- Links between tensors lead to tensors of the graph, and a base knows its views. -/
structure Linked (g : Graph) : Prop where
  children : ∀ {id t}, g.find? id = some t → ∀ c ∈ t.children, g.Has c
  views : ∀ {id t}, g.find? id = some t → ∀ v ∈ t.views, ∃ tv, g.find? v = some tv ∧
    tv.base = some id
  listed : ∀ {id t b}, g.find? id = some t → t.base = some b →
    ∃ tb, g.find? b = some tb ∧ id ∈ tb.views

lemma Linked.same (hg : g.Linked) (h : g'.tensors = g.tensors) : g'.Linked := by
  have hfind : g'.find? = g.find? := funext fun x => by rw [find?, find?, h]
  refine ⟨?_, ?_, ?_⟩ <;> simp only [Has, hfind]
  exacts [hg.children, hg.views, hg.listed]

lemma Linked.update (hg : g.Linked) (hf : ∀ t : Tensor, t.Alike (f t))
    (hviews : ∀ t : Tensor, (f t).views = t.views)
    (hchildren : ∀ t : Tensor, ∀ c ∈ (f t).children, c ∈ t.children ∨ g.Has c)
    (h : g.update id f = .ok g') : g'.Linked := by
  have he := Extends.update hf h
  -- every tensor has its old views, and children of the graph
  have hold : ∀ {x t'}, g'.find? x = some t' →
      ∃ t, g.find? x = some t ∧ t.Alike t' ∧ t'.views = t.views ∧
      ∀ c ∈ t'.children, g.Has c := by
    intro x t' ht'
    rw [find?_update h] at ht'
    obtain ⟨t, ht, rfl⟩ := Option.map_eq_some_iff.1 ht'
    refine ⟨t, ht, ?_⟩
    split
    · exact ⟨hf t, hviews t, fun c hc => (hchildren t c hc).elim (hg.children ht c) fun h => h⟩
    · exact ⟨.refl t, rfl, hg.children ht⟩
  refine ⟨fun ht' c hc => ?_, fun ht' v hv => ?_, fun {x t' b} ht' hb => ?_⟩
  · obtain ⟨t, _, _, _, hc'⟩ := hold ht'
    exact he.has (hc' c hc)
  · obtain ⟨t, ht, _, hv', _⟩ := hold ht'
    obtain ⟨tv, htv, hbase⟩ := hg.views ht v (hv' ▸ hv)
    obtain ⟨tv', htv', ha⟩ := he.keeps htv
    exact ⟨tv', htv', ha.base.trans hbase⟩
  · obtain ⟨t, ht, ha, _⟩ := hold ht'
    obtain ⟨tb, htb, hmem⟩ := hg.listed ht (ha.base ▸ hb)
    obtain ⟨tb', htb', _⟩ := he.keeps htb
    obtain ⟨tb0, htb0, _, hv, _⟩ := hold htb'
    cases htb.symm.trans htb0
    exact ⟨tb', htb', hv ▸ hmem⟩

end Graph

end LazyTensor
