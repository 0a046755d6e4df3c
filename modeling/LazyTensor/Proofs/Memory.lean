import Mathlib.Order.Lattice
import LazyTensor.Memory

/-! Blocks of memory. A handle is good for a block that has room for all of its elements; blocks are
added and overwritten, but they never change their length. -/
namespace LazyTensor
open List

def Buffer.room (b : Buffer) : Nat := b.size * b.element.itemSize

namespace Memory
variable {m m' : Memory} {b c : Buffer} {contents : List UInt8}
variable {m'' : Memory} {writes : List (Buffer × List UInt8)} {values : List Double}

/-- The handle leads to a block with room for exactly its elements. -/
structure Holds (m : Memory) (b : Buffer) : Prop where
  there : b.block < m.blocks.length
  whole : (m.bytes b).length = b.room

def grown (m : Memory) (contents : List UInt8) : Memory := { blocks := m.blocks ++ [contents] }

def put (m : Memory) (b : Buffer) (contents : List UInt8) : Memory :=
  { blocks := m.blocks.set b.block contents }

lemma bytes_grown (h : b.block < m.blocks.length) : (m.grown contents).bytes b = m.bytes b := by
  simp [bytes, grown, getD_eq_getElem?_getD, getElem?_append_left h]

lemma bytes_grown_last (h : b.block = m.blocks.length) : (m.grown contents).bytes b = contents := by
  simp [bytes, grown, h]

lemma bytes_grown_of_ne (h : b.block ≠ m.blocks.length) :
    (m.grown contents).bytes b = m.bytes b := by
  rcases lt_or_gt_of_ne h with hlt | hgt
  · exact bytes_grown hlt
  · have hle : (m.grown contents).blocks.length ≤ b.block := by simp [grown]; omega
    simp [bytes, getD_eq_getElem?_getD, getElem?_eq_none hle, getElem?_eq_none hgt.le]

lemma bytes_put (h : b.block < m.blocks.length) : (m.put b contents).bytes b = contents := by
  simp [bytes, put, h]

lemma bytes_put_of_ne (h : b.block ≠ c.block) : (m.put b contents).bytes c = m.bytes c := by
  simp [bytes, put, getD_eq_getElem?_getD, getElem?_set_ne h]

lemma bytes_congr (h : b.block = c.block) : m.bytes b = m.bytes c := by
  rw [bytes, bytes, h]

lemma length_grown : (m.grown contents).blocks.length = m.blocks.length + 1 := by
  simp [grown]

lemma length_put : (m.put b contents).blocks.length = m.blocks.length := by
  simp [put]

lemma put_grown {contents' : List UInt8} (h : b.block = m.blocks.length) :
    (m.grown contents).put b contents' = m.grown contents' := by
  simp [grown, put, h]

def Lasts (m m' : Memory) : Prop := m.blocks.length ≤ m'.blocks.length ∧
  ∀ b : Buffer, b.block < m.blocks.length → (m'.bytes b).length = (m.bytes b).length

lemma Lasts.refl (m : Memory) : m.Lasts m := ⟨le_rfl, fun _ _ => rfl⟩

lemma Lasts.trans (h : m.Lasts m') (h' : m'.Lasts m'') : m.Lasts m'' :=
  ⟨h.1.trans h'.1, fun b hb => (h'.2 b (hb.trans_le h.1)).trans (h.2 b hb)⟩

lemma Holds.lasts (hb : m.Holds b) (h : m.Lasts m') : m'.Holds b :=
  ⟨hb.there.trans_le h.1, (h.2 b hb.there).trans hb.whole⟩

lemma lasts_grown : m.Lasts (m.grown contents) :=
  ⟨by simp [grown], fun _ hb => by rw [bytes_grown hb]⟩

lemma lasts_put (h : contents.length = (m.bytes b).length) : m.Lasts (m.put b contents) := by
  refine ⟨by simp [put], fun c hc => ?_⟩
  by_cases hbc : b.block = c.block
  · rw [← bytes_congr hbc, bytes_put (hbc ▸ hc), h, bytes_congr hbc]
  · rw [bytes_put_of_ne hbc]

def Adds (m m' : Memory) : Prop := m.blocks.length ≤ m'.blocks.length ∧
  ∀ b : Buffer, b.block < m.blocks.length → m'.bytes b = m.bytes b

lemma Adds.refl (m : Memory) : m.Adds m := ⟨le_rfl, fun _ _ => rfl⟩

lemma Adds.trans (h : m.Adds m') (h' : m'.Adds m'') : m.Adds m'' :=
  ⟨h.1.trans h'.1, fun b hb => (h'.2 b (hb.trans_le h.1)).trans (h.2 b hb)⟩

lemma Adds.lasts (h : m.Adds m') : m.Lasts m' := ⟨h.1, fun b hb => by rw [h.2 b hb]⟩

lemma adds_grown : m.Adds (m.grown contents) := ⟨by simp [grown], fun _ hb => bytes_grown hb⟩

def putAll (m : Memory) (writes : List (Buffer × List UInt8)) : Memory :=
  writes.foldl (fun m w => m.put w.1 w.2) m

lemma length_putAll : (m.putAll writes).blocks.length = m.blocks.length := by
  induction writes generalizing m with
  | nil => rfl
  | cons w writes ih => exact ih.trans length_put

lemma bytes_putAll_of_ne (h : ∀ w ∈ writes, w.1.block ≠ b.block) :
    (m.putAll writes).bytes b = m.bytes b := by
  induction writes generalizing m with
  | nil => rfl
  | cons w writes ih =>
    exact (ih fun w' hw' => h w' (mem_cons_of_mem w hw')).trans
      (bytes_put_of_ne (h w mem_cons_self))

lemma bytes_putAll (h : writes.Pairwise fun w w' => w.1.block ≠ w'.1.block)
    (hw : (b, contents) ∈ writes) (hb : b.block < m.blocks.length) :
    (m.putAll writes).bytes b = contents := by
  induction writes generalizing m with
  | nil => cases hw
  | cons w writes ih =>
    obtain ⟨hhead, htail⟩ := pairwise_cons.1 h
    rcases mem_cons.1 hw with rfl | hw
    · exact (bytes_putAll_of_ne fun w' hw' => (hhead w' hw').symm).trans (bytes_put hb)
    · exact ih htail hw (by rw [length_put]; exact hb)

lemma write_eq_put (m : Memory) (b : Buffer) (values : List Double) : m.write b values = m.put b
    ((b.element.encode values).take (m.bytes b).length ++
      (m.bytes b).drop ((b.element.encode values).take (m.bytes b).length).length) := rfl

lemma lasts_write : m.Lasts (m.write b values) := by
  rw [write_eq_put]
  refine lasts_put ?_
  rw [length_append, length_drop, length_take]
  omega

lemma write_of_length (h : (b.element.encode values).length = (m.bytes b).length) :
    m.write b values = m.put b (b.element.encode values) := by
  rw [write_eq_put, take_of_length_le h.le, h, drop_length, append_nil]

end Memory

end LazyTensor
