import LazyTensor.Error

/-!
Device memory. A buffer is a handle to a block of bytes; several handles may share one block,
and a write through one of them is seen through all.
-/
namespace LazyTensor

structure Buffer where
  element : Element
  size : Nat
  device : Option String := none
  block : Nat
  deriving DecidableEq, Repr

structure Memory where
  blocks : List (List UInt8) := []
  deriving Repr

namespace Memory

def bytes (m : Memory) (b : Buffer) : List UInt8 := m.blocks.getD b.block []

def place (m : Memory) (element : Element) (size : Nat) (contents : List UInt8) :
    Buffer × Memory :=
  ({ element, size, block := m.blocks.length }, { blocks := m.blocks ++ [contents] })

def zeros (m : Memory) (size : Nat) (element : Element) : Checked (Buffer × Memory) := do
  let count ← Checked.mulNat size element.itemSize
  if count < 9223372036854775808 then pure (m.place element size (List.replicate count 0))
  else .error .capacity

def ofValues (m : Memory) (values : List Double) (element : Element) : Buffer × Memory :=
  m.place element values.length (element.encode values)

def ofBytes (m : Memory) (contents : List UInt8) (element : Element) :
    Fallible (Buffer × Memory) :=
  if contents.length % element.itemSize = 0 then
    .ok (m.place element (contents.length / element.itemSize) contents)
  else fail (.partialElement element.itemSize contents.length)

def read (m : Memory) (b : Buffer) : List Double := b.element.decode (m.bytes b)

def write (m : Memory) (b : Buffer) (values : List Double) : Memory :=
  let old := m.bytes b
  let new := (b.element.encode values).take old.length
  { blocks := m.blocks.set b.block (new ++ old.drop new.length) }

/-- The contents as values of a type that has to be the buffer's own. -/
def readAs (m : Memory) (b : Buffer) (t : Scalar) : Fallible (List Double) :=
  if t.element = b.element then .ok (t.decode (m.bytes b))
  else fail (.wrongElement b.element t.element)

end Memory

def Buffer.shares (a b : Buffer) : Bool := a.block == b.block

end LazyTensor
