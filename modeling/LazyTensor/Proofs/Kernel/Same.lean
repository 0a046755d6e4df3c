import LazyTensor.Kernel.Basic
import LazyTensor.Proofs.OpTree

/-! Trees, layouts and buffers are compared by what they are made of. -/
namespace LazyTensor

theorem SymInt.beq_comm (a b : SymInt) : (a == b) = (b == a) :=
  BEq.comm (a := a.key) (b := b.key)

instance : ReflBEq SymInt := ⟨fun {a} => beq_self_eq_true a.key⟩

theorem list_beq_comm {α : Type} [BEq α] (h : ∀ a b : α, (a == b) = (b == a))
    (xs ys : List α) :
    (xs == ys) = (ys == xs) := by
  induction xs generalizing ys with
  | nil => cases ys <;> rfl
  | cons x xs ih =>
    cases ys with
    | nil => rfl
    | cons y ys => rw [List.cons_beq_cons, List.cons_beq_cons, h, ih]

theorem View.beq_comm (a b : View) : (a == b) = (b == a) := by
  change (_ && _ && _ && _ && _) = (_ && _ && _ && _ && _)
  rw [list_beq_comm SymInt.beq_comm, BEq.comm (a := a.strides), BEq.comm (a := a.offset),
    BEq.comm (a := a.mask), BEq.comm (a := a.contiguous)]

instance : ReflBEq View where
  rfl {a} := by
    change (_ && _ && _ && _ && _) = true
    simp only [BEq.rfl, Bool.and_self]

theorem Layout.beq_comm (a b : Layout) : (a == b) = (b == a) := by
  change (_ && _) = (_ && _)
  rw [View.beq_comm, list_beq_comm View.beq_comm]

instance : ReflBEq Layout where
  rfl {a} := by
    change (_ && _) = true
    simp only [BEq.rfl, Bool.and_self]

theorem Double.same_comm (a b : Double) : a.same b = b.same a :=
  BEq.comm (a := a.bits) (b := b.bits)

theorem Double.same_refl (a : Double) : a.same a = true := beq_self_eq_true a.bits

instance : ReflBEq OpArg where
  rfl {a} := by
    change a.same a = true
    cases a <;> simp [OpArg.same, Double.same_refl]

namespace Source

mutual

theorem same_refl (s : Source) : s.same s = true := by
  cases s with
  | buffer b => simp
  | apply op arg srcs => simp [sameAll_refl srcs]

theorem sameAll_refl (ss : List Source) : sameAll ss ss = true := by
  cases ss with
  | nil => rfl
  | cons s ss => simp [same_refl s, sameAll_refl ss]

end

end Source

instance : ReflBEq OpTree := ⟨fun {t} => Source.same_refl (.ofTree t)⟩

theorem Slot.beq_comm (a b : Slot) : (a == b) = (b == a) := by
  cases a with
  | mem m =>
    cases b with
    | mem m' =>
      change (_ && _ && _) = (_ && _ && _)
      rw [BEq.comm (a := m.slot), BEq.comm (a := m.element), Layout.beq_comm]
    | const c | shared n s e => rfl
  | const c =>
    cases b with
    | const c' =>
      change (_ && _ && _) = (_ && _ && _)
      rw [Double.same_comm, BEq.comm (a := c.element), Layout.beq_comm]
    | mem m | shared n s e => rfl
  | shared n s e =>
    cases b with
    | shared n' s' e' =>
      change (_ && _ && _) = (_ && _ && _)
      rw [BEq.comm (a := n), BEq.comm (a := s), BEq.comm (a := e)]
    | mem m | const c => rfl

instance : ReflBEq Slot where
  rfl {a} := by
    cases a with
    | mem m => exact BEq.rfl (a := OpArg.mem m)
    | const c => exact BEq.rfl (a := OpArg.constBuf c)
    | shared n s e =>
      change (_ && _ && _) = true
      simp only [BEq.rfl, Bool.and_self]

end LazyTensor
