import RippleCarry.Bus
import RippleCarry.Gate
/-!
# Emitting gates

`Emit α` describes a step of construction: given an allocator, it hands back a value, the gates it
placed in order, and the allocator afterwards. Steps compose by running one after the other and
listing their gates one after the other, so a step does not depend on what was placed before it.
-/

namespace RippleCarry

/-- Hands out consecutive ids, wrapping past the largest. -/
structure Allocator where
  next : UInt64
deriving DecidableEq, Repr

/-- What a step of construction leaves. -/
structure Emitted (α : Type) where
  value : α
  gates : List Gate
  allocator : Allocator

def Emit (α : Type) := Allocator → Emitted α

namespace Emit

variable {α β : Type}

def pure (value : α) : Emit α := fun alloc => ⟨value, [], alloc⟩

def bind (m : Emit α) (f : α → Emit β) : Emit β := fun alloc =>
  let first := m alloc
  let second := f first.value first.allocator
  ⟨second.value, first.gates ++ second.gates, second.allocator⟩

/-- Changes the value and leaves the gates as they are. -/
def map (f : α → β) (m : Emit α) : Emit β := fun alloc =>
  let r := m alloc
  ⟨f r.value, r.gates, r.allocator⟩

instance : Monad Emit where
  pure := Emit.pure
  bind := Emit.bind
  map := Emit.map

@[simp] theorem pure_apply (value : α) (alloc : Allocator) :
    (Pure.pure value : Emit α) alloc = ⟨value, [], alloc⟩ := rfl

@[simp] theorem bind_apply (m : Emit α) (f : α → Emit β) (alloc : Allocator) :
    (m >>= f) alloc = ⟨(f (m alloc).value (m alloc).allocator).value,
      (m alloc).gates ++ (f (m alloc).value (m alloc).allocator).gates,
      (f (m alloc).value (m alloc).allocator).allocator⟩ := rfl

@[simp] theorem map_apply (f : α → β) (m : Emit α) (alloc : Allocator) :
    (f <$> m) alloc = ⟨f (m alloc).value, (m alloc).gates, (m alloc).allocator⟩ := rfl

instance : LawfulMonad Emit :=
  LawfulMonad.mk' Emit (fun _ => rfl) (fun _ _ => rfl) (fun _ _ _ => by funext alloc; simp)
    (fun _ _ => rfl) (fun _ _ => rfl) (fun _ _ => rfl) (fun _ _ => by funext alloc; simp)

/-- A new signal. -/
def fresh : Emit Signal := fun alloc => ⟨⟨alloc.next⟩, [], ⟨alloc.next + 1⟩⟩

/-- Places one gate. -/
def place (gate : Gate) : Emit Unit := fun alloc => ⟨(), [gate], alloc⟩

/-! ## Primary signals -/

/-- New signals. -/
def freshList : Nat → Emit (List Signal)
  | 0 => return []
  | n + 1 => do
    let s ← fresh
    (s :: ·) <$> freshList n

/-- New constant nets, 0 before 1. -/
def constants : Emit Constants := do
  let zero ← fresh
  let one ← fresh
  return ⟨zero, one⟩

/-- A bus on new signals. -/
def bus (width : Nat) (signed : Bool) : Emit Bus :=
  (⟨·, signed⟩) <$> freshList width

/-! ## Gates on new outputs -/

/-- The two outputs of an adder. -/
structure SumCarry where
  sum : Signal
  carry : Signal
deriving DecidableEq, Repr

def halfAdder (a b : Signal) : Emit SumCarry := do
  let sum ← fresh
  let carry ← fresh
  place (.halfAdder a b sum carry)
  return ⟨sum, carry⟩

def or2 (a b : Signal) : Emit Signal := do
  let out ← fresh
  place (.or2 a b out)
  return out

def inverter (a : Signal) : Emit Signal := do
  let out ← fresh
  place (.not a out)
  return out

/-- Adds three bits with two half adders, whose carries are never both set, and an OR. -/
def fullAdder (a b carryIn : Signal) : Emit SumCarry := do
  let low ← halfAdder a b
  let high ← halfAdder low.sum carryIn
  let carry ← or2 low.carry high.carry
  return ⟨high.sum, carry⟩

end Emit
end RippleCarry
