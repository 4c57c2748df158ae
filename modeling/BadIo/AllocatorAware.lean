import Mathlib.Data.List.Basic

namespace BadIo.AllocatorAware

abbrev Pointer := ℕ

inductive Event where
  | allocate (ptr : Pointer) (n : ℕ)
  | deallocate (ptr : Pointer) (n : ℕ)
  | construct (ptr : Pointer)
  | destroy (ptr : Pointer)
  deriving DecidableEq

def Event.isDeallocate (ptr : Pointer) : Event → Bool
  | .deallocate p _ => p = ptr
  | _ => false

abbrev Ledger := List Event

namespace Ledger

/-- The allocator hands out `ptr`; the size argument defaults to one object. -/
def allocateObject (l : Ledger) (ptr : Pointer) : Ledger := l ++ [.allocate ptr 1]

/-- The size argument defaults to zero here. -/
def deallocateObject (l : Ledger) (ptr : Pointer) : Ledger := l ++ [.deallocate ptr 0]

/-- `ptr` is what the allocator hands out, `throws` whether the constructor does; `false`
means that `new_object` is left by that exception. -/
def newObject (l : Ledger) (ptr : Pointer) (throws : Bool) : Ledger × Bool :=
  if throws then ((l.allocateObject ptr).deallocateObject ptr, false)
  else (l.allocateObject ptr ++ [.construct ptr], true)

def deleteObject (l : Ledger) (ptr : Pointer) : Ledger :=
  Ledger.deallocateObject (l ++ [.destroy ptr]) ptr

def constructed (l : Ledger) (ptr : Pointer) : ℕ := l.count (.construct ptr)

def destroyed (l : Ledger) (ptr : Pointer) : ℕ := l.count (.destroy ptr)

def deallocated (l : Ledger) (ptr : Pointer) : ℕ := l.countP (Event.isDeallocate ptr)

def Alive (l : Ledger) (ptr : Pointer) : Prop := l.constructed ptr = l.destroyed ptr + 1

instance (l : Ledger) (ptr : Pointer) : Decidable (l.Alive ptr) :=
  inferInstanceAs (Decidable (_ = _))

section Counts

variable (l : Ledger) (p q : Pointer)

theorem constructed_newObject :
    (l.newObject p false).1.constructed q = l.constructed q + if p = q then 1 else 0 := by
  by_cases h : p = q
  · simp [newObject, allocateObject, constructed, h]
  · simp [newObject, allocateObject, constructed, h]

theorem destroyed_newObject (throws : Bool) :
    (l.newObject p throws).1.destroyed q = l.destroyed q := by
  cases throws with
  | false => simp [newObject, allocateObject, destroyed]
  | true => simp [newObject, allocateObject, deallocateObject, destroyed]

theorem deallocated_newObject : (l.newObject p false).1.deallocated q = l.deallocated q := by
  simp [newObject, allocateObject, deallocated, Event.isDeallocate]

theorem constructed_deleteObject : (l.deleteObject p).constructed q = l.constructed q := by
  simp [deleteObject, deallocateObject, constructed]

theorem destroyed_deleteObject :
    (l.deleteObject p).destroyed q = l.destroyed q + if p = q then 1 else 0 := by
  by_cases h : p = q
  · simp [deleteObject, deallocateObject, destroyed, h]
  · simp [deleteObject, deallocateObject, destroyed, h]

theorem deallocated_deleteObject :
    (l.deleteObject p).deallocated q = l.deallocated q + if p = q then 1 else 0 := by
  by_cases h : p = q
  · simp [deleteObject, deallocateObject, deallocated, Event.isDeallocate, h]
  · simp [deleteObject, deallocateObject, deallocated, Event.isDeallocate, h]

end Counts

end Ledger

end BadIo.AllocatorAware
