import Mathlib.Logic.Function.Basic
import BadIo.Alignment
import BadIo.Machine

namespace BadIo.UniqueFunction

/-- What `unique_function` asks of a type of callables. -/
structure CallableType where
  id : ℕ
  size : ℕ
  alignLog : ℕ
  nothrowMove : Bool
  size_pos : 0 < size
  deriving DecidableEq

def CallableType.align (ty : CallableType) : ℕ := 2 ^ ty.alignLog

/-- Objects are named by `ι`, and `F` are the functions that can be pointed to. -/
inductive Block (ι F : Type) where
  | object (name : ι)
  | tmpBuf
  | heap (k : ℕ)
  | code (f : F)
  deriving DecidableEq

structure Pointer (ι F : Type) where
  block : Block ι F
  address : ℕ
  deriving DecidableEq

/-- There are two tables for each type, one for callables on the heap. -/
structure VTable where
  ty : CallableType
  heap : Bool
  deriving DecidableEq

inductive CallFn where
  | object (ty : CallableType)
  | function
  deriving DecidableEq

structure VirtualState (ι F : Type) where
  vtable : Option VTable := none
  call : Option CallFn := none
  data : Option (Pointer ι F) := none
  deriving DecidableEq

/-- 64 bytes, aligned to 64: three words of state, and 40 bytes of storage for a small callable.
-/
structure Object (ι F : Type) where
  base : ℕ
  state : VirtualState ι F := {}
  deriving DecidableEq

def sizeofObject : ℕ := 64

def sizeofVirtualState : ℕ := 24

def Object.storage {ι F : Type} (o : Object ι F) : ℕ := o.base + sizeofVirtualState

def Object.storageEnd {ι F : Type} (o : Object ι F) : ℕ := o.base + sizeofObject

/-- A living callable; it has no value once it has been moved from. -/
structure Slot (V : Type) where
  address : ℕ
  ty : CallableType
  value : Option V

inductive Callable (V F : Type) where
  | object (ty : CallableType) (value : V)
  | function (f : F)
  deriving DecidableEq

inductive Event (V F : Type) where
  | ran (c : Callable V F)
  | isSet (b : Bool)
  deriving DecidableEq

/-- Each block holds at most one callable. -/
structure State (ι V F : Type) where
  objects : ι → Option (Object ι F)
  memory : Block ι F → Option (Slot V)
  history : List (Event V F)

variable {ι V F : Type} [DecidableEq ι] [DecidableEq F]

namespace State

def put (s : State ι V F) (b : Block ι F) (slot : Option (Slot V)) : State ι V F :=
  { s with memory := Function.update s.memory b slot }

def setObject (s : State ι V F) (n : ι) (o : Option (Object ι F)) : State ι V F :=
  { s with objects := Function.update s.objects n o }

def record (s : State ι V F) (e : Event V F) : State ι V F := { s with history := s.history ++ [e] }

/-- The callable that a pointer taken for one of type `ty` points to. -/
def deref (s : State ι V F) (p : Pointer ι F) (ty : CallableType) : Option (Slot V) :=
  (s.memory p.block).filter fun slot => slot.address = p.address ∧ slot.ty = ty

/-- The bytes that may hold a callable: the storage of an object, or the temporary buffer. -/
def fits (s : State ι V F) (tmpBuf : ℕ) (p : Pointer ι F) (size : ℕ) : Bool :=
  match p.block with
  | .object n => match s.objects n with
    | some o => o.storage ≤ p.address && p.address + size ≤ o.storageEnd
    | none => false
  | .tmpBuf => tmpBuf ≤ p.address && p.address + size ≤ tmpBuf + sizeofObject
  | .heap _ => true
  | .code _ => false

def constructAt (s : State ι V F) (tmpBuf : ℕ) (p : Pointer ι F) (ty : CallableType)
    (value : Option V) : Option (State ι V F) :=
  if (s.memory p.block).isNone ∧ s.fits tmpBuf p ty.size ∧ ty.align ∣ p.address then
    some (s.put p.block (some ⟨p.address, ty, value⟩))
  else none

end State

def Block.isHeap : Block ι F → Bool
  | .heap _ => true
  | _ => false

/-- Leaves the source moved from. -/
def VTable.moveConstruct (vt : VTable) (tmpBuf : ℕ) (s : State ι V F) (lhs rhs : Pointer ι F) :
    Option (State ι V F) := do
  let slot ← s.deref rhs vt.ty
  let s ← s.constructAt tmpBuf lhs vt.ty slot.value
  some (s.put rhs.block (some { slot with value := none }))

/-- `std::destroy_at`, or `delete` for callables on the heap. -/
def VTable.destroy (vt : VTable) (s : State ι V F) (data : Pointer ι F) : Option (State ι V F) := do
  let _ ← s.deref data vt.ty
  if vt.heap = data.block.isHeap then some (s.put data.block none) else none

namespace State

def setData (s : State ι V F) (n : ι) (data : Option (Pointer ι F)) : Option (State ι V F) := do
  let o ← s.objects n
  some (s.setObject n (some { o with state := { o.state with data } }))

def swapVtable (s : State ι V F) (first second : ι) : Option (State ι V F) := do
  let f ← s.objects first
  let g ← s.objects second
  let s := s.setObject first (some { f with state := { f.state with vtable := g.state.vtable } })
  let g ← s.objects second
  some (s.setObject second (some { g with state := { g.state with vtable := f.state.vtable } }))

def swapCall (s : State ι V F) (first second : ι) : Option (State ι V F) := do
  let f ← s.objects first
  let g ← s.objects second
  let s := s.setObject first (some { f with state := { f.state with call := g.state.call } })
  let g ← s.objects second
  some (s.setObject second (some { g with state := { g.state with call := f.state.call } }))

def swapData (s : State ι V F) (first second : ι) : Option (State ι V F) := do
  let f ← s.objects first
  let g ← s.objects second
  let s := s.setObject first (some { f with state := { f.state with data := g.state.data } })
  let g ← s.objects second
  some (s.setObject second (some { g with state := { g.state with data := f.state.data } }))

end State

/-- `data` lies in the object's own storage; null does not. -/
def Object.isInline (o : Object ι F) : Bool :=
  match o.state.data with
  | some p => o.storage ≤ p.address && p.address < o.storageEnd
  | none => false

/-- Both callables inline: they change places through the temporary buffer. -/
def swapInline (tmpBuf : ℕ) (s : State ι V F) (first second : ι) : Option (State ι V F) := do
  let f ← s.objects first
  let g ← s.objects second
  let vf ← f.state.vtable
  let vg ← g.state.vtable
  let p ← f.state.data
  let q ← g.state.data
  -- counted from the beginning of the object, as the temporary buffer has its size
  let firstIndex := sizeofVirtualState + (p.address - f.storage)
  let secondIndex := sizeofVirtualState + (q.address - g.storage)
  let tmp : Pointer ι F := ⟨.tmpBuf, tmpBuf + firstIndex⟩
  let inFirst : Pointer ι F := ⟨.object first, f.storage + secondIndex - sizeofVirtualState⟩
  let inSecond : Pointer ι F := ⟨.object second, g.storage + firstIndex - sizeofVirtualState⟩
  let s ← vf.moveConstruct tmpBuf s tmp p
  let s ← vf.destroy s p
  let s ← vg.moveConstruct tmpBuf s inFirst q
  let s ← vg.destroy s q
  let s ← vf.moveConstruct tmpBuf s inSecond tmp
  let s ← vf.destroy s tmp
  let s ← s.setData first (some inFirst)
  let s ← s.setData second (some inSecond)
  let s ← s.swapVtable first second
  s.swapCall first second

/-- Only the first callable inline: it goes into the second object's storage. -/
def swapInlineOther (tmpBuf : ℕ) (s : State ι V F) (first second : ι) : Option (State ι V F) := do
  let f ← s.objects first
  let g ← s.objects second
  let vf ← f.state.vtable
  let p ← f.state.data
  let firstIndex := p.address - f.storage
  let inSecond : Pointer ι F := ⟨.object second, g.storage + firstIndex⟩
  let s ← vf.moveConstruct tmpBuf s inSecond p
  let s ← vf.destroy s p
  let s ← s.setData first g.state.data
  let s ← s.setData second (some inSecond)
  let s ← s.swapVtable first second
  s.swapCall first second

/-- Neither callable inline: only the state words are exchanged. -/
def swapOther (s : State ι V F) (first second : ι) : Option (State ι V F) := do
  let s ← s.swapVtable first second
  let s ← s.swapCall first second
  s.swapData first second

/-- The body of `swap`, which calls itself when only the second callable is inline. -/
def swapBody (tmpBuf : ℕ) (again : State ι V F → ι → ι → Option (State ι V F))
    (s : State ι V F) (first second : ι) : Option (State ι V F) := do
  let f ← s.objects first
  let g ← s.objects second
  if f.isInline && g.isInline then swapInline tmpBuf s first second
  else if f.isInline then swapInlineOther tmpBuf s first second
  else if g.isInline then again s second first
  else swapOther s first second

/-- With the arguments exchanged the first callable is inline and the second is not, so
the inner call makes no further one. -/
def swap (tmpBuf : ℕ) : State ι V F → ι → ι → Option (State ι V F) :=
  swapBody tmpBuf (swapBody tmpBuf fun _ _ _ => none)

inductive Op (ι V F : Type) where
  | construct (n : ι)
  | emplace (n : ι) (ty : CallableType) (value : V)
  | fromPointer (n : ι) (f : F)
  | moveConstruct (n m : ι)
  | moveAssign (n m : ι)
  | swap (n m : ι)
  /-- The callable leaves itself with the value `after`. -/
  | call (n : ι) (after : V)
  | toBool (n : ι)
  | destroy (n : ι)

/-- Where the implementation puts things: a new object, a new heap block, the temporary
buffer of `swap`. -/
structure Placement where
  base : ℕ
  heapBlock : ℕ
  heapAddress : ℕ
  tmpBuf : ℕ

def emplace (w : Placement) (s : State ι V F) (n : ι) (ty : CallableType) (value : V) :
    Option (State ι V F) := do
  let o : Object ι F := ⟨w.base, {}⟩
  let s := s.setObject n (some o)
  -- moving an object must not throw, so only such callables are stored inline
  let pointer :=
    if ty.nothrowMove then
      stdAlign ty.align ty.size o.storage (sizeofObject - sizeofVirtualState)
    else none
  match pointer with
  | some address =>
    let p : Pointer ι F := ⟨.object n, address⟩
    let s ← s.constructAt w.tmpBuf p ty (some value)
    some (s.setObject n (some ⟨w.base, ⟨some ⟨ty, false⟩, some (.object ty), some p⟩⟩))
  | none =>
    let p : Pointer ι F := ⟨.heap w.heapBlock, w.heapAddress⟩
    let s ← s.constructAt w.tmpBuf p ty (some value)
    some (s.setObject n (some ⟨w.base, ⟨some ⟨ty, true⟩, some (.object ty), some p⟩⟩))

/-- `operator()`, which goes through `call` without a check. -/
def call (s : State ι V F) (n : ι) (after : V) : Option (State ι V F) := do
  let o ← s.objects n
  match o.state.call, o.state.data with
  | some (.object ty), some p =>
    let slot ← s.deref p ty
    let value ← slot.value
    some ((s.put p.block (some { slot with value := some after })).record (.ran (.object ty value)))
  | some .function, some ⟨.code f, _⟩ => some (s.record (.ran (.function f)))
  | _, _ => none

def destroy (s : State ι V F) (n : ι) : Option (State ι V F) := do
  let o ← s.objects n
  match o.state.vtable, o.state.data with
  | some vt, some p =>
    let s ← vt.destroy s p
    some (s.setObject n none)
  | _, _ => some (s.setObject n none)

/-- `address` is where the functions are.  `none` is where the code would construct over a living
callable, outside its storage or misaligned, or would read, run or destroy what is not a living
callable of the type it expects. -/
def step (address : F → ℕ) (s : State ι V F) : Op ι V F × Placement → Option (State ι V F)
  | (.construct n, w) => some (s.setObject n (some ⟨w.base, {}⟩))
  | (.emplace n ty value, w) => emplace w s n ty value
  | (.fromPointer n f, w) =>
    some (s.setObject n (some ⟨w.base, ⟨none, some .function, some ⟨.code f, address f⟩⟩⟩))
  | (.moveConstruct n m, w) => swap w.tmpBuf (s.setObject n (some ⟨w.base, {}⟩)) n m
  | (.moveAssign n m, w) => swap w.tmpBuf s n m
  | (.swap n m, w) => swap w.tmpBuf s n m
  | (.call n after, _) => call s n after
  | (.toBool n, _) => do
    let o ← s.objects n
    some (s.record (.isSet o.state.call.isSome))
  | (.destroy n, _) => destroy s n

def machine (address : F → ℕ) : Machine (State ι V F) (Op ι V F × Placement) := ⟨step address⟩

def State.init : State ι V F := ⟨fun _ => none, fun _ => none, []⟩

def InStorage (base address : ℕ) : Prop :=
  base + sizeofVirtualState ≤ address ∧ address < base + sizeofObject

instance (base address : ℕ) : Decidable (InStorage base address) :=
  inferInstanceAs (Decidable (_ ∧ _))

/-- A new object is aligned, and no heap block in use and no function begins in its
storage. -/
structure ObjectPlaced (address : F → ℕ) (s : State ι V F) (base : ℕ) : Prop where
  aligned : sizeofObject ∣ base
  offHeap : ∀ k slot, s.memory (.heap k) = some slot → ¬ InStorage base slot.address
  offCode : ∀ f, ¬ InStorage base (address f)

/-- A new heap block is aligned for its type and begins in the storage of no object. -/
structure HeapPlaced (s : State ι V F) (ty : CallableType) (w : Placement) : Prop where
  new : s.memory (.heap w.heapBlock) = none
  aligned : ty.align ∣ w.heapAddress
  apart : ∀ m o, s.objects m = some o → ¬ InStorage o.base w.heapAddress
  offNew : ¬ InStorage w.base w.heapAddress

/-- What the language and the allocator promise for an operation. -/
def Placed (address : F → ℕ) (s : State ι V F) : Op ι V F × Placement → Prop
  | (.construct _, w) => ObjectPlaced address s w.base
  | (.emplace _ ty _, w) => ObjectPlaced address s w.base ∧ HeapPlaced s ty w
  | (.fromPointer _ _, w) => ObjectPlaced address s w.base
  | (.moveConstruct _ _, w) => ObjectPlaced address s w.base ∧ sizeofObject ∣ w.tmpBuf
  | (.moveAssign _ _, w) => sizeofObject ∣ w.tmpBuf
  | (.swap _ _, w) => sizeofObject ∣ w.tmpBuf
  | _ => True

end BadIo.UniqueFunction
