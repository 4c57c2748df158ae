import Mathlib.Data.List.Basic
import Mathlib.Data.Int.Order.Basic

namespace BadIo.Native

/-- The union member `value`: raw storage, or an object whose contents are `none` when
they were copied out of raw storage. -/
inductive Slot (T : Type*) where
  | raw
  | live (contents : Option T)
  deriving DecidableEq

inductive Effect where
  | constructValue
  | readLive
  | readRaw
  | destroyValue
  deriving DecidableEq

/-- The error word, and the union that may hold a value; the active member is read off the error
word. -/
structure Result (T : Type*) where
  first : ℤ
  second : Slot T
  deriving DecidableEq

variable {T : Type*}

def Slot.isLive : Slot T → Bool
  | .raw => false
  | .live _ => true

def Slot.contents : Slot T → Option T
  | .raw => none
  | .live c => c

/-- The union's destructor has an empty body, so it destroys no member. -/
def Slot.destroyAt (_ : Slot T) : List Effect := []

namespace Result

def error (r : Result T) : ℤ := r.first

def hasValue (r : Result T) : Bool := r.first != 0

def hasError (r : Result T) : Bool := !(r.first != 0)

/-- `none`: the assertion of `value` fails, or there is nothing to read. -/
def value (r : Result T) : Option T := if r.hasValue then r.second.contents else none

/-- For error zero the union's constructor runs, which constructs no member. -/
def fromError (error : ℤ) : Result T where
  first := error
  second := .raw

def fromValue (value : T) : Result T where
  first := 0
  second := .live (some value)

/-- The move constructor, and the copy constructor with the same test and the same read. -/
def construct (other : Result T) : Result T × List Effect :=
  if other.hasValue then
    (⟨other.first, .live other.second.contents⟩,
      [if other.second.isLive then .readLive else .readRaw, .constructValue])
  else (⟨other.first, .raw⟩, [])

/-- The destructor; a trivially destructible value type has the defaulted one. -/
def destroy (trivial : Bool) (r : Result T) : List Effect :=
  if !trivial && r.hasValue then r.second.destroyAt else []

end Result

/-- The specialisation for `void` and empty types is the error word alone. -/
structure ResultVoid where
  value : ℤ
  deriving DecidableEq

namespace ResultVoid

def hasValue (r : ResultVoid) : Bool := r.value != 0

def hasError (r : ResultVoid) : Bool := !r.hasValue

def error (r : ResultVoid) : ℤ := r.value

def fromError (error : ℤ) : ResultVoid := ⟨error⟩

def fromValue : ResultVoid := ⟨0⟩

@[simp] theorem hasError_fromValue : fromValue.hasError = true := rfl

theorem hasError_fromError {e : ℤ} (he : e ≠ 0) : (fromError e).hasError = false := by
  simp [hasError, hasValue, fromError, he]

end ResultVoid

/-- What a result is built from: a value, or an error code, which is not zero. -/
inductive Source (T : Type*) where
  | value (v : T)
  | error (e : ℤ) (nonzero : e ≠ 0)

def Source.build : Source T → Result T
  | .value v => .fromValue v
  | .error e _ => .fromError e

def Source.isValue : Source T → Bool
  | .value _ => true
  | .error _ _ => false

/-- `n` further results, each constructed from the one before; the last one comes first. -/
def chain (r : Result T) : ℕ → List (Result T)
  | 0 => [r]
  | n + 1 => ((chain r n).headD r).construct.1 :: chain r n

def chainEnd (r : Result T) (n : ℕ) : Result T := (chain r n).headD r

/-- A sum of a value and a non-zero error, and the lifetimes that go with it. -/
structure IsSum (trivial : Bool) (src : Source T) (n : ℕ) : Prop where
  hasValue : (chainEnd src.build n).hasValue = src.isValue
  hasError : (chainEnd src.build n).hasError = !src.isValue
  value : ∀ v, src = .value v → (chainEnd src.build n).value = some v
  error : ∀ e he, src = .error e he → (chainEnd src.build n).error = e
  reads : ∀ r ∈ chain src.build n, .readRaw ∉ r.construct.2
  destroyed : ∀ r ∈ chain src.build n,
    r.destroy trivial = if !trivial && r.second.isLive then [.destroyValue] else []

theorem construct_first (r : Result T) : r.construct.1.first = r.first := by
  unfold Result.construct
  split <;> rfl

theorem chainEnd_succ (r : Result T) (n : ℕ) :
    chainEnd r (n + 1) = (chainEnd r n).construct.1 := rfl

theorem chainEnd_first (r : Result T) (n : ℕ) : (chainEnd r n).first = r.first := by
  induction n with
  | zero => rfl
  | succ n ih => rw [chainEnd_succ, construct_first, ih]

theorem hasValue_chainEnd (src : Source T) (n : ℕ) :
    (chainEnd src.build n).hasValue = !src.isValue := by
  rw [Result.hasValue, chainEnd_first]
  cases src with
  | value v => rfl
  | error e he => simp [Source.build, Source.isValue, Result.fromError, he]

theorem mem_chain (r : Result T) (n : ℕ) : r ∈ chain r n := by
  induction n with
  | zero => exact List.mem_singleton_self r
  | succ n ih => exact List.mem_cons_of_mem _ ih

theorem construct_reads_raw {e : ℤ} (he : e ≠ 0) :
    .readRaw ∈ (Result.fromError e : Result T).construct.2 := by
  -- a move or copy of an error reads a value that was never constructed
  simp [Result.construct, Result.hasValue, Result.fromError, Slot.isLive, he]

theorem destroy_eq_nil (trivial : Bool) (r : Result T) : r.destroy trivial = [] := by
  unfold Result.destroy Slot.destroyAt
  split <;> rfl

/-- Every chain breaks the lifetime rules: from an error by a read of raw storage, from a
value by leaving it undestroyed. -/
theorem lifetimes_broken (n : ℕ) :
    (∀ e : ℤ, e ≠ 0 → ∃ r ∈ chain (Result.fromError e : Result T) n, .readRaw ∈ r.construct.2) ∧
      ∀ v : T, ∃ r ∈ chain (Result.fromValue v) n,
        r.second.isLive = true ∧ r.destroy false = [] :=
  ⟨fun _ he => ⟨_, mem_chain _ n, construct_reads_raw he⟩,
    fun _ => ⟨_, mem_chain _ n, rfl, destroy_eq_nil false _⟩⟩

structure IsSumVoid (src : Source Unit) (r : ResultVoid) : Prop where
  hasValue : r.hasValue = src.isValue
  hasError : r.hasError = !src.isValue
  error : ∀ e he, src = .error e he → r.error = e

def Source.buildVoid : Source Unit → ResultVoid
  | .value _ => .fromValue
  | .error e _ => .fromError e

theorem hasValue_buildVoid (src : Source Unit) : src.buildVoid.hasValue = !src.isValue := by
  cases src with
  | value v => rfl
  | error e he => simp [Source.buildVoid, Source.isValue, ResultVoid.fromError,
      ResultVoid.hasValue, he]

/-- Neither specialisation is a sum, whatever it is built from and however often it is
moved or copied. -/
theorem not_isSum (T : Type*) :
    (∀ (trivial : Bool) (src : Source T) (n : ℕ), ¬ IsSum trivial src n) ∧
      ∀ src : Source Unit, ¬ IsSumVoid src src.buildVoid := by
  constructor
  · intro trivial src n h
    have hv := h.hasValue
    rw [hasValue_chainEnd] at hv
    exact absurd hv (by simp)
  · intro src h
    have hv := h.hasValue
    rw [hasValue_buildVoid] at hv
    exact absurd hv (by simp)

/-- A value put into a result is reported as an error. -/
theorem fromValue_not_isSum : ¬ IsSum true (.value 5 : Source ℕ) 0 := by
  intro h
  exact absurd h.hasValue (by decide)

end BadIo.Native
