import Mathlib.Data.List.Basic
import Mathlib.Data.Int.Order.Basic
import BadIo.Threads

namespace BadIo.Semaphore

/-- The members of the semaphore and its executor, with the history of the calls. -/
structure Shared (F : Type*) where
  count : ℤ
  functions : List F
  /-- What the executor was given; `none` is an empty `function_storage`. -/
  posted : List (Option F)
  acquired : ℕ
  updates : ℤ
  /-- The assertion of `release` has failed, and stopped the program. -/
  aborted : Bool
  deriving DecidableEq

inductive Local (F : Type*) where
  | idle
  | posting (f : F)
  | enqueueing (f : F)
  | comparing (old : ℤ)
  | draining (i old : ℤ)
  | handing (f : Option F) (i old : ℤ)
  deriving DecidableEq

/-- The atomic actions; a call begins with its first access to the counter.  The waiter queue is
a bag: `try_dequeue` hands out some enqueued completion, or returns `false`. -/
inductive Act (F : Type*) where
  | asyncAcquire (f : F)
  | tryAcquire
  | release (update : ℤ)
  | compareExchange
  | enqueue
  | tryDequeue (could : Option F)
  | post
  deriving DecidableEq

variable {F : Type*}

/-- The head of the loop of `try_acquire`, with the value last read. -/
def tryLoop (old : ℤ) : Local F := if old ≤ 0 then .idle else .comparing old

def releaseLoop (i old : ℤ) : Local F := if i < -old then .draining i old else .idle

variable [DecidableEq F]

/-- One atomic action; `ndebug` says whether `assert` is compiled away. -/
def step (ndebug : Bool) (g : Shared F) (l : Local F) (a : Act F) :
    Option (Shared F × Local F) :=
  if g.aborted then none else
  match l, a with
  | .idle, .asyncAcquire f =>
    let value := g.count - 1
    some ({ g with count := value }, if 0 ≤ value then .posting f else .enqueueing f)
  | .posting f, .post => some ({ g with posted := g.posted ++ [some f] }, .idle)
  | .enqueueing f, .enqueue => some ({ g with functions := g.functions ++ [f] }, .idle)
  | .idle, .tryAcquire => some (g, tryLoop g.count)
  | .comparing old, .compareExchange =>
    if g.count = old then
      some ({ g with count := old - 1, acquired := g.acquired + 1 }, .idle)
    else
      -- the failed exchange has loaded the counter into `old`
      some (g, tryLoop g.count)
  | .idle, .release update =>
    let old := g.count
    -- waiters are posted only if the counter is now above zero
    some ({ g with count := old + update, updates := g.updates + update },
      if 0 < old + update then releaseLoop 0 old else .idle)
  | .draining i old, .tryDequeue (some f) =>
    if f ∈ g.functions then
      some ({ g with functions := g.functions.erase f }, .handing (some f) i old)
    else none
  | .draining i old, .tryDequeue none =>
    -- the assertion on `could`
    if ndebug then some (g, .handing none i old) else some ({ g with aborted := true }, .idle)
  | .handing f i old, .post =>
    some ({ g with posted := g.posted ++ [f] }, releaseLoop (i + 1) old)
  | _, _ => none

inductive Trans (ndebug : Bool) (g : Shared F) : Local F → Act F → Shared F → Local F → Prop where
  | acquire (f : F) (h : 0 ≤ g.count - 1) :
    Trans ndebug g .idle (.asyncAcquire f) { g with count := g.count - 1 } (.posting f)
  | wait (f : F) (h : g.count - 1 < 0) :
    Trans ndebug g .idle (.asyncAcquire f) { g with count := g.count - 1 } (.enqueueing f)
  | post (f : F) : Trans ndebug g (.posting f) .post { g with posted := g.posted ++ [some f] } .idle
  | enqueue (f : F) :
    Trans ndebug g (.enqueueing f) .enqueue { g with functions := g.functions ++ [f] } .idle
  | load : Trans ndebug g .idle .tryAcquire g (tryLoop g.count)
  | exchange : Trans ndebug g (.comparing g.count) .compareExchange
      { g with count := g.count - 1, acquired := g.acquired + 1 } .idle
  | reload (old : ℤ) (h : g.count ≠ old) :
    Trans ndebug g (.comparing old) .compareExchange g (tryLoop g.count)
  | release (update : ℤ) (h : 0 < g.count + update) : Trans ndebug g .idle (.release update)
      { g with count := g.count + update, updates := g.updates + update } (releaseLoop 0 g.count)
  | raise (update : ℤ) (h : g.count + update ≤ 0) : Trans ndebug g .idle (.release update)
      { g with count := g.count + update, updates := g.updates + update } .idle
  | dequeue (i old : ℤ) (f : F) (h : f ∈ g.functions) :
    Trans ndebug g (.draining i old) (.tryDequeue (some f))
      { g with functions := g.functions.erase f } (.handing (some f) i old)
  | miss (i old : ℤ) (h : ndebug = true) :
    Trans ndebug g (.draining i old) (.tryDequeue none) g (.handing none i old)
  | abort (i old : ℤ) (h : ndebug = false) :
    Trans ndebug g (.draining i old) (.tryDequeue none) { g with aborted := true } .idle
  | hand (f : Option F) (i old : ℤ) : Trans ndebug g (.handing f i old) .post
      { g with posted := g.posted ++ [f] } (releaseLoop (i + 1) old)

theorem step_trans {ndebug : Bool} {g g' : Shared F} {l l' : Local F} {a : Act F}
    (h : step ndebug g l a = some (g', l')) : Trans ndebug g l a g' l' := by
  unfold step at h
  split at h
  · cases h
  split at h
  · cases h
    split
    · exact .acquire _ ‹_›
    · exact .wait _ (by omega)
  · cases h; exact .post _
  · cases h; exact .enqueue _
  · cases h; exact .load
  · split at h
    · subst_vars; cases h; exact .exchange
    · cases h; exact .reload _ ‹_›
  · cases h
    split
    · exact .release _ ‹_›
    · exact .raise _ (by omega)
  · split at h
    · cases h; exact .dequeue _ _ _ ‹_›
    · cases h
  · split at h
    · cases h; exact .miss _ _ ‹_›
    · cases h; exact .abort _ _ (Bool.eq_false_iff.mpr ‹_›)
  · cases h; exact .hand _ _ _
  · cases h

theorem trans_step {ndebug : Bool} {g g' : Shared F} {l l' : Local F} {a : Act F}
    (hg : g.aborted = false) (h : Trans ndebug g l a g' l') :
    step ndebug g l a = some (g', l') := by
  cases h with
  | acquire f h | wait f h => simp [step, hg]; omega
  | release u h | raise u h => simp [step, hg]; omega
  | reload old h | dequeue i old f h | miss i old h | abort i old h => simp [step, hg, h]
  | _ => simp [step, hg]

abbrev machine (ι F : Type*) [DecidableEq ι] [DecidableEq F] (ndebug : Bool) :
    Machine (Config ι (Shared F) (Local F)) (ι × Act F) :=
  interleave (step ndebug)

def Shared.new (desired : ℤ) : Shared F where
  count := desired
  functions := []
  posted := []
  acquired := 0
  updates := 0
  aborted := false

def initial {ι : Type*} (desired : ℤ) : Config ι (Shared F) (Local F) :=
  ⟨Shared.new desired, fun _ => .idle⟩

def Shared.granted (g : Shared F) : List F := g.posted.filterMap id

/-- Completions posted to the executor and successful calls of `try_acquire`. -/
def Shared.grants (g : Shared F) : ℕ := g.granted.length + g.acquired

end BadIo.Semaphore
