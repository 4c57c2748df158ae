import Mathlib.Data.List.Perm.Basic
import Mathlib.Tactic.IntervalCases
import BadIo.Async.Ioring
import BadIo.Machine
import BadIo.Uring.Dispatch

namespace BadIo.Main.ReadEverything

open Async.Ioring (Operation Value)

structure Read where
  buf : ℕ
  len : ℕ
  offset : ℕ
  deriving DecidableEq

/-- The `i`-th read; the service clamps the length to `unsigned`. -/
def read (chunkSize i : ℕ) : Read := ⟨i * chunkSize, min chunkSize (2 ^ 32 - 1), i⟩

/-- An access to what has been deleted: by a handler, by the kernel, or by `complete` to the
completion of the `i`-th read, whatever has its address by then. -/
inductive Fault where
  | counter
  | buff
  | write (i : ℕ)
  | completion (i : ℕ)
  deriving DecidableEq

variable {β : Type*}

/-- A read is in flight, then its handler is posted, then that has returned or thrown.  What
has been deleted is `none`, as are the bytes that have not been written. -/
structure State (β : Type*) where
  counter : Option (BitVec 64)
  buff : Option (ℕ → Option β)
  inFlight : List ℕ
  posted : List (ℕ × BitVec 32)
  succeeded : List ℕ
  failed : List ℕ
  results : List (ℕ × BitVec 32)
  closes : ℕ
  faults : List Fault

/-- `*counter` does not change while the loop starts the reads.  The handler of a read that
the service does not accept is never called.  `none` is the division by zero. -/
def readEverything (β : Type*) (size chunkSize : BitVec 64) (accepted : ℕ → Bool) :
    Option (State β) :=
  if chunkSize = 0 then none
  else some {
    counter := some (size / chunkSize)
    buff := some fun _ => none
    inFlight := (List.range (size / chunkSize).toNat).filter accepted
    posted := []
    succeeded := []
    failed := []
    results := []
    closes := 0
    faults := [] }

def State.handler (s : State β) (i : ℕ) : Except ℤ Value → State β
  | .error _ => { s with failed := s.failed ++ [i] }
  | .ok _ =>
    match s.counter with
    | none => { s with succeeded := s.succeeded ++ [i], faults := s.faults ++ [.counter] }
    | some counter =>
      let count := counter - 1
      if count = 0 then { s with
        counter := none
        buff := none
        succeeded := s.succeeded ++ [i]
        closes := s.closes + 1
        faults := s.faults ++ if s.buff.isSome then [] else [.buff] }
      else { s with counter := some count, succeeded := s.succeeded ++ [i] }

def Read.fill (file : ℕ → β) (r : Read) (count : ℕ) (b : ℕ → Option β) : ℕ → Option β :=
  fun p => if r.buf ≤ p ∧ p < r.buf + count then some (file (r.offset + (p - r.buf))) else b p

/-- The `k`-th of the reads in flight completes; the `k`-th of the posted handlers is called. -/
inductive Act where
  | complete (k : ℕ) (result : BitVec 32)
  | handler (k : ℕ)
  deriving DecidableEq

/-- The CQE of the `i`-th read is dispatched.  The handler is called through the user data, and
posted, if the service has `kept` it until then. -/
def State.complete (file : ℕ → β) (chunkSize : ℕ) (kept : ℕ → Bool) (s : State β) (k i : ℕ)
    (result : BitVec 32) : State β :=
  { s with
    inFlight := s.inFlight.eraseIdx k
    posted := s.posted ++ if kept i then [(i, result)] else []
    results := s.results ++ [(i, result)]
    buff := s.buff.map ((read chunkSize i).fill file result.toInt.toNat)
    faults := s.faults ++ (if s.buff.isSome ∨ result.toInt ≤ 0 then [] else [.write i]) ++
      if kept i then [] else [.completion i] }

/-- After an access to what has been deleted there are no further steps. -/
def step (file : ℕ → β) (chunkSize : ℕ) (kept : ℕ → Bool) (s : State β) (a : Act) :
    Option (State β) :=
  if s.faults ≠ [] then none
  else match a with
  | .complete k result =>
    (s.inFlight[k]?).bind fun i =>
      -- the kernel reads no more than it has been asked for
      if result.toInt ≤ (read chunkSize i).len then some (s.complete file chunkSize kept k i result)
      else none
  | .handler k => (s.posted[k]?).map fun p =>
    { s with posted := s.posted.eraseIdx k }.handler p.1 (Operation.readOperation.report p.2)

def machine (file : ℕ → β) (chunkSize : ℕ) (kept : ℕ → Bool) : Machine (State β) Act :=
  ⟨step file chunkSize kept⟩

inductive Trans (file : ℕ → β) (chunkSize : ℕ) (kept : ℕ → Bool) (s : State β) :
    Act → State β → Prop where
  | complete (k i : ℕ) (result : BitVec 32) (hi : s.inFlight[k]? = some i)
      (hlen : result.toInt ≤ (read chunkSize i).len) :
      Trans file chunkSize kept s (.complete k result) (s.complete file chunkSize kept k i result)
  | handler (k i : ℕ) (result : BitVec 32) (hi : s.posted[k]? = some (i, result)) :
      Trans file chunkSize kept s (.handler k)
        ({ s with posted := s.posted.eraseIdx k }.handler i (Operation.readOperation.report result))

variable {file : ℕ → β} {chunkSize : ℕ} {kept : ℕ → Bool} {s s₀ s' : State β} {a : Act}

theorem step_trans (h : (machine file chunkSize kept).step s a = some s') :
    s.faults = [] ∧ Trans file chunkSize kept s a s' := by
  change step file chunkSize kept s a = some s' at h
  unfold step at h
  split at h
  · cases h
  rename_i hfaults
  refine ⟨not_not.mp hfaults, ?_⟩
  cases a with
  | complete k result =>
    obtain ⟨i, hi, h⟩ := Option.bind_eq_some_iff.mp h
    split at h
    · cases h
      exact .complete k i result hi ‹_›
    · cases h
  | handler k =>
    obtain ⟨⟨i, result⟩, hi, rfl⟩ := Option.map_eq_some_iff.mp h
    exact .handler k i result hi

inductive Stage (n : ℕ) (s : State β) : Prop where
  | reading (counter : BitVec 64) (b : ℕ → Option β) (hc : s.counter = some counter)
      (hb : s.buff = some b) (hz : s.closes = 0) (hn : counter.toNat + s.succeeded.length = n)
      (hlt : 0 < n → s.succeeded.length < n)
  | done (hc : s.counter = none) (hb : s.buff = none) (hz : s.closes = 1)
      (hn : s.succeeded.length = n) (hpos : 0 < n)

/-- Every read that has been accepted is in one place, and those that have completed have kept
their handlers. -/
structure Inv (n : ℕ) (accepted kept : ℕ → Bool) (s : State β) : Prop where
  reads : (s.inFlight ++ s.posted.map Prod.fst ++ s.succeeded ++ s.failed).Perm
    ((List.range n).filter accepted)
  faults : s.faults = []
  stage : Stage n s
  kept : ∀ p ∈ s.results, kept p.1 = true

def Stopped (kept : ℕ → Bool) (s : State β) : Prop :=
  s.faults ≠ [] ∧ ∃ p ∈ s.results, kept p.1 = false

variable {n : ℕ} {accepted : ℕ → Bool} {size chunk : BitVec 64}

theorem readEverything_eq (h : readEverything β size chunk accepted = some s₀) :
    s₀ = ⟨some (size / chunk), some fun _ => none,
      (List.range (size / chunk).toNat).filter accepted, [], [], [], [], 0, []⟩ := by
  unfold readEverything at h
  split at h
  · cases h
  · exact (Option.some.inj h).symm

theorem readEverything_inv (h : readEverything β size chunk accepted = some s₀) :
    Inv (size / chunk).toNat accepted kept s₀ := by
  rw [readEverything_eq h]
  refine ⟨?_, rfl, .reading _ _ rfl rfl rfl rfl id, nofun⟩
  change ((List.range _).filter accepted ++ [] ++ [] ++ []).Perm _
  rw [List.append_nil, List.append_nil, List.append_nil]

theorem Inv.length_le (hs : Inv n accepted kept s) :
    s.inFlight.length + s.posted.length + s.succeeded.length + s.failed.length ≤ n := by
  have hl := hs.reads.length_eq
  have hle := List.length_filter_le accepted (List.range n)
  simp only [List.length_append, List.length_map, List.length_range] at hl hle
  omega

theorem Inv.reading (hs : Inv n accepted kept s) (h : 0 < s.inFlight.length + s.posted.length) :
    ∃ counter b, s.counter = some counter ∧ s.buff = some b ∧ s.closes = 0 ∧
      counter.toNat + s.succeeded.length = n ∧ s.succeeded.length < n := by
  -- while a read has still to be handled, nothing has been deleted
  have hle := hs.length_le
  cases hs.stage with
  | reading counter b hc hb hz hn hlt => exact ⟨counter, b, hc, hb, hz, hn, hlt (by omega)⟩
  | done hc hb hz hn hpos => omega

theorem count_eraseIdx {l : List ℕ} {k i : ℕ} (h : l[k]? = some i) (j : ℕ) :
    l.count j = (l.eraseIdx k).count j + [i].count j := by
  obtain ⟨hk, rfl⟩ := List.getElem?_eq_some_iff.mp h
  rw [← (List.getElem_cons_eraseIdx_perm hk).count_eq j, List.count_cons, List.count_singleton]

theorem step_inv_complete {k i : ℕ} {result : BitVec 32} (hs : Inv n accepted kept s)
    (hi : s.inFlight[k]? = some i) (hkept : kept i = true) :
    Inv n accepted kept (s.complete file chunkSize kept k i result) := by
  have hk := (List.getElem?_eq_some_iff.mp hi).1
  obtain ⟨counter, b, hc, hb, hz, hn, hlt⟩ := hs.reading (by omega)
  have hbuff : (s.complete file chunkSize kept k i result).buff =
      some ((read chunkSize i).fill file result.toInt.toNat b) := by
    simp only [State.complete, hb, Option.map_some]
  refine ⟨?_, ?_, .reading counter _ hc hbuff hz hn fun _ => hlt, ?_⟩
  · rw [List.perm_iff_count]
    intro j
    have hr := hs.reads.count_eq j
    have hl := count_eraseIdx hi j
    simp only [State.complete, if_pos hkept, List.count_append, List.map_append, List.map_cons,
      List.map_nil] at hr ⊢
    omega
  · simp [State.complete, hs.faults, hb, hkept]
  · intro p hp
    rcases List.mem_append.mp hp with hp | hp
    · exact hs.kept p hp
    · rw [List.mem_singleton.mp hp]
      exact hkept

theorem step_stopped {k i : ℕ} {result : BitVec 32} (hkept : kept i = false) :
    Stopped kept (s.complete file chunkSize kept k i result) := by
  refine ⟨?_, (i, result), List.mem_append_right _ List.mem_cons_self, hkept⟩
  simp [State.complete, hkept]

theorem step_inv_handler {k i : ℕ} {result : BitVec 32} (hs : Inv n accepted kept s)
    (hi : s.posted[k]? = some (i, result)) (r : Except ℤ Value) :
    Inv n accepted kept ({ s with posted := s.posted.eraseIdx k }.handler i r) := by
  have hk := (List.getElem?_eq_some_iff.mp hi).1
  obtain ⟨counter, b, hc, hb, hz, hn, hlt⟩ := hs.reading (by omega)
  have hp : (s.posted.map Prod.fst)[k]? = some i := by rw [List.getElem?_map, hi]; rfl
  have hcount (j : ℕ) := count_eraseIdx hp j
  have hreads (j : ℕ) := hs.reads.count_eq j
  simp only [List.count_append] at hreads
  cases r with
  | error e =>
    refine ⟨?_, hs.faults, .reading counter b hc hb hz hn fun _ => hlt, hs.kept⟩
    rw [List.perm_iff_count]
    intro j
    have hl := hcount j
    have hr := hreads j
    simp only [State.handler, List.count_append, ← List.eraseIdx_map]
    omega
  | ok v =>
    have hperm : (s.inFlight ++ (s.posted.eraseIdx k).map Prod.fst ++ (s.succeeded ++ [i]) ++
        s.failed).Perm ((List.range n).filter accepted) := by
      rw [List.perm_iff_count]
      intro j
      have hl := hcount j
      have hr := hreads j
      simp only [List.count_append, ← List.eraseIdx_map]
      omega
    have hlen : (s.succeeded ++ [i]).length = s.succeeded.length + 1 := List.length_append
    -- the counter is not zero yet, so that it does not wrap
    have hleft : (counter - 1).toNat = counter.toNat - 1 := by bv_omega
    simp only [State.handler, hc]
    split
    · rename_i hzero
      rw [hzero] at hleft
      refine ⟨hperm, ?_, .done rfl rfl (by rw [hz]) ?_ (by omega), hs.kept⟩
      · change s.faults ++ _ = []
        rw [hs.faults, hb]
        rfl
      · change (s.succeeded ++ [i]).length = n
        change 0 = counter.toNat - 1 at hleft
        omega
    · rename_i hzero
      have hpos : (counter - 1).toNat ≠ 0 := fun h => hzero (BitVec.eq_of_toNat_eq h)
      refine ⟨hperm, hs.faults, .reading _ b rfl hb hz ?_ fun _ => ?_, hs.kept⟩
      · change (counter - 1).toNat + (s.succeeded ++ [i]).length = n
        omega
      · change (s.succeeded ++ [i]).length < n
        omega

theorem step_inv (hs : Inv n accepted kept s ∨ Stopped kept s)
    (h : (machine file chunkSize kept).step s a = some s') :
    Inv n accepted kept s' ∨ Stopped kept s' := by
  -- only a run that nothing has gone wrong in goes on
  obtain ⟨hfaults, ht⟩ := step_trans h
  have hs := hs.resolve_right fun hstop => hstop.1 hfaults
  cases ht with
  | complete k i result hi hlen =>
    cases hkept : kept i with
    | true => exact .inl (step_inv_complete hs hi hkept)
    | false => exact .inr (step_stopped hkept)
  | handler k i result hi => exact .inl (step_inv_handler hs hi _)

theorem run_inv {acts : List Act} (h₀ : readEverything β size chunk accepted = some s₀)
    (h : (machine file chunkSize kept).run s₀ acts = some s) :
    Inv (size / chunk).toNat accepted kept s ∨ Stopped kept s :=
  Machine.invariant_of_step (fun _ _ _ hs hstep => step_inv hs hstep)
    (.inl (readEverything_inv h₀)) h

/-- In some run of the repository's own context the read `i` is outstanding, and its CQE would
get to its own completion. -/
def KeptBy (ctx : Uring.Context) (i : ℕ) : Prop :=
  ∃ capacity as d e, (Uring.Dispatch.machine ctx).run (.new capacity) as = some d ∧
    e ∈ d.outstanding ∧ e.request = i ∧ d.uring.ledger.Alive e.userData ∧
      d.owner e.userData = some i

theorem not_keptBy (ctx : Uring.Context) (i : ℕ) : ¬ KeptBy ctx i := by
  rintro ⟨capacity, as, d, e, hrun, he, rfl, halive, howner⟩
  exact (Uring.Dispatch.run_inv hrun).astray e he e.userData halive howner

/-- Over the repository's own context, the first read that completes ends the run. -/
theorem stopped_by_first {acts : List Act} (h₀ : readEverything β size chunk accepted = some s₀)
    (ctx : Uring.Context) (hkept : ∀ i, kept i = true → KeptBy ctx i)
    (h : (machine file chunkSize kept).run s₀ acts = some s) :
    s.faults = [] ↔ s.results = [] := by
  have hnone : ∀ i, kept i = false := by
    intro i
    by_contra hi
    exact not_keptBy ctx i (hkept i (by simpa using hi))
  rcases run_inv h₀ h with hs | ⟨hfaults, p, hp, -⟩
  · refine iff_of_true hs.faults (List.eq_nil_iff_forall_not_mem.mpr fun p hp => ?_)
    exact Bool.false_ne_true ((hnone p.1).symm.trans (hs.kept p hp))
  · refine iff_of_false hfaults fun hr => ?_
    rw [hr] at hp
    cases hp

def Holds (file : ℕ → β) (chunkSize : ℕ) (s : State β) : Prop :=
  ∀ b, s.buff = some b → ∀ p v, b p = some v ↔
    (∃ result, (p / chunkSize, result) ∈ s.results ∧ (p % chunkSize : ℕ) < result.toInt) ∧
      v = file (p / chunkSize + p % chunkSize)

theorem within_chunk {c i k p : ℕ} (hk : k ≤ c) :
    i * c ≤ p ∧ p < i * c + k ↔ p / c = i ∧ p % c < k := by
  constructor
  · rintro ⟨hle, hlt⟩
    have hdiv : p / c = i := Nat.div_eq_of_lt_le hle (by rw [Nat.succ_mul]; omega)
    have hmod := Nat.div_add_mod' p c
    rw [hdiv] at hmod
    exact ⟨hdiv, by omega⟩
  · rintro ⟨rfl, hlt⟩
    have hmod := Nat.div_add_mod' p c
    omega

theorem fill_eq_some {i count p : ℕ} {b : ℕ → Option β} {v : β}
    (hcount : count ≤ chunkSize) : (read chunkSize i).fill file count b p = some v ↔
      if p / chunkSize = i ∧ p % chunkSize < count then v = file (p / chunkSize + p % chunkSize)
      else b p = some v := by
  simp only [Read.fill, read, within_chunk hcount]
  split
  · rename_i hp
    have hmod := Nat.div_add_mod' p chunkSize
    rw [hp.1] at hmod
    rw [Option.some.injEq, hp.1, eq_comm, show p - i * chunkSize = p % chunkSize by omega]
  · exact Iff.rfl

theorem handler_buff (s : State β) (i : ℕ) (r : Except ℤ Value) :
    ((s.handler i r).buff = s.buff ∨ (s.handler i r).buff = none) ∧
      (s.handler i r).results = s.results := by
  unfold State.handler
  split
  · exact ⟨.inl rfl, rfl⟩
  · split
    · exact ⟨.inl rfl, rfl⟩
    · dsimp only
      split
      · exact ⟨.inr rfl, rfl⟩
      · exact ⟨.inl rfl, rfl⟩

theorem step_holds (hs : Holds file chunkSize s)
    (h : (machine file chunkSize kept).step s a = some s') : Holds file chunkSize s' := by
  cases (step_trans h).2 with
  | complete k i result hi hlen =>
    intro b hb p v
    obtain ⟨b₀, hb₀, rfl⟩ := Option.map_eq_some_iff.mp hb
    have hle : result.toInt.toNat ≤ chunkSize := by
      simp only [read] at hlen
      omega
    rw [fill_eq_some hle]
    simp only [State.complete, List.mem_append, List.mem_singleton, Prod.mk.injEq]
    split
    · rename_i hp
      have hlt : (p % chunkSize : ℕ) < result.toInt := by omega
      exact ⟨fun hv => ⟨⟨result, .inr ⟨hp.1, rfl⟩, hlt⟩, hv⟩, fun hv => hv.2⟩
    · rename_i hp
      rw [hs b₀ hb₀ p v]
      apply and_congr_left'
      apply exists_congr
      intro r
      apply and_congr_left
      intro hlt
      refine ⟨.inl, fun hr => hr.resolve_right ?_⟩
      rintro ⟨hi, rfl⟩
      exact hp ⟨hi, by omega⟩
  | handler k i result hi =>
    obtain ⟨hb, hr⟩ := handler_buff { s with posted := s.posted.eraseIdx k } i
      (Operation.readOperation.report result)
    intro b hsome
    rw [hr]
    rcases hb with hb | hb
    · exact hs b (hb.symm.trans hsome)
    · rw [hb] at hsome
      cases hsome

theorem run_holds {acts : List Act} (h₀ : readEverything β size chunk accepted = some s₀)
    (h : (machine file chunkSize kept).run s₀ acts = some s) : Holds file chunkSize s := by
  refine Machine.invariant_of_step (fun _ _ _ hs hstep => step_holds hs hstep) ?_ h
  rw [readEverything_eq h₀]
  intro b hb p v
  cases hb
  exact iff_of_false nofun fun hv => hv.1.elim fun _ hr => absurd hr.1 List.not_mem_nil

/-- Every read has been given as much as it has asked for. -/
def State.ReadInFull (s : State β) (n chunkSize : ℕ) : Prop :=
  ∀ i < n, ∃ result, (i, result) ∈ s.results ∧ result.toInt = chunkSize

theorem contents_of_full (hs : Holds file chunkSize s) {b : ℕ → Option β} (hb : s.buff = some b)
    (hfull : s.ReadInFull n chunkSize) {i j : ℕ} (hi : i < n) (hj : j < chunkSize) :
    b (i * chunkSize + j) = some (file (i + j)) := by
  have hp : (i * chunkSize + j) / chunkSize = i ∧ (i * chunkSize + j) % chunkSize < j + 1 := by
    apply (within_chunk (Nat.succ_le_of_lt hj)).mp
    omega
  have hmod := Nat.div_add_mod' (i * chunkSize + j) chunkSize
  rw [hp.1] at hmod
  have hj' : (i * chunkSize + j) % chunkSize = j := by omega
  obtain ⟨result, hr, hres⟩ := hfull i hi
  rw [hs b hb, hp.1, hj']
  exact ⟨⟨result, hr, by omega⟩, rfl⟩

/-- In every run, in whatever order the reads complete, and whether or not the service keeps the
handlers: as long as the buffer is there, the byte at a position of it has been written exactly
if the read of its chunk has come so far, and is then the one at the sum of the chunk's number
and the position in the chunk.  So when all reads have been given what they asked for, the
buffer holds the beginning of the file exactly if the file agrees with itself at these
positions: the reads are one byte apart in the file, and a chunk apart in the buffer. -/
theorem buffer_right_iff {acts : List Act} {b : ℕ → Option β}
    (h₀ : readEverything β size chunk accepted = some s₀)
    (h : (machine file chunk.toNat kept).run s₀ acts = some s)
    (hb : s.buff = some b) :
    (∀ p v, b p = some v ↔
      (∃ result, (p / chunk.toNat, result) ∈ s.results ∧
          (p % chunk.toNat : ℕ) < result.toInt) ∧
        v = file (p / chunk.toNat + p % chunk.toNat)) ∧
    (s.ReadInFull (size / chunk).toNat chunk.toNat →
      ((∀ p < (size / chunk).toNat * chunk.toNat, b p = some (file p)) ↔
        ∀ i < (size / chunk).toNat, ∀ j < chunk.toNat,
          file (i + j) = file (i * chunk.toNat + j))) := by
  have hs := run_holds h₀ h
  refine ⟨hs b hb, fun hfull => ?_⟩
  constructor
  · intro hright i hi j hj
    have hp : i * chunk.toNat + j < (size / chunk).toNat * chunk.toNat := by
      have hle := Nat.mul_le_mul_right chunk.toNat (Nat.succ_le_of_lt hi)
      rw [Nat.succ_mul] at hle
      omega
    have hv := (contents_of_full hs hb hfull hi hj).symm.trans (hright _ hp)
    exact Option.some.inj hv
  · intro hsame p hp
    have hc : 0 < chunk.toNat := Nat.pos_of_ne_zero fun hz => by rw [hz] at hp; omega
    have hi : p / chunk.toNat < (size / chunk).toNat := (Nat.div_lt_iff_lt_mul hc).mpr hp
    have hj : p % chunk.toNat < chunk.toNat := Nat.mod_lt p hc
    have hv := contents_of_full hs hb hfull hi hj
    rw [hsame _ hi _ hj, Nat.div_add_mod'] at hv
    exact hv

/-- Two chunks of a file whose bytes are all different. -/
theorem buffer_wrong_two : ∃ s₀ s b, readEverything ℕ 8 4 (fun _ => true) = some s₀ ∧
      (machine (fun p : ℕ => p) (4 : BitVec 64).toNat fun _ => true).run s₀
        [.complete 1 4, .complete 0 4] = some s ∧
      s.buff = some b ∧ ¬ ∀ p < 2 * 4, b p = some p := by
  obtain ⟨s₀, s, b, h₀, h, hb, hr⟩ : ∃ s₀ s b, readEverything ℕ 8 4 (fun _ => true) = some s₀ ∧
      (machine (fun p : ℕ => p) (4 : BitVec 64).toNat fun _ => true).run s₀
        [.complete 1 4, .complete 0 4] = some s ∧
      s.buff = some b ∧ s.results = [(1, 4), (0, 4)] := ⟨_, _, _, rfl, rfl, rfl, rfl⟩
  have hfull : s.ReadInFull 2 4 := by
    intro i hi
    refine ⟨4, ?_, rfl⟩
    rw [hr]
    interval_cases i
    · exact List.mem_cons_of_mem _ List.mem_cons_self
    · exact List.mem_cons_self
  refine ⟨s₀, s, b, h₀, h, hb, fun hright => ?_⟩
  have hsame := ((buffer_right_iff h₀ h hb).2 hfull).mp hright 1 (by decide) 0 (by decide)
  exact absurd hsame (by decide)

end BadIo.Main.ReadEverything
