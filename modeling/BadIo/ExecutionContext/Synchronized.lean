import Mathlib.Algebra.Order.Group.Multiset
import Mathlib.Data.Multiset.Basic
import Mathlib.Tactic.Abel
import BadIo.Fifo
import BadIo.Threads

namespace BadIo.SynchronizedExecutionContext

/-- The queue, with the tasks ever posted, taken from the queue, and invoked. -/
structure Shared (τ : Type*) where
  functionQueue : List τ
  posted : List τ
  popped : List τ
  executed : List τ
  deriving DecidableEq

inductive Local (τ : Type*) where
  | poll (f : Option τ) (count : ℕ)
  | destroy (old f : τ) (count : ℕ)
  | invoke (f : τ) (count : ℕ)
  | leave (f : Option τ) (count : ℕ)
  | returned (count : ℕ)
  | unwind (f : τ)
  | thrown
  deriving DecidableEq

inductive Act (τ : Type*) where
  | tryPop
  | post (t : τ)
  | finish
  | throw
  | destroyPost (t : τ)
  | destroyed
  deriving DecidableEq

variable {τ : Type*}

def Shared.emplace (g : Shared τ) (t : τ) : Shared τ :=
  { g with functionQueue := g.functionQueue ++ [t], posted := g.posted ++ [t] }

/-- `emplace` and `try_pop` of the concurrent queue are atomic.  A successful `try_pop` moves the
front task into the local `f`, and only then is the task that `f` held before destroyed. -/
def step (g : Shared τ) (l : Local τ) (a : Act τ) : Option (Shared τ × Local τ) :=
  match l, a with
  | .poll f count, .tryPop =>
    match g.functionQueue, f with
    | [], f => some (g, .leave f count)
    | t :: queue, none =>
      -- an empty `f` has no callable to destroy
      some ({ g with functionQueue := queue, popped := g.popped ++ [t],
                     executed := g.executed ++ [t] }, .invoke t count)
    | t :: queue, some old =>
      some ({ g with functionQueue := queue, popped := g.popped ++ [t] }, .destroy old t count)
  | .destroy old f count, .destroyPost t => some (g.emplace t, .destroy old f count)
  | .destroy _ f count, .destroyed =>
    some ({ g with executed := g.executed ++ [f] }, .invoke f count)
  | .invoke f count, .post t => some (g.emplace t, .invoke f count)
  | .invoke f count, .finish => some (g, .poll (some f) (count + 1))
  | .invoke f _, .throw => some (g, .unwind f)
  | .unwind f, .destroyPost t => some (g.emplace t, .unwind f)
  | .unwind _, .destroyed => some (g, .thrown)
  | .leave (some f) count, .destroyPost t => some (g.emplace t, .leave (some f) count)
  | .leave _ count, .destroyed => some (g, .returned count)
  | _, _ => none

abbrev machine (ι τ : Type*) [DecidableEq ι] :
    Machine (Config ι (Shared τ) (Local τ)) (ι × Act τ) :=
  interleave step

/-- Every thread is about to enter the loop of `run`; `queue` has been posted before. -/
def initial {ι : Type*} (queue : List τ) : Config ι (Shared τ) (Local τ) :=
  ⟨⟨queue, queue, [], []⟩, fun _ => .poll none 0⟩

inductive Trans (g : Shared τ) : Local τ → Act τ → Shared τ → Local τ → Prop where
  | empty (f : Option τ) (count : ℕ) (hq : g.functionQueue = []) :
    Trans g (.poll f count) .tryPop g (.leave f count)
  | first (count : ℕ) (t : τ) (queue : List τ) (hq : g.functionQueue = t :: queue) :
    Trans g (.poll none count) .tryPop { g with
      functionQueue := queue, popped := g.popped ++ [t], executed := g.executed ++ [t] }
      (.invoke t count)
  | next (old : τ) (count : ℕ) (t : τ) (queue : List τ) (hq : g.functionQueue = t :: queue) :
    Trans g (.poll (some old) count) .tryPop
      { g with functionQueue := queue, popped := g.popped ++ [t] } (.destroy old t count)
  | enter (old f : τ) (count : ℕ) : Trans g (.destroy old f count) .destroyed
      { g with executed := g.executed ++ [f] } (.invoke f count)
  | post (f : τ) (count : ℕ) (t : τ) :
    Trans g (.invoke f count) (.post t) (g.emplace t) (.invoke f count)
  | finish (f : τ) (count : ℕ) :
    Trans g (.invoke f count) .finish g (.poll (some f) (count + 1))
  | throw (f : τ) (count : ℕ) : Trans g (.invoke f count) .throw g (.unwind f)
  | destroyPost (l : Local τ) (t : τ) : Trans g l (.destroyPost t) (g.emplace t) l
  | left (f : Option τ) (count : ℕ) : Trans g (.leave f count) .destroyed g (.returned count)
  | unwound (f : τ) : Trans g (.unwind f) .destroyed g .thrown

theorem step_trans {g g' : Shared τ} {l l' : Local τ} {a : Act τ}
    (h : step g l a = some (g', l')) : Trans g l a g' l' := by
  unfold step at h
  split at h
  · split at h
    · cases h; exact .empty _ _ ‹_›
    · cases h; exact .first _ _ _ ‹_›
    · cases h; exact .next _ _ _ _ ‹_›
  · cases h; exact .destroyPost _ _
  · cases h; exact .enter _ _ _
  · cases h; exact .post _ _ _
  · cases h; exact .finish _ _
  · cases h; exact .throw _ _
  · cases h; exact .destroyPost _ _
  · cases h; exact .unwound _
  · cases h; exact .destroyPost _ _
  · cases h; exact .left _ _
  · cases h

structure Records (g : Shared τ) (h : Fifo τ) : Prop where
  posted : g.posted = h.added
  popped : g.popped = h.taken
  queue : g.functionQueue = h.waiting

def label (g : Shared τ) : Act τ → List (Fifo.Act τ)
  | .post t | .destroyPost t => [.add t]
  | .tryPop => if g.functionQueue.isEmpty then [] else [.take]
  | _ => []

theorem trans_records {g g' : Shared τ} {l l' : Local τ} {a : Act τ} {h : Fifo τ}
    (ht : Trans g l a g' l') (hr : Records g h) :
    ∃ h', (Fifo.machine τ).run h (label g a) = some h' ∧ Records g' h' := by
  obtain ⟨hp, ht', hq⟩ := hr
  cases ht with
  | post _ _ t | destroyPost _ t =>
    exact ⟨h.add t, Fifo.run_add h t, by simp [Shared.emplace, Fifo.add, hp],
      by simpa [Shared.emplace, Fifo.add] using ht', by simp [Shared.emplace, Fifo.add, hq]⟩
  | empty _ _ hnil => exact ⟨h, by simp [label, hnil], hp, ht', hq⟩
  | first _ t queue hcons | next _ _ t queue hcons =>
    have hw := hq.symm.trans hcons
    refine ⟨h.take t queue hw, by simpa [label, hcons] using Fifo.run_take h hw, ?_, ?_, rfl⟩
    · simpa [Fifo.take] using hp
    · simp [Fifo.take, ht']
  | _ => exact ⟨h, rfl, hp, ht', hq⟩

theorem fifo_simulates {ι : Type*} [DecidableEq ι] : (Fifo.machine τ).Simulates
    (fun s h => Records s.shared h) (fun s a => label s.shared a.2) (machine ι τ) := by
  intro s h a s' hr hs
  obtain ⟨g, l, hstep, rfl⟩ := interleave_step.mp hs
  exact trans_records (step_trans hstep) hr

theorem posted_eq_popped_append {ι : Type*} [DecidableEq ι] {queue : List τ}
    {acts : List (ι × Act τ)} {s : Config ι (Shared τ) (Local τ)}
    (h : (machine ι τ).run (initial queue) acts = some s) :
    s.shared.posted = s.shared.popped ++ s.shared.functionQueue := by
  obtain ⟨_, t, -, hr⟩ := fifo_simulates.run (t := .start queue) ⟨rfl, rfl, rfl⟩ h
  rw [hr.posted, hr.popped, hr.queue, t.order]

def Local.inHand : Local τ → Multiset τ
  | .destroy _ f _ => {f}
  | _ => 0

def Local.invoked : Local τ → ℕ
  | .poll _ count | .destroy _ _ count | .leave _ count | .returned count => count
  | .invoke _ count => count + 1
  | _ => 0

/-- The thread has yet to find the queue empty. -/
def Local.Serving : Local τ → Prop
  | .poll _ _ | .destroy _ _ _ | .invoke _ _ => True
  | _ => False

/-- Task bodies return, and destructors of callables do not post. -/
def Act.Plain : Act τ → Prop
  | .throw | .destroyPost _ => False
  | _ => True

def Local.Normal : Local τ → Prop
  | .unwind _ | .thrown => False
  | _ => True

section Step

variable {g g' : Shared τ} {l l' : Local τ} {a : Act τ}

theorem trans_inHand (h : Trans g l a g' l') :
    (g'.popped : Multiset τ) + g.executed + l.inHand = g'.executed + l'.inHand + g.popped := by
  cases h with
  | first | next | enter =>
    simp only [Local.inHand, ← Multiset.coe_add, Multiset.coe_singleton]
    abel
  | _ =>
    simp only [Local.inHand, Shared.emplace]
    abel

theorem trans_invoked (h : Trans g l a g' l') (ha : a.Plain) (hl : l.Normal) :
    g'.executed.length + l.invoked = g.executed.length + l'.invoked := by
  cases h with
  | throw | destroyPost => exact ha.elim
  | unwound => exact hl.elim
  | _ => simp [Local.invoked, Shared.emplace] <;> omega

theorem trans_normal (h : Trans g l a g' l') (ha : a.Plain) (hl : l.Normal) : l'.Normal := by
  cases h with
  | throw | destroyPost => exact ha.elim
  | unwound => exact hl.elim
  | _ => trivial

theorem trans_serving (h : Trans g l a g' l') (ha : a.Plain) (hq : g'.functionQueue ≠ []) :
    l'.Serving ∨ (¬ l.Serving ∧ g.functionQueue ≠ []) := by
  -- a thread leaves only when it finds the queue empty, and only serving threads post
  cases h with
  | throw | destroyPost => exact ha.elim
  | empty f count hnil => exact absurd hnil hq
  | left | unwound => exact .inr ⟨id, hq⟩
  | _ => exact .inl trivial

end Step

structure Draining {ι : Type*} [Fintype ι] (s : Config ι (Shared τ) (Local τ)) : Prop where
  inHand : (s.shared.popped : Multiset τ) = s.shared.executed + total Local.inHand s.threads
  invoked : s.shared.executed.length = total Local.invoked s.threads
  serving : s.shared.functionQueue ≠ [] → ∃ i, (s.threads i).Serving
  normal : ∀ i, (s.threads i).Normal

section Run

variable {ι : Type*} [Fintype ι]

theorem initial_draining [Nonempty ι] (queue : List τ) :
    Draining (initial queue : Config ι (Shared τ) (Local τ)) where
  inHand := by
    have h0 : total Local.inHand (fun _ : ι => (.poll none 0 : Local τ)) = 0 := total_const _ _ rfl
    simp [initial, h0]
  invoked := (total_const _ _ rfl).symm
  serving _ := ⟨Classical.arbitrary ι, trivial⟩
  normal _ := trivial

variable [DecidableEq ι]

theorem step_draining {s s' : Config ι (Shared τ) (Local τ)} {a : ι × Act τ} (hs : Draining s)
    (ha : a.2.Plain) (h : (machine ι τ).step s a = some s') : Draining s' := by
  obtain ⟨g, l, hstep, rfl⟩ := interleave_step.mp h
  have ht := step_trans hstep
  have hn := hs.normal a.1
  refine ⟨?_, ?_, ?_, forall_update hs.normal (trans_normal ht ha hn)⟩
  · have hh := trans_inHand ht
    have hu := total_update Local.inHand s.threads a.1 l
    have hp := hs.inHand
    simp only at hu ⊢
    generalize s.threads a.1 = l₀ at hh hu
    -- the acting thread's share of the sum is what the step changes
    apply add_right_cancel (b := (s.shared.executed : Multiset τ) + l₀.inHand)
    calc (g.popped : Multiset τ) + (s.shared.executed + l₀.inHand)
        = g.executed + l.inHand + s.shared.popped := by rw [← add_assoc, hh]
      _ = g.executed + s.shared.executed + (total Local.inHand s.threads + l.inHand) := by
        rw [hp]; abel
      _ = g.executed + total Local.inHand (Function.update s.threads a.1 l) +
          (s.shared.executed + l₀.inHand) := by rw [← hu]; abel
  · have hh := trans_invoked ht ha hn
    have hu := total_update Local.invoked s.threads a.1 l
    have hp := hs.invoked
    simp only
    omega
  · intro hq
    rcases trans_serving ht ha hq with hl | ⟨hl, hq'⟩
    · exact ⟨a.1, by simpa using hl⟩
    · obtain ⟨j, hj⟩ := hs.serving hq'
      have hne : j ≠ a.1 := fun he => hl (he ▸ hj)
      exact ⟨j, by simpa [hne] using hj⟩

def Local.result : Local τ → Option ℕ
  | .returned count => some count
  | _ => none

/-- Over every interleaving no task is lost or executed twice, and when every `run` has
returned, the queue is empty, all tasks ever posted have been executed exactly once, and
the returned counts add up to their number. -/
theorem parallel_drain [Nonempty ι] {queue : List τ} {acts : List (ι × Act τ)}
    (hplain : ∀ a ∈ acts, a.2.Plain) {s : Config ι (Shared τ) (Local τ)}
    (h : (machine ι τ).run (initial queue) acts = some s) :
    (s.shared.posted : Multiset τ) =
        s.shared.executed + total Local.inHand s.threads + s.shared.functionQueue ∧
      ((∀ i, (s.threads i).result.isSome) →
        s.shared.functionQueue = [] ∧ s.shared.executed.Perm s.shared.posted ∧
          total (fun l => l.result.getD 0) s.threads = s.shared.posted.length) := by
  have hd : Draining s := Machine.invariant_of_along
    (fun s a s' hs ha hstep => step_draining hs ha hstep) (initial_draining queue)
    (Machine.along_of_forall hplain) h
  have hposted : (s.shared.posted : Multiset τ) =
      s.shared.executed + total Local.inHand s.threads + s.shared.functionQueue := by
    rw [posted_eq_popped_append h, ← Multiset.coe_add, hd.inHand]
  refine ⟨hposted, fun hret => ?_⟩
  have hreturned : ∀ i, ∃ n, s.threads i = .returned n := by
    intro i
    have hi := hret i
    cases hl : s.threads i with
    | returned n => exact ⟨n, rfl⟩
    | _ => simp [hl, Local.result] at hi
  have hq : s.shared.functionQueue = [] := by
    -- a task in the queue would have a thread that has not returned
    by_contra hne
    obtain ⟨i, hi⟩ := hd.serving hne
    obtain ⟨n, hn⟩ := hreturned i
    exact (hn ▸ hi : (Local.returned n : Local τ).Serving)
  have hhand : total Local.inHand s.threads = 0 := Finset.sum_eq_zero fun i _ => by
    obtain ⟨n, hn⟩ := hreturned i
    rw [hn]
    rfl
  have hperm : s.shared.executed.Perm s.shared.posted := by
    rw [hhand, hq, Multiset.coe_nil, add_zero, add_zero] at hposted
    exact Multiset.coe_eq_coe.mp hposted.symm
  have hcounts : total (fun l => l.result.getD 0) s.threads = total Local.invoked s.threads :=
    Finset.sum_congr rfl fun i _ => by
      obtain ⟨n, hn⟩ := hreturned i
      rw [hn]
      rfl
  exact ⟨hq, hperm, by rw [hcounts, ← hd.invoked, hperm.length_eq]⟩

end Run

/-- Thread `true` has left before the task of thread `false` posts another one. -/
def lateSpawn : List (Bool × Act ℕ) :=
  [(false, .tryPop), (true, .tryPop), (true, .destroyed), (false, .post 8), (false, .finish),
    (false, .tryPop), (false, .destroyed), (false, .finish), (false, .tryPop),
    (false, .destroyed)]

theorem parallel_drain_lateSpawn : ∃ s, (machine Bool ℕ).run (initial [7]) lateSpawn = some s ∧
    s.shared.executed.Perm s.shared.posted ∧ s.shared.posted = [7, 8] := by
  obtain ⟨s, h, hret, hposted⟩ : ∃ s, (machine Bool ℕ).run (initial [7]) lateSpawn = some s ∧
      (∀ i, (s.threads i).result.isSome) ∧ s.shared.posted = [7, 8] := ⟨_, rfl, by decide, rfl⟩
  have hplain : ∀ a ∈ lateSpawn, a.2.Plain := by simp [lateSpawn, Act.Plain]
  exact ⟨s, h, ((parallel_drain hplain h).2 hret).2.1, hposted⟩

end BadIo.SynchronizedExecutionContext
