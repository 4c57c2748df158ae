import Mathlib.Data.List.Range
import BadIo.ExecutionContext.Synchronized
import BadIo.Holders
import BadIo.UniqueFunction.Elements

namespace BadIo.ExecutionContext.SharedStorage

open SynchronizedExecutionContext (Shared Local)
open UniqueFunction (Accounted Callable Name Op Placed Placement Table create)

variable {ι V F : Type}

/-- The threads that run the context, and the operations on `unique_function` objects that
have been carried out. -/
structure State (ι V F : Type) where
  config : Config ι (Shared (ℕ × Callable V F)) (Local (ℕ × Callable V F))
  operations : List (Op (Name ι) V F)

def State.new : State ι V F := ⟨SynchronizedExecutionContext.initial [], []⟩

/-- A task that returns or throws leaves its callable with the value `after`. -/
inductive Act (V F : Type) where
  | tryPop
  | post (c : Callable V F)
  | finish (after : V)
  | throw (after : V)
  | destroyPost (c : Callable V F)
  | destroyed
  deriving DecidableEq

/-- A thread goes on in `run`, or one that does not run the context posts. -/
inductive Event (ι V F : Type) where
  | thread (i : ι) (a : Act V F)
  | post (c : Callable V F)
  deriving DecidableEq

def label (k : ℕ) : Act V F → SynchronizedExecutionContext.Act (ℕ × Callable V F)
  | .tryPop => .tryPop
  | .post c => .post (k, c)
  | .finish _ => .finish
  | .throw _ => .throw
  | .destroyPost c => .destroyPost (k, c)
  | .destroyed => .destroyed

/-- The first `try_pop` comes right after the construction of `f`.  An element that has been
exchanged with an empty `f` has no callable whose destructor could do anything. -/
def tryPop (i : ι) : Local (ℕ × Callable V F) → List (ℕ × Callable V F) → List (Op (Name ι) V F)
  | .poll none _, [] => [.construct (.f i)]
  | .poll none _, (k, _) :: _ =>
    [.construct (.f i), .moveAssign (.f i) (.element k), .destroy (.element k)]
  | .poll (some _) _, (k, _) :: _ => [.moveAssign (.f i) (.element k)]
  | _, _ => []

def callLocal (i : ι) (after : V) : Local (ℕ × Callable V F) → List (Op (Name ι) V F)
  | .invoke _ _ => [.call (.f i) after]
  | _ => []

def destroyed (i : ι) : Local (ℕ × Callable V F) → List (Op (Name ι) V F)
  | .destroy _ (k, _) _ => [.destroy (.element k)]
  | .leave _ _ => [.destroy (.f i)]
  | .unwind _ => [.destroy (.f i)]
  | _ => []

def operations (g : Shared (ℕ × Callable V F)) (i : ι) (l : Local (ℕ × Callable V F)) :
    Act V F → List (Op (Name ι) V F)
  | .tryPop => tryPop i l g.functionQueue
  | .post c => [create (.element g.posted.length) c]
  | .finish after => callLocal i after l
  | .throw after => callLocal i after l
  | .destroyPost c => [create (.element g.posted.length) c]
  | .destroyed => destroyed i l

def step [DecidableEq ι] (s : State ι V F) : Event ι V F → Option (State ι V F)
  | .thread i a =>
    ((SynchronizedExecutionContext.machine ι (ℕ × Callable V F)).step s.config
      (i, label s.config.shared.posted.length a)).map fun config =>
        ⟨config, s.operations ++ operations s.config.shared i (s.config.threads i) a⟩
  | .post c =>
    let k := s.config.shared.posted.length
    some ⟨{ s.config with shared := s.config.shared.emplace (k, c) },
      s.operations ++ [create (.element k) c]⟩

def machine (ι V F : Type) [DecidableEq ι] : Machine (State ι V F) (Event ι V F) := ⟨step⟩

def Local.dying : Local (ℕ × Callable V F) → Option ℕ
  | .destroy _ p _ => some p.1
  | _ => none

def Local.running : Local (ℕ × Callable V F) → Multiset (Callable V F)
  | .invoke p _ => {p.2}
  | _ => 0

structure Numbered (c : Config ι (Shared (ℕ × Callable V F)) (Local (ℕ × Callable V F))) :
    Prop where
  order : c.shared.posted = c.shared.popped ++ c.shared.functionQueue
  numbers : c.shared.posted.map Prod.fst = List.range c.shared.posted.length
  dying : ∀ i k, Local.dying (c.threads i) = some k → k ∈ c.shared.popped.map Prod.fst
  exclusive : Exclusive fun i => Local.dying (c.threads i)

section Numbers

variable {g g' : Shared (ℕ × Callable V F)} {threads : ι → Local (ℕ × Callable V F)}
  {l' : Local (ℕ × Callable V F)} {i : ι}

theorem Numbered.numbers_eq (h : Numbered ⟨g, threads⟩) :
    g.popped.map Prod.fst ++ g.functionQueue.map Prod.fst = List.range g.posted.length := by
  rw [← List.map_append, ← h.numbers]
  exact congrArg _ h.order.symm

theorem Numbered.nodup (h : Numbered ⟨g, threads⟩) :
    (g.popped.map Prod.fst ++ g.functionQueue.map Prod.fst).Nodup := by
  rw [h.numbers_eq]
  exact List.nodup_range

theorem Numbered.dying_not_queued (h : Numbered ⟨g, threads⟩) {k : ℕ}
    (hk : Local.dying (threads i) = some k) : k ∉ g.functionQueue.map Prod.fst :=
  fun hmem => (List.nodup_append.mp h.nodup).2.2 k (h.dying i k hk) k hmem rfl

theorem Numbered.next (h : Numbered ⟨g, threads⟩) :
    g.posted.length ∉ g.functionQueue.map Prod.fst ∧
      ∀ i, Local.dying (threads i) ≠ some g.posted.length := by
  have hlt (k : ℕ) (hk : k ∈ g.popped.map Prod.fst ++ g.functionQueue.map Prod.fst) :
      k < g.posted.length := by
    rwa [h.numbers_eq, List.mem_range] at hk
  constructor
  · exact fun hmem => Nat.lt_irrefl _ (hlt _ (List.mem_append_right _ hmem))
  · exact fun i hi => Nat.lt_irrefl _ (hlt _ (List.mem_append_left _ (h.dying i _ hi)))

theorem Numbered.emplace (h : Numbered ⟨g, threads⟩) (c : Callable V F) :
    Numbered ⟨g.emplace (g.posted.length, c), threads⟩ where
  order := by
    have ho := h.order
    simp only [Shared.emplace] at ho ⊢
    rw [ho, List.append_assoc]
  numbers := by
    have hn := h.numbers
    simp only [Shared.emplace, List.map_append, List.length_append, List.length_singleton,
      List.range_succ] at hn ⊢
    rw [hn]
    rfl
  dying := h.dying
  exclusive := h.exclusive

variable [DecidableEq ι]

theorem Numbered.thread (h : Numbered ⟨g, threads⟩)
    (horder : g'.posted = g'.popped ++ g'.functionQueue) (hposted : g'.posted = g.posted)
    (hpopped : ∀ k ∈ g.popped.map Prod.fst, k ∈ g'.popped.map Prod.fst)
    (hdying : ∀ k, Local.dying l' = some k →
      k ∈ g'.popped.map Prod.fst ∧ k ∉ g.popped.map Prod.fst) :
    Numbered ⟨g', Function.update threads i l'⟩ where
  order := horder
  numbers := by
    change g'.posted.map Prod.fst = List.range g'.posted.length
    rw [hposted]
    exact h.numbers
  dying j k hk := by
    change Local.dying (Function.update threads i l' j) = some k at hk
    by_cases hj : j = i
    · subst hj
      rw [Function.update_self] at hk
      exact (hdying k hk).1
    · rw [Function.update_of_ne hj] at hk
      exact hpopped k (h.dying j k hk)
  exclusive := by
    have hupdate : (fun j => Local.dying (Function.update threads i l' j)) =
        Function.update (fun j => Local.dying (threads j)) i (Local.dying l') :=
      Function.comp_update Local.dying threads i l'
    change Exclusive fun j => Local.dying (Function.update threads i l' j)
    rw [hupdate]
    cases hk : Local.dying l' with
    | none => exact h.exclusive.drop i
    | some k =>
      apply h.exclusive.give
      rintro ⟨j, hj⟩
      exact (hdying k hk).2 (h.dying j k hj)

theorem trans_numbered {a : SynchronizedExecutionContext.Act (ℕ × Callable V F)}
    (h : Numbered ⟨g, threads⟩) (ha : ∀ p, a = .post p ∨ a = .destroyPost p → p.1 = g.posted.length)
    (ht : SynchronizedExecutionContext.Trans g (threads i) a g' l') :
    Numbered ⟨g', Function.update threads i l'⟩ := by
  have horder := h.order
  generalize hl : threads i = l at ht
  cases ht with
  | post f count p =>
    obtain ⟨k, c⟩ := p
    obtain rfl := ha _ (.inl rfl)
    rw [← hl, Function.update_eq_self]
    exact h.emplace c
  | destroyPost l p =>
    obtain ⟨k, c⟩ := p
    obtain rfl := ha _ (.inr rfl)
    rw [← hl, Function.update_eq_self]
    exact h.emplace c
  | first count p queue hq =>
    refine h.thread ?_ rfl ?_ nofun
    · change g.posted = g.popped ++ [p] ++ queue
      rw [List.append_assoc, List.singleton_append, ← hq]
      exact horder
    · intro k hk
      rw [List.map_append]
      exact List.mem_append_left _ hk
  | next old count p queue hq =>
    refine h.thread ?_ rfl ?_ ?_
    · change g.posted = g.popped ++ [p] ++ queue
      rw [List.append_assoc, List.singleton_append, ← hq]
      exact horder
    · intro k hk
      rw [List.map_append]
      exact List.mem_append_left _ hk
    · intro k hk
      cases hk
      refine ⟨by rw [List.map_append]; exact List.mem_append_right _ List.mem_cons_self, ?_⟩
      intro hmem
      refine (List.nodup_append.mp h.nodup).2.2 p.1 hmem p.1 ?_ rfl
      rw [hq]
      exact List.mem_cons_self
  | _ => exact h.thread horder rfl (fun _ hk => hk) nofun

end Numbers

/-- The variable `f` of a thread holds a task, until it has been called, and then what the call
has left of it, until `try_pop` has exchanged it with the next one. -/
inductive Kept (t : Table (Name ι) V F) (i : ι) : Local (ℕ × Callable V F) → Prop where
  | start (count : ℕ) (h : t.entries (.f i) = none) : Kept t i (.poll none count)
  | poll (p : ℕ × Callable V F) (count : ℕ) (after : V)
      (h : t.entries (.f i) = some (some (p.2.after after))) : Kept t i (.poll (some p) count)
  | destroy (old p : ℕ × Callable V F) (count : ℕ) (after : V)
      (h : t.entries (.f i) = some (some p.2))
      (he : t.entries (.element p.1) = some (some (old.2.after after))) :
      Kept t i (.destroy old p count)
  | invoke (p : ℕ × Callable V F) (count : ℕ) (h : t.entries (.f i) = some (some p.2)) :
      Kept t i (.invoke p count)
  | leaveEmpty (count : ℕ) (h : t.entries (.f i) = some none) : Kept t i (.leave none count)
  | leave (p : ℕ × Callable V F) (count : ℕ) (after : V)
      (h : t.entries (.f i) = some (some (p.2.after after))) : Kept t i (.leave (some p) count)
  | returned (count : ℕ) (h : t.entries (.f i) = none) : Kept t i (.returned count)
  | unwind (p : ℕ × Callable V F) (after : V)
      (h : t.entries (.f i) = some (some (p.2.after after))) : Kept t i (.unwind p)
  | thrown (h : t.entries (.f i) = none) : Kept t i .thrown

/-- There are the elements of the queue, those that are being destroyed and the variables of
the threads, and no other objects; every task that has been invoked has been called, or is
being called. -/
structure Stores [Fintype ι]
    (c : Config ι (Shared (ℕ × Callable V F)) (Local (ℕ × Callable V F)))
    (t : Table (Name ι) V F) : Prop where
  element : ∀ p ∈ c.shared.functionQueue, t.entries (.element p.1) = some (some p.2)
  noElement : ∀ k, k ∉ c.shared.functionQueue.map Prod.fst →
    (∀ i, Local.dying (c.threads i) ≠ some k) → t.entries (.element k) = none
  kept : ∀ i, Kept t i (c.threads i)
  history : ∃ ran : List (Callable V F), t.history = ran.map .ran ∧
    (↑(c.shared.executed.map Prod.snd) : Multiset (Callable V F)) =
      ran + total Local.running c.threads

section Objects

variable {t t' : Table (Name ι) V F} {i : ι} {l l' : Local (ℕ × Callable V F)}

theorem Kept.congr (h : Kept t i l) (hf : t'.entries (.f i) = t.entries (.f i))
    (he : ∀ k, Local.dying l = some k → t'.entries (.element k) = t.entries (.element k)) :
    Kept t' i l := by
  cases h with
  | start count h => exact .start count (hf.trans h)
  | poll p count after h => exact .poll p count after (hf.trans h)
  | destroy old p count after h hold =>
    exact .destroy old p count after (hf.trans h) ((he p.1 rfl).trans hold)
  | invoke p count h => exact .invoke p count (hf.trans h)
  | leaveEmpty count h => exact .leaveEmpty count (hf.trans h)
  | leave p count after h => exact .leave p count after (hf.trans h)
  | returned count h => exact .returned count (hf.trans h)
  | unwind p after h => exact .unwind p after (hf.trans h)
  | thrown h => exact .thrown (hf.trans h)

variable [DecidableEq ι] {threads : ι → Local (ℕ × Callable V F)}

theorem kept_update (h : ∀ j, Kept t j (threads j))
    (hf : ∀ j, j ≠ i → t'.entries (.f j) = t.entries (.f j))
    (he : ∀ j k, j ≠ i → Local.dying (threads j) = some k →
      t'.entries (.element k) = t.entries (.element k))
    (hi : Kept t' i l') (j : ι) : Kept t' j (Function.update threads i l' j) := by
  -- what a thread does to its own variable and to an element that no other thread destroys is
  -- not seen by the others
  by_cases hj : j = i
  · subst hj
    rw [Function.update_self]
    exact hi
  · rw [Function.update_of_ne hj]
    exact (h j).congr (hf j hj) (he j · hj)

theorem Stores.thread [Fintype ι] {g g' : Shared (ℕ × Callable V F)} (h : Stores ⟨g, threads⟩ t)
    (element : ∀ p ∈ g'.functionQueue, t'.entries (.element p.1) = some (some p.2))
    (noElement : ∀ k, k ∉ g'.functionQueue.map Prod.fst → Local.dying l' ≠ some k →
      (∀ j, j ≠ i → Local.dying (threads j) ≠ some k) → t'.entries (.element k) = none)
    (hf : ∀ j, j ≠ i → t'.entries (.f j) = t.entries (.f j))
    (he : ∀ j k, j ≠ i → Local.dying (threads j) = some k →
      t'.entries (.element k) = t.entries (.element k))
    (hi : Kept t' i l') (ran : List (Callable V F)) (new : List (ℕ × Callable V F))
    (hran : t'.history = t.history ++ ran.map .ran) (hnew : g'.executed = g.executed ++ new)
    (hrunning : (ran : Multiset (Callable V F)) + Local.running l' =
      Local.running (threads i) + (↑(new.map Prod.snd) : Multiset (Callable V F))) :
    Stores ⟨g', Function.update threads i l'⟩ t' where
  element := element
  noElement k hk hdying := by
    refine noElement k hk ?_ ?_
    · have hself := hdying i
      change Local.dying (Function.update threads i l' i) ≠ some k at hself
      rwa [Function.update_self] at hself
    · intro j hj
      have hother := hdying j
      change Local.dying (Function.update threads i l' j) ≠ some k at hother
      rwa [Function.update_of_ne hj] at hother
  kept := kept_update h.kept hf he hi
  history := by
    obtain ⟨before, hbefore, hexecuted⟩ := h.history
    refine ⟨before ++ ran, by rw [hran, hbefore, List.map_append], ?_⟩
    change (↑(g.executed.map Prod.snd) : Multiset (Callable V F)) =
      before + total Local.running threads at hexecuted
    change (↑(g'.executed.map Prod.snd) : Multiset (Callable V F)) =
      ↑(before ++ ran) + total Local.running (Function.update threads i l')
    have hu := total_update Local.running threads i l'
    apply add_right_cancel (b := Local.running (threads i))
    rw [hnew, List.map_append, ← Multiset.coe_add, ← Multiset.coe_add, hexecuted]
    calc (before : Multiset (Callable V F)) + total Local.running threads +
          ↑(new.map Prod.snd) + Local.running (threads i)
        = before + total Local.running threads +
            (Local.running (threads i) + ↑(new.map Prod.snd)) := by abel
      _ = before + total Local.running threads + (ran + Local.running l') := by rw [hrunning]
      _ = before + ran + (total Local.running threads + Local.running l') := by abel
      _ = before + ran + total Local.running (Function.update threads i l') +
            Local.running (threads i) := by rw [← hu]; abel

variable [Fintype ι] {g : Shared (ℕ × Callable V F)}

theorem stores_emplace (hn : Numbered ⟨g, threads⟩) (h : Stores ⟨g, threads⟩ t)
    (c : Callable V F) :
    ∃ t', Table.machine.run t [create (.element g.posted.length) c] = some t' ∧
      Stores ⟨g.emplace (g.posted.length, c), threads⟩ t' := by
  obtain ⟨hqueued, hdying⟩ := hn.next
  have hother (k : ℕ) (hk : k ≠ g.posted.length) :
      (t.set (.element g.posted.length) (some (some c))).entries (.element k) =
        t.entries (.element k) := Table.set_element_ne _ _ hk
  refine ⟨t.set (.element g.posted.length) (some (some c)), ?_, ?_, ?_, ?_, h.history⟩
  · rw [Table.run_one, Table.step_create]
    exact Table.add_eq_some.mpr ⟨h.noElement _ hqueued hdying, rfl⟩
  · intro p hp
    rcases List.mem_append.mp hp with hp | hp
    · refine (hother p.1 ?_).trans (h.element p hp)
      exact fun heq => hqueued (heq ▸ List.mem_map_of_mem hp)
    · cases List.mem_singleton.mp hp
      exact Table.set_self _ _ _
  · intro k hk hdead
    change k ∉ (g.functionQueue ++ [(g.posted.length, c)]).map Prod.fst at hk
    rw [List.map_append, List.mem_append, not_or, List.map_singleton, List.mem_singleton] at hk
    exact (hother k hk.2).trans (h.noElement k hk.1 hdead)
  · intro i
    refine (h.kept i).congr (Table.set_element_f _ _) fun k hk => hother k ?_
    rintro rfl
    exact hdying i hk

theorem Stores.assign (h : Stores ⟨g, threads⟩ t) {e : Option (Option (Callable V F))}
    (hi : Kept (t.set (.f i) e) i l') (hdying : Local.dying l' = Local.dying (threads i))
    (hrunning : Local.running l' = Local.running (threads i)) :
    Stores ⟨g, Function.update threads i l'⟩ (t.set (.f i) e) := by
  refine h.thread ?_ ?_ ?_ ?_ hi [] [] ?_ ?_ ?_
  · exact fun p hp => (Table.set_f_element _ _).trans (h.element p hp)
  · intro k hk hself hother
    refine (Table.set_f_element _ _).trans (h.noElement k hk fun j => ?_)
    by_cases hj : j = i
    · rw [hj]
      exact hdying ▸ hself
    · exact hother j hj
  · exact fun j hj => Table.set_f_ne _ _ hj
  · exact fun _ _ _ _ => Table.set_f_element _ _
  · rw [List.map_nil, List.append_nil]
    rfl
  · rw [List.append_nil]
  · rw [hrunning]
    exact add_comm 0 _

theorem stores_empty (h : Stores ⟨g, threads⟩ t) {f : Option (ℕ × Callable V F)} {count : ℕ}
    (hl : threads i = .poll f count) :
    ∃ t', Table.machine.run t (tryPop i (.poll f count) []) = some t' ∧
      Stores ⟨g, Function.update threads i (.leave f count)⟩ t' := by
  have hkept := h.kept i
  change Kept t i (threads i) at hkept
  rw [hl] at hkept
  cases hkept with
  | start _ hentry =>
    refine ⟨t.set (.f i) (some none), ?_, h.assign (.leaveEmpty count ?_) ?_ ?_⟩
    · rw [tryPop, Table.run_one]
      exact Table.add_eq_some.mpr ⟨hentry, rfl⟩
    · exact Table.set_self _ _ _
    · rw [hl]
      rfl
    · rw [hl]
      rfl
  | poll p _ after hentry =>
    have hset : t.set (.f i) (some (some (p.2.after after))) = t := by
      rw [Table.set, ← hentry, Function.update_eq_self]
    have hkept : Kept (t.set (.f i) (some (some (p.2.after after)))) i (.leave (some p) count) :=
      .leave p count after (Table.set_self _ _ _)
    have hstores := h.assign hkept (by rw [hl]; rfl) (by rw [hl]; rfl)
    rw [hset] at hstores
    exact ⟨t, rfl, hstores⟩

theorem stores_pop (hn : Numbered ⟨g, threads⟩) (h : Stores ⟨g, threads⟩ t)
    {g' : Shared (ℕ × Callable V F)} {p : ℕ × Callable V F} {e e' : Option (Option (Callable V F))}
    (hl : Local.dying (threads i) = none) (hq : g.functionQueue = p :: g'.functionQueue)
    (hi : Kept ((t.set (.f i) e).set (.element p.1) e') i l')
    (he' : Local.dying l' ≠ some p.1 → e' = none) (new : List (ℕ × Callable V F))
    (hnew : g'.executed = g.executed ++ new)
    (hrunning : Local.running l' =
      Local.running (threads i) + (↑(new.map Prod.snd) : Multiset (Callable V F))) :
    Stores ⟨g', Function.update threads i l'⟩ ((t.set (.f i) e).set (.element p.1) e') := by
  -- the front of the queue leaves it, for the variable `f` of a thread
  -- the numbers of the other elements are different
  have hnodup := (List.nodup_append.mp hn.nodup).2.1
  rw [hq, List.map_cons] at hnodup
  have hfresh : p.1 ∉ g'.functionQueue.map Prod.fst := (List.nodup_cons.mp hnodup).1
  have hother (k : ℕ) (hk : k ≠ p.1) :
      ((t.set (.f i) e).set (.element p.1) e').entries (.element k) = t.entries (.element k) :=
    (Table.set_element_ne _ _ hk).trans (Table.set_f_element _ _)
  refine h.thread ?_ ?_ ?_ ?_ hi [] new ?_ hnew ?_
  · intro q hqueue
    have hqk : q.1 ≠ p.1 := by
      intro heq
      apply hfresh
      rw [← heq]
      exact List.mem_map_of_mem hqueue
    exact (hother q.1 hqk).trans (h.element q (hq ▸ List.mem_cons_of_mem _ hqueue))
  · intro k hk hself hdead
    by_cases hkp : k = p.1
    · subst hkp
      rw [Table.set_self]
      exact he' hself
    · refine (hother k hkp).trans (h.noElement k ?_ fun j => ?_)
      · change k ∉ g.functionQueue.map Prod.fst
        rw [hq, List.map_cons, List.mem_cons]
        exact fun hmem => hmem.elim hkp hk
      · change Local.dying (threads j) ≠ some k
        by_cases hj : j = i
        · rw [hj, hl]
          exact (Option.some_ne_none k).symm
        · exact hdead j hj
  · exact fun j hj => (Table.set_element_f _ _).trans (Table.set_f_ne _ _ hj)
  · intro j k _ hk
    refine hother k ?_
    rintro rfl
    apply hn.dying_not_queued hk
    rw [hq]
    exact List.mem_cons_self
  · rw [List.map_nil, List.append_nil]
    rfl
  · rw [hrunning]
    exact zero_add _

theorem stores_first (hn : Numbered ⟨g, threads⟩) (h : Stores ⟨g, threads⟩ t) {count : ℕ}
    (hl : threads i = .poll none count) {p : ℕ × Callable V F}
    {queue : List (ℕ × Callable V F)} (hq : g.functionQueue = p :: queue) :
    ∃ t', Table.machine.run t (tryPop i (.poll none count) (p :: queue)) = some t' ∧
      Stores ⟨{ g with functionQueue := queue, popped := g.popped ++ [p],
                       executed := g.executed ++ [p] },
        Function.update threads i (.invoke p count)⟩ t' := by
  have helement : t.entries (.element p.1) = some (some p.2) :=
    h.element p (by rw [hq]; exact List.mem_cons_self)
  have hentry : t.entries (.f i) = none := by
    have hkept := h.kept i
    change Kept t i (threads i) at hkept
    rw [hl] at hkept
    cases hkept with
    | start _ hk => exact hk
  refine ⟨(t.set (.f i) (some (some p.2))).set (.element p.1) none, ?_, ?_⟩
  · rw [tryPop]
    exact Table.run_take hentry helement
  · refine stores_pop hn h ?_ hq (.invoke p count ?_) (fun _ => rfl) [p] rfl ?_
    · rw [hl]
      rfl
    · rw [Table.set_element_f, Table.set_self]
    · rw [hl]
      exact (zero_add _).symm

theorem stores_next (hn : Numbered ⟨g, threads⟩) (h : Stores ⟨g, threads⟩ t)
    {old : ℕ × Callable V F} {count : ℕ} (hl : threads i = .poll (some old) count)
    {p : ℕ × Callable V F} {queue : List (ℕ × Callable V F)}
    (hq : g.functionQueue = p :: queue) :
    ∃ t', Table.machine.run t (tryPop i (.poll (some old) count) (p :: queue)) = some t' ∧
      Stores ⟨{ g with functionQueue := queue, popped := g.popped ++ [p] },
        Function.update threads i (.destroy old p count)⟩ t' := by
  have helement : t.entries (.element p.1) = some (some p.2) :=
    h.element p (by rw [hq]; exact List.mem_cons_self)
  obtain ⟨after, hentry⟩ : ∃ after, t.entries (.f i) = some (some (old.2.after after)) := by
    have hkept := h.kept i
    change Kept t i (threads i) at hkept
    rw [hl] at hkept
    cases hkept with
    | poll _ _ after hk => exact ⟨after, hk⟩
  refine ⟨(t.set (.f i) (some (some p.2))).set (.element p.1)
    (some (some (old.2.after after))), ?_, ?_⟩
  · rw [tryPop, Table.run_one]
    exact Table.step_assign hentry helement
  · refine stores_pop hn h ?_ hq (.destroy old p count after ?_ ?_) ?_ [] ?_ ?_
    · rw [hl]
      rfl
    · rw [Table.set_element_f, Table.set_self]
    · exact Table.set_self _ _ _
    · exact fun hne => absurd rfl hne
    · exact (List.append_nil _).symm
    · rw [hl]
      rfl

theorem stores_enter (hn : Numbered ⟨g, threads⟩) (h : Stores ⟨g, threads⟩ t)
    {old p : ℕ × Callable V F} {count : ℕ} (hl : threads i = .destroy old p count) :
    ∃ t', Table.machine.run t (destroyed i (.destroy old p count)) = some t' ∧
      Stores ⟨{ g with executed := g.executed ++ [p] },
        Function.update threads i (.invoke p count)⟩ t' := by
  have hdying : Local.dying (threads i) = some p.1 := by
    rw [hl]
    rfl
  obtain ⟨hentry, x, helement⟩ : t.entries (.f i) = some (some p.2) ∧
      ∃ x, t.entries (.element p.1) = some x := by
    have hkept := h.kept i
    change Kept t i (threads i) at hkept
    rw [hl] at hkept
    cases hkept with
    | destroy _ _ _ after hk he => exact ⟨hk, some (old.2.after after), he⟩
  have hother (k : ℕ) (hk : k ≠ p.1) :
      (t.set (.element p.1) none).entries (.element k) = t.entries (.element k) :=
    Table.set_element_ne _ _ hk
  refine ⟨t.set (.element p.1) none, ?_, h.thread ?_ ?_ ?_ ?_ ?_ [] [p] ?_ rfl ?_⟩
  · rw [destroyed, Table.run_one, Table.step, helement]
  · intro q hq
    refine (hother q.1 ?_).trans (h.element q hq)
    intro heq
    exact hn.dying_not_queued hdying (heq ▸ List.mem_map_of_mem hq)
  · intro k hk _ hdead
    by_cases hkp : k = p.1
    · subst hkp
      exact Table.set_self _ _ _
    · refine (hother k hkp).trans (h.noElement k hk fun j => ?_)
      change Local.dying (threads j) ≠ some k
      by_cases hj : j = i
      · rw [hj, hdying]
        exact fun heq => hkp (Option.some.inj heq).symm
      · exact hdead j hj
  · exact fun _ _ => Table.set_element_f _ _
  · intro j k hj hk
    refine hother k ?_
    rintro rfl
    exact hj (hn.exclusive hk hdying)
  · exact .invoke p count ((Table.set_element_f _ _).trans hentry)
  · rw [List.map_nil, List.append_nil]
    rfl
  · rw [hl]
    rfl

theorem stores_call (h : Stores ⟨g, threads⟩ t) {p : ℕ × Callable V F} {count : ℕ}
    (hl : threads i = .invoke p count) (after : V)
    (hi : ∀ t' : Table (Name ι) V F, t'.entries (.f i) = some (some (p.2.after after)) →
      Kept t' i l') (hrunning : Local.running l' = 0) :
    ∃ t', Table.machine.run t (callLocal i after (.invoke p count)) = some t' ∧
      Stores ⟨g, Function.update threads i l'⟩ t' := by
  have hentry : t.entries (.f i) = some (some p.2) := by
    have hkept := h.kept i
    change Kept t i (threads i) at hkept
    rw [hl] at hkept
    cases hkept with
    | invoke _ _ hk => exact hk
  have helement (k : ℕ) :
      (t.set (.f i) (some (some (p.2.after after)))).entries (.element k) =
        t.entries (.element k) := Table.set_f_element _ _
  refine ⟨(t.set (.f i) (some (some (p.2.after after)))).record (.ran p.2), ?_,
    h.thread ?_ ?_ ?_ ?_ (hi _ (Table.set_self _ _ _)) [p.2] [] rfl ?_ ?_⟩
  · rw [callLocal, Table.run_one, Table.step, hentry]
  · exact fun q hq => (helement q.1).trans (h.element q hq)
  · intro k hk _ hdead
    refine (helement k).trans (h.noElement k hk fun j => ?_)
    change Local.dying (threads j) ≠ some k
    by_cases hj : j = i
    · rw [hj, hl]
      exact (Option.some_ne_none k).symm
    · exact hdead j hj
  · exact fun j hj => Table.set_f_ne t _ hj
  · exact fun _ k _ _ => helement k
  · exact (List.append_nil _).symm
  · rw [hl, hrunning]
    rfl

theorem stores_leave (h : Stores ⟨g, threads⟩ t) {x : Option (Callable V F)}
    (hx : t.entries (.f i) = some x)
    (hi : ∀ t' : Table (Name ι) V F, t'.entries (.f i) = none → Kept t' i l')
    (hdying : Local.dying l' = Local.dying (threads i))
    (hrunning : Local.running l' = Local.running (threads i)) :
    ∃ t', Table.machine.run t [.destroy (.f i)] = some t' ∧
      Stores ⟨g, Function.update threads i l'⟩ t' := by
  refine ⟨t.set (.f i) none, ?_, h.assign (hi _ (Table.set_self _ _ _)) hdying hrunning⟩
  rw [Table.run_one, Table.step, hx]

theorem trans_stores (hn : Numbered ⟨g, threads⟩) (h : Stores ⟨g, threads⟩ t) {a : Act V F}
    {g' : Shared (ℕ × Callable V F)}
    (ht : SynchronizedExecutionContext.Trans g (threads i) (label g.posted.length a) g' l') :
    ∃ t', Table.machine.run t (operations g i (threads i) a) = some t' ∧
      Stores ⟨g', Function.update threads i l'⟩ t' := by
  have hkept := h.kept i
  change Kept t i (threads i) at hkept
  generalize hl : threads i = l at ht hkept ⊢
  cases a with
  | tryPop =>
    cases ht with
    | empty f count hq =>
      rw [operations, hq]
      exact stores_empty h hl
    | first count p queue hq =>
      rw [operations, hq]
      exact stores_first hn h hl hq
    | next old count p queue hq =>
      rw [operations, hq]
      exact stores_next hn h hl hq
  | post c =>
    cases ht
    rw [← hl, Function.update_eq_self]
    exact stores_emplace hn h c
  | destroyPost c =>
    cases ht
    rw [← hl, Function.update_eq_self]
    exact stores_emplace hn h c
  | finish after =>
    cases ht with
    | finish p count =>
      exact stores_call h hl after (fun t' hx => .poll p (count + 1) after hx) rfl
  | throw after =>
    cases ht with
    | throw p count => exact stores_call h hl after (fun t' hx => .unwind p after hx) rfl
  | destroyed =>
    cases ht with
    | enter old p count => exact stores_enter hn h hl
    | left f count =>
      obtain ⟨x, hx⟩ : ∃ x, t.entries (.f i) = some x := by
        cases hkept with
        | leaveEmpty _ hx => exact ⟨_, hx⟩
        | leave _ _ _ hx => exact ⟨_, hx⟩
      refine stores_leave h hx (fun t' hx => .returned count hx) ?_ ?_
      · rw [hl]
        rfl
      · rw [hl]
        rfl
    | unwound p =>
      obtain ⟨x, hx⟩ : ∃ x, t.entries (.f i) = some x := by
        cases hkept with
        | unwind _ _ hx => exact ⟨_, hx⟩
      refine stores_leave h hx (fun t' hx => .thrown hx) ?_ ?_
      · rw [hl]
        rfl
      · rw [hl]
        rfl

end Objects

section Runs

theorem new_numbered : Numbered (State.new : State ι V F).config where
  order := rfl
  numbers := rfl
  dying := nofun
  exclusive := exclusive_none

def Local.Inside : Local (ℕ × Callable V F) → Prop
  | .poll none _ | .returned _ | .thrown => False
  | _ => True

theorem Kept.none_of_not_inside {t : Table (Name ι) V F} {i : ι} {l : Local (ℕ × Callable V F)}
    (h : Kept t i l) (hl : ¬ Local.Inside l) : t.entries (.f i) = none := by
  cases h with
  | start _ h | returned _ h | thrown h => exact h
  | _ => exact absurd trivial hl

variable [Fintype ι]

theorem new_stores : Stores (State.new : State ι V F).config Table.init where
  element _ h := absurd h List.not_mem_nil
  noElement _ _ _ := rfl
  kept _ := .start 0 rfl
  history := by
    refine ⟨[], rfl, ?_⟩
    have hzero : total Local.running (State.new : State ι V F).config.threads = 0 :=
      total_const _ _ rfl
    rw [hzero]
    rfl

theorem Stores.exists_holder {c : Config ι (Shared (ℕ × Callable V F)) (Local (ℕ × Callable V F))}
    {t : Table (Name ι) V F} (h : Stores c t) {n : Name ι} (hn : t.entries n ≠ none) :
    (∃ p ∈ c.shared.functionQueue, n = .element p.1) ∨
      (∃ i k, Local.dying (c.threads i) = some k ∧ n = .element k) ∨
      ∃ i, Local.Inside (c.threads i) ∧ n = .f i := by
  cases n with
  | element k =>
    by_contra hno
    rw [not_or, not_or] at hno
    refine hn (h.noElement k (fun hmem => ?_) fun i hi => hno.2.1 ⟨i, k, hi, rfl⟩)
    obtain ⟨p, hp, rfl⟩ := List.mem_map.mp hmem
    exact hno.1 ⟨p, hp, rfl⟩
  | f i =>
    refine .inr (.inr ⟨i, ?_, rfl⟩)
    by_contra hno
    exact hn ((h.kept i).none_of_not_inside hno)

variable [DecidableEq ι]

structure Inv (s : State ι V F) : Prop where
  numbered : Numbered s.config
  stores : ∃ t, Table.machine.run Table.init s.operations = some t ∧ Stores s.config t

theorem step_inv {s s' : State ι V F} {e : Event ι V F} (hs : Inv s)
    (h : (machine ι V F).step s e = some s') : Inv s' := by
  obtain ⟨hn, t, ht, hstores⟩ := hs
  suffices hsuff : Numbered s'.config ∧ ∃ ops, s'.operations = s.operations ++ ops ∧
      ∃ t', Table.machine.run t ops = some t' ∧ Stores s'.config t' by
    obtain ⟨hn', ops, hops, t', ht', hstores'⟩ := hsuff
    refine ⟨hn', t', ?_, hstores'⟩
    rw [hops, Machine.run_append, ht]
    exact ht'
  cases e with
  | thread i a =>
    obtain ⟨config, hstep, rfl⟩ := Option.map_eq_some_iff.mp h
    obtain ⟨g', l', hlocal, rfl⟩ := interleave_step.mp hstep
    have htrans := SynchronizedExecutionContext.step_trans hlocal
    refine ⟨trans_numbered hn ?_ htrans, _, rfl, trans_stores hn hstores htrans⟩
    intro p hp
    cases a <;> rcases hp with hp | hp <;> cases hp <;> rfl
  | post c =>
    obtain rfl := Option.some.inj h
    exact ⟨hn.emplace c, _, rfl, stores_emplace hn hstores c⟩

theorem run_inv {events : List (Event ι V F)} {s : State ι V F}
    (h : (machine ι V F).run .new events = some s) : Inv s :=
  Machine.invariant_of_step (I := Inv) (fun _ _ _ hs hstep => step_inv hs hstep)
    ⟨new_numbered, _, rfl, new_stores⟩ h

/-- In every interleaving of any number of threads that run the context and of others that
post, with tasks of any types and sizes that post, return or throw and whose destructors post,
and wherever the objects are put: none of the operations on the objects is forbidden.  The
elements of the queue hold the tasks that wait, and the variable `f` of a thread the one that
it calls, and while it still has the element to destroy that the task came from, that element
holds what is left of the task before.  There are no other objects; each task that has been
invoked has been called, or is being called, once; what lives is held by one object, and when
the queue is empty and no thread is inside `run`, nothing lives any more. -/
theorem threads_keep_functions [DecidableEq F] (address : F → ℕ) {events : List (Event ι V F)}
    {s : State ι V F} (h : (machine ι V F).run .new events = some s)
    {ops : List (Op (Name ι) V F × Placement)} (hops : ops.map Prod.fst = s.operations)
    (hplaced : (UniqueFunction.machine address).Before (Placed address) .init ops) :
    ∃ u, (UniqueFunction.machine address).run .init ops = some u ∧
      (∀ p ∈ s.config.shared.functionQueue, u.callable (.element p.1) = some (some p.2)) ∧
      (∀ i p count, s.config.threads i = .invoke p count →
        u.callable (.f i) = some (some p.2)) ∧
      (∀ i old p count, s.config.threads i = .destroy old p count →
        u.callable (.f i) = some (some p.2) ∧
          ∃ after, u.callable (.element p.1) = some (some (old.2.after after))) ∧
      (∀ n, u.objects n ≠ none → (∃ p ∈ s.config.shared.functionQueue, n = .element p.1) ∨
        (∃ i k, Local.dying (s.config.threads i) = some k ∧ n = .element k) ∨
          ∃ i, Local.Inside (s.config.threads i) ∧ n = .f i) ∧
      (∃ ran : List (Callable V F), u.history = ran.map .ran ∧
        (↑(s.config.shared.executed.map Prod.snd) : Multiset (Callable V F)) =
          ran + total Local.running s.config.threads) ∧
      Accounted u ∧
      (s.config.shared.functionQueue = [] → (∀ i, ¬ Local.Inside (s.config.threads i)) →
        ∀ n k, u.objects n = none ∧ u.memory (.object n) = none ∧ u.memory (.heap k) = none) := by
  obtain ⟨t, ht, hstores⟩ := (run_inv h).stores
  rw [← hops] at ht
  obtain ⟨u, hu, hr⟩ := UniqueFunction.exists_refining_run address hplaced ht
  have hobjects (n : Name ι) (hn : u.objects n ≠ none) :=
    hstores.exists_holder fun hnone => hn (hr.absent n hnone).1
  refine ⟨u, hu, ?_, ?_, ?_, hobjects, ?_, hr.accounted, ?_⟩
  · intro p hp
    rw [hr.callable]
    exact hstores.element p hp
  · intro i p count hi
    rw [hr.callable]
    have hkept := hstores.kept i
    rw [hi] at hkept
    cases hkept with
    | invoke _ _ hk => exact hk
  · intro i old p count hi
    rw [hr.callable, hr.callable]
    have hkept := hstores.kept i
    rw [hi] at hkept
    cases hkept with
    | destroy _ _ _ after hk he => exact ⟨hk, after, he⟩
  · rw [hr.history]
    exact hstores.history
  · intro hqueue hthreads n k
    have hnone (n : Name ι) : u.objects n = none := by
      by_contra hn
      rcases hobjects n hn with ⟨p, hp, -⟩ | ⟨i, k, hk, -⟩ | ⟨i, hi, -⟩
      · rw [hqueue] at hp
        exact List.not_mem_nil hp
      · have hi := hthreads i
        cases hl : s.config.threads i with
        | destroy old p count => exact hi (by rw [hl]; trivial)
        | _ =>
          rw [hl] at hk
          cases hk
      · exact hthreads i hi
    exact ⟨hnone n, hr.accounted.nothing_lives hnone n k⟩

end Runs

section TwoTasks

open UniqueFunction (smallType)

/-- Thread `true` runs a task, and then one that is posted meanwhile. -/
def twoTasks : List (Event Bool ℕ Bool) :=
  [.post (.object smallType 5), .thread true .tryPop, .post (.function false),
    .thread true (.finish 7), .thread true .tryPop, .thread true .destroyed,
    .thread true (.finish 0), .thread true .tryPop, .thread true .destroyed]

def twoTasksOps : List (Op (Name Bool) ℕ Bool × Placement) :=
  [(.emplace (.element 0) smallType 5, ⟨64, 0, 512, 0⟩), (.construct (.f true), ⟨128, 0, 0, 0⟩),
    (.moveAssign (.f true) (.element 0), ⟨0, 0, 0, 192⟩),
    (.destroy (.element 0), ⟨0, 0, 0, 0⟩), (.fromPointer (.element 1) false, ⟨256, 0, 0, 0⟩),
    (.call (.f true) 7, ⟨0, 0, 0, 0⟩), (.moveAssign (.f true) (.element 1), ⟨0, 0, 0, 192⟩),
    (.destroy (.element 1), ⟨0, 0, 0, 0⟩), (.call (.f true) 0, ⟨0, 0, 0, 0⟩),
    (.destroy (.f true), ⟨0, 0, 0, 0⟩)]

theorem twoTasksOps_placed :
    (UniqueFunction.machine fun _ => 8).Before (Placed fun _ => 8) .init twoTasksOps := by
  refine ⟨⟨⟨⟨1, rfl⟩, ?_, fun _ => by decide⟩, rfl, ⟨64, rfl⟩, ?_, by decide⟩, ?_⟩
  · intro k slot hslot
    cases hslot
  · intro m o ho
    cases ho
  intro s hs
  cases hs
  refine ⟨⟨⟨2, rfl⟩, ?_, fun _ => by decide⟩, ?_⟩
  · intro k slot hslot
    cases hslot
  intro s hs
  cases hs
  refine ⟨⟨3, rfl⟩, ?_⟩
  intro s hs
  cases hs
  refine ⟨trivial, ?_⟩
  intro s hs
  cases hs
  refine ⟨⟨⟨4, rfl⟩, ?_, fun _ => by decide⟩, ?_⟩
  · intro k slot hslot
    cases hslot
  exact fun s _ => ⟨trivial, fun s _ => ⟨⟨3, rfl⟩, fun s _ => ⟨trivial, fun s _ => ⟨trivial,
    fun s _ => ⟨trivial, fun s _ => trivial⟩⟩⟩⟩⟩

theorem threads_keep_functions_two : ∃ u,
    (UniqueFunction.machine fun _ => 8).run .init twoTasksOps = some u ∧
      ∀ n k, u.objects n = none ∧ u.memory (.object n) = none ∧ u.memory (.heap k) = none := by
  obtain ⟨s, h, hops, hqueue, hthreads⟩ : ∃ s,
      (machine Bool ℕ Bool).run .new twoTasks = some s ∧
        twoTasksOps.map Prod.fst = s.operations ∧ s.config.shared.functionQueue = [] ∧
        (s.config.threads true = .returned 2 ∧ s.config.threads false = .poll none 0) :=
    ⟨_, rfl, rfl, rfl, rfl, rfl⟩
  obtain ⟨u, hu, -, -, -, -, -, -, hnone⟩ :=
    threads_keep_functions (fun _ => 8) h hops twoTasksOps_placed
  refine ⟨u, hu, hnone hqueue fun i => ?_⟩
  cases i with
  | false =>
    rw [hthreads.2]
    exact id
  | true =>
    rw [hthreads.1]
    exact id

end TwoTasks

end BadIo.ExecutionContext.SharedStorage
