import Mathlib.Data.List.Perm.Basic
import BadIo.Holders
import BadIo.Semaphore.Basic
import BadIo.UniqueFunction.Elements

namespace BadIo.Semaphore.Storage

open UniqueFunction (Accounted CallsEmpty Callable Name Op Placed Placement Table create)

variable {ι V F : Type}

/-- The variable of a thread is `f (.inl i)`, and what the executor was handed as the `n`-th
is `f (.inr n)`; it has called the first `ran` of these.  A completion is numbered by the
time at which it comes. -/
structure State (ι V F : Type) where
  config : Config ι (Shared (ℕ × Callable V F)) (Local (ℕ × Callable V F))
  time : ℕ
  ran : ℕ
  operations : List (Op (Name (ι ⊕ ℕ)) V F)

def State.new (desired : ℤ) : State ι V F := ⟨initial desired, 0, 0, []⟩

/-- The executor calls the functions in the order in which it was handed them. -/
inductive Event (ι V F : Type) where
  | thread (i : ι) (a : Act (ℕ × Callable V F))
  | run (after : V)
  deriving DecidableEq

def number? : Act (ℕ × Callable V F) → Option ℕ
  | .asyncAcquire p => some p.1
  | _ => none

def operations (posted : ℕ) (i : ι) :
    Local (ℕ × Callable V F) → Act (ℕ × Callable V F) → List (Op (Name (ι ⊕ ℕ)) V F)
  | .posting (_, c), .post => [create (.f (.inr posted)) c]
  | .enqueueing (k, c), .enqueue =>
    [create (.f (.inl i)) c, .moveConstruct (.element k) (.f (.inl i)), .destroy (.f (.inl i))]
  | .draining _ _, .tryDequeue (some (k, _)) =>
    [.construct (.f (.inl i)), .moveAssign (.f (.inl i)) (.element k), .destroy (.element k)]
  | .draining _ _, .tryDequeue none => [.construct (.f (.inl i))]
  | .handing _ _ _, .post =>
    [.moveConstruct (.f (.inr posted)) (.f (.inl i)), .destroy (.f (.inl i))]
  | _, _ => []

section Machine

variable [DecidableEq ι] [DecidableEq V] [DecidableEq F]

def step (ndebug : Bool) (s : State ι V F) : Event ι V F → Option (State ι V F)
  | .thread i a =>
    if number? a = none ∨ number? a = some s.time then
      ((Semaphore.machine ι (ℕ × Callable V F) ndebug).step s.config (i, a)).map fun config =>
        { s with
          config
          time := s.time + 1
          operations := s.operations ++
            operations s.config.shared.posted.length i (s.config.threads i) a }
    else none
  | .run after =>
    if s.config.shared.aborted ∨ s.config.shared.posted.length ≤ s.ran then none
    else some { s with
      ran := s.ran + 1
      operations := s.operations ++
        [.call (.f (.inr s.ran)) after, .destroy (.f (.inr s.ran))] }

def machine (ι V F : Type) [DecidableEq ι] [DecidableEq V] [DecidableEq F] (ndebug : Bool) :
    Machine (State ι V F) (Event ι V F) := ⟨step ndebug⟩

end Machine

theorem perm_cons_erase {τ : Type} [DecidableEq τ] {l : List τ} {p : τ} (hp : p ∈ l) :
    l.Perm (p :: l.erase p) :=
  List.perm_cons_erase hp

def Local.pending : Local (ℕ × Callable V F) → Option ℕ
  | .enqueueing p => some p.1
  | _ => none

structure Numbered (c : Config ι (Shared (ℕ × Callable V F)) (Local (ℕ × Callable V F)))
    (time : ℕ) : Prop where
  distinct : (c.shared.functions.map Prod.fst).Nodup
  below : ∀ k ∈ c.shared.functions.map Prod.fst, k < time
  pending : ∀ i k, Local.pending (c.threads i) = some k →
    k < time ∧ k ∉ c.shared.functions.map Prod.fst
  exclusive : Exclusive fun i => Local.pending (c.threads i)

section Numbers

variable {g g' : Shared (ℕ × Callable V F)} {threads : ι → Local (ℕ × Callable V F)}
  {l' : Local (ℕ × Callable V F)} {i : ι} {time : ℕ}

theorem new_numbered (desired : ℤ) :
    Numbered (State.new desired : State ι V F).config 0 where
  distinct := List.nodup_nil
  below _ h := absurd h List.not_mem_nil
  pending := nofun
  exclusive := exclusive_none

variable [DecidableEq ι]

theorem Numbered.thread (h : Numbered ⟨g, threads⟩ time)
    (hdistinct : (g'.functions.map Prod.fst).Nodup)
    (hmem : ∀ k ∈ g'.functions.map Prod.fst,
      k ∈ g.functions.map Prod.fst ∨ Local.pending (threads i) = some k)
    (hpending : ∀ k, Local.pending l' = some k → k = time) :
    Numbered ⟨g', Function.update threads i l'⟩ (time + 1) := by
  have hbelow : ∀ k ∈ g'.functions.map Prod.fst, k < time := by
    intro k hk
    rcases hmem k hk with hk | hk
    · exact h.below k hk
    · exact (h.pending i k hk).1
  refine ⟨hdistinct, fun k hk => (hbelow k hk).trans (Nat.lt_succ_self _), ?_, ?_⟩
  · intro j k hk
    change Local.pending (Function.update threads i l' j) = some k at hk
    by_cases hj : j = i
    · subst hj
      rw [Function.update_self] at hk
      obtain rfl := hpending k hk
      exact ⟨Nat.lt_succ_self _, fun hmem => Nat.lt_irrefl _ (hbelow _ hmem)⟩
    · rw [Function.update_of_ne hj] at hk
      obtain ⟨hlt, hnot⟩ := h.pending j k hk
      refine ⟨hlt.trans (Nat.lt_succ_self _), fun hk' => ?_⟩
      rcases hmem k hk' with hk' | hk'
      · exact hnot hk'
      · exact hj (h.exclusive hk hk')
  · have hupdate : (fun j => Local.pending (Function.update threads i l' j)) =
        Function.update (fun j => Local.pending (threads j)) i (Local.pending l') :=
      Function.comp_update Local.pending threads i l'
    change Exclusive fun j => Local.pending (Function.update threads i l' j)
    rw [hupdate]
    cases hk : Local.pending l' with
    | none => exact h.exclusive.drop i
    | some k =>
      apply h.exclusive.give
      rintro ⟨j, hj⟩
      obtain rfl := hpending k hk
      exact Nat.lt_irrefl _ (h.pending j _ hj).1

theorem tryLoop_pending (old : ℤ) :
    Local.pending (tryLoop old : Local (ℕ × Callable V F)) = none := by
  unfold tryLoop
  split <;> rfl

theorem releaseLoop_pending (j old : ℤ) :
    Local.pending (releaseLoop j old : Local (ℕ × Callable V F)) = none := by
  unfold releaseLoop
  split <;> rfl

variable [DecidableEq V] [DecidableEq F] {ndebug : Bool} {a : Act (ℕ × Callable V F)}

theorem trans_numbered (h : Numbered ⟨g, threads⟩ time)
    (ha : number? a = none ∨ number? a = some time) (ht : Trans ndebug g (threads i) a g' l') :
    Numbered ⟨g', Function.update threads i l'⟩ (time + 1) := by
  have hnone {l : Local (ℕ × Callable V F)} (hl : Local.pending l = none) (k : ℕ)
      (hk : Local.pending l = some k) : k = time := by
    rw [hl] at hk
    cases hk
  generalize hl : threads i = l at ht
  cases ht with
  | wait p hc =>
    refine h.thread h.distinct (fun k hk => .inl hk) fun k hk => ?_
    cases hk
    exact ha.elim nofun Option.some.inj
  | enqueue p =>
    have hp : Local.pending (threads i) = some p.1 := by
      rw [hl]
      rfl
    refine h.thread ?_ ?_ (hnone rfl)
    · change ((g.functions ++ [p]).map Prod.fst).Nodup
      rw [List.map_append, List.map_singleton]
      refine List.nodup_append.mpr ⟨h.distinct, List.nodup_singleton _, ?_⟩
      intro k hk k' hk' heq
      rw [List.mem_singleton.mp hk'] at heq
      exact (h.pending i p.1 hp).2 (heq ▸ hk)
    · intro k hk
      rw [List.map_append, List.mem_append, List.map_singleton, List.mem_singleton] at hk
      rcases hk with hk | rfl
      · exact .inl hk
      · exact .inr hp
  | dequeue j old p hp =>
    have hperm := (perm_cons_erase hp).map Prod.fst
    refine h.thread ?_ ?_ (hnone rfl)
    · exact (List.nodup_cons.mp (hperm.nodup_iff.mp h.distinct)).2
    · exact fun k hk => .inl (hperm.mem_iff.mpr (List.mem_cons_of_mem _ hk))
  | load | reload =>
    exact h.thread h.distinct (fun k hk => .inl hk) (hnone (tryLoop_pending _))
  | release | hand =>
    exact h.thread h.distinct (fun k hk => .inl hk) (hnone (releaseLoop_pending _ _))
  | _ => exact h.thread h.distinct (fun k hk => .inl hk) (hnone rfl)

end Numbers

def Local.held : Local (ℕ × Callable V F) → Option (Option (Callable V F))
  | .handing f _ _ => some (f.map Prod.snd)
  | _ => none

/-- There are the elements of the two queues and the variables of the threads that hand a
completion over, and no other objects. -/
structure Stores (c : Config ι (Shared (ℕ × Callable V F)) (Local (ℕ × Callable V F))) (ran : ℕ)
    (t : Table (Name (ι ⊕ ℕ)) V F) : Prop where
  element : ∀ p ∈ c.shared.functions, t.entries (.element p.1) = some (some p.2)
  noElement : ∀ k, k ∉ c.shared.functions.map Prod.fst → t.entries (.element k) = none
  held : ∀ i, t.entries (.f (.inl i)) = Local.held (c.threads i)
  handed : ∀ n, t.entries (.f (.inr n)) =
    if n < ran then none else c.shared.posted[n]?.map (Option.map Prod.snd)
  history : t.history = ((c.shared.posted.take ran).filterMap id).map fun p => .ran p.2

section Objects

variable {t t' : Table (Name (ι ⊕ ℕ)) V F} {g g' : Shared (ℕ × Callable V F)}
  {threads : ι → Local (ℕ × Callable V F)} {l' : Local (ℕ × Callable V F)} {i : ι}
  {ran time : ℕ}

theorem new_stores (desired : ℤ) :
    Stores (State.new desired : State ι V F).config 0 Table.init where
  element _ h := absurd h List.not_mem_nil
  noElement _ _ := rfl
  held _ := rfl
  handed _ := rfl
  history := rfl

theorem tryLoop_held (old : ℤ) :
    Local.held (tryLoop old : Local (ℕ × Callable V F)) = none := by
  unfold tryLoop
  split <;> rfl

theorem releaseLoop_held (j old : ℤ) :
    Local.held (releaseLoop j old : Local (ℕ × Callable V F)) = none := by
  unfold releaseLoop
  split <;> rfl

theorem Stores.own (h : Stores ⟨g, threads⟩ ran t) {l : Local (ℕ × Callable V F)}
    (hl : threads i = l) : t.entries (.f (.inl i)) = Local.held l :=
  (h.held i).trans (congrArg Local.held hl)

theorem Stores.entries_next (h : Stores ⟨g, threads⟩ ran t) (hran : ran ≤ g.posted.length) :
    t.entries (.f (.inr g.posted.length)) = none := by
  rw [h.handed, if_neg (Nat.not_lt.mpr hran), List.getElem?_eq_none le_rfl]
  rfl

theorem Stores.exists_holder
    {c : Config ι (Shared (ℕ × Callable V F)) (Local (ℕ × Callable V F))} (h : Stores c ran t)
    {n : Name (ι ⊕ ℕ)} (hn : t.entries n ≠ none) :
    (∃ p ∈ c.shared.functions, n = .element p.1) ∨
      (∃ i f j old, c.threads i = .handing f j old ∧ n = .f (.inl i)) ∨
      ∃ m, ran ≤ m ∧ m < c.shared.posted.length ∧ n = .f (.inr m) := by
  rcases n with k | i | m
  · by_contra hno
    refine hn (h.noElement k fun hmem => ?_)
    obtain ⟨p, hp, rfl⟩ := List.mem_map.mp hmem
    exact hno (.inl ⟨p, hp, rfl⟩)
  · rw [h.held i] at hn
    cases hl : c.threads i with
    | handing f j old => exact .inr (.inl ⟨i, f, j, old, hl, rfl⟩)
    | _ =>
      rw [hl] at hn
      exact absurd rfl hn
  · rw [h.handed m] at hn
    refine .inr (.inr ⟨m, ?_, ?_, rfl⟩)
    · by_contra hlt
      exact hn (if_pos (Nat.lt_of_not_le hlt))
    · by_contra hlt
      rw [List.getElem?_eq_none (Nat.le_of_not_lt hlt)] at hn
      exact hn (ite_self none)

variable [DecidableEq ι]

theorem held_update (h : ∀ j, t.entries (.f (.inl j)) = Local.held (threads j))
    (hother : ∀ j, j ≠ i → t'.entries (.f (.inl j)) = t.entries (.f (.inl j)))
    (hi : t'.entries (.f (.inl i)) = Local.held l') (j : ι) :
    t'.entries (.f (.inl j)) = Local.held (Function.update threads i l' j) := by
  by_cases hj : j = i
  · subst hj
    rw [Function.update_self]
    exact hi
  · rw [Function.update_of_ne hj]
    exact (hother j hj).trans (h j)

theorem Stores.quiet (h : Stores ⟨g, threads⟩ ran t) (hfunctions : g'.functions = g.functions)
    (hposted : g'.posted = g.posted) (hi : Local.held (threads i) = Local.held l') :
    Stores ⟨g', Function.update threads i l'⟩ ran t where
  element p hp := h.element p (hfunctions ▸ hp)
  noElement k hk := h.noElement k (hfunctions ▸ hk)
  held := held_update h.held (fun _ _ => rfl) ((h.held i).trans hi)
  handed n := by
    change _ = if n < ran then none else g'.posted[n]?.map (Option.map Prod.snd)
    rw [hposted]
    exact h.handed n
  history := by
    change _ = ((g'.posted.take ran).filterMap id).map _
    rw [hposted]
    exact h.history

theorem Stores.post (h : Stores ⟨g, threads⟩ ran t) {f : Option (ℕ × Callable V F)}
    (hran : ran ≤ g.posted.length) (hfunctions : g'.functions = g.functions)
    (hposted : g'.posted = g.posted ++ [f]) (hi : Local.held l' = none)
    (helement : ∀ k, t'.entries (.element k) = t.entries (.element k))
    (hnone : t'.entries (.f (.inl i)) = none)
    (hother : ∀ j, j ≠ i → t'.entries (.f (.inl j)) = t.entries (.f (.inl j)))
    (hnew : t'.entries (.f (.inr g.posted.length)) = some (f.map Prod.snd))
    (hold : ∀ n, n ≠ g.posted.length → t'.entries (.f (.inr n)) = t.entries (.f (.inr n)))
    (hhistory : t'.history = t.history) :
    Stores ⟨g', Function.update threads i l'⟩ ran t' where
  element p hp := (helement p.1).trans (h.element p (hfunctions ▸ hp))
  noElement k hk := (helement k).trans (h.noElement k (hfunctions ▸ hk))
  held := held_update h.held hother (hnone.trans hi.symm)
  handed n := by
    change _ = if n < ran then none else g'.posted[n]?.map (Option.map Prod.snd)
    rw [hposted]
    by_cases hn : n = g.posted.length
    · subst hn
      rw [hnew, if_neg (Nat.not_lt.mpr hran), List.getElem?_concat_length]
      rfl
    · have hget : (g.posted ++ [f])[n]? = g.posted[n]? := by
        rcases Nat.lt_or_gt_of_ne hn with hlt | hgt
        · exact List.getElem?_append_left hlt
        · have hlen : (g.posted ++ [f]).length ≤ n := by
            rw [List.length_append, List.length_singleton]
            omega
          rw [List.getElem?_eq_none hlen, List.getElem?_eq_none (Nat.le_of_lt hgt)]
      rw [hget]
      exact (hold n hn).trans (h.handed n)
  history := by
    change _ = ((g'.posted.take ran).filterMap id).map _
    rw [hhistory, hposted, List.take_append_of_le_length hran]
    exact h.history

theorem stores_posting (h : Stores ⟨g, threads⟩ ran t) (hran : ran ≤ g.posted.length)
    {p : ℕ × Callable V F} (hl : threads i = .posting p) :
    ∃ t', Table.machine.run t (operations g.posted.length i (.posting p) .post) = some t' ∧
      Stores ⟨{ g with posted := g.posted ++ [some p] }, Function.update threads i .idle⟩ ran
        t' := by
  have hown : t.entries (.f (.inl i)) = none := h.own hl
  have hnew := h.entries_next hran
  refine ⟨t.set (.f (.inr g.posted.length)) (some (some p.2)), ?_,
    h.post hran rfl rfl rfl ?_ ?_ ?_ ?_ ?_ rfl⟩
  · rw [operations, Table.run_one, Table.step_create]
    exact Table.add_eq_some.mpr ⟨hnew, rfl⟩
  · exact fun k => Table.set_f_element _ _
  · exact (Table.set_f_ne _ _ Sum.inl_ne_inr).trans hown
  · exact fun j _ => Table.set_f_ne _ _ Sum.inl_ne_inr
  · exact Table.set_self _ _ _
  · exact fun n hn => Table.set_f_ne _ _ fun heq => hn (Sum.inr.inj heq)

theorem stores_handing (h : Stores ⟨g, threads⟩ ran t) (hran : ran ≤ g.posted.length)
    {f : Option (ℕ × Callable V F)} {j old : ℤ} (hl : threads i = .handing f j old) :
    ∃ t', Table.machine.run t (operations g.posted.length i (.handing f j old) .post) = some t' ∧
      Stores ⟨{ g with posted := g.posted ++ [f] },
        Function.update threads i (releaseLoop (j + 1) old)⟩ ran t' := by
  have hown : t.entries (.f (.inl i)) = some (f.map Prod.snd) := h.own hl
  have hnew := h.entries_next hran
  refine ⟨(t.set (.f (.inr g.posted.length)) (some (f.map Prod.snd))).set (.f (.inl i)) none, ?_,
    h.post hran rfl rfl (releaseLoop_held _ _) ?_ ?_ ?_ ?_ ?_ rfl⟩
  · rw [operations]
    exact Table.run_move hnew hown
  · exact fun k => (Table.set_f_element _ _).trans (Table.set_f_element _ _)
  · exact Table.set_self _ _ _
  · intro m hm
    refine (Table.set_f_ne _ _ fun heq => hm (Sum.inl.inj heq)).trans ?_
    exact Table.set_f_ne _ _ Sum.inl_ne_inr
  · exact (Table.set_f_ne _ _ Sum.inr_ne_inl).trans (Table.set_self _ _ _)
  · intro n hn
    refine (Table.set_f_ne _ _ Sum.inr_ne_inl).trans ?_
    exact Table.set_f_ne _ _ fun heq => hn (Sum.inr.inj heq)

theorem stores_enqueue (hn : Numbered ⟨g, threads⟩ time) (h : Stores ⟨g, threads⟩ ran t)
    {p : ℕ × Callable V F} (hl : threads i = .enqueueing p) :
    ∃ t', Table.machine.run t (operations g.posted.length i (.enqueueing p) .enqueue) = some t' ∧
      Stores ⟨{ g with functions := g.functions ++ [p] }, Function.update threads i .idle⟩ ran
        t' := by
  have hown : t.entries (.f (.inl i)) = none := h.own hl
  have hfresh : p.1 ∉ g.functions.map Prod.fst := by
    refine (hn.pending i p.1 ?_).2
    change Local.pending (threads i) = some p.1
    rw [hl]
    rfl
  have hother (k : ℕ) (hk : k ≠ p.1) :
      (((t.set (.f (.inl i)) (some (some p.2))).set (.element p.1) (some (some p.2))).set
        (.f (.inl i)) none).entries (.element k) = t.entries (.element k) :=
    (Table.set_f_element _ _).trans
      ((Table.set_element_ne _ _ hk).trans (Table.set_f_element _ _))
  have hnames (x : ι ⊕ ℕ) (hx : x ≠ .inl i) :
      (((t.set (.f (.inl i)) (some (some p.2))).set (.element p.1) (some (some p.2))).set
        (.f (.inl i)) none).entries (.f x) = t.entries (.f x) :=
    (Table.set_f_ne _ _ hx).trans ((Table.set_element_f _ _).trans (Table.set_f_ne _ _ hx))
  refine ⟨((t.set (.f (.inl i)) (some (some p.2))).set (.element p.1) (some (some p.2))).set
    (.f (.inl i)) none, ?_, ?_, ?_, ?_, ?_, h.history⟩
  · have hcreate : t.step (create (.f (.inl i)) p.2) =
        some (t.set (.f (.inl i)) (some (some p.2))) := by
      rw [Table.step_create]
      exact Table.add_eq_some.mpr ⟨hown, rfl⟩
    rw [operations, Machine.run_cons]
    change (t.step (create (.f (.inl i)) p.2)).bind _ = _
    rw [hcreate]
    refine Table.run_move ?_ (Table.set_self _ _ _)
    exact (Table.set_f_element _ _).trans (h.noElement p.1 hfresh)
  · intro q hq
    rcases List.mem_append.mp hq with hq | hq
    · refine (hother q.1 ?_).trans (h.element q hq)
      exact fun heq => hfresh (heq ▸ List.mem_map_of_mem hq)
    · cases List.mem_singleton.mp hq
      exact (Table.set_f_element _ _).trans (Table.set_self _ _ _)
  · intro k hk
    change k ∉ (g.functions ++ [p]).map Prod.fst at hk
    rw [List.map_append, List.mem_append, not_or, List.map_singleton, List.mem_singleton] at hk
    exact (hother k hk.2).trans (h.noElement k hk.1)
  · refine held_update h.held (fun j hj => hnames _ fun heq => hj (Sum.inl.inj heq)) ?_
    exact Table.set_self _ _ _
  · exact fun n => (hnames _ Sum.inr_ne_inl).trans (h.handed n)

theorem stores_dequeue (hn : Numbered ⟨g, threads⟩ time) (h : Stores ⟨g, threads⟩ ran t)
    {p : ℕ × Callable V F} {j old : ℤ} (hl : threads i = .draining j old)
    {functions : List (ℕ × Callable V F)} (hperm : g.functions.Perm (p :: functions)) :
    ∃ t', Table.machine.run t
        (operations g.posted.length i (.draining j old) (.tryDequeue (some p))) = some t' ∧
      Stores ⟨{ g with functions }, Function.update threads i (.handing (some p) j old)⟩ ran
        t' := by
  have hown : t.entries (.f (.inl i)) = none := h.own hl
  have helement : t.entries (.element p.1) = some (some p.2) :=
    h.element p (hperm.mem_iff.mpr List.mem_cons_self)
  have hnames := hperm.map Prod.fst
  have hfresh : p.1 ∉ functions.map Prod.fst :=
    (List.nodup_cons.mp (hnames.nodup_iff.mp hn.distinct)).1
  have hother (k : ℕ) (hk : k ≠ p.1) :
      ((t.set (.f (.inl i)) (some (some p.2))).set (.element p.1) none).entries (.element k) =
        t.entries (.element k) :=
    (Table.set_element_ne _ _ hk).trans (Table.set_f_element _ _)
  refine ⟨(t.set (.f (.inl i)) (some (some p.2))).set (.element p.1) none, ?_, ?_, ?_, ?_, ?_,
    h.history⟩
  · rw [operations]
    exact Table.run_take hown helement
  · intro q hq
    refine (hother q.1 ?_).trans (h.element q (hperm.mem_iff.mpr (List.mem_cons_of_mem _ hq)))
    exact fun heq => hfresh (heq ▸ List.mem_map_of_mem hq)
  · intro k hk
    by_cases hkp : k = p.1
    · subst hkp
      exact Table.set_self _ _ _
    · refine (hother k hkp).trans (h.noElement k fun hmem => ?_)
      rcases List.mem_cons.mp (hnames.mem_iff.mp hmem) with hmem | hmem
      · exact hkp hmem
      · exact hk hmem
  · refine held_update h.held (fun j hj => ?_) ((Table.set_element_f _ _).trans ?_)
    · exact (Table.set_element_f _ _).trans
        (Table.set_f_ne _ _ fun heq => hj (Sum.inl.inj heq))
    · exact Table.set_self _ _ _
  · intro n
    refine (Table.set_element_f _ _).trans ?_
    exact (Table.set_f_ne _ _ Sum.inr_ne_inl).trans (h.handed n)

theorem stores_miss (h : Stores ⟨g, threads⟩ ran t) {j old : ℤ}
    (hl : threads i = .draining j old) :
    ∃ t', Table.machine.run t
        (operations g.posted.length i (.draining j old) (.tryDequeue none)) = some t' ∧
      Stores ⟨g, Function.update threads i (.handing none j old)⟩ ran t' := by
  -- the assertion is compiled away, and the variable of `release` stays empty
  have hown : t.entries (.f (.inl i)) = none := h.own hl
  refine ⟨t.set (.f (.inl i)) (some none), ?_, ?_, ?_, ?_, ?_, h.history⟩
  · rw [operations, Table.run_one]
    exact Table.add_eq_some.mpr ⟨hown, rfl⟩
  · exact fun q hq => (Table.set_f_element _ _).trans (h.element q hq)
  · exact fun k hk => (Table.set_f_element _ _).trans (h.noElement k hk)
  · refine held_update h.held (fun j hj => ?_) (Table.set_self _ _ _)
    exact Table.set_f_ne _ _ fun heq => hj (Sum.inl.inj heq)
  · exact fun n => (Table.set_f_ne _ _ Sum.inr_ne_inl).trans (h.handed n)

theorem stores_run {c : Config ι (Shared (ℕ × Callable V F)) (Local (ℕ × Callable V F))}
    (h : Stores c ran t) {p : ℕ × Callable V F} (hp : c.shared.posted[ran]? = some (some p))
    (after : V) :
    ∃ t', Table.machine.run t [.call (.f (.inr ran)) after, .destroy (.f (.inr ran))] = some t' ∧
      Stores c (ran + 1) t' := by
  have hentry : t.entries (.f (.inr ran)) = some (some p.2) := by
    rw [h.handed, if_neg (Nat.lt_irrefl _), hp]
    rfl
  have helement (k : ℕ) : (t.set (.f (.inr ran)) none).entries (.element k) =
      t.entries (.element k) := Table.set_f_element _ _
  have hown (j : ι) : (t.set (.f (.inr ran)) none).entries (.f (.inl j)) =
      t.entries (.f (.inl j)) := Table.set_f_ne _ _ Sum.inl_ne_inr
  refine ⟨(t.set (.f (.inr ran)) none).record (.ran p.2), ?_, ?_, ?_, ?_, ?_, ?_⟩
  · rw [Machine.run_cons]
    change (t.step (.call (.f (.inr ran)) after)).bind _ = _
    rw [Table.step, hentry]
    change Table.machine.run _ [(.destroy (.f (.inr ran)) : Op (Name (ι ⊕ ℕ)) V F)] = _
    have hself : ((t.set (.f (.inr ran)) (some (some (p.2.after after)))).record
        (.ran p.2)).entries (.f (.inr ran)) = some (some (p.2.after after)) := Table.set_self _ _ _
    rw [Table.run_one, Table.step, hself]
    exact congrArg (fun u => some (Table.record u (.ran p.2))) (Table.set_set _ _ _ _)
  · exact fun q hq => (helement q.1).trans (h.element q hq)
  · exact fun k hk => (helement k).trans (h.noElement k hk)
  · exact fun j => (hown j).trans (h.held j)
  · intro n
    by_cases hn : n = ran
    · subst hn
      rw [if_pos (Nat.lt_succ_self _)]
      exact Table.set_self t _ _
    · have hlt : n < ran + 1 ↔ n < ran := by omega
      rw [if_congr hlt rfl rfl]
      exact (Table.set_f_ne t _ fun heq => hn (Sum.inr.inj heq)).trans (h.handed n)
  · change t.history ++ [.ran p.2] = _
    rw [List.take_add_one, hp, List.filterMap_append, List.map_append, h.history]
    rfl

variable [DecidableEq V] [DecidableEq F] {ndebug : Bool} {a : Act (ℕ × Callable V F)}

theorem trans_stores (hn : Numbered ⟨g, threads⟩ time) (h : Stores ⟨g, threads⟩ ran t)
    (hran : ran ≤ g.posted.length) (ht : Trans ndebug g (threads i) a g' l') :
    ∃ t', Table.machine.run t (operations g.posted.length i (threads i) a) = some t' ∧
      (g'.aborted = false → Stores ⟨g', Function.update threads i l'⟩ ran t') := by
  generalize hl : threads i = l at ht
  have hquiet (hheld : Local.held l = Local.held l') (hops : operations g.posted.length i l a = [])
      (hfunctions : g'.functions = g.functions) (hposted : g'.posted = g.posted) :
      ∃ t', Table.machine.run t (operations g.posted.length i l a) = some t' ∧
        (g'.aborted = false → Stores ⟨g', Function.update threads i l'⟩ ran t') := by
    rw [hops]
    exact ⟨t, rfl, fun _ => h.quiet hfunctions hposted ((congrArg Local.held hl).trans hheld)⟩
  cases ht with
  | post p =>
    obtain ⟨t', hrun, hstores⟩ := stores_posting h hran hl
    exact ⟨t', hrun, fun _ => hstores⟩
  | enqueue p =>
    obtain ⟨t', hrun, hstores⟩ := stores_enqueue hn h hl
    exact ⟨t', hrun, fun _ => hstores⟩
  | dequeue j old p hp =>
    obtain ⟨t', hrun, hstores⟩ := stores_dequeue hn h hl (perm_cons_erase hp)
    exact ⟨t', hrun, fun _ => hstores⟩
  | miss j old =>
    obtain ⟨t', hrun, hstores⟩ := stores_miss h hl
    exact ⟨t', hrun, fun _ => hstores⟩
  | abort j old =>
    obtain ⟨t', hrun, -⟩ := stores_miss h hl
    exact ⟨t', hrun, nofun⟩
  | hand f j old =>
    obtain ⟨t', hrun, hstores⟩ := stores_handing h hran hl
    exact ⟨t', hrun, fun _ => hstores⟩
  | load | reload => exact hquiet (tryLoop_held _).symm rfl rfl rfl
  | release => exact hquiet (releaseLoop_held _ _).symm rfl rfl rfl
  | acquire | wait | exchange | raise => exact hquiet rfl rfl rfl rfl

end Objects

/-- As long as the executor has called no empty function, the operations are a run of the
table, and it calls an empty object when the executor does. -/
structure Inv [DecidableEq ι] (s : State ι V F) : Prop where
  numbered : Numbered s.config s.time
  ran_le : s.ran ≤ s.config.shared.posted.length
  sound : none ∉ s.config.shared.posted.take s.ran →
    ∃ t, Table.machine.run Table.init s.operations = some t ∧
      (s.config.shared.aborted = false → Stores s.config s.ran t)
  stuck : none ∈ s.config.shared.posted.take s.ran →
    Table.machine.Meets CallsEmpty Table.init s.operations

section Runs

variable [DecidableEq ι]

theorem new_inv (desired : ℤ) : Inv (State.new desired : State ι V F) where
  numbered := new_numbered desired
  ran_le := Nat.zero_le _
  sound _ := ⟨Table.init, rfl, fun _ => new_stores desired⟩
  stuck h := absurd h List.not_mem_nil

variable [DecidableEq V] [DecidableEq F] {ndebug : Bool} {s s' : State ι V F}

theorem posted_grows {g g' : Shared (ℕ × Callable V F)} {l l' : Local (ℕ × Callable V F)}
    {a : Act (ℕ × Callable V F)} (h : Trans ndebug g l a g' l') : g.posted <+: g'.posted := by
  cases h with
  | post | hand => exact List.prefix_append _ _
  | _ => exact List.prefix_rfl

theorem aborted_of_step {g : Shared (ℕ × Callable V F)} {l : Local (ℕ × Callable V F)}
    {a : Act (ℕ × Callable V F)}
    {r : Shared (ℕ × Callable V F) × Local (ℕ × Callable V F)}
    (h : Semaphore.step ndebug g l a = some r) : g.aborted = false := by
  unfold Semaphore.step at h
  split at h
  · cases h
  · rename_i hg
    exact Bool.eq_false_iff.mpr hg

theorem step_inv_thread (hs : Inv s) {i : ι} {a : Act (ℕ × Callable V F)}
    (h : (machine ι V F ndebug).step s (.thread i a) = some s') : Inv s' := by
  change (if number? a = none ∨ number? a = some s.time then _ else none) = some s' at h
  split at h
  · rename_i ha
    obtain ⟨config, hstep, rfl⟩ := Option.map_eq_some_iff.mp h
    obtain ⟨g, l, hlocal, rfl⟩ := interleave_step.mp hstep
    have ht := Semaphore.step_trans hlocal
    have htake : g.posted.take s.ran = s.config.shared.posted.take s.ran := by
      obtain ⟨new, hnew⟩ := posted_grows ht
      rw [← hnew, List.take_append_of_le_length hs.ran_le]
    refine ⟨trans_numbered hs.numbered ha ht, hs.ran_le.trans (posted_grows ht).length_le, ?_, ?_⟩
    · intro hnone
      change none ∉ g.posted.take s.ran at hnone
      rw [htake] at hnone
      obtain ⟨t, hrun, hstores⟩ := hs.sound hnone
      obtain ⟨t', hrun', hstores'⟩ :=
        trans_stores hs.numbered (hstores (aborted_of_step hlocal)) hs.ran_le ht
      refine ⟨t', ?_, hstores'⟩
      rw [Machine.run_append, hrun]
      exact hrun'
    · intro hnone
      change none ∈ g.posted.take s.ran at hnone
      rw [htake] at hnone
      exact (hs.stuck hnone).append _
  · cases h

theorem step_inv_run (hs : Inv s) {after : V}
    (h : (machine ι V F ndebug).step s (.run after) = some s') : Inv s' := by
  change (if s.config.shared.aborted ∨ s.config.shared.posted.length ≤ s.ran then none
    else some _) = some s' at h
  split at h
  · cases h
  rename_i hnot
  obtain ⟨haborted, hran⟩ := not_or.mp hnot
  cases h
  have hlt : s.ran < s.config.shared.posted.length := Nat.lt_of_not_le hran
  have hget : s.config.shared.posted[s.ran]? = some s.config.shared.posted[s.ran] :=
    List.getElem?_eq_getElem hlt
  have htake : s.config.shared.posted.take (s.ran + 1) =
      s.config.shared.posted.take s.ran ++ [s.config.shared.posted[s.ran]] := by
    rw [List.take_add_one, hget]
    rfl
  refine ⟨hs.numbered, hlt, ?_, ?_⟩
  · intro hnone
    change none ∉ s.config.shared.posted.take (s.ran + 1) at hnone
    rw [htake, List.mem_append, not_or, List.mem_singleton] at hnone
    obtain ⟨t, hrun, hstores⟩ := hs.sound hnone.1
    obtain ⟨p, hp⟩ := Option.ne_none_iff_exists'.mp (Ne.symm hnone.2)
    rw [hp] at hget
    obtain ⟨t', hrun', hstores'⟩ :=
      stores_run (hstores (Bool.eq_false_iff.mpr haborted)) hget after
    refine ⟨t', ?_, fun _ => hstores'⟩
    rw [Machine.run_append, hrun]
    exact hrun'
  · intro hnone
    change none ∈ s.config.shared.posted.take (s.ran + 1) at hnone
    by_cases hbefore : none ∈ s.config.shared.posted.take s.ran
    · exact (hs.stuck hbefore).append _
    · -- this is the first call of an empty function
      rw [htake, List.mem_append, List.mem_singleton] at hnone
      obtain ⟨t, hrun, hstores⟩ := hs.sound hbefore
      refine Machine.Meets.of_run hrun (.inl ⟨.f (.inr s.ran), after, rfl, ?_⟩)
      rw [(hstores (Bool.eq_false_iff.mpr haborted)).handed, if_neg (Nat.lt_irrefl _), hget,
        ← hnone.resolve_left hbefore]
      rfl

theorem run_inv {desired : ℤ} {events : List (Event ι V F)}
    (h : (machine ι V F ndebug).run (.new desired) events = some s) : Inv s := by
  refine Machine.invariant_of_step (I := Inv) ?_ (new_inv desired) h
  intro s e s' hs hstep
  cases e with
  | thread i a => exact step_inv_thread hs hstep
  | run after => exact step_inv_run hs hstep

/-- In every interleaving of any number of threads that call `async_acquire`, `try_acquire`
and `release`, beside an executor that calls what it is handed, with completions of any types
and sizes and wherever the objects are put: the operations on the objects are allowed exactly
if the executor has called nothing that `release` handed over empty.  The elements of the
queue then hold the waiters, the variables of `release` and the elements of the executor what
they were given, there are no other objects, each completion that was called was called once,
in the order in which they were handed over, and what lives is held by one object. -/
theorem executor_calls_empty_iff (address : F → ℕ) {desired : ℤ} {events : List (Event ι V F)}
    (h : (machine ι V F ndebug).run (.new desired) events = some s)
    {ops : List (Op (Name (ι ⊕ ℕ)) V F × Placement)} (hops : ops.map Prod.fst = s.operations)
    (hplaced : (UniqueFunction.machine address).Before (Placed address) .init ops) :
    ((∃ u, (UniqueFunction.machine address).run .init ops = some u) ↔
      none ∉ s.config.shared.posted.take s.ran) ∧
    ∀ u, (UniqueFunction.machine address).run .init ops = some u →
      s.config.shared.aborted = false →
      (∀ p ∈ s.config.shared.functions, u.callable (.element p.1) = some (some p.2)) ∧
      (∀ i f j old, s.config.threads i = .handing f j old →
        u.callable (.f (.inl i)) = some (f.map Prod.snd)) ∧
      (∀ m, s.ran ≤ m → u.callable (.f (.inr m)) =
        s.config.shared.posted[m]?.map (Option.map Prod.snd)) ∧
      (∀ n, u.objects n ≠ none → (∃ p ∈ s.config.shared.functions, n = .element p.1) ∨
        (∃ i f j old, s.config.threads i = .handing f j old ∧ n = .f (.inl i)) ∨
        ∃ m, s.ran ≤ m ∧ m < s.config.shared.posted.length ∧ n = .f (.inr m)) ∧
      u.history = ((s.config.shared.posted.take s.ran).filterMap id).map (fun p => .ran p.2) ∧
      Accounted u := by
  have hinv := run_inv h
  have hstuck (hmem : none ∈ s.config.shared.posted.take s.ran) :
      (UniqueFunction.machine address).run .init ops = none := by
    refine UniqueFunction.run_eq_none address hplaced ?_
    rw [hops]
    exact hinv.stuck hmem
  have hsound (hnone : none ∉ s.config.shared.posted.take s.ran) :
      ∃ t u, (UniqueFunction.machine address).run .init ops = some u ∧
        UniqueFunction.Refines address t u ∧
        (s.config.shared.aborted = false → Stores s.config s.ran t) := by
    obtain ⟨t, ht, hstores⟩ := hinv.sound hnone
    rw [← hops] at ht
    obtain ⟨u, hu, hr⟩ := UniqueFunction.exists_refining_run address hplaced ht
    exact ⟨t, u, hu, hr, hstores⟩
  refine ⟨⟨?_, ?_⟩, ?_⟩
  · rintro ⟨u, hu⟩ hmem
    rw [hstuck hmem] at hu
    cases hu
  · intro hnone
    obtain ⟨t, u, hu, -, -⟩ := hsound hnone
    exact ⟨u, hu⟩
  · intro u hu haborted
    have hnone : none ∉ s.config.shared.posted.take s.ran := by
      intro hmem
      rw [hstuck hmem] at hu
      cases hu
    obtain ⟨t, u', hu', hr, hstores⟩ := hsound hnone
    obtain rfl := Option.some.inj (hu.symm.trans hu')
    have hstores := hstores haborted
    refine ⟨?_, ?_, ?_, ?_, hr.history.trans hstores.history, hr.accounted⟩
    · intro p hp
      rw [hr.callable]
      exact hstores.element p hp
    · intro i f j old hi
      rw [hr.callable]
      exact hstores.own hi
    · intro m hm
      rw [hr.callable, hstores.handed, if_neg (Nat.not_lt.mpr hm)]
    · exact fun n hn => hstores.exists_holder fun hentry => hn (hr.absent n hentry).1

end Runs

section EmptyFunction

/-- The waiter is announced, and `release` comes before it is in the queue. -/
def emptyFunction : List (Event Bool ℕ Bool) :=
  [.thread true (.asyncAcquire (0, .function false)), .thread false (.release 2),
    .thread false (.tryDequeue none), .thread false .post, .run 5]

def emptyFunctionOps : List (Op (Name (Bool ⊕ ℕ)) ℕ Bool × Placement) :=
  [(.construct (.f (.inl false)), ⟨64, 0, 0, 0⟩),
    (.moveConstruct (.f (.inr 0)) (.f (.inl false)), ⟨128, 0, 0, 192⟩),
    (.destroy (.f (.inl false)), ⟨0, 0, 0, 0⟩), (.call (.f (.inr 0)) 5, ⟨0, 0, 0, 0⟩),
    (.destroy (.f (.inr 0)), ⟨0, 0, 0, 0⟩)]

theorem emptyFunctionOps_placed :
    (UniqueFunction.machine fun _ => 8).Before (Placed fun _ => 8) .init emptyFunctionOps := by
  refine ⟨⟨⟨1, rfl⟩, ?_, fun _ => by decide⟩, ?_⟩
  · intro k slot hslot
    cases hslot
  intro s hs
  cases hs
  refine ⟨⟨⟨⟨2, rfl⟩, ?_, fun _ => by decide⟩, ⟨3, rfl⟩⟩, ?_⟩
  · intro k slot hslot
    cases hslot
  · exact fun s _ => ⟨trivial, fun s _ => ⟨trivial, fun s _ => ⟨trivial, fun s _ => trivial⟩⟩⟩

/-- The executor calls an empty function. -/
theorem executor_calls_empty_iff_missed :
    (UniqueFunction.machine fun _ => 8).run .init emptyFunctionOps = none := by
  obtain ⟨s, h, hops, hposted, hran⟩ : ∃ s,
      (machine Bool ℕ Bool true).run (.new 0) emptyFunction = some s ∧
        emptyFunctionOps.map Prod.fst = s.operations ∧ s.config.shared.posted = [none] ∧
        s.ran = 1 := ⟨_, rfl, rfl, rfl, rfl⟩
  obtain ⟨hiff, -⟩ := executor_calls_empty_iff (fun _ => 8) h hops emptyFunctionOps_placed
  rw [Option.eq_none_iff_forall_ne_some]
  intro u hu
  apply hiff.mp ⟨u, hu⟩
  rw [hposted, hran]
  exact List.mem_cons_self

end EmptyFunction

end BadIo.Semaphore.Storage
