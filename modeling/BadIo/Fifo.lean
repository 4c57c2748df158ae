import BadIo.Machine

namespace BadIo

/-- Everything put into a queue, everything taken out of it, and what waits in it.  The equation
is a field, so that a history that loses, repeats or reorders an element cannot be built. -/
structure Fifo (τ : Type*) where
  added : List τ
  taken : List τ
  waiting : List τ
  order : added = taken ++ waiting

namespace Fifo

variable {τ : Type*}

inductive Act (τ : Type*) where
  | add (t : τ)
  | take

def start (q : List τ) : Fifo τ := ⟨q, [], q, rfl⟩

def add (h : Fifo τ) (t : τ) : Fifo τ :=
  ⟨h.added ++ [t], h.taken, h.waiting ++ [t], by rw [h.order, List.append_assoc]⟩

def take (h : Fifo τ) (t : τ) (rest : List τ) (hw : h.waiting = t :: rest) : Fifo τ :=
  ⟨h.added, h.taken ++ [t], rest, by rw [h.order, hw, List.append_assoc]; rfl⟩

def machine (τ : Type*) : Machine (Fifo τ) (Act τ) where
  step h
    | .add t => some (h.add t)
    | .take =>
      match hw : h.waiting with
      | [] => none
      | t :: rest => some (h.take t rest hw)

theorem step_take (h : Fifo τ) {t : τ} {rest : List τ} (hw : h.waiting = t :: rest) :
    (machine τ).step h .take = some (h.take t rest hw) := by
  unfold machine
  simp only
  split
  · simp_all
  · next t' rest' hw' =>
    obtain ⟨rfl, rfl⟩ : t' = t ∧ rest' = rest := by simpa [hw] using hw'.symm
    rfl

theorem run_add (h : Fifo τ) (t : τ) : (machine τ).run h [.add t] = some (h.add t) := rfl

theorem run_take (h : Fifo τ) {t : τ} {rest : List τ} (hw : h.waiting = t :: rest) :
    (machine τ).run h [.take] = some (h.take t rest hw) := by
  rw [Machine.run_cons, step_take h hw]
  rfl

end Fifo

end BadIo
