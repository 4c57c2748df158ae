import Mathlib.Data.List.Induction
import BadIo.PollService

namespace BadIo.PollService

variable {F : Type*}

structure Add (F : Type*) where
  fd : ℤ
  events : BitVec 16
  f : F

def State.register (s : State (ℕ × F)) (a : Add F) : State (ℕ × F) :=
  s.add a.fd a.events (s.registered.length, a.f)

def after (as : List (Add F)) : State (ℕ × F) := as.foldl State.register init

/-- The vectors are sorted and equally long, and each position holds a descriptor and the
completion registered together with it. -/
structure Paired (s : State (ℕ × F)) : Prop where
  sorted : SortedBy PollFd.fd s.service.fds
  aligned : s.service.completions.length = s.service.fds.length
  own : ∀ (i : ℕ) e, s.service.fds[i]? = some e →
    ∃ c, s.service.completions[i]? = some (some c) ∧ (e.fd, c) ∈ s.registered

variable {C : Type*}

def Polled (s : Service C) (fd : ℤ) : Prop := ∃ e ∈ s.fds, e.fd = fd

/-- A second registration of a descriptor throws. -/
theorem asyncPollAdd_polled {s : Service C} {fd : ℤ} (h : Polled s fd) (events : BitVec 16)
    (f : C) : s.asyncPollAdd fd events f = none :=
  dif_pos (s.sorted.found_iff.mpr h)

theorem asyncPollAdd_new {s : Service C} {fd : ℤ} (h : ¬ Polled s fd) (events : BitVec 16)
    (f : C) : ∃ s', s.asyncPollAdd fd events f = some s' ∧
      ∀ x, Polled s' x ↔ x = fd ∨ Polled s x := by
  have hnew : ¬ (s.fds[s.lowerBound fd]?).map PollFd.fd = some fd :=
    fun hfound => h (s.sorted.found_iff.mp hfound)
  refine ⟨_, dif_neg hnew, fun x => ?_⟩
  have hlb : s.lowerBound fd ≤ s.fds.length := lowerBound_le s.fds fd
  show (∃ e ∈ s.fds.insertIdx (s.lowerBound fd) ⟨fd, events, 0⟩, e.fd = x) ↔ _
  constructor
  · rintro ⟨e, he, rfl⟩
    rcases (List.mem_insertIdx hlb).mp he with rfl | he
    · exact .inl rfl
    · exact .inr ⟨e, he, rfl⟩
  · rintro (rfl | ⟨e, he, rfl⟩)
    · exact ⟨_, (List.mem_insertIdx hlb).mpr (.inl rfl), rfl⟩
    · exact ⟨e, (List.mem_insertIdx hlb).mpr (.inr he), rfl⟩

theorem register_polled {s : State (ℕ × F)} {a : Add F} (h : Polled s.service a.fd) :
    s.register a = s := by
  rw [State.register, State.add, asyncPollAdd_polled h]

theorem polled_register (s : State (ℕ × F)) (a : Add F) (x : ℤ) :
    Polled (s.register a).service x ↔ x = a.fd ∨ Polled s.service x := by
  by_cases h : Polled s.service a.fd
  · rw [register_polled h]
    exact ⟨.inr, fun hx => hx.elim (fun heq => heq ▸ h) id⟩
  · obtain ⟨s', hs', hpolled⟩ := asyncPollAdd_new h a.events (s.registered.length, a.f)
    rw [State.register, State.add, hs']
    exact hpolled x

theorem after_append (as : List (Add F)) (a : Add F) :
    after (as ++ [a]) = (after as).register a := by
  rw [after, List.foldl_append]
  rfl

theorem polled_after (as : List (Add F)) (x : ℤ) :
    Polled (after as).service x ↔ ∃ a ∈ as, a.fd = x := by
  induction as using List.reverseRecOn with
  | nil => simp [after, init, Polled]
  | append_singleton as a ih =>
    rw [after_append, polled_register, ih]
    constructor
    · rintro (rfl | ⟨b, hb, rfl⟩)
      · exact ⟨a, by simp, rfl⟩
      · exact ⟨b, List.mem_append_left _ hb, rfl⟩
    · rintro ⟨b, hb, rfl⟩
      rcases List.mem_append.mp hb with hb | hb
      · exact .inr ⟨b, hb, rfl⟩
      · exact .inl (congrArg Add.fd (List.mem_singleton.mp hb))

structure Numbered (s : State (ℕ × F)) : Prop where
  holds : Holds s.registered s.service
  number : ∀ r ∈ s.registered, s.registered[r.2.1]? = some r

theorem Numbered.register {s : State (ℕ × F)} (h : Numbered s) (a : Add F) :
    Numbered (s.register a) := by
  by_cases hp : Polled s.service a.fd
  · rw [register_polled hp]
    exact h
  · obtain ⟨s', hs', -⟩ := asyncPollAdd_new hp a.events (s.registered.length, a.f)
    rw [State.register, State.add, hs']
    refine ⟨h.holds.add hs', fun r hr => ?_⟩
    rcases List.mem_append.mp hr with hr | hr
    · have hlt := (List.getElem?_eq_some_iff.mp (h.number r hr)).1
      show (s.registered ++ _)[r.2.1]? = some r
      rw [List.getElem?_append_left hlt]
      exact h.number r hr
    · obtain rfl := List.mem_singleton.mp hr
      exact List.getElem?_concat_length

theorem numbered_after (as : List (Add F)) : Numbered (after as) := by
  induction as using List.reverseRecOn with
  | nil => exact ⟨List.Perm.refl _, by simp [after, init]⟩
  | append_singleton as a ih =>
    rw [after_append]
    exact ih.register a

/-- What the positions mean in fact: the completion of a descriptor is as far from the end
as the descriptor is from the front. -/
theorem Holds.mirrored {s : Service C} {registered : List (ℤ × C)} (h : Holds registered s)
    {i : ℕ} {e : PollFd} (he : s.fds[i]? = some e) :
    ∃ c, s.completions[s.fds.length - 1 - i]? = some (some c) ∧ (e.fd, c) ∈ registered := by
  have ha := s.aligned
  have hi : i < s.completions.length := by
    rw [ha]
    exact (List.getElem?_eq_some_iff.mp he).1
  have hpos : s.fds.length - 1 - i < s.completions.length := by omega
  have hentry : (e, s.completions[s.fds.length - 1 - i]) ∈ s.entries := by
    apply List.mem_of_getElem? (i := i)
    rw [Service.entries, List.getElem?_zip_eq_some]
    refine ⟨he, ?_⟩
    rw [List.getElem?_reverse hi, s.aligned]
    exact List.getElem?_eq_getElem hpos
  have hmem := h.mem_iff.mp (List.mem_map.mpr ⟨_, hentry, rfl⟩)
  obtain ⟨r, hr, heq⟩ := List.mem_map.mp hmem
  obtain ⟨hfd, hc⟩ := Prod.mk.inj heq
  refine ⟨r.2, ?_, ?_⟩
  · rw [List.getElem?_eq_getElem hpos, hc]
  · rw [← hfd]
    exact hr

theorem paired_iff {s : State (ℕ × F)} (h : Numbered s) :
    Paired s ↔ s.service.fds.length ≤ 1 := by
  -- from two descriptors on the first completion belongs to the last descriptor
  constructor
  · intro hp
    by_contra hlen
    have hfirst : 0 < s.service.fds.length := by omega
    have hlast : s.service.fds.length - 1 < s.service.fds.length := by omega
    obtain ⟨c, hc, hmem⟩ := hp.own 0 _ (List.getElem?_eq_getElem hfirst)
    obtain ⟨c', hc', hmem'⟩ := h.holds.mirrored (List.getElem?_eq_getElem hlast)
    rw [Nat.sub_self, hc] at hc'
    cases hc'
    -- one registration cannot be for both descriptors
    have hnumber := h.number _ hmem
    have hnumber' := h.number _ hmem'
    have hfd := congrArg Prod.fst (Option.some.inj (hnumber.symm.trans hnumber'))
    have hlt := List.pairwise_iff_getElem.mp hp.sorted 0 _ hfirst hlast (by omega)
    exact absurd hfd hlt.ne
  · intro hlen
    refine ⟨s.service.sorted, s.service.aligned, fun i e he => ?_⟩
    have hi := (List.getElem?_eq_some_iff.mp he).1
    obtain ⟨c, hc, hmem⟩ := h.holds.mirrored he
    refine ⟨c, ?_, hmem⟩
    have hpos : s.service.fds.length - 1 - i = i := by omega
    rw [hpos] at hc
    exact hc

theorem length_le_one_iff (s : Service C) :
    s.fds.length ≤ 1 ↔ ∀ x y, Polled s x → Polled s y → x = y := by
  constructor
  · rintro hlen x y ⟨e, he, rfl⟩ ⟨e', he', rfl⟩
    obtain ⟨i, hi⟩ := List.mem_iff_getElem?.mp he
    obtain ⟨j, hj⟩ := List.mem_iff_getElem?.mp he'
    have := (List.getElem?_eq_some_iff.mp hi).1
    have := (List.getElem?_eq_some_iff.mp hj).1
    obtain rfl : i = j := by omega
    rw [hi] at hj
    exact congrArg PollFd.fd (Option.some.inj hj)
  · intro hsame
    by_contra hlen
    have h₀ : 0 < s.fds.length := by omega
    have h₁ : 1 < s.fds.length := by omega
    have hlt := List.pairwise_iff_getElem.mp s.sorted 0 1 h₀ h₁ Nat.one_pos
    exact absurd (hsame _ _ ⟨_, List.getElem_mem h₀, rfl⟩ ⟨_, List.getElem_mem h₁, rfl⟩) hlt.ne

/-- The two vectors are paired all along exactly in the sequences of registrations that
name one descriptor only. -/
theorem paired_along_iff (as : List (Add F)) :
    (∀ as', as' <+: as → Paired (after as')) ↔ ∀ a ∈ as, ∀ b ∈ as, a.fd = b.fd := by
  constructor
  · intro h a ha b hb
    have hlen := (paired_iff (numbered_after as)).mp (h as List.prefix_rfl)
    exact (length_le_one_iff _).mp hlen a.fd b.fd ((polled_after as _).mpr ⟨a, ha, rfl⟩)
      ((polled_after as _).mpr ⟨b, hb, rfl⟩)
  · intro h as' hpre
    rw [paired_iff (numbered_after as'), length_le_one_iff]
    intro x y hx hy
    obtain ⟨a, ha, rfl⟩ := (polled_after as' x).mp hx
    obtain ⟨b, hb, rfl⟩ := (polled_after as' y).mp hy
    exact h a (hpre.subset ha) b (hpre.subset hb)

/-- In order of descriptors: the second completion is inserted before the first. -/
theorem unpaired_two : ¬ Paired (after [⟨3, 1, 70⟩, ⟨5, 1, 71⟩] : State (ℕ × ℕ)) := by
  intro h
  obtain ⟨c, hc, hmem⟩ := h.own 0 ⟨3, 1, 0⟩ rfl
  cases hc
  exact absurd hmem (by decide)

end BadIo.PollService
