import Mathlib.Algebra.Group.Nat.Defs
import Mathlib.Data.List.Basic
import Mathlib.Order.Nat
import Mathlib.Tactic.Common

namespace BadIo

/-- A ring of `2 ^ k` slots with one producer and one consumer, whose counters of `w` bits are
never reduced to a slot number and wrap around on their own. -/
structure RingBuffer (w k : ℕ) (C : Type*) where
  head : BitVec w
  tail : BitVec w
  slots : BitVec k → C

namespace RingBuffer

variable {w k : ℕ} {C : Type*}

def index (k : ℕ) (counter : BitVec w) : BitVec k := counter.setWidth k

def entry (r : RingBuffer w k C) (counter : BitVec w) : C := r.slots (index k counter)

def available (r : RingBuffer w k C) : ℕ := (r.tail - r.head).toNat

/-- The producer's side; a full ring takes no entry. -/
def publish (r : RingBuffer w k C) (c : C) : Option (RingBuffer w k C) :=
  if r.available < 2 ^ k then
    some { r with tail := r.tail + 1, slots := Function.update r.slots (index k r.tail) c }
  else none

def advance (r : RingBuffer w k C) (m : BitVec w) : RingBuffer w k C :=
  { r with head := r.head + m }

/-- The ring holds the entries of `stream` from position `n` on. -/
structure Represents (r : RingBuffer w k C) (stream : List C) (n : ℕ) : Prop where
  head : r.head = BitVec.ofNat w n
  tail : r.tail = BitVec.ofNat w stream.length
  consumed : n ≤ stream.length
  room : stream.length ≤ n + 2 ^ k
  slots : ∀ i c, n ≤ i → stream[i]? = some c → r.slots (BitVec.ofNat k i) = c

theorem represents_empty (slots : BitVec k → C) :
    Represents (⟨0, 0, slots⟩ : RingBuffer w k C) [] 0 where
  head := rfl
  tail := rfl
  consumed := le_rfl
  room := Nat.zero_le _
  slots := by simp

theorem index_ofNat (hk : k < w) (i : ℕ) : index k (BitVec.ofNat w i) = BitVec.ofNat k i :=
  BitVec.setWidth_ofNat_of_le hk.le i

theorem two_pow_lt (hk : k < w) : 2 ^ k < 2 ^ w := Nat.pow_lt_pow_right (by decide) hk

theorem toNat_ofNat_sub {a b : ℕ} (hab : a ≤ b) (hb : b < a + 2 ^ w) :
    (BitVec.ofNat w b - BitVec.ofNat w a).toNat = b - a := by
  obtain ⟨d, rfl⟩ := Nat.exists_eq_add_of_le hab
  have hd : d < 2 ^ w := by omega
  rw [BitVec.ofNat_add, BitVec.add_comm, BitVec.add_sub_cancel, BitVec.toNat_ofNat,
    Nat.mod_eq_of_lt hd, Nat.add_sub_cancel_left]

theorem ofNat_eq_iff {a b : ℕ} (hab : a ≤ b) (hb : b < a + 2 ^ w) :
    BitVec.ofNat w a = BitVec.ofNat w b ↔ a = b := by
  constructor
  · intro h
    have hd := toNat_ofNat_sub hab hb
    rw [h, BitVec.sub_self] at hd
    have h0 : b - a = 0 := by simpa using hd.symm
    omega
  · exact congrArg _

theorem ofNat_slot_ne {a b : ℕ} (hab : a < b) (hb : b < a + 2 ^ k) :
    BitVec.ofNat k a ≠ BitVec.ofNat k b := by
  -- positions of the stream that fit into the ring together have different slots
  intro h
  exact hab.ne ((ofNat_eq_iff hab.le hb).mp h)

variable {r r' : RingBuffer w k C} {stream : List C} {n : ℕ}

theorem Represents.available (h : Represents r stream n) (hk : k < w) :
    r.available = stream.length - n := by
  have := two_pow_lt hk
  have := h.room
  rw [RingBuffer.available, h.head, h.tail, toNat_ofNat_sub h.consumed (by omega)]

theorem publish_head {c : C} (hp : r.publish c = some r') : r'.head = r.head := by
  unfold RingBuffer.publish at hp
  split at hp
  · cases hp
    rfl
  · cases hp

theorem Represents.publish (h : Represents r stream n) (hk : k < w) {c : C}
    (hp : r.publish c = some r') : Represents r' (stream ++ [c]) n := by
  unfold RingBuffer.publish at hp
  rw [h.available hk] at hp
  split at hp
  · rename_i hroom
    obtain rfl := Option.some.inj hp
    have hc := h.consumed
    refine ⟨h.head, ?_, ?_, ?_, ?_⟩
    · simp [h.tail, BitVec.ofNat_add]
    · simp only [List.length_append, List.length_singleton]; omega
    · simp only [List.length_append, List.length_singleton]; omega
    · intro i d hi hd
      show Function.update r.slots (index k r.tail) c (BitVec.ofNat k i) = d
      rw [h.tail, index_ofNat hk]
      -- the new entry has a slot of its own among those still in the ring
      by_cases hlast : i = stream.length
      · subst hlast
        rw [Function.update_self]
        simpa using hd
      · have hlt : i < stream.length := by
          have := (List.getElem?_eq_some_iff.mp hd).1
          simp only [List.length_append, List.length_singleton] at this
          omega
        rw [Function.update_of_ne (ofNat_slot_ne hlt (by omega))]
        rw [List.getElem?_append_left hlt] at hd
        exact h.slots i d hi hd
  · cases hp

theorem Represents.at_tail_iff (h : Represents r stream n) (hk : k < w) {m : ℕ}
    (hm : n + m ≤ stream.length) :
    r.head + BitVec.ofNat w m = r.tail ↔ n + m = stream.length := by
  -- a consumer `m` entries past the head is at the tail when the stream ends there
  have := two_pow_lt hk
  have := h.room
  rw [h.head, h.tail, ← BitVec.ofNat_add]
  exact ofNat_eq_iff hm (by omega)

theorem Represents.lt_of_ne_tail (h : Represents r stream n) (hk : k < w) {m : ℕ}
    (hm : n + m ≤ stream.length) (hmore : r.head + BitVec.ofNat w m ≠ r.tail) :
    n + m < stream.length := by
  apply lt_of_le_of_ne hm
  intro heq
  exact hmore ((h.at_tail_iff hk hm).mpr heq)

theorem Represents.entry (h : Represents r stream n) (hk : k < w) {m : ℕ}
    (hm : n + m < stream.length) :
    stream[n + m]? = some (r.entry (r.head + BitVec.ofNat w m)) := by
  rw [RingBuffer.entry, h.head, ← BitVec.ofNat_add, index_ofNat hk,
    h.slots (n + m) _ (Nat.le_add_right n m) (List.getElem?_eq_getElem hm)]
  exact List.getElem?_eq_getElem hm

theorem take_drop_append {l : List C} (l' : List C) {m : ℕ} (h : n + m ≤ l.length) :
    ((l ++ l').drop n).take m = (l.drop n).take m := by
  rw [List.drop_append_of_le_length (by omega), List.take_append_of_le_length]
  rw [List.length_drop]
  omega

theorem Represents.take_succ (h : Represents r stream n) (hk : k < w) {m : ℕ}
    (hm : n + m < stream.length) :
    (stream.drop n).take (m + 1) =
      (stream.drop n).take m ++ [r.entry (r.head + BitVec.ofNat w m)] := by
  rw [List.take_add_one, List.getElem?_drop, h.entry hk hm, Option.toList_some]

theorem Represents.advance (h : Represents r stream n) {m : ℕ} (hm : n + m ≤ stream.length) :
    Represents (r.advance (BitVec.ofNat w m)) stream (n + m) where
  head := by rw [RingBuffer.advance, h.head, BitVec.ofNat_add]
  tail := h.tail
  consumed := hm
  room := by have := h.room; omega
  slots i c hi := h.slots i c (by omega)

end RingBuffer

end BadIo
