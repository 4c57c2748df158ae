import Mathlib.Algebra.Group.Nat.Defs
import BadIo.Async.EpollAccept

namespace BadIo.PeerAddress

/-- The address of a peer; its length is a `socklen_t`. -/
structure Peer where
  bytes : List (BitVec 8)
  fits : bytes.length < 2 ^ 32

/-- What the caller has given pointers to: a buffer, and its capacity. -/
@[ext] structure Caller where
  addr : ℕ → BitVec 8
  addrLen : BitVec 64

def Peer.write (peer : Peer) (n : ℕ) (addr : ℕ → BitVec 8) : ℕ → BitVec 8 :=
  fun i => if i < n then (peer.bytes[i]?).getD (addr i) else addr i

def Peer.length (peer : Peer) : BitVec 32 := BitVec.ofNat 32 peer.bytes.length

/-- `accept4` and `IORING_OP_ACCEPT`: the buffer and `*addrlen` after a success. -/
def Peer.accept (peer : Peer) (addrlen : BitVec 32) (addr : ℕ → BitVec 8) :
    (ℕ → BitVec 8) × BitVec 32 :=
  (peer.write addrlen.toNat addr, peer.length)

/-- No peer: the accept has failed. -/
def epollAccept (m : Caller) (outcome : Option Peer) : Caller :=
  let realLen : BitVec 32 := m.addrLen.setWidth 32
  match outcome with
  | none => m
  | some peer =>
    let r := peer.accept realLen m.addr
    ⟨r.1, r.2.setWidth 64⟩

/-- The kernel is passed the `socklen_t` that `make_unique` has made, which is 0. -/
def ioringAccept (m : Caller) (outcome : Option Peer) : Caller :=
  -- `std::make_unique<socklen_t>()`
  let sockLen : BitVec 32 := 0
  match outcome with
  | none => m
  | some peer =>
    let r := peer.accept sockLen m.addr
    ⟨r.1, r.2.setWidth 64⟩

/-- As many bytes of the address as the caller has room for, and its length. -/
def expected (m : Caller) (peer : Peer) : Caller :=
  ⟨peer.write m.addrLen.toNat m.addr, BitVec.ofNat 64 peer.bytes.length⟩

/-- Both services leave the same after a success, namely what is expected, and the
caller's length alone after a failure. -/
structure TreatedAlike (m : Caller) (outcome : Option Peer) : Prop where
  alike : ∀ peer, outcome = some peer → epollAccept m outcome = ioringAccept m outcome
  epoll : ∀ peer, outcome = some peer → epollAccept m outcome = expected m peer
  ioring : ∀ peer, outcome = some peer → ioringAccept m outcome = expected m peer
  failed : outcome = none → (epollAccept m outcome).addrLen = m.addrLen ∧
    (ioringAccept m outcome).addrLen = m.addrLen

variable (peer : Peer) (m : Caller)

theorem write_zero (addr : ℕ → BitVec 8) : peer.write 0 addr = addr := by
  funext i
  exact if_neg (Nat.not_lt_zero i)

theorem write_eq_self_iff (n : ℕ) (addr : ℕ → BitVec 8) :
    peer.write n addr = addr ↔ ∀ i b, i < n → peer.bytes[i]? = some b → addr i = b := by
  constructor
  · intro h i b hi hb
    have hat := congrFun h i
    rw [Peer.write, if_pos hi, hb] at hat
    exact hat.symm
  · intro h
    funext i
    rw [Peer.write]
    split
    · rename_i hi
      cases hb : peer.bytes[i]? with
      | none => rfl
      | some b => exact (h i b hi hb).symm
    · rfl

theorem length_setWidth : peer.length.setWidth 64 = BitVec.ofNat 64 peer.bytes.length := by
  have hfits := peer.fits
  apply BitVec.eq_of_toNat_eq
  rw [Peer.length, BitVec.toNat_setWidth, BitVec.toNat_ofNat, BitVec.toNat_ofNat]
  omega

theorem ioringAccept_some :
    ioringAccept m (some peer) = ⟨m.addr, BitVec.ofNat 64 peer.bytes.length⟩ := by
  apply Caller.ext
  · exact write_zero peer m.addr
  · exact length_setWidth peer

theorem epollAccept_some :
    epollAccept m (some peer) =
      ⟨peer.write (m.addrLen.toNat % 2 ^ 32) m.addr, BitVec.ofNat 64 peer.bytes.length⟩ := by
  apply Caller.ext
  · show peer.write (m.addrLen.setWidth 32).toNat m.addr = _
    rw [BitVec.toNat_setWidth]
  · exact length_setWidth peer

/-- With a capacity that is a `socklen_t`, the service over epoll leaves what is expected. -/
theorem epollAccept_expected (h : m.addrLen.toNat < 2 ^ 32) :
    epollAccept m (some peer) = expected m peer := by
  rw [epollAccept_some, Nat.mod_eq_of_lt h, expected]

/-- The accept over io_uring never writes a byte of the address. -/
theorem ioringAccept_expected_iff :
    ioringAccept m (some peer) = expected m peer ↔
      ∀ i b, i < m.addrLen.toNat → peer.bytes[i]? = some b → m.addr i = b := by
  rw [← write_eq_self_iff, ioringAccept_some, expected]
  constructor
  · intro h
    exact (congrArg Caller.addr h).symm
  · intro h
    rw [h]

/-- The services treat the peer address alike, as they should, exactly if the caller's buffer
already held the bytes that were to be written to it, or the accept has failed. -/
theorem treatedAlike_iff (outcome : Option Peer) :
    TreatedAlike m outcome ↔ ∀ peer, outcome = some peer →
      ∀ i b, i < m.addrLen.toNat → peer.bytes[i]? = some b → m.addr i = b := by
  constructor
  · rintro h peer rfl
    exact (ioringAccept_expected_iff peer m).mp (h.ioring peer rfl)
  · intro h
    have hioring : ∀ peer, outcome = some peer → ioringAccept m outcome = expected m peer := by
      rintro peer rfl
      exact (ioringAccept_expected_iff peer m).mpr (h peer rfl)
    have hepoll : ∀ peer, outcome = some peer → epollAccept m outcome = expected m peer := by
      rintro peer rfl
      have hsame := h peer rfl
      have hwrite := (write_eq_self_iff peer _ _).mpr hsame
      have hmod := (write_eq_self_iff peer (m.addrLen.toNat % 2 ^ 32) m.addr).mpr
        fun i b hi hb => hsame i b (Nat.lt_of_lt_of_le hi (Nat.mod_le _ _)) hb
      rw [epollAccept_some, expected, hwrite, hmod]
    refine ⟨fun peer hp => (hepoll peer hp).trans (hioring peer hp).symm, hepoll, hioring, ?_⟩
    rintro rfl
    exact ⟨rfl, rfl⟩

/-- A peer address of two bytes, and a buffer for sixteen. -/
theorem address_not_filled :
    ¬ TreatedAlike ⟨fun _ => 0, 16⟩ (some ⟨[1, 2], by decide⟩) := by
  intro h
  have hat := congrFun (congrArg Caller.addr (h.ioring _ rfl)) 0
  exact absurd hat (by decide)

theorem call_addrLen (op : EpollAccept.Operation) {p : ℕ} (hp : op.addrLen = some p)
    (hresult : ¬ op.result < 0) (newFd : ℕ) (h₁ h₂ : EpollAccept.Handled) (memory : ℕ → BitVec 64)
    (errno : ℤ) :
    (EpollAccept.call op (.connected newFd (peer.accept (m.addrLen.setWidth 32) m.addr).2) h₁ h₂
      (.start memory errno)).memory p = (epollAccept m (some peer)).addrLen := by
  rw [EpollAccept.call_memory]
  unfold EpollAccept.expectedMemory
  rw [if_neg hresult, hp]
  exact Function.update_self _ _ _

end BadIo.PeerAddress
