import BadIo.DeviceNumber

namespace BadIo.IoringStat

open DeviceNumber

structure StatxTimestamp where
  tvSec : BitVec 64
  tvNsec : BitVec 32

/-- The basic fields of `struct statx`, with the types of x86-64. -/
structure Statx where
  stxBlksize : BitVec 32
  stxNlink : BitVec 32
  stxUid : BitVec 32
  stxGid : BitVec 32
  stxMode : BitVec 16
  stxIno : BitVec 64
  stxSize : BitVec 64
  stxBlocks : BitVec 64
  stxAtime : StatxTimestamp
  stxCtime : StatxTimestamp
  stxMtime : StatxTimestamp
  stxRdevMajor : BitVec 32
  stxRdevMinor : BitVec 32
  stxDevMajor : BitVec 32
  stxDevMinor : BitVec 32

structure Timespec where
  tvSec : BitVec 64
  tvNsec : BitVec 64

/-- `struct stat`; the size, the block size and count and the times are signed. -/
structure Stat where
  stDev : BitVec 64
  stIno : BitVec 64
  stNlink : BitVec 64
  stMode : BitVec 32
  stUid : BitVec 32
  stGid : BitVec 32
  stRdev : BitVec 64
  stSize : BitVec 64
  stBlksize : BitVec 64
  stBlocks : BitVec 64
  stAtim : Timespec
  stMtim : Timespec
  stCtim : Timespec

def StatxTimestamp.timespec (t : StatxTimestamp) : Timespec := ⟨t.tvSec, t.tvNsec.setWidth 64⟩

/-- The assignments at the beginning of the completion; none of them reads the old value. -/
def Statx.translate (x : Statx) : Stat where
  stDev := joined x.stxDevMajor x.stxDevMinor
  stIno := x.stxIno
  stNlink := x.stxNlink.setWidth 64
  stMode := x.stxMode.setWidth 32
  stUid := x.stxUid
  stGid := x.stxGid
  stRdev := joined x.stxRdevMajor x.stxRdevMinor
  stSize := x.stxSize
  stBlksize := x.stxBlksize.setWidth 64
  stBlocks := x.stxBlocks
  stAtim := x.stxAtime.timespec
  stMtim := x.stxMtime.timespec
  stCtim := x.stxCtime.timespec

/-- The completion: what it leaves in `*statbuf`, and what the handler is invoked with. -/
def complete (statxbuf : Statx) (_statbuf : Stat) (res : BitVec 32) : Stat × Except ℤ Unit :=
  (statxbuf.translate, if res.toInt < 0 then .error res.toInt else .ok ())

structure Timespec.Equals (t : Timespec) (x : StatxTimestamp) : Prop where
  tvSec : t.tvSec.toInt = x.tvSec.toInt
  tvNsec : t.tvNsec.toInt = x.tvNsec.toNat

structure Stat.Equals (s : Stat) (x : Statx) : Prop where
  dev : major s.stDev = x.stxDevMajor ∧ minor s.stDev = x.stxDevMinor
  rdev : major s.stRdev = x.stxRdevMajor ∧ minor s.stRdev = x.stxRdevMinor
  ino : s.stIno.toNat = x.stxIno.toNat
  nlink : s.stNlink.toNat = x.stxNlink.toNat
  mode : s.stMode.toNat = x.stxMode.toNat
  uid : s.stUid.toNat = x.stxUid.toNat
  gid : s.stGid.toNat = x.stxGid.toNat
  size : s.stSize.toInt = x.stxSize.toNat
  blksize : s.stBlksize.toInt = x.stxBlksize.toNat
  blocks : s.stBlocks.toInt = x.stxBlocks.toNat
  atim : s.stAtim.Equals x.stxAtime
  mtim : s.stMtim.Equals x.stxMtime
  ctim : s.stCtim.Equals x.stxCtime

/-- After a success the caller has what `statx` reported; after a failure the handler gets
the positive error, and the caller's buffer is as it was. -/
structure StatRight (statxbuf : Statx) (statbuf : Stat) (res : BitVec 32) : Prop where
  succeeded : 0 ≤ res.toInt → (complete statxbuf statbuf res).2 = .ok () ∧
    (complete statxbuf statbuf res).1.Equals statxbuf
  failed : res.toInt < 0 → complete statxbuf statbuf res = (statbuf, .error (-res.toInt))

theorem toInt_setWidth (x : BitVec 32) : (x.setWidth 64).toInt = x.toNat := by
  have hx := x.isLt
  have hnat : (x.setWidth 64).toNat = x.toNat := by
    rw [BitVec.toNat_setWidth]
    omega
  rw [BitVec.toInt_eq_toNat_of_lt (by omega), hnat]

theorem timespec_equals (t : StatxTimestamp) : t.timespec.Equals t where
  tvSec := rfl
  tvNsec := toInt_setWidth t.tvNsec

theorem toInt_eq_toNat_iff (x : BitVec 64) : x.toInt = x.toNat ↔ x.toNat < 2 ^ 63 := by
  have hx := x.isLt
  rw [BitVec.toInt_eq_toNat_cond]
  split
  · omega
  · omega

theorem translate_equals_iff (x : Statx) :
    x.translate.Equals x ↔
      (Repeats x.stxDevMajor x.stxDevMinor ∧ Repeats x.stxRdevMajor x.stxRdevMinor) ∧
        x.stxSize.toNat < 2 ^ 63 ∧ x.stxBlocks.toNat < 2 ^ 63 := by
  rw [← decodes_joined_iff, ← decodes_joined_iff, ← toInt_eq_toNat_iff, ← toInt_eq_toNat_iff]
  constructor
  · intro h
    exact ⟨⟨h.dev, h.rdev⟩, h.size, h.blocks⟩
  · rintro ⟨⟨hdev, hrdev⟩, hsize, hblocks⟩
    refine ⟨hdev, hrdev, rfl, ?_, ?_, rfl, rfl, hsize, toInt_setWidth x.stxBlksize, hblocks,
      timespec_equals _, timespec_equals _, timespec_equals _⟩
    · have hx := x.stxNlink.isLt
      show (x.stxNlink.setWidth 64).toNat = _
      rw [BitVec.toNat_setWidth]
      omega
    · have hx := x.stxMode.isLt
      show (x.stxMode.setWidth 32).toNat = _
      rw [BitVec.toNat_setWidth]
      omega

theorem complete_error (statxbuf : Statx) (statbuf : Stat) {res : BitVec 32}
    (h : res.toInt < 0) : complete statxbuf statbuf res ≠ (statbuf, .error (-res.toInt)) := by
  intro heq
  have herror := congrArg Prod.snd heq
  rw [complete, if_pos h] at herror
  have hval := Except.error.inj herror
  omega

/-- A completion is right exactly if it is one of a success, for device numbers whose parts
repeat each other, and a size and a block count that are not negative in their new type. -/
theorem stat_right_iff (statxbuf : Statx) (statbuf : Stat) (res : BitVec 32) :
    StatRight statxbuf statbuf res ↔ 0 ≤ res.toInt ∧
      (Repeats statxbuf.stxDevMajor statxbuf.stxDevMinor ∧
        Repeats statxbuf.stxRdevMajor statxbuf.stxRdevMinor) ∧
      statxbuf.stxSize.toNat < 2 ^ 63 ∧ statxbuf.stxBlocks.toNat < 2 ^ 63 := by
  rw [← translate_equals_iff]
  constructor
  · intro h
    by_cases hneg : res.toInt < 0
    · exact (complete_error statxbuf statbuf hneg (h.failed hneg)).elim
    · have hres : 0 ≤ res.toInt := Int.not_lt.mp hneg
      exact ⟨hres, (h.succeeded hres).2⟩
  · rintro ⟨hres, hequals⟩
    refine ⟨fun _ => ⟨?_, hequals⟩, fun hneg => ?_⟩
    · exact if_neg (Int.not_lt.mpr hres)
    · exact absurd hres (Int.not_le.mpr hneg)

def onDisk : Statx :=
  ⟨4096, 1, 0, 0, 0, 2, 5, 8, ⟨0, 0⟩, ⟨0, 0⟩, ⟨0, 0⟩, 0, 0, 8, 1⟩

def cleared : Stat :=
  ⟨0, 0, 0, 0, 0, 0, 0, 0, 0, 0, ⟨0, 0⟩, ⟨0, 0⟩, ⟨0, 0⟩⟩

/-- The buffer of a `statx` that has failed, as `make_unique` made it. -/
def zeroed : Statx :=
  ⟨0, 0, 0, 0, 0, 0, 0, 0, ⟨0, 0⟩, ⟨0, 0⟩, ⟨0, 0⟩, 0, 0, 0, 0⟩

/-- The device comes out as 0:8388609; and for a missing file the handler gets the error -2,
and what the caller's buffer held is overwritten. -/
theorem stat_wrong :
    (major onDisk.translate.stDev = 0 ∧ minor onDisk.translate.stDev = 0x800001) ∧
      ¬ StatRight onDisk cleared 0 ∧
      (complete zeroed { cleared with stIno := 7 } (-2)).2 = .error (-2) ∧
      (complete zeroed { cleared with stIno := 7 } (-2)).1.stIno = 0 ∧
      ¬ StatRight zeroed { cleared with stIno := 7 } (-2) := by
  refine ⟨⟨by decide, by decide⟩, fun h => ?_, rfl, rfl, fun h => ?_⟩
  · have hdev := (h.succeeded (by decide)).2.dev.1
    exact absurd hdev (by decide)
  · have hino := congrArg (fun c => c.1.stIno) (h.failed (by decide))
    exact absurd hino (by decide)

end BadIo.IoringStat
