import Mathlib.Data.BitVec

namespace BadIo.DeviceNumber

def mask (w lo len : ℕ) : BitVec w := (BitVec.allOnes len).setWidth w <<< lo

theorem getLsbD_mask {w lo len i : ℕ} (hi : i < w) :
    (mask w lo len).getLsbD i = decide (lo ≤ i ∧ i < lo + len) := by
  simp only [mask, BitVec.getLsbD_shiftLeft, BitVec.getLsbD_setWidth, BitVec.getLsbD_allOnes]
  grind

theorem getLsbD_and_mask {w : ℕ} (x : BitVec w) (lo len i : ℕ) :
    (x &&& mask w lo len).getLsbD i = (x.getLsbD i && decide (lo ≤ i ∧ i < lo + len)) := by
  by_cases hi : i < w
  · rw [BitVec.getLsbD_and, getLsbD_mask hi]
  · rw [BitVec.getLsbD_of_ge _ _ (by omega), BitVec.getLsbD_of_ge x _ (by omega), Bool.false_and]

/-- `dev_t` of the GNU C library, where the two numbers do not stand side by side. -/
def makedev (major minor : BitVec 32) : BitVec 64 :=
  (major &&& 0xfffff000#32).setWidth 64 <<< 32 ||| (major &&& 0xfff#32).setWidth 64 <<< 8 |||
    (minor &&& 0xffffff00#32).setWidth 64 <<< 12 ||| (minor &&& 0xff#32).setWidth 64

def major (dev : BitVec 64) : BitVec 32 :=
  ((dev &&& 0xfff00#64) >>> 8 ||| (dev &&& 0xfffff00000000000#64) >>> 32).setWidth 32

def minor (dev : BitVec 64) : BitVec 32 :=
  ((dev &&& 0xff#64) ||| (dev &&& 0xffffff00000#64) >>> 12).setWidth 32

theorem getLsbD_major (dev : BitVec 64) {i : ℕ} (hi : i < 32) :
    (major dev).getLsbD i = if i < 12 then dev.getLsbD (8 + i) else dev.getLsbD (32 + i) := by
  have h₁ : 0xfff00#64 = mask 64 8 12 := by decide
  have h₂ : 0xfffff00000000000#64 = mask 64 44 20 := by decide
  rw [major, h₁, h₂, BitVec.getLsbD_setWidth, BitVec.getLsbD_or, BitVec.getLsbD_ushiftRight,
    BitVec.getLsbD_ushiftRight, getLsbD_and_mask, getLsbD_and_mask]
  grind

theorem getLsbD_minor (dev : BitVec 64) {i : ℕ} (hi : i < 32) :
    (minor dev).getLsbD i = if i < 8 then dev.getLsbD i else dev.getLsbD (12 + i) := by
  have h₁ : 0xff#64 = mask 64 0 8 := by decide
  have h₂ : 0xffffff00000#64 = mask 64 20 24 := by decide
  rw [minor, h₁, h₂, BitVec.getLsbD_setWidth, BitVec.getLsbD_or, BitVec.getLsbD_ushiftRight,
    getLsbD_and_mask, getLsbD_and_mask]
  grind

theorem getLsbD_makedev (a b : BitVec 32) {i : ℕ} (hi : i < 64) :
    (makedev a b).getLsbD i =
      if i < 8 then b.getLsbD i
      else if i < 20 then a.getLsbD (i - 8)
      else if i < 44 then b.getLsbD (i - 12)
      else a.getLsbD (i - 32) := by
  have h₁ : 0xfffff000#32 = mask 32 12 20 := by decide
  have h₂ : 0xfff#32 = mask 32 0 12 := by decide
  have h₃ : 0xffffff00#32 = mask 32 8 24 := by decide
  have h₄ : 0xff#32 = mask 32 0 8 := by decide
  rw [makedev, h₁, h₂, h₃, h₄]
  simp only [BitVec.getLsbD_or, BitVec.getLsbD_shiftLeft, BitVec.getLsbD_setWidth,
    getLsbD_and_mask]
  grind

theorem major_eq_iff {dev : BitVec 64} {a : BitVec 32} :
    major dev = a ↔ ∀ i < 32,
      a.getLsbD i = if i < 12 then dev.getLsbD (8 + i) else dev.getLsbD (32 + i) := by
  constructor
  · rintro rfl i hi
    exact getLsbD_major dev hi
  · intro h
    apply BitVec.eq_of_getLsbD_eq
    intro i hi
    rw [getLsbD_major dev hi, h i hi]

theorem minor_eq_iff {dev : BitVec 64} {b : BitVec 32} :
    minor dev = b ↔ ∀ i < 32,
      b.getLsbD i = if i < 8 then dev.getLsbD i else dev.getLsbD (12 + i) := by
  constructor
  · rintro rfl i hi
    exact getLsbD_minor dev hi
  · intro h
    apply BitVec.eq_of_getLsbD_eq
    intro i hi
    rw [getLsbD_minor dev hi, h i hi]

theorem major_makedev (a b : BitVec 32) : major (makedev a b) = a := by
  rw [major_eq_iff]
  intro i hi
  rw [getLsbD_makedev _ _ (by omega), getLsbD_makedev _ _ (by omega)]
  grind

theorem minor_makedev (a b : BitVec 32) : minor (makedev a b) = b := by
  rw [minor_eq_iff]
  intro i hi
  rw [getLsbD_makedev _ _ (by omega), getLsbD_makedev _ _ (by omega)]
  grind

/-- The decoders are the inverse of the encoder. -/
theorem makedev_major_minor (dev : BitVec 64) : makedev (major dev) (minor dev) = dev := by
  apply BitVec.eq_of_getLsbD_eq
  intro i hi
  rw [getLsbD_makedev _ _ hi]
  split
  · rw [getLsbD_minor _ (by omega)]
    grind
  split
  · rw [getLsbD_major _ (by omega)]
    grind
  split
  · rw [getLsbD_minor _ (by omega)]
    grind
  · rw [getLsbD_major _ (by omega)]
    grind

/-- Major and minor number in one half each. -/
def joined (a b : BitVec 32) : BitVec 64 := a.setWidth 64 <<< 32 ||| b.setWidth 64

theorem getLsbD_joined (a b : BitVec 32) {i : ℕ} (hi : i < 64) :
    (joined a b).getLsbD i = if i < 32 then b.getLsbD i else a.getLsbD (i - 32) := by
  simp only [joined, BitVec.getLsbD_or, BitVec.getLsbD_shiftLeft, BitVec.getLsbD_setWidth]
  grind

/-- The low twelve bits of the major number occur twice in the minor number, in the places
that belong to the major number and next to it. -/
def Repeats (a b : BitVec 32) : Prop :=
  a &&& 0xfff#32 = b >>> 8 &&& 0xfff#32 ∧ b >>> 8 &&& 0xfff#32 = b >>> 20

instance (a b : BitVec 32) : Decidable (Repeats a b) := inferInstanceAs (Decidable (_ ∧ _))

theorem repeats_iff (a b : BitVec 32) :
    Repeats a b ↔ ∀ i < 12, a.getLsbD i = b.getLsbD (8 + i) ∧
      b.getLsbD (8 + i) = b.getLsbD (20 + i) := by
  have h₁ : 0xfff#32 = mask 32 0 12 := by decide
  rw [Repeats, h₁]
  constructor
  · rintro ⟨ha, hb⟩ i hi
    have hai := congrArg (BitVec.getLsbD · i) ha
    have hbi := congrArg (BitVec.getLsbD · i) hb
    simp only [getLsbD_and_mask, BitVec.getLsbD_ushiftRight] at hai hbi
    grind
  · intro h
    constructor
    · apply BitVec.eq_of_getLsbD_eq
      intro i _
      rw [getLsbD_and_mask, getLsbD_and_mask, BitVec.getLsbD_ushiftRight]
      grind
    · apply BitVec.eq_of_getLsbD_eq
      intro i _
      rw [getLsbD_and_mask, BitVec.getLsbD_ushiftRight, BitVec.getLsbD_ushiftRight]
      by_cases hi : i < 12
      · grind
      · rw [BitVec.getLsbD_of_ge b (20 + i) (by omega)]
        grind

theorem major_joined_iff (a b : BitVec 32) :
    major (joined a b) = a ↔ ∀ i < 12, a.getLsbD i = b.getLsbD (8 + i) := by
  rw [major_eq_iff]
  constructor
  · intro h i hi
    rw [h i (by omega), if_pos hi, getLsbD_joined _ _ (by omega)]
    exact if_pos (by omega)
  · intro h i hi
    rw [getLsbD_joined _ _ (by omega), getLsbD_joined _ _ (by omega)]
    grind

theorem minor_joined_iff (a b : BitVec 32) :
    minor (joined a b) = b ↔
      ∀ i < 12, b.getLsbD (8 + i) = b.getLsbD (20 + i) ∧ b.getLsbD (20 + i) = a.getLsbD i := by
  -- the upper bits of the minor number are read from the next twelve and from the major number
  rw [minor_eq_iff]
  constructor
  · intro h i hi
    have h₁ := h (8 + i) (by omega)
    have h₂ := h (20 + i) (by omega)
    rw [if_neg (by omega), getLsbD_joined _ _ (by omega)] at h₁ h₂
    grind
  · intro h i hi
    rw [getLsbD_joined _ _ (by omega), getLsbD_joined _ _ (by omega)]
    have h₁ := h (i - 8)
    have h₂ := h (i - 20)
    grind

/-- The decoders take the two halves for a device number, and find in it the numbers that
were put there only if those repeat each other. -/
theorem decodes_joined_iff (a b : BitVec 32) :
    major (joined a b) = a ∧ minor (joined a b) = b ↔ Repeats a b := by
  rw [major_joined_iff, minor_joined_iff, repeats_iff]
  constructor
  · rintro ⟨ha, hb⟩ i hi
    exact ⟨ha i hi, (hb i hi).1⟩
  · intro h
    refine ⟨fun i hi => (h i hi).1, fun i hi => ⟨(h i hi).2, ?_⟩⟩
    rw [(h i hi).1, (h i hi).2]

end BadIo.DeviceNumber
