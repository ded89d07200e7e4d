import Opthash.Machine

namespace Opthash

def ctrlEmpty : UInt8 := 0
def ctrlTombstone : UInt8 := 0x80
def fingerprintMask : UInt8 := 0x7F
def fingerprintShift : UInt64 := 57

def isOccupied (byte : UInt8) : Bool := byte &&& fingerprintMask != 0
def isFree (byte : UInt8) : Bool := byte &&& fingerprintMask == 0

def controlFingerprint (hash : UInt64) : UInt8 :=
  max (((hash >>> fingerprintShift) &&& fingerprintMask.toUInt64).toUInt8) 1

theorem isFree_eq_not (byte : UInt8) : isFree byte = !isOccupied byte := by
  simp [isFree, isOccupied, bne]

@[simp] theorem isOccupied_ctrlEmpty : isOccupied ctrlEmpty = false := by decide

@[simp] theorem isOccupied_ctrlTombstone : isOccupied ctrlTombstone = false := by decide

@[simp] theorem isFree_ctrlEmpty : isFree ctrlEmpty = true := by decide

@[simp] theorem isFree_ctrlTombstone : isFree ctrlTombstone = true := by decide

theorem ctrlTombstone_ne_ctrlEmpty : ctrlTombstone ≠ ctrlEmpty := by decide

theorem isFree_iff (byte : UInt8) : isFree byte ↔ byte = ctrlEmpty ∨ byte = ctrlTombstone := by
  have hall : ∀ n < 256, isFree (UInt8.ofNat n) = true ↔
      UInt8.ofNat n = ctrlEmpty ∨ UInt8.ofNat n = ctrlTombstone := by decide +kernel
  simpa only [UInt8.ofNat_toNat] using hall byte.toNat byte.toNat_lt

theorem controlFingerprint_toNat (hash : UInt64) :
    (controlFingerprint hash).toNat = max ((hash.toNat >>> 57) % 128) 1 := by
  have hmask : (hash.toNat >>> 57) &&& 127 = (hash.toNat >>> 57) % 128 :=
    Nat.and_two_pow_sub_one_eq_mod (hash.toNat >>> 57) 7
  have hword : (((hash >>> fingerprintShift) &&& fingerprintMask.toUInt64).toUInt8).toNat
      = (hash.toNat >>> 57) % 128 := by
    simp only [fingerprintShift, fingerprintMask, UInt64.toNat_toUInt8, UInt64.toNat_and,
      UInt64.toNat_shiftRight]
    change ((hash.toNat >>> 57) &&& 127) % 2 ^ 8 = _
    rw [hmask]
    omega
  unfold controlFingerprint
  generalize ((hash >>> fingerprintShift) &&& fingerprintMask.toUInt64).toUInt8 = byte at hword ⊢
  have hmax : max byte 1 = if byte ≤ 1 then 1 else byte := rfl
  rw [hmax, ← hword]
  split <;> rename_i h <;> rw [UInt8.le_iff_toNat_le] at h
  · exact (Nat.max_eq_right h).symm
  · exact (Nat.max_eq_left (by omega)).symm

theorem isOccupied_controlFingerprint (hash : UInt64) : isOccupied (controlFingerprint hash) := by
  have hall : ∀ n < 128, 1 ≤ n → isOccupied (UInt8.ofNat n) = true := by decide +kernel
  have hn := controlFingerprint_toNat hash
  have := hall (controlFingerprint hash).toNat (by omega) (by omega)
  simpa only [UInt8.ofNat_toNat] using this

theorem controlFingerprint_ne_ctrlEmpty (hash : UInt64) : controlFingerprint hash ≠ ctrlEmpty := by
  intro h
  have := isOccupied_controlFingerprint hash
  simp [h] at this

theorem controlFingerprint_ne_ctrlTombstone (hash : UInt64) :
    controlFingerprint hash ≠ ctrlTombstone := by
  intro h
  have := isOccupied_controlFingerprint hash
  simp [h] at this

end Opthash
