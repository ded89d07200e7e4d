import Mathlib.Data.List.Perm.Basic
import Opthash.Machine
import Opthash.Reserve

namespace Opthash

abbrev LevelBins : Type := Nat → UInt16

structure MetadataWord where
  membership : UInt64
  levelBins : LevelBins

namespace MetadataWord

def zero : MetadataWord := ⟨0, fun _ => 0⟩

def record (bits : UInt64) (bin : Nat) (level : UInt16) (word : MetadataWord) : MetadataWord where
  membership := word.membership ||| bits
  levelBins := Function.update word.levelBins bin (word.levelBins bin ||| level)

end MetadataWord

namespace Membership

def slotsPerWord : Nat := 10

def wordCount (totalSlots : Nat) : Nat := (totalSlots + slotsPerWord - 1) / slotsPerWord

def refreshDeletes (maxInsertions : Nat) : Nat := maxInsertions

def shifts : List UInt64 := [0, 32, 16]

/-- The first `count` signature fields, one bit each. -/
def fromSignature (count : Nat) (signature : UInt64) : UInt64 :=
  (shifts.take count).foldl (fun bits shift => bits ||| ((1 : UInt64) <<< ((signature >>> shift) &&& 63))) 0

def word (signature : UInt64) (wordCount : Nat) : Nat := signature.toNat * wordCount / 2 ^ 64

end Membership

structure MembershipRegion where
  words : Nat
  word : Nat → MetadataWord

namespace MembershipRegion

def zeroed (words : Nat) : MembershipRegion := ⟨words, fun _ => .zero⟩

def clear (m : MembershipRegion) : MembershipRegion := zeroed m.words

def record (m : MembershipRegion) (index : Nat) (bits : UInt64) (bin : Nat) (level : UInt16) :
    MembershipRegion :=
  if m.words = 0 then m
  else { m with word := Function.update m.word index ((m.word index).record bits bin level) }

end MembershipRegion

section Bits

theorem or_and_of_and {x z : UInt64} (h : x &&& z = z) (y : UInt64) : (x ||| y) &&& z = z := by
  rw [← UInt64.toBitVec_inj] at h ⊢
  simp only [UInt64.toBitVec_and, UInt64.toBitVec_or] at h ⊢
  ext i hi
  have := congrArg (·.getLsbD i) h
  simp only [BitVec.getLsbD_and, BitVec.getElem_and, BitVec.getElem_or] at this ⊢
  grind

theorem or_and_cancel (x z : UInt64) : (x ||| z) &&& z = z := by
  rw [UInt64.or_comm]
  exact or_and_of_and (UInt64.and_self) x

theorem or_and_distrib (x y z : UInt16) : (x ||| y) &&& z = x &&& z ||| y &&& z := by
  rw [← UInt16.toBitVec_inj]
  simp only [UInt16.toBitVec_and, UInt16.toBitVec_or]
  ext i hi
  simp only [BitVec.getElem_and, BitVec.getElem_or]
  grind

theorem or_and_ne_zero {x y z : UInt16} : (x ||| y) &&& z ≠ 0 ↔ x &&& z ≠ 0 ∨ y &&& z ≠ 0 := by
  rw [or_and_distrib, ne_eq, UInt16.or_eq_zero_iff]
  tauto

end Bits

/-- The filter knows a key: all its bits are set, and so is the level in its bin. -/
def MetadataWord.Has (word : MetadataWord) (bits : UInt64) (bin : Nat) (level : UInt16) : Prop :=
  word.membership &&& bits = bits ∧ word.levelBins bin &&& level ≠ 0

namespace MetadataWord

variable {word : MetadataWord} {bits bits' : UInt64} {bin bin' : Nat} {level level' : UInt16}

theorem has_record (hl : level ≠ 0) : (word.record bits bin level).Has bits bin level := by
  refine ⟨or_and_cancel .., ?_⟩
  simp only [record, Function.update_self]
  refine or_and_ne_zero.mpr (.inr ?_)
  rwa [UInt16.and_self]

theorem Has.record (h : word.Has bits bin level) :
    (word.record bits' bin' level').Has bits bin level := by
  refine ⟨or_and_of_and h.1 _, ?_⟩
  simp only [MetadataWord.record, Function.update_apply]
  split
  · rename_i hbin
    rw [← hbin]
    exact or_and_ne_zero.mpr (.inl h.2)
  · exact h.2

theorem record_comm : (word.record bits bin level).record bits' bin' level' =
    (word.record bits' bin' level').record bits bin level := by
  simp only [record, MetadataWord.mk.injEq]
  refine ⟨?_, ?_⟩
  · rw [UInt64.or_assoc, UInt64.or_comm bits, ← UInt64.or_assoc]
  · funext i
    simp only [Function.update_apply]
    by_cases h : bin' = bin
    · subst h
      simp only [↓reduceIte]
      split
      · rw [UInt16.or_assoc, UInt16.or_comm level, ← UInt16.or_assoc]
      · rfl
    · have h' : bin ≠ bin' := fun h' => h h'.symm
      simp only [h, h', ↓reduceIte]
      by_cases hi : i = bin
      · simp [hi, h']
      · simp [hi]

end MetadataWord

namespace MembershipRegion

variable {m : MembershipRegion} {index index' bin bin' : Nat} {bits bits' : UInt64} {level level' : UInt16}

def Has (m : MembershipRegion) (index : Nat) (bits : UInt64) (bin : Nat) (level : UInt16) : Prop :=
  m.words ≠ 0 ∧ (m.word index).Has bits bin level

@[simp] theorem words_record : (m.record index bits bin level).words = m.words := by
  unfold record
  split <;> rfl

theorem has_record (hw : m.words ≠ 0) (hl : level ≠ 0) :
    (m.record index bits bin level).Has index bits bin level := by
  refine ⟨by rwa [words_record], ?_⟩
  simp only [record, hw, ↓reduceIte, Function.update_self]
  exact MetadataWord.has_record hl

theorem Has.record (h : m.Has index bits bin level) :
    (m.record index' bits' bin' level').Has index bits bin level := by
  refine ⟨by rw [words_record]; exact h.1, ?_⟩
  simp only [MembershipRegion.record, h.1, ↓reduceIte, Function.update_apply]
  split
  · rename_i hi
    rw [← hi]
    exact h.2.record
  · exact h.2

theorem record_comm : (m.record index bits bin level).record index' bits' bin' level' =
    (m.record index' bits' bin' level').record index bits bin level := by
  simp only [record]
  by_cases hw : m.words = 0
  · simp [hw]
  · simp only [hw, ↓reduceIte, MembershipRegion.mk.injEq, true_and]
    funext i
    simp only [Function.update_apply]
    by_cases h : index' = index
    · subst h
      simp only [↓reduceIte]
      split
      · exact MetadataWord.record_comm
      · rfl
    · have h' : index ≠ index' := fun h' => h h'.symm
      simp only [h, h', ↓reduceIte]
      by_cases hi : i = index
      · simp [hi, h']
      · simp [hi]

theorem levelBins_record {word : Nat} {bin₀ : Nat} {level₀ : UInt16}
    (h : ((m.record index bits bin level).word word).levelBins bin₀ &&& level₀ ≠ 0) :
    (m.word word).levelBins bin₀ &&& level₀ ≠ 0 ∨ level &&& level₀ ≠ 0 := by
  simp only [record] at h
  split at h
  · exact .inl h
  · simp only [Function.update_apply] at h
    split at h
    · rename_i hi
      simp only [MetadataWord.record, Function.update_apply] at h
      split at h
      · rename_i hb
        rw [hi, hb]
        exact or_and_ne_zero.mp h
      · rw [hi]
        exact .inl h
    · exact .inl h

end MembershipRegion

structure Recording where
  index : Nat
  bits : UInt64
  bin : Nat
  level : UInt16
  deriving DecidableEq

namespace MembershipRegion

variable {m : MembershipRegion} {r r' : Recording} {rs : List Recording} {words : Nat}

def put (m : MembershipRegion) (r : Recording) : MembershipRegion := m.record r.index r.bits r.bin r.level

def Knows (m : MembershipRegion) (r : Recording) : Prop := m.Has r.index r.bits r.bin r.level

def recordAll (words : Nat) (rs : List Recording) : MembershipRegion := rs.foldl put (zeroed words)

theorem recordAll_append : recordAll words (rs ++ [r]) = (recordAll words rs).put r := by
  rw [recordAll, List.foldl_append]
  rfl

theorem words_recordAll : (recordAll words rs).words = words := by
  induction rs using List.reverseRecOn with
  | nil => rfl
  | append_singleton rs r ih => rw [recordAll_append, put, words_record, ih]

theorem recordAll_perm {rs' : List Recording} (h : rs.Perm rs') : recordAll words rs = recordAll words rs' := by
  have : RightCommutative put := ⟨fun _ _ _ => record_comm⟩
  exact h.foldl_eq _

theorem knows_recordAll (hw : words ≠ 0) (hr : r ∈ rs) (hl : r.level ≠ 0) : (recordAll words rs).Knows r := by
  induction rs using List.reverseRecOn with
  | nil => cases hr
  | append_singleton rs last ih =>
    rw [recordAll_append]
    rcases List.mem_append.mp hr with h | h
    · exact (ih h).record
    · rw [List.mem_singleton.mp h] at hl ⊢
      exact has_record (by rwa [words_recordAll]) hl

theorem levelBins_recordAll {word bin : Nat} {level : UInt16}
    (h : ((recordAll words rs).word word).levelBins bin &&& level ≠ 0) : ∃ r ∈ rs, r.level &&& level ≠ 0 := by
  induction rs using List.reverseRecOn with
  | nil => exact absurd UInt16.zero_and h
  | append_singleton rs last ih =>
    rw [recordAll_append] at h
    rcases levelBins_record h with h | h
    · obtain ⟨r, hr, hl⟩ := ih h
      exact ⟨r, List.mem_append_left _ hr, hl⟩
    · exact ⟨last, List.mem_append_right _ (List.mem_singleton.mpr rfl), h⟩

end MembershipRegion

end Opthash
