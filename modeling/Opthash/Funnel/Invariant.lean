import Opthash.Funnel.Ops
import Opthash.Funnel.Walk
import Opthash.Calls
import Opthash.Raw.Contents

namespace Opthash.Funnel

open Probe Probing

theorem levelBitOf_min (level : Nat) : levelBitOf (min level overflowLevel) = levelBitOf level := by
  rw [levelBitOf, levelBitOf, Nat.min_assoc, Nat.min_self]

theorem levelBitOf_ne_zero (level : Nat) : levelBitOf level ≠ 0 := by
  rw [← levelBitOf_min]
  have hall : ∀ level ≤ 15, levelBitOf level ≠ 0 := by decide
  exact hall _ (Nat.min_le_right ..)

theorem levelBitOf_and {level level' : Nat} (h : level' < overflowLevel)
    (hbit : levelBitOf level &&& levelBitOf level' ≠ 0) : level = level' := by
  have hall : ∀ level ≤ 15, ∀ level' < 15, levelBitOf level &&& levelBitOf level' ≠ 0 →
      level = level' := by decide
  rw [← levelBitOf_min level] at hbit
  have := hall _ (Nat.min_le_right level overflowLevel) level' h hbit
  have : overflowLevel = 15 := rfl
  omega

namespace FunnelTable

variable {W K V : Type} {group : GroupBackend} {u : User W K V} {q : Prop} {t t' : FunnelTable K V}

def recording (t : FunnelTable K V) (slot : Nat) (x : UInt64) : Recording :=
  ⟨(t.membershipSlot x).index, (t.membershipSlot x).bits, (t.membershipSlot x).bin, t.levelBit slot⟩

def Recorded (t : FunnelTable K V) (slot : Nat) (x : UInt64) : Prop := t.membership.Knows (t.recording slot x)

/-- A probe for the hash `x` that stops at EMPTY comes to `slot`. -/
def OnWalk (t : FunnelTable K V) (x : UInt64) (slot : Nat) : Prop :=
  Reached (fun i => t.storage.ctrl i = ctrlEmpty) (t.walk (prepareFunnel t.probeSeed x)) slot

/-- What lookups of a key that hashes to `x` rely on for an entry at `slot`. -/
structure Placed (filtered : Prop) (t : FunnelTable K V) (slot : Nat) (x : UInt64) : Prop where
  fingerprint : t.storage.ctrl slot = controlFingerprint x
  recorded : filtered → t.Recorded slot x
  reachable : t.exceptionalPlacement = true ∨ t.OnWalk x slot

structure Wf (t : FunnelTable K V) : Prop where
  planned : t.shape.Planned t.reserveFraction
  capacity : t.storage.capacity = t.shape.n
  small : t.shape.n < 2 ^ 63
  filled : t.storage.Filled
  padded : t.storage.Padded
  fits : t.storage.entries.length ≤ t.len
  limit : t.len ≤ t.shape.maxInsertions
  words : t.membership.words = Membership.wordCount t.shape.n
  bins : ∀ word bin, t.KnownLevels ((t.membership.word word).levelBins bin)

structure Counted (t : FunnelTable K V) : Prop where
  len : t.len = t.storage.entries.length
  tombstones : t.tombstones = t.storage.tombstoneCount

def Sound (u : User W K V) (filtered : Prop) (t : FunnelTable K V) : Prop :=
  (filtered → u.Deterministic) → ∀ slot e, t.storage.Holds slot e → ∃ x, u.Hashes e.1 x ∧ t.Placed filtered slot x

def recordAll (t : FunnelTable K V) (hashAt : Nat → UInt64) (slots : List Nat) : MembershipRegion :=
  .recordAll t.membership.words (slots.map fun slot => t.recording slot (hashAt slot))

/-- The filter is exactly what recording the stored entries into an empty one gives. -/
def Exact (u : User W K V) (t : FunnelTable K V) : Prop :=
  ∃ hashAt : Nat → UInt64, (∀ slot e, t.storage.Holds slot e → u.Hashes e.1 (hashAt slot)) ∧
    t.membership = t.recordAll hashAt t.storage.occupied

section Wf

theorem Wf.shape (h : t.Wf) : FunnelShape.fromSlots t.shape.n t.reserveFraction = .ok t.shape := h.planned

theorem Wf.laid (h : t.Wf) (hn : t.shape.n ≠ 0) : t.shape.Laid :=
  ((FunnelShape.fromSlots_spec h.shape).2.2 hn).1

theorem Wf.scannable (h : t.Wf) : t.storage.Scannable true :=
  ⟨by rw [h.capacity]; exact Nat.le_of_lt h.small, fun _ => h.padded⟩

theorem Wf.lt (h : t.Wf) {slot : Nat} (ho : t.storage.Occ slot) : slot < t.shape.n := by
  rcases Nat.lt_or_ge slot t.shape.n with hlt | hge
  · exact hlt
  · rw [h.padded.free (by rw [h.capacity]; exact hge)] at ho
    cases ho

theorem Wf.holds (h : t.Wf) {slot : Nat} (ho : t.storage.Occ slot) : ∃ e, t.storage.Holds slot e :=
  h.filled.holds (by rw [h.capacity]; exact h.lt ho) ho

theorem Wf.exists_free (h : t.Wf) (hlt : t.storage.entries.length < t.shape.n) :
    ∃ slot, t.firstFreeGlobal = some slot ∧ slot < t.shape.n ∧ isFree (t.storage.ctrl slot) := by
  obtain ⟨i, hi, hfree⟩ := Region.exists_free h.filled (by rwa [h.capacity])
  rw [h.capacity] at hi
  cases hfind : t.firstFreeGlobal with
  | none =>
    have := List.find?_eq_none.mp hfind i (List.mem_range.mpr hi)
    exact absurd hfree this
  | some slot =>
    have hmem := List.mem_of_find?_eq_some hfind
    have hfree := List.find?_some (p := fun slot => isFree (t.storage.ctrl slot)) hfind
    exact ⟨slot, rfl, List.mem_range.mp hmem, hfree⟩

theorem Wf.levels_nil (h : t.Wf) (hl : t.shape.levels = []) : t.shape.primaryOffset = 0 := by
  by_cases hn : t.shape.n = 0
  · rw [(FunnelShape.fromSlots_spec h.shape).2.1 hn]
    rfl
  · have hcons := (h.laid hn).levels
    rw [hl] at hcons
    exact Eq.symm hcons

end Wf

theorem levelBit_ne_zero (t : FunnelTable K V) (slot : Nat) : t.levelBit slot ≠ 0 := by
  unfold levelBit overflowLevelBit
  dsimp only
  split <;> exact levelBitOf_ne_zero _

theorem knownLevels_levelBit (hl : t.shape.levels = [] → t.shape.primaryOffset = 0) (slot : Nat) :
    t.KnownLevels (t.levelBit slot) := by
  intro level hlevel hbit
  unfold levelBit at hbit
  dsimp only at hbit
  split at hbit
  · have := levelBitOf_and hlevel hbit
    omega
  · rename_i hlt
    have hk := levelBitOf_and hlevel hbit
    have hlen := (List.takeWhile_sublist (fun l : LevelShape => decide (l.offset ≤ slot))
      (l := t.shape.levels.drop 1)).length_le
    rw [List.length_drop] at hlen
    cases hlevels : t.shape.levels with
    | nil =>
      rw [hlevels] at hlt
      simp only [List.getElem?_nil, Option.elim_none, hl hlevels] at hlt
      omega
    | cons l ls =>
      rw [hlevels] at hlen hk
      simp only [List.length_cons] at hlen ⊢
      omega

theorem KnownLevels.of_shape {levels : UInt16} (hs : t'.shape = t.shape) (h : t.KnownLevels levels) :
    t'.KnownLevels levels := by
  unfold KnownLevels
  rw [hs]
  exact h

theorem knownLevels_zero : t.KnownLevels 0 := by
  intro level _ h
  exact absurd (UInt16.zero_and) h

theorem levelBit_congr (hs : t'.shape = t.shape) (slot : Nat) : t'.levelBit slot = t.levelBit slot := by
  unfold levelBit
  rw [hs]

theorem walk_congr (hs : t'.shape = t.shape) (probe : PreparedFastFunnelProbe) :
    t'.walk probe = t.walk probe := by
  have hordinary : t'.ordinaryPart probe = t.ordinaryPart probe := by
    funext level
    simp only [ordinaryPart, bucketStart, hs]
  simp only [walk, specialPart, primaryPart, fallbackPart, fallbackSlots, fallbackSlot, hs, hordinary]

theorem Recorded.gate {slot : Nat} {x : UInt64} (h : t.Recorded slot x) :
    (t.membershipGate x).passes = true ∧ (t.membershipGate x).levels &&& t.levelBit slot ≠ 0 := by
  have hgate : t.membershipGate x = ⟨(t.membership.word (t.membershipSlot x).index).membership,
      (t.membershipSlot x).bits, (t.membership.word (t.membershipSlot x).index).levelBins
        (t.membershipSlot x).bin⟩ := by
    rw [membershipGate, membershipGateAt, if_neg h.1]
  rw [hgate]
  exact ⟨beq_iff_eq.mpr h.2.1, h.2.2⟩

theorem gate_known (h : t.Wf) (x : UInt64) (hp : (t.membershipGate x).passes = true) :
    t.shape.n ≠ 0 ∧ t.KnownLevels (t.membershipGate x).levels := by
  unfold membershipGate membershipGateAt at *
  split at hp
  · exact absurd hp (by decide)
  · rename_i hwords
    rw [if_neg hwords]
    refine ⟨fun hn => hwords ?_, h.bins _ _⟩
    rw [h.words, hn]
    rfl

structure Extends (t t' : FunnelTable K V) : Prop where
  shape : t'.shape = t.shape
  seed : t'.probeSeed = t.probeSeed
  words : t'.membership.words = t.membership.words
  knows : ∀ r, t.membership.Knows r → t'.membership.Knows r
  exceptional : t.exceptionalPlacement = true → t'.exceptionalPlacement = true
  stops : ∀ i, t'.storage.ctrl i = ctrlEmpty → t.storage.ctrl i = ctrlEmpty

theorem membershipSlot_congr (hw : t'.membership.words = t.membership.words) (x : UInt64) :
    t'.membershipSlot x = t.membershipSlot x := by
  unfold membershipSlot
  rw [hw]

theorem recording_congr (hw : t'.membership.words = t.membership.words) (hs : t'.shape = t.shape) (slot : Nat)
    (x : UInt64) : t'.recording slot x = t.recording slot x := by
  rw [recording, membershipSlot_congr hw, levelBit_congr hs]
  rfl

theorem recordAll_hashAt {hashAt hashAt' : Nat → UInt64} {slots : List Nat}
    (h : ∀ slot ∈ slots, hashAt' slot = hashAt slot) : t.recordAll hashAt' slots = t.recordAll hashAt slots := by
  rw [recordAll, recordAll, List.map_congr_left fun slot hslot => by rw [h slot hslot]]

theorem recordAll_congr {hashAt : Nat → UInt64} {slots : List Nat}
    (hw : t'.membership.words = t.membership.words) (hs : t'.shape = t.shape) :
    t'.recordAll hashAt slots = t.recordAll hashAt slots := by
  simp only [recordAll, hw, recording_congr hw hs]

theorem Recorded.mono (h : t.Extends t') {slot : Nat} {x : UInt64} (hr : t.Recorded slot x) :
    t'.Recorded slot x := by
  unfold Recorded
  rw [recording_congr h.words h.shape]
  exact h.knows _ hr

theorem OnWalk.mono (h : t.Extends t') {slot : Nat} {x : UInt64} (hw : t.OnWalk x slot) :
    t'.OnWalk x slot := by
  unfold OnWalk at *
  rw [h.seed, walk_congr h.shape]
  exact hw.mono h.stops

theorem Placed.mono (h : t.Extends t') {slot : Nat} {x : UInt64} (hp : t.Placed q slot x)
    (hc : t'.storage.ctrl slot = t.storage.ctrl slot) : t'.Placed q slot x :=
  ⟨hc.trans hp.fingerprint, fun hq => (hp.recorded hq).mono h, hp.reachable.imp h.exceptional (·.mono h)⟩

theorem Sound.mono (h : t.Extends t') (hs : t.Sound u q)
    (hold : ∀ slot e, t'.storage.Holds slot e → ∃ e', e'.1 = e.1 ∧ t.storage.Holds slot e' ∧
      t'.storage.ctrl slot = t.storage.ctrl slot) : t'.Sound u q := by
  intro hd slot e he
  obtain ⟨e', hkey, he', hc⟩ := hold slot e he
  obtain ⟨x, hx, hp⟩ := hs hd slot e' he'
  exact ⟨x, hkey ▸ hx, hp.mono h hc⟩

end FunnelTable

end Opthash.Funnel
