import Opthash.Funnel.Budget
import Opthash.Funnel.Lookup

namespace Opthash.Funnel

open Exec Probe Probing

namespace SearchResult

def hit? : SearchResult → Option Nat
  | .hit slot => some slot
  | _ => none

theorem hit?_toResult (o : Outcome Nat) : (toResult o).hit? = o.hit? := by cases o <;> rfl

end SearchResult

namespace FunnelTable

variable {σ K V : Type} {t : FunnelTable K V} {group : GroupBackend} {inspect : Nat → Exec Panic σ Bool}
  {x : UInt64}

theorem modeKind_clean {fingerprint : UInt8} {slot : Nat} (h : t.storage.ctrl slot ≠ ctrlTombstone) :
    t.modeKind true fingerprint slot = t.modeKind false fingerprint slot := by
  have hkind : slotKind t.storage.ctrl fingerprint slot ≠ .deleted := fun hk => h (slotKind_deleted.mp hk)
  have hgeneral : t.modeKind false fingerprint slot = slotKind t.storage.ctrl fingerprint slot :=
    if_neg fun hmode => Bool.false_ne_true hmode.1
  rw [hgeneral, modeKind]
  split
  · rw [blindKind]
    cases hk : slotKind t.storage.ctrl fingerprint slot with
    | deleted => exact absurd hk hkind
    | empty => rfl
    | candidate => rfl
    | other => rfl
  · rfl

section Masked

theorem recordedWalk_all (probe : PreparedFastFunnelProbe) : t.recordedWalk probe 0xFFFF = t.walk probe := by
  have hbit : ∀ level, (0xFFFF : UInt16) &&& levelBitOf level ≠ 0 := by
    intro level
    rw [← levelBitOf_min]
    have hall : ∀ level ≤ 15, (0xFFFF : UInt16) &&& levelBitOf level ≠ 0 := by decide
    exact hall _ (Nat.min_le_right ..)
  rw [recordedWalk, walk_eq, List.filter_eq_self.mpr]
  intro segment hsegment
  apply bne_iff_ne.mpr
  rcases List.mem_append.mp hsegment with hsegment | hsegment
  · obtain ⟨level, -, rfl⟩ := List.mem_map.mp hsegment
    exact hbit _
  · rw [List.mem_singleton.mp hsegment]
    exact hbit _

theorem hit_modeKind {cleanEpoch : Bool} {fingerprint : UInt8} (w : List (Option Nat)) :
    Outcome.hit? <$> search (t.modeKind cleanEpoch fingerprint) inspect w none =
      Outcome.hit? <$> search (blindKind t.storage.ctrl fingerprint) inspect w none := by
  rw [← hit_search_blind w none none]
  congr 1
  apply search_congr
  intro slot _
  rw [modeKind]
  split
  · rw [blindKind]
    cases slotKind t.storage.ctrl fingerprint slot <;> rfl
  · rfl

theorem lookupRecordedLevels_all {r : ReserveFraction} (hshape : FunnelShape.fromSlots t.shape.n r = .ok t.shape)
    (hn : t.shape.n ≠ 0) (probe : PreparedFastFunnelProbe) {fingerprint : UInt8} (hf : isOccupied fingerprint)
    (cleanEpoch : Bool) :
    t.lookupRecordedLevels group inspect probe fingerprint 0xFFFF =
      SearchResult.hit? <$> t.searchExactMode group inspect cleanEpoch probe fingerprint := by
  obtain ⟨-, -, hd, hlength, -⟩ := FunnelShape.fromSlots_plan hshape hn
  have hknown : t.KnownLevels 0xFFFF := by
    intro level hlevel _
    have : overflowLevel = 15 := rfl
    omega
  rw [lookupRecordedLevels_eq hf hn hknown, recordedWalk_all,
    searchExactMode_eq hf ((FunnelShape.fromSlots_spec hshape).2.2 hn).1 hn, ← hit_modeKind, ← comp_map]
  congr 1
  funext o
  exact (SearchResult.hit?_toResult o).symm

end Masked

end FunnelTable

end Opthash.Funnel
