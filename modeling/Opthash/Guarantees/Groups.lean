import Opthash.Funnel.Scan
import Opthash.Raw.Masks

namespace Opthash.Funnel

open Cursors Probing

variable {σ : Type} (ctrl : Nat → UInt8) (fingerprint : UInt8) (inspect : Nat → Exec Panic σ Bool)

/-- The lane-by-lane scan of a bucket: it ends at the first EMPTY or accepted match. -/
def scalarScan : Nat → Nat → Option Nat → Exec Panic σ (BucketScanResult × Option Nat)
  | _, 0, firstTombstone => pure (.full, firstTombstone)
  | slot, length + 1, firstTombstone =>
    if ctrl slot = ctrlTombstone then scalarScan (slot + 1) length (firstTombstone.or (some slot))
    else if ctrl slot = ctrlEmpty then pure (.empty (firstTombstone.getD slot), firstTombstone)
    else if ctrl slot = fingerprint then do
      if ← inspect slot then pure (.hit slot, firstTombstone)
      else scalarScan (slot + 1) length firstTombstone
    else scalarScan (slot + 1) length firstTombstone

/-- The same for a scan that passes over tombstones. -/
def scalarCleanScan : Nat → Nat → Exec Panic σ BucketScanResult
  | _, 0 => pure .full
  | slot, length + 1 =>
    if ctrl slot = ctrlEmpty then pure (.empty slot)
    else if ctrl slot = fingerprint then do
      if ← inspect slot then pure (.hit slot) else scalarCleanScan (slot + 1) length
    else scalarCleanScan (slot + 1) length

def scalarFirstFree : Nat → Nat → Option Nat
  | _, 0 => none
  | slot, length + 1 => if isFree (ctrl slot) then some slot else scalarFirstFree (slot + 1) length

theorem scalarScan_eq (slot length : Nat) (reuse : Option Nat) :
    scalarScan ctrl fingerprint inspect slot length reuse =
      toBucket <$> scan (slotKind ctrl fingerprint) inspect (List.range' slot length) reuse := by
  induction length generalizing slot reuse with
  | zero => rfl
  | succ length ih =>
    rw [scalarScan, List.range'_succ, scan, slotKind]
    by_cases htomb : ctrl slot = ctrlTombstone
    · rw [if_pos htomb, if_neg (by rw [htomb]; exact ctrlTombstone_ne_ctrlEmpty), if_pos htomb]
      exact ih (slot + 1) _
    · rw [if_neg htomb]
      by_cases hempty : ctrl slot = ctrlEmpty
      · rw [if_pos hempty, if_pos hempty]
        rfl
      · rw [if_neg hempty, if_neg hempty, if_neg htomb]
        by_cases hmatch : ctrl slot = fingerprint
        · rw [if_pos hmatch, if_pos hmatch]
          dsimp only
          rw [map_bind]
          refine bind_congr fun answer => ?_
          cases answer with
          | true => rfl
          | false => exact ih (slot + 1) reuse
        · rw [if_neg hmatch, if_neg hmatch]
          exact ih (slot + 1) reuse

theorem scalarCleanScan_eq (hf : isOccupied fingerprint) (slot length : Nat) :
    scalarCleanScan ctrl fingerprint inspect slot length =
      toClean <$> scan (blindKind ctrl fingerprint) inspect (List.range' slot length) none := by
  induction length generalizing slot with
  | zero => rfl
  | succ length ih =>
    rw [scalarCleanScan, List.range'_succ, scan]
    by_cases hempty : ctrl slot = ctrlEmpty
    · rw [if_pos hempty, blindKind_of_empty hempty]
      rfl
    · rw [if_neg hempty]
      by_cases hmatch : ctrl slot = fingerprint
      · rw [if_pos hmatch, blindKind_of_match hf hmatch]
        dsimp only
        rw [map_bind]
        refine bind_congr fun answer => ?_
        cases answer with
        | true => rfl
        | false => exact ih (slot + 1)
      · rw [if_neg hmatch, blindKind_of_other hempty hmatch]
        exact ih (slot + 1)

theorem scalarFirstFree_eq (slot length : Nat) :
    scalarFirstFree ctrl slot length = (List.range' slot length).find? fun slot => isFree (ctrl slot) := by
  induction length generalizing slot with
  | zero => rfl
  | succ length ih =>
    rw [scalarFirstFree, List.range'_succ, List.find?_cons, ih (slot + 1)]
    cases isFree (ctrl slot) <;> rfl

/-- A bucket scan by groups is the scan lane by lane, whatever state the match oracle keeps: its answers, its order of
calls and its effects are the same. -/
theorem bucket_scans_scalar (group : GroupBackend) (hlow : 1 ≤ fingerprint) (hhigh : fingerprint ≤ 127)
    (start length : Nat) :
    (∀ firstTombstone, scanFunnelBucket group ctrl fingerprint inspect start length firstTombstone =
      scalarScan ctrl fingerprint inspect start length firstTombstone) ∧
    scanCleanFunnelBucket group ctrl fingerprint inspect start length =
      scalarCleanScan ctrl fingerprint inspect start length ∧
    firstFreeInBucket group ctrl start length = scalarFirstFree ctrl start length := by
  have hf : isOccupied fingerprint := by
    have hall : ∀ n < 128, 1 ≤ n → isOccupied (UInt8.ofNat n) = true := by decide +kernel
    have hocc := hall fingerprint.toNat (Nat.lt_succ_of_le hhigh) hlow
    rwa [UInt8.ofNat_toNat] at hocc
  refine ⟨fun firstTombstone => ?_, ?_, ?_⟩
  · rw [scanFunnelBucket_eq, scalarScan_eq]
  · rw [scanCleanFunnelBucket_eq _ _ _ _ hf, scalarCleanScan_eq _ _ _ hf]
  · rw [firstFreeInBucket_eq, scalarFirstFree_eq]

theorem bucket_scans_scalar_recorded :
    (∀ firstTombstone, scanFunnelBucket .scalar (fun slot => if slot = 2 then 0 else 7) 7
        (fun slot calls => (.ok (slot == 1), slot :: calls)) 0 11 firstTombstone =
      scalarScan (fun slot => if slot = 2 then 0 else 7) 7 (fun slot (calls : List Nat) => (.ok (slot == 1), slot :: calls))
        0 11 firstTombstone) ∧
    scanCleanFunnelBucket .scalar (fun slot => if slot = 2 then 0 else 7) 7
        (fun slot calls => (.ok (slot == 1), slot :: calls)) 0 11 =
      scalarCleanScan (fun slot => if slot = 2 then 0 else 7) 7
        (fun slot (calls : List Nat) => (.ok (slot == 1), slot :: calls)) 0 11 ∧
    firstFreeInBucket .scalar (fun slot => if slot = 2 then 0 else 7) 0 11 =
      scalarFirstFree (fun slot => if slot = 2 then 0 else 7) 0 11 :=
  bucket_scans_scalar (fun slot => if slot = 2 then 0 else 7) 7 (fun slot calls => (.ok (slot == 1), slot :: calls))
    .scalar (by decide) (by decide) 0 11

section Portable

open Swar

variable (start : Nat)

theorem exact_eqMask_loadWord (target : UInt8) :
    Exact (eqMask (loadWord ctrl start) target) fun lane => ctrl (start + lane) == target :=
  (exact_of_lanes fun _ => lane_eqMask).congr fun _ hi => by rw [byte_loadWord ctrl start hi]

theorem exact_freeMask_loadWord : Exact (freeMask (loadWord ctrl start)) fun lane => isFree (ctrl (start + lane)) :=
  (exact_of_lanes fun _ => lane_freeMask).congr fun _ hi => by rw [byte_loadWord ctrl start hi]

/-- What a group scan walks through on the portable backend are the lanes its masks yield. -/
theorem groupLanes_portable (k : Nat) :
    yieldAt (BitMask.lanesCursor .scalar) ⟨eqMask (loadWord ctrl start) fingerprint⟩ (fun _ => ()) k =
      (groupLanes .scalar ctrl start (· == fingerprint))[k]? ∧
    yieldAt (BitMask.lanesCursor .scalar)
        ⟨freeMask (loadWord ctrl start) ||| eqMask (loadWord ctrl start) fingerprint⟩ (fun _ => ()) k =
      (groupLanes .scalar ctrl start fun byte => isFree byte || byte == fingerprint)[k]? :=
  ⟨(exact_eqMask_loadWord ctrl start fingerprint).yields k,
    ((exact_freeMask_loadWord ctrl start).or (exact_eqMask_loadWord ctrl start fingerprint)).yields k⟩

end Portable

end Opthash.Funnel
