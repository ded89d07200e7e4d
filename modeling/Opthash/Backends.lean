import Opthash.Elastic.Ops
import Opthash.Funnel.Ops
import Opthash.Map

namespace Opthash

variable {W K V : Type} (group : GroupBackend) (u : User W K V)

def Funnel.backend : TableBackend W K V where
  Table := FunnelTable K V
  Location := Nat
  Vacant := FunnelVacant
  Scan := FunnelTable.FunnelScan
  len := FunnelTable.len
  capacity := fun t => t.shape.maxInsertions
  totalSlots := fun t => t.shape.n
  reserveConfig := FunnelTable.reserveFraction
  slotRef := fun t slot => t.storage.slot slot
  writeValue := fun slot key value t => t.replaceValue slot key value
  find := FunnelTable.find group u
  findForEntry := FunnelTable.findForEntry group u
  insertForVacant := FunnelTable.insertForVacant group u
  insert := FunnelTable.insert group u
  remove := FunnelTable.remove group u
  tombstoneSlot := fun slot t => t.tombstoneSlot slot
  extractFinish := fun slot t => t.extractFinish slot
  finishDeferredRemovals := FunnelTable.settleAfterDeletes group u
  scan := FunnelTable.scan group
  scanNext := FunnelTable.scanNext group
  growCapacityFor := FunnelTable.nextGrowthSlots
  resize := fun newCapacity => FunnelTable.resizeWithTransition group u newCapacity .explicitResize
  tryResize := FunnelTable.tryResize group u
  shrinkTo := FunnelTable.shrinkTo group u
  clear := FunnelTable.clear group u
  wipeAll := FunnelTable.wipeAll
  cloneTable := FunnelTable.cloneTable group u
  dropTable := FunnelTable.dropTable group u

namespace Elastic.ElasticTable

def shrinkTo (minCapacity : Nat) : Run (ElasticTable K V) W K V Unit := do
  let (t, _) ← Exec.get
  if t.len = 0 ∧ minCapacity = 0 then
    if t.totalSlots > 0 then resizeWithTransition group u 0 .explicitResize else pure ()
  else
    let lower := max (max t.len minCapacity) group.initialCapacity
    let newCapacity ← Exec.expect .capacityOverflow
      (Capacity.capacityFor group.initialCapacity lower t.reserveFraction)
    if newCapacity ≥ t.totalSlots then pure ()
    else resizeWithTransition group u newCapacity .explicitResize

def growCapacityFor (t : ElasticTable K V) (needed : Nat) : Option Nat :=
  Capacity.capacityFor (max t.totalSlots group.initialCapacity) needed t.reserveFraction

end Elastic.ElasticTable

open Elastic in
def Elastic.backend : TableBackend W K V where
  Table := ElasticTable K V
  Location := Nat × Nat
  Vacant := UInt64
  Scan := ElasticTable.ElasticScan
  len := ElasticTable.len
  capacity := ElasticTable.maxInsertions
  totalSlots := ElasticTable.totalSlots
  reserveConfig := ElasticTable.reserveFraction
  slotRef := fun t loc => (t.region loc.1).slot loc.2
  writeValue := fun loc key value t => t.replaceValue loc key value
  find := ElasticTable.find u
  findForEntry := ElasticTable.findForEntry u
  insertForVacant := ElasticTable.insertForVacant group u
  insert := ElasticTable.insert group u
  remove := ElasticTable.remove group u
  tombstoneSlot := fun loc t => t.tombstoneSlot loc
  extractFinish := fun loc t => t.extractFinish loc
  finishDeferredRemovals := ElasticTable.finishDeferredRemovals group u
  scan := fun _ => ElasticTable.scan group
  scanNext := ElasticTable.scanNext group
  growCapacityFor := ElasticTable.growCapacityFor group
  resize := fun newCapacity => ElasticTable.resizeWithTransition group u newCapacity .explicitResize
  tryResize := ElasticTable.tryResize group u
  shrinkTo := ElasticTable.shrinkTo group u
  clear := ElasticTable.clear group u
  wipeAll := ElasticTable.wipeAll
  cloneTable := ElasticTable.cloneTable group u
  dropTable := ElasticTable.dropTable group u

end Opthash
