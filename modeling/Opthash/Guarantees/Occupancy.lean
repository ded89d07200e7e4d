import Opthash.Elastic.Contract
import Opthash.Funnel.Contract
import Opthash.Guarantees.Placement

namespace Opthash

open Cursors

variable {E K V : Type} {group : GroupBackend}

theorem Region.lists_occupied (r : Region E) :
    Lists (· < ·) (fun i => i < r.capacity ∧ isOccupied (r.ctrl i) = true) r.occupied where
  sorted := List.Pairwise.filter _ (List.pairwise_lt_range' 1)
  mem := fun _ => r.mem_occupied

namespace Funnel.FunnelTable

/-- What a scan of a table needs of it at every call: its storage covers its slots and can be read in groups. -/
structure Scannable (group : GroupBackend) (t : FunnelTable K V) : Prop where
  capacity : t.storage.capacity = t.shape.n
  readable : t.storage.Readable group true

theorem ordered_scanNext (group : GroupBackend) : Ordered (scanNext group)
    (fun t t' : FunnelTable K V => t'.Scannable group ∧ t'.shape.n = t.shape.n)
    (fun t t' slot => t'.storage.Occ slot = t.storage.Occ slot) (FunnelScan.Passed group)
    (fun t scan slots => t.Scannable group ∧ (reading group).Scanning t scan slots) where
  yields := by
    rintro t scan slots ⟨hs, hscan⟩
    exact (scanNext_spec hs.capacity hs.readable hscan).1
  passes := by
    rintro t scan slots slot ⟨hs, hscan⟩ hslot
    exact (scanNext_spec hs.capacity hs.readable hscan).2.2 slot hslot
  advances := by
    rintro t scan slots t' ⟨hs, hscan⟩ ⟨hs', hn⟩ hsame
    have hcap : t'.storage.capacity = t.storage.capacity := by rw [hs.capacity, hs'.capacity, hn]
    exact ⟨hs', scanning_congr hcap hsame (scanNext_spec hs.capacity hs.readable hscan).2.1⟩

end Funnel.FunnelTable

namespace Elastic.ElasticTable

def Scannable (group : GroupBackend) (t : ElasticTable K V) : Prop := ∀ level, (t.region level).Readable group false

theorem ordered_scanNext (group : GroupBackend) : Cursors.Ordered (scanNext group)
    (fun t t' : ElasticTable K V => t'.Scannable group ∧ t'.capacities = t.capacities)
    (fun t t' loc => (t'.region loc.1).Occ loc.2 = (t.region loc.1).Occ loc.2) (ElasticScan.Passed group)
    (fun t scan locs => t.Scannable group ∧ (reading group).Scanning t scan locs) where
  yields := by
    rintro t scan locs ⟨hs, hscan⟩
    exact (scanNext_spec hs hscan).1
  passes := by
    rintro t scan locs loc ⟨hs, hscan⟩ hloc
    exact (scanNext_spec hs hscan).2.2 loc hloc
  advances := by
    rintro t scan locs t' ⟨hs, hscan⟩ ⟨hs', hcaps⟩ hsame
    exact ⟨hs', scanning_congr hcaps hsame (scanNext_spec hs hscan).2.1⟩

/-- Level before level, and in a level slot before slot. -/
theorem lists_occupied (t : ElasticTable K V) : Lists (Prod.Lex (· < ·) (· < ·))
    (fun loc => loc.2 < (t.region loc.1).capacity ∧ isOccupied ((t.region loc.1).ctrl loc.2) = true) t.occupied where
  sorted := by
    rw [occupied, List.flatMap, List.pairwise_flatten]
    constructor
    · intro locs hlocs
      obtain ⟨level, -, rfl⟩ := List.mem_map.mp hlocs
      exact List.pairwise_map.mpr ((t.region level).lists_occupied.sorted.imp fun h => Prod.Lex.right _ h)
    · refine List.pairwise_map.mpr (List.pairwise_lt_range.imp fun {level level'} hlt => ?_)
      intro loc hloc loc' hloc'
      obtain ⟨slot, -, rfl⟩ := List.mem_map.mp hloc
      obtain ⟨slot', -, rfl⟩ := List.mem_map.mp hloc'
      exact Prod.Lex.left _ _ hlt
  mem := fun _ => mem_occupied

end Elastic.ElasticTable

/-- A scan yields the occupied slots it started with, in order and once each, whatever becomes of those it has yielded. -/
theorem scans_exact (group : GroupBackend) :
    (∀ (padded : Bool) (r : Nat → Region E),
      (∀ k, (r k).Readable group padded ∧ (r (k + 1)).capacity = (r k).capacity) →
      Untouched (OccupiedIndices.step group padded) (.new group) r (fun r r' i => r'.Occ i = r.Occ i) →
      ∃ slots, Lists (· < ·) (fun i => i < (r 0).capacity ∧ isOccupied ((r 0).ctrl i) = true) slots ∧
        ∀ k, yieldAt (OccupiedIndices.step group padded) (.new group) r k = slots[k]?) ∧
    (∀ t : Funnel.FunnelTable K V, ∃ slots,
      Lists (· < ·) (fun i => i < t.storage.capacity ∧ isOccupied (t.storage.ctrl i) = true) slots ∧
      ∀ scan, scan = .dense 0 ∨ scan = .sparse (.new group) → ∀ ts : Nat → Funnel.FunnelTable K V, ts 0 = t →
        (∀ k, (ts k).Scannable group ∧ (ts (k + 1)).shape.n = (ts k).shape.n) →
        Untouched (Funnel.FunnelTable.scanNext group) scan ts (fun t t' i => t'.storage.Occ i = t.storage.Occ i) →
        ∀ k, yieldAt (Funnel.FunnelTable.scanNext group) scan ts k = slots[k]?) ∧
    (∀ ts : Nat → Elastic.ElasticTable K V,
      (∀ k, (ts k).Scannable group ∧ (ts (k + 1)).capacities = (ts k).capacities) →
      Untouched (Elastic.ElasticTable.scanNext group) (Elastic.ElasticTable.scan group) ts
        (fun t t' loc => (t'.region loc.1).Occ loc.2 = (t.region loc.1).Occ loc.2) →
      ∃ locs, Lists (Prod.Lex (· < ·) (· < ·)) (fun loc => loc.2 < ((ts 0).region loc.1).capacity ∧
          isOccupied (((ts 0).region loc.1).ctrl loc.2) = true) locs ∧
        ∀ k, yieldAt (Elastic.ElasticTable.scanNext group) (Elastic.ElasticTable.scan group) ts k = locs[k]?) := by
  refine ⟨fun padded r hr hsame => ?_, fun t => ?_, fun ts ht hsame => ?_⟩
  · refine ⟨(r 0).occupied, (r 0).lists_occupied, fun k => ?_⟩
    apply (OccupiedIndices.ordered_step group padded).yieldAt_eq _ (fun k => ⟨(hr k).2, (hr (k + 1)).1⟩) hsame
    exact ⟨(hr 0).1, OccupiedIndices.valid_new, OccupiedIndices.pending_new _⟩
  · refine ⟨t.storage.occupied, t.storage.lists_occupied, ?_⟩
    rintro scan hscan ts rfl ht hsame k
    apply (Funnel.FunnelTable.ordered_scanNext group).yieldAt_eq _ (fun k => ⟨(ht (k + 1)).1, (ht k).2⟩) hsame
    refine ⟨(ht 0).1, ?_⟩
    rcases hscan with rfl | rfl
    · rfl
    · exact ⟨OccupiedIndices.valid_new, OccupiedIndices.pending_new _⟩
  · refine ⟨(ts 0).occupied, (ts 0).lists_occupied, fun k => ?_⟩
    apply (Elastic.ElasticTable.ordered_scanNext group).yieldAt_eq _ (fun k => ⟨(ht (k + 1)).1, (ht k).2⟩) hsame
    exact ⟨(ht 0).1, Elastic.ElasticTable.scanning_scan⟩

/-- Ten slots of which 1 and 9 are occupied, each until the call after the one that yields it. -/
def Region.freeing (k : Nat) : Region Unit :=
  ⟨10, fun i => if i = 1 ∧ k = 0 ∨ i = 9 ∧ k ≤ 1 then 7 else 0, fun _ => none⟩

theorem scans_exact_freeing : ∃ slots,
    Lists (· < ·) (fun i => i < 10 ∧ isOccupied ((Region.freeing 0).ctrl i) = true) slots ∧
      ∀ k, yieldAt (OccupiedIndices.step .scalar false) (.new .scalar) Region.freeing k = slots[k]? := by
  refine (scans_exact (E := Unit) (K := Unit) (V := Unit) .scalar).1 false Region.freeing
    (fun k => ⟨⟨(by decide : 10 ≤ 2 ^ 63), fun h => absurd h Bool.false_ne_true⟩, rfl⟩) ?_
  intro k i hfresh
  have hctrl : (Region.freeing (k + 1)).ctrl i = (Region.freeing k).ctrl i := by
    have hone : ∀ k, i = 1 → k = 0 → yieldAt (OccupiedIndices.step .scalar false) (.new .scalar) Region.freeing k = some i := by
      rintro _ rfl rfl
      decide
    have hnine : ∀ k, i = 9 → k = 1 → yieldAt (OccupiedIndices.step .scalar false) (.new .scalar) Region.freeing k = some i := by
      rintro _ rfl rfl
      decide
    have hfirst : ¬(i = 1 ∧ k = 0) := fun h => hfresh k (Nat.le_refl k) (hone k h.1 h.2)
    have hsecond : ¬(i = 9 ∧ k = 1) := fun h => hfresh k (Nat.le_refl k) (hnine k h.1 h.2)
    have hsame : (i = 1 ∧ k + 1 = 0 ∨ i = 9 ∧ k + 1 ≤ 1) ↔ (i = 1 ∧ k = 0 ∨ i = 9 ∧ k ≤ 1) := by omega
    change (if i = 1 ∧ k + 1 = 0 ∨ i = 9 ∧ k + 1 ≤ 1 then (7 : UInt8) else 0) = if i = 1 ∧ k = 0 ∨ i = 9 ∧ k ≤ 1 then 7 else 0
    rw [if_congr hsame rfl rfl]
  rw [Region.Occ, Region.Occ, hctrl]

end Opthash
