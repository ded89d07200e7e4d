import Opthash.Elastic.Epochs
import Opthash.Funnel.Epochs
import Opthash.Guarantees.Filter

namespace Opthash

open HashMap

variable {W K V : Type}

/-- Whatever the operations, the packed word stands for the record they make of separate fields. In every run whose
calls return and forget no iterator, the snapshot shows what the chronicle of the run adds up to. -/
theorem epoch_state_refines (group : GroupBackend) (u : User W K V) :
    (EpochState.initial.decode = .initial ∧
      ∀ (ops : List EpochOp) (e : EpochState), (ops.foldl EpochState.run e).decode = ops.foldl EpochRecord.run e.decode) ∧
    (∀ (t₀ t : Funnel.FunnelTable K V) (w₀ w : World W K V), Funnel.Initial group u t₀ →
      Runs (Funnel.backend group u) u Tidy (t₀, w₀) (t, w) →
      ∃ beats, Chronicle (Funnel.backend group u) u Funnel.FunnelTable.epoch (t₀, w₀) beats (t, w) ∧
        Recounted t.epoch t.len beats) ∧
    ∀ (t₀ t : Elastic.ElasticTable K V) (w₀ w : World W K V), Elastic.Initial group u t₀ →
      Runs (Elastic.backend group u) u Tidy (t₀, w₀) (t, w) →
      ∃ beats, Chronicle (Elastic.backend group u) u Elastic.ElasticTable.epoch (t₀, w₀) beats (t, w) ∧
        Recounted t.epoch t.len beats := by
  refine ⟨⟨EpochState.decode_initial, EpochState.decode_foldl⟩, ?_, ?_⟩
  · intro t₀ t w₀ w h₀ hruns
    exact hruns.recounted (Funnel.contract group u) (Funnel.FunnelTable.dated group u) h₀.fresh h₀.epoch
  · intro t₀ t w₀ w h₀ hruns
    exact hruns.recounted (Elastic.contract group u) (Elastic.ElasticTable.dated group u) h₀.fresh h₀.epoch

section Reserved

/-- Two keys, one removed; a resize with one key stored; then a second insertion and a second removal. -/
def reserved : List (Op UInt64 Nat) :=
  [.insert 7 70, .insert 9 90, .removeEntry 9, .reserve 200, .insert 11 110, .remove 7]

theorem reserved_tidy (b : TableBackend Unit UInt64 Nat) (op : Op UInt64 Nat) (hop : op ∈ reserved)
    (s : b.Table × World Unit UInt64 Nat) (r : Ret UInt64 Nat) : Tidy ((s, op, .ok r) : Event b) := by
  refine ⟨?_, r, rfl⟩
  simp only [reserved, List.mem_cons, List.not_mem_nil, or_false] at hop
  rcases hop with rfl | rfl | rfl | rfl | rfl | rfl <;> exact id

/-- The first insertion and `reserve` each start an epoch; the last one sees an insertion and a removal. -/
def reservedSnapshot : EpochSnapshot := ⟨2, 2, true, 0, .explicitResize⟩

theorem epoch_state_refines_reserved :
    (∃ (t₀ t : Funnel.FunnelTable UInt64 Nat) (w₀ w : World Unit UInt64 Nat) (beats : List Beat),
      Chronicle (Funnel.backend .scalar User.sample) User.sample Funnel.FunnelTable.epoch (t₀, w₀) beats (t, w) ∧
      Recounted t.epoch t.len beats ∧ t.epoch.snapshot t.len = reservedSnapshot) ∧
    ∃ (t₀ t : Elastic.ElasticTable UInt64 Nat) (w₀ w : World Unit UInt64 Nat) (beats : List Beat),
      Chronicle (Elastic.backend .scalar User.sample) User.sample Elastic.ElasticTable.epoch (t₀, w₀) beats (t, w) ∧
      Recounted t.epoch t.len beats ∧ t.epoch.snapshot t.len = reservedSnapshot := by
  constructor
  · obtain ⟨t, _, ⟨t₀, w₀, w, h₀, hruns⟩, hsnapshot⟩ := Reachable.scripted (b := Funnel.backend .scalar User.sample)
      (u := User.sample) Funnel.initial_unallocated World.start (reserved_tidy _)
      (fun s => decide (s.1.epoch.snapshot s.1.len = reservedSnapshot)) (by decide +kernel)
    obtain ⟨beats, hchronicle, hrecounted⟩ := (epoch_state_refines .scalar User.sample).2.1 t₀ t w₀ w h₀ hruns
    exact ⟨t₀, t, w₀, w, beats, hchronicle, hrecounted, of_decide_eq_true hsnapshot⟩
  · obtain ⟨t, _, ⟨t₀, w₀, w, h₀, hruns⟩, hsnapshot⟩ := Reachable.scripted (b := Elastic.backend .scalar User.sample)
      (u := User.sample) Elastic.initial_unallocated World.start (reserved_tidy _)
      (fun s => decide (s.1.epoch.snapshot s.1.len = reservedSnapshot)) (by decide +kernel)
    obtain ⟨beats, hchronicle, hrecounted⟩ := (epoch_state_refines .scalar User.sample).2.2 t₀ t w₀ w h₀ hruns
    exact ⟨t₀, t, w₀, w, beats, hchronicle, hrecounted, of_decide_eq_true hsnapshot⟩

end Reserved

end Opthash
