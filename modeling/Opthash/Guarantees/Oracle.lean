import Opthash.Elastic.Mirror
import Opthash.Guarantees.Placement

namespace Opthash.Elastic.ElasticTable

open Exec Reference

variable {W K V : Type} {group : GroupBackend} {u : User W K V} {hash : K → UInt64} {eqv : K → K → Bool}
  {t t₀ : ElasticTable K V} {w w₀ w₁ : World W K V} {g : ElasticGeometry} {s s₀ : ScalarElastic}

/-- The same keys go into a table and, as their hashes, into the oracle, as long as the oracle does not panic. -/
inductive Traced (group : GroupBackend) (u : User W K V) (hash : K → UInt64) (s₀ : ScalarElastic)
    (p₀ : ElasticTable K V × World W K V) : ScalarElastic → ElasticTable K V × World W K V → Prop
  | start : Traced group u hash s₀ p₀ s₀ p₀
  | beside {s : ScalarElastic} {t : ElasticTable K V} {w : World W K V} (w' : World W K V)
      (h : Traced group u hash s₀ p₀ s (t, w)) : Traced group u hash s₀ p₀ s (t, w')
  | insert {s s' : ScalarElastic} {p p' : ElasticTable K V × World W K V} {k : K} {v : V}
      {placement : ScalarElasticInsertion} {r : Except Panic (Option V)} (h : Traced group u hash s₀ p₀ s p)
      (horacle : s.insert (hash k) = some (placement, s')) (hstep : ElasticTable.insert group u k v (hash k) p = (r, p')) :
      Traced group u hash s₀ p₀ s' p'

theorem Traced.follows {d : Nat} {p : ElasticTable K V × World W K V} (hcalm : u.Calm) (hl : u.Lawful hash eqv)
    (h : Traced group u hash s₀ (t₀, w₀) s p) (h₀ : Follows u hash g d s₀ t₀) : Follows u hash g d s p.1 := by
  induction h with
  | start => exact h₀
  | beside _ _ ih => exact ih
  | @insert s s' p p' k v placement r h horacle hstep ih =>
    have hwp : wp (ElasticTable.insert group u k v (hash k)) _ _ (p.1, p.2) := ih.step hcalm hl horacle
    cases r with
    | ok r => exact ((wp_of_ok hstep).mp hwp).2.2.2.2
    | error e => exact ((wp_of_error hstep).mp hwp).elim

/-- A fresh table places every key where the oracle of its size places it, and finds it there. -/
theorem placement_refines_oracle {n : Nat} {r : ReserveFraction} (hn : 2 ≤ n)
    (hg : ElasticGeometry.forSlots n r = .ok (some g)) (hfresh : tryFromGeometry u g r w₀ = (.ok (.ok t₀), w₁))
    (hnew : ScalarElastic.new ⟨n, r.exponent⟩ elasticProbeSeed ScalarElastic.productionLimits = some s₀)
    (hcalm : u.Calm) (hl : u.Lawful hash eqv) (htraced : Traced group u hash s₀ (t₀, w₁) s (t, w)) :
    t.loads = s.occupancy ∧
    (∀ k v placement s', s.insert (hash k) = some (placement, s') →
      t.targeted (hash k) = some ⟨placement.location.level, placement.location.slotInLevel, placement.phi⟩ ∧
      placement.location.globalSlot = t.globalSlot (placement.location.level, placement.location.slotInLevel) ∧
      ∃ t' w', ElasticTable.insert group u k v (hash k) (t, w) = (.ok none, (t', w')) ∧
        t'.Holds (placement.location.level, placement.location.slotInLevel) (k, v) ∧
        ((∃ q, s'.query (hash k) = some q ∧ q.globalSlot = placement.location.globalSlot ∧
          q.foundPosition ≤ placement.phi) ∨ ∃ position < placement.phi, s'.slotAt (hash k) position = none)) ∧
    (∀ globalSlot identity, s.slots[globalSlot]? = some (some identity) →
      ∃ loc k v, t.Holds loc (k, v) ∧ t.globalSlot loc = globalSlot ∧ hash k = identity) ∧
    ∀ loc k v, t.Holds loc (k, v) → s.slots[t.globalSlot loc]? = some (some (hash k)) ∧
      ∃ w', find u k (hash k) (t, w) = (.ok (some loc), (t, w')) := by
  obtain ⟨hsmall, rfl⟩ := (wp_of_ok hfresh).mp (wp_tryFromGeometry (Z := fun _ _ => True)) t₀ rfl
  have hfollows : Follows u hash g r.exponent s t :=
    htraced.follows hcalm hl
      (.start ⟨rfl, rfl, rfl, rfl, rfl, rfl, rfl, rfl⟩ (staged_start hg hsmall) (unused_of_new hn hg hnew))
  refine ⟨hfollows.mirrors.occupancy.symm, ?_, ?_, ?_⟩
  · intro k v placement s' horacle
    have hchose := hfollows.mirrors.chose hfollows.staged hfollows.quotas horacle
    refine ⟨hchose.targeted, hchose.global, ?_⟩
    have hwp : wp (ElasticTable.insert group u k v (hash k)) _ _ (t, w) := hfollows.step hcalm hl horacle
    rcases hrun : ElasticTable.insert group u k v (hash k) (t, w) with ⟨r | e, t', w'⟩
    · exact ((wp_of_error hrun).mp hwp).elim
    · obtain ⟨rfl, -, hself, hmeets, hnext⟩ := (wp_of_ok hrun).mp hwp
      refine ⟨t', w', rfl, hself, ?_⟩
      obtain ⟨j, hj, -, hposition⟩ := hchose.probed
      obtain ⟨-, -, -, hphi⟩ := Probe.elasticPhi_ok_iff.mp hposition
      have hpos : 0 < placement.phi := hphi ▸ Probe.phi_pos (Nat.succ_pos _)
      have hquery := hnext.queries hpos hchose.le hmeets hself
      have hcapacities : t'.globalSlot (placement.location.level, placement.location.slotInLevel) =
          placement.location.globalSlot := by
        rw [hchose.global, ElasticTable.globalSlot, ElasticTable.globalSlot, hnext.staged.capacities,
          hfollows.staged.capacities]
      rwa [hcapacities] at hquery
  · intro globalSlot identity hslot
    obtain ⟨loc, e, he, hglobal, hidentity⟩ := hfollows.stored globalSlot identity hslot
    exact ⟨loc, e.1, e.2, he, hglobal, hidentity⟩
  · intro loc k v he
    refine ⟨hfollows.mirrors.held loc (k, v) he, ?_⟩
    have hwp := hfollows.finds (w := w) hcalm hl he
    rcases hrun : find u k (hash k) (t, w) with ⟨e | found, t', w'⟩
    · exact ((wp_of_error hrun).mp hwp).elim
    · obtain ⟨rfl, rfl⟩ := (wp_of_ok hrun).mp hwp
      exact ⟨w', rfl⟩

def trace (group : GroupBackend) (u : User W K V) (hash : K → UInt64) :
    List (K × V) → ScalarElastic → ElasticTable K V × World W K V → Option (ScalarElastic × ElasticTable K V × World W K V)
  | [], s, p => some (s, p)
  | (k, v) :: entries, s, p =>
    match s.insert (hash k) with
    | some (_, s') => trace group u hash entries s' (ElasticTable.insert group u k v (hash k) p).2
    | none => none

theorem Traced.trace {p₀ p p' : ElasticTable K V × World W K V} {s' : ScalarElastic} (h : Traced group u hash s₀ p₀ s p)
    {entries : List (K × V)} (htrace : ElasticTable.trace group u hash entries s p = some (s', p')) :
    Traced group u hash s₀ p₀ s' p' := by
  induction entries generalizing s p with
  | nil =>
    cases htrace
    exact h
  | cons entry entries ih =>
    obtain ⟨k, v⟩ := entry
    rw [ElasticTable.trace] at htrace
    split at htrace
    · rename_i placement s₁ horacle
      exact ih (h.insert horacle rfl) htrace
    · cases htrace

/-- Seven keys in a table of eight slots. -/
theorem placement_refines_oracle_seven : ∃ (t : ElasticTable UInt64 Nat) (s : ScalarElastic) (loc : Nat × Nat),
    t.loads = s.occupancy ∧ t.loads = [4, 2, 1] ∧ t.globalSlot loc = 5 ∧
    ∃ w', find User.sample 2540 2540 (t, World.start) = (.ok (some loc), (t, w')) := by
  have hg : ElasticGeometry.forSlots 8 ⟨3, by decide, by decide⟩ = .ok (some ⟨8, 7, [4, 2, 2], [3, 3, 1]⟩) := by
    decide +kernel
  have hfresh : tryFromGeometry User.sample ⟨8, 7, [4, 2, 2], [3, 3, 1]⟩ ⟨3, by decide, by decide⟩ World.start =
      (.ok (.ok (fresh ⟨8, 7, [4, 2, 2], [3, 3, 1]⟩ ⟨3, by decide, by decide⟩ [.newAt 4, .newAt 2, .newAt 2]
        (.zeroed 1))), World.start) := rfl
  have hrun : ((ScalarElastic.new ⟨8, 3⟩ elasticProbeSeed ScalarElastic.productionLimits).bind fun s₀ =>
      ElasticTable.trace .scalar User.sample id [(0, 0), (1, 1), (2, 2), (1523, 3), (2540, 4), (2541, 5), (2542, 6)] s₀
        (fresh ⟨8, 7, [4, 2, 2], [3, 3, 1]⟩ ⟨3, by decide, by decide⟩ [.newAt 4, .newAt 2, .newAt 2] (.zeroed 1),
          World.start)).any (fun p => decide (p.2.1.loads = [4, 2, 1] ∧ p.1.slots[5]? = some (some 2540))) = true := by
    decide +kernel
  obtain ⟨⟨s, t, w⟩, htrace, hstate⟩ := (Option.any_eq_true _ _).mp hrun
  obtain ⟨s₀, hnew, htrace⟩ := Option.bind_eq_some_iff.mp htrace
  obtain ⟨hloads, hslot⟩ := of_decide_eq_true hstate
  obtain ⟨hoccupancy, -, hstored, hfound⟩ := placement_refines_oracle (by decide) hg hfresh hnew User.calm_sample
    User.lawful_sample ((Traced.start.trace htrace).beside World.start)
  obtain ⟨loc, k, v, he, hglobal, hk⟩ := hstored 5 2540 hslot
  obtain ⟨-, w', hfind⟩ := hfound loc k v he
  have hk : k = 2540 := hk
  rw [hk] at hfind
  exact ⟨t, s, loc, hoccupancy, hloads, hglobal, w', hfind⟩

end Opthash.Elastic.ElasticTable
