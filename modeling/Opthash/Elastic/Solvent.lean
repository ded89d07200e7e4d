import Opthash.Elastic.Snug
import Opthash.Shell.Solvent

namespace Opthash

open Exec HashMap

variable {W K V : Type} {group : GroupBackend} {u : User W K V}

namespace Capacity

variable {r : ReserveFraction} {needed : Nat}

/-- The doublings of a power of two stop at the first that has room, which none has if 2^63 slots do not. -/
theorem capacityForFrom_pow {fuel k : Nat} (hk : k ≤ 63) (hfuel : 64 ≤ k + fuel) :
    (needed ≤ maxInsertions (2 ^ 63) r ∧ ∃ j, k ≤ j ∧ j ≤ 63 ∧ capacityForFrom needed r fuel (2 ^ k) = some (2 ^ j)) ∨
      maxInsertions (2 ^ 63) r < needed ∧ capacityForFrom needed r fuel (2 ^ k) = none := by
  induction fuel generalizing k with
  | zero => omega
  | succ fuel ih =>
    rw [capacityForFrom]
    by_cases hroom : maxInsertions (2 ^ k) r < needed
    · rw [if_pos hroom]
      rcases Nat.lt_or_ge k 63 with hlt | hge
      · have hpow : 2 ^ (k + 1) ≤ 2 ^ 63 := Nat.pow_le_pow_right (by omega) hlt
        rw [show checkedUsize (2 ^ k * 2) = some (2 ^ (k + 1)) from if_pos (by unfold usizeMax; omega), Option.bind_some]
        rcases ih (show k + 1 ≤ 63 by omega) (by omega) with ⟨hle, j, hkj, hj, hsome⟩ | hnone
        · exact .inl ⟨hle, j, by omega, hj, hsome⟩
        · exact .inr hnone
      · obtain rfl : k = 63 := by omega
        rw [show checkedUsize (2 ^ 63 * 2) = none from if_neg (by unfold usizeMax; omega)]
        exact .inr ⟨hroom, rfl⟩
    · rw [if_neg hroom]
      have hmono : maxInsertions (2 ^ k) r ≤ maxInsertions (2 ^ 63) r :=
        maxInsertions_mono r (Nat.pow_le_pow_right (by omega) hk)
      exact .inl ⟨by omega, k, Nat.le_refl _, hk, rfl⟩

theorem capacityFor_initial :
    (needed ≤ maxInsertions (2 ^ 63) r ∧ ∃ j, j ≤ 63 ∧ capacityFor group.initialCapacity needed r = some (2 ^ j)) ∨
      maxInsertions (2 ^ 63) r < needed ∧ capacityFor group.initialCapacity needed r = none := by
  have hinitial : ∃ k, k ≤ 63 ∧ group.initialCapacity = 2 ^ k := by
    cases group
    · exact ⟨3, by decide, rfl⟩
    · exact ⟨4, by decide, rfl⟩
    · exact ⟨4, by decide, rfl⟩
  obtain ⟨k, hk, hinitial⟩ := hinitial
  rw [capacityFor, hinitial]
  rcases capacityForFrom_pow hk (show 64 ≤ k + 65 by omega) with ⟨hle, j, -, hj, hsome⟩ | hnone
  · exact .inl ⟨hle, j, hj, hsome⟩
  · exact .inr hnone

theorem initialCapacity_le : group.initialCapacity ≤ maxInsertions (2 ^ 63) r := by
  have hinitial : group.initialCapacity ≤ 16 := by cases group <;> decide
  have hroom : 16 ≤ maxInsertions 32 r := by
    have hhalf : floorDivPow2 32 r.exponent ≤ 16 := by
      have hpow : 2 ^ 1 ≤ 2 ^ r.exponent := Nat.pow_le_pow_right (by omega) r.positive
      unfold floorDivPow2
      split
      · exact Nat.zero_le _
      · rw [Nat.shiftRight_eq_div_pow]
        exact Nat.div_le_of_le_mul (by omega)
    rw [maxInsertions, ReserveFraction.floorReserved]
    omega
  exact hinitial.trans (hroom.trans (maxInsertions_mono r (by decide : 32 ≤ 2 ^ 63)))

end Capacity

namespace Elastic

open ElasticTable

theorem maxInsertions_lt_of_scaled {n : Nat} (r : ReserveFraction) (hn : Scaled n) {j : Nat} (hj : 1 ≤ j) (hlt : 2 ^ j < n) :
    Capacity.maxInsertions (2 ^ j) r < Capacity.maxInsertions n r := by
  rcases hn with rfl | ⟨k, rfl⟩
  · exact absurd hlt (Nat.not_lt_zero _)
  · have hjk : j + 1 ≤ k + 1 := (Nat.pow_lt_pow_iff_right (by omega)).mp hlt
    have hpow : 2 ^ 1 ≤ 2 ^ j := Nat.pow_le_pow_right (by omega) hj
    have hdouble := maxInsertions_double r (show 2 ≤ 2 ^ j by omega)
    rw [← Nat.pow_succ] at hdouble
    exact hdouble.trans_le (Capacity.maxInsertions_mono r (Nat.pow_le_pow_right (by omega) hjk))

def room (group : GroupBackend) (u : User W K V) : Room (Elastic.backend group u) where
  grows := fun t => Fits u (t.nextSlots group)
  reserves := fun t needed => ∃ slots, t.growCapacityFor group needed = some slots ∧ Fits u slots
  shrinks := fun t minCapacity => minCapacity ≤ Capacity.maxInsertions (2 ^ 63) t.reserveFraction

namespace ElasticTable

variable {t : ElasticTable K V} {w : World W K V} {minCapacity : Nat}

section Cases

variable {Q : Unit → ElasticTable K V × World W K V → Prop} {Z : Panic → ElasticTable K V × World W K V → Prop}

theorem wp_shrinkTo_cases (hr : t.Ready) (hself : Q () (t, w))
    (hserved : minCapacity ≤ Capacity.maxInsertions (2 ^ 63) t.reserveFraction)
    (hresize : ∀ n, Scaled n → n < t.totalSlots → max t.len minCapacity ≤ Capacity.maxInsertions n t.reserveFraction →
      ¬t.maxInsertions ≤ minCapacity → wp (resizeWithTransition group u n .explicitResize) Q Z (t, w)) :
    wp (shrinkTo group u minCapacity) Q Z (t, w) := by
  have hmax := hr.maxInsertions
  have hlimit := hr.limit
  rw [shrinkTo, wp_bind, wp_get]
  dsimp only
  rw [wp_ite]
  constructor
  · rintro ⟨hlen, rfl⟩
    rw [wp_ite]
    refine ⟨fun hslots => ?_, fun _ => hself⟩
    have hpos := Capacity.maxInsertions_pos t.reserveFraction hslots
    exact hresize 0 (.inl rfl) hslots (by rw [hlen]; exact Nat.zero_le _) (by omega)
  · intro _
    have hslots : t.totalSlots ≤ 2 ^ 63 := by
      have := hr.totalSlots_le
      unfold u32Max at this
      omega
    have hmono : t.maxInsertions ≤ Capacity.maxInsertions (2 ^ 63) t.reserveFraction := by
      rw [hmax]
      exact Capacity.maxInsertions_mono _ hslots
    have hinitial := @Capacity.initialCapacity_le group t.reserveFraction
    rcases @Capacity.capacityFor_initial group t.reserveFraction (max (max t.len minCapacity) group.initialCapacity) with
      ⟨-, j, hj, hsome⟩ | ⟨hlt, -⟩
    · obtain ⟨hroom, doublings, hpow⟩ := Capacity.capacityFor_spec hsome
      have hscaled : Scaled (2 ^ j) := hpow ▸ scaled_initialCapacity.scale doublings
      rw [hsome, expect, pure_bind, wp_ite]
      refine ⟨fun _ => hself, fun hless => ?_⟩
      refine hresize (2 ^ j) hscaled (Nat.lt_of_not_le hless) (by omega) fun hfull => ?_
      have hpositive : 1 ≤ j := by
        rcases Nat.eq_zero_or_pos j with rfl | hpos
        · exact absurd rfl (hscaled.plural (n := 2 ^ 0))
        · exact hpos
      have hstrict := maxInsertions_lt_of_scaled t.reserveFraction hr.scaled hpositive (Nat.lt_of_not_le hless)
      omega
    · omega

end Cases

section Solvent

variable (ho : u.Obliging fun _ => True)
include ho

theorem resizes_of_fits (hs : t.Snug u) {slots : Nat} (hfits : Fits u slots) :
    Resizes group u Panic.Solvent (ElasticTable.Snug u) t slots := by
  intro transition w
  have hslots := hfits.slots
  obtain ⟨g, hsome, hg⟩ := ElasticGeometry.forSlots_some t.reserveFraction
    (show slots ≤ maxElasticSlots by unfold maxElasticSlots; unfold u32Max at hslots; omega)
  have hsolvent : wp (resizeWithTransition group u slots transition) (fun _ _ => True) (fun e _ => e.Solvent) (t, w) := by
    rw [resizeWithTransition, wp_bind, wp_get]
    dsimp only
    rw [wp_bind, wp_liftPanic_ok hsome, expect, pure_bind, wp_bind]
    refine wp_mono (wp_tryResizeTo_granted ho (fun _ => id) (hg.sum.symm ▸ hfits) trivial) ?_ (fun _ _ => id)
    rintro res s ⟨a, rfl⟩
    exact trivial
  exact wp_mono (wp_and (within_resizeWithTransition slots transition (t, w) hs) hsolvent) (fun _ _ h => h.1)
    (fun _ _ h => ⟨h.2, h.1.2⟩)

theorem upheld_shrinkTo_solvent (hr : t.Ready) (hs : t.Snug u)
    (hserved : minCapacity ≤ Capacity.maxInsertions (2 ^ 63) t.reserveFraction) (w : World W K V) :
    Upheld Panic.Solvent (ElasticTable.Snug u) (shrinkTo group u minCapacity) t w :=
  wp_shrinkTo_cases hr hs hserved fun _ _ hlt _ _ =>
    resizes_of_fits ho hs (hs.of_le (Nat.le_of_lt hlt)) .explicitResize w

omit ho in
theorem within_cloneLevels {E : Panic → Prop} (hE : Panic.Tolerates E) (src : List (Level K V)) :
    Within E (fun _ => True) (cloneLevels group u src : Run (List (Level K V)) W K V Unit) := by
  refine .forM (fun p => ?_) _
  have hregion : Within E (fun _ => True) (Exec.zoom
      (fun s : List (Level K V) × World W K V => ((s.1[p.2]?).elim (.empty 0) Level.region, s.2))
      (fun part s => (s.1.modify p.2 fun l => { l with region := part.1 }, part.2))
      (cloneRegionFrom group false u p.1.region)) := by
    intro s _
    rw [wp_zoom]
    exact within_cloneRegionFrom hE false _ _ trivial
  exact hregion.bind fun _ => .modify fun _ => id

theorem wp_cloneTable_solvent (hr : t.Ready) (hs : t.Snug u) :
    wp (cloneTable group u t) (fun _ _ => True) (fun e _ => e.Solvent) w := by
  have hE := Panic.tolerates_solvent
  have hdrop : ∀ regions : List (Region (K × V)), Within (fun _ => True) (fun _ : World W K V => True)
      (dropValues group false u regions) := fun _ => .steady fun _ _ => id
  rw [cloneTable, wp_bind]
  refine wp_mono (World.within_call hE u.cloneBuilder w trivial) (fun _ w₁ _ => ?_) (fun _ _ h => h.1)
  rw [wp_bind, tryProbeSchedule, wp_bind]
  refine wp_mono (ho.wp_alloc trivial _) ?_ (fun _ _ => id)
  rintro granted w₂ ⟨rfl, -⟩
  rw [wp_pure]
  dsimp only
  rw [if_pos rfl, wp_bind]
  rw [planBuffer, ← capacities]
  by_cases hlevels : t.capacities.length ≤ maxLevels
  · rw [if_pos hlevels, wp_liftPanic_ok rfl, wp_bind]
    have hfits : Fits u t.capacities.sum := hr.slots.symm ▸ hs
    refine wp_mono (wp_tryAllocElasticArena_granted ho hfits trivial) ?_ (fun _ _ => id)
    rintro res w₃ ⟨⟨⟨levels, membership⟩, rfl⟩, -⟩
    refine wp_mono (Within.bind (E := Panic.Solvent) (I := fun _ => True) (.withLocal ?_) (fun _ => ?_) w₃ trivial)
      (fun _ _ => id) (fun _ _ h => h.1)
    · refine (within_cloneLevels hE t.levels).guarded (.get_bind fun s _ => ?_)
      exact .onSnd fun _ => (hdrop _).mono fun _ _ => hE.abort
    · exact (within_copyMembershipFrom hE _ _).bind fun _ => .pure _
  · rw [if_neg hlevels]
    exact rfl

theorem maintains_solvent :
    Maintains (b := Elastic.backend group u) (reading group) u Panic.Solvent (room group u) (ElasticTable.Snug u) := by
  have hE := Panic.tolerates_solvent
  have hupkept : Upkept group u Panic.Solvent (ElasticTable.Snug u : ElasticTable K V → Prop) :=
    upkept_snug hE fun hs => resizes_of_fits ho hs hs
  exact maintains_of_keeping hupkept {
    tolerates := hE
    insertForVacant := fun hs hroom _ _ _ _ =>
      hupkept.upheld_insertForVacantEntryPrepared hs (fun hfull => resizes_of_fits ho hs (hroom hfull)) _ _
    insert := fun hr hs _ _ _ hroom _ => hupkept.upheld_insert hs hr fun hrefuted hfull =>
      resizes_of_fits ho hs (hroom hrefuted hfull)
    writeValue := fun _ _ _ _ => id
    finishDeferredRemovals := hupkept.within_finishDeferredRemovals
    resize := by
      rintro t needed hs ⟨slots, hgrow, hfits⟩ w
      refine .expect_bind hs (fun hnone => ?_) fun slots' hgrow' => ?_
      · cases hgrow.symm.trans hnone
      · cases hgrow.symm.trans hgrow'
        exact resizes_of_fits ho hs hfits .explicitResize w
    tryResize := fun hs _ w => within_tryResize hE _ (_, w) hs
    shrinkTo := fun hr hs hserved w => upheld_shrinkTo_solvent ho hr hs hserved w
    cloneTable := fun hr hs _ => wp_mono (wp_and (snug_cloneTable hs) (wp_cloneTable_solvent ho hr hs))
      (fun _ _ h => h.1) (fun _ _ h => h.2) }

end Solvent

theorem funded (group : GroupBackend) (u : User W K V) :
    Funded (b := Elastic.backend group u) (reading group) u (room group u) (ElasticTable.Snug u) :=
  ⟨maintains group u, maintains_solvent⟩

end ElasticTable

end Elastic

end Opthash
