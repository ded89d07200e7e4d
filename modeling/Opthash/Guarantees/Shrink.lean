import Opthash.Elastic.Solvent
import Opthash.Funnel.Solvent
import Opthash.Guarantees.Growth

namespace Opthash

open Exec HashMap

variable {W K V : Type} {group : GroupBackend} {u : User W K V} {J : W → Prop}

structure HashMap.Shrunk (b : TableBackend W K V) (u : User W K V) (R : Reading b.Table b.Location b.Vacant b.Scan K V)
    (minCapacity : Nat) (s s' : b.Table × World W K V) : Prop where
  rearranged : R.Rearranged u s.1 s'.1
  slots : b.totalSlots s'.1 ≤ b.totalSlots s.1
  capacity : b.capacity s'.1 ≤ b.capacity s.1
  room : max (b.len s.1) (min minCapacity (b.capacity s.1)) ≤ b.capacity s'.1
  idle : b.capacity s.1 ≤ minCapacity → s' = s

def HashMap.ShrinksTo (b : TableBackend W K V) (u : User W K V) (R : Reading b.Table b.Location b.Vacant b.Scan K V)
    (minCapacity : Nat) (s : b.Table × World W K V) : Prop :=
  wp (step b u (.shrinkTo minCapacity)) (fun _ s' => Shrunk b u R minCapacity s s') (fun _ _ => False) s

namespace Funnel

open FunnelTable

variable {t : FunnelTable K V} {w : World W K V} {minCapacity : Nat}

theorem shrunk_self (hw : t.Wf) : Shrunk (Funnel.backend group u) u (reading group) minCapacity (t, w) (t, w) where
  rearranged := .refl hw
  slots := Nat.le_refl _
  capacity := Nat.le_refl _
  room := Nat.max_le.mpr ⟨hw.limit, Nat.min_le_right ..⟩
  idle := fun _ => rfl

theorem shrunk_rebuilt {s : FunnelTable K V × World W K V} {shape : FunnelShape} {transition : EpochTransition}
    (hs : t.Snug group u t.reserveFraction) (hplanned : shape.Planned t.reserveFraction)
    (hleast : FunnelShape.forInsertBudget shape.maxInsertions t.reserveFraction = .ok shape)
    (hroom : max t.len minCapacity ≤ shape.maxInsertions) (hlt : shape.n < t.shape.n)
    (h : Rebuilt u t shape transition s.1) :
    Shrunk (Funnel.backend group u) u (reading group) minCapacity (t, w) s := by
  have hcapacity : shape.maxInsertions ≤ t.shape.maxInsertions := by
    have hmax := ((FunnelShape.fromSlots_spec hs.planned).2.2 (by omega)).2
    rcases Nat.eq_zero_or_pos shape.n with hzero | hpos
    · rw [(FunnelShape.fromSlots_spec hplanned).2.1 hzero]
      exact Nat.zero_le _
    · rw [hmax, ((FunnelShape.fromSlots_spec hplanned).2.2 (by omega)).2]
      exact Capacity.maxInsertions_mono _ (Nat.le_of_lt hlt)
  refine ⟨h.rearranged, ?_, ?_, ?_, fun hfull => ?_⟩
  · exact (congrArg FunnelShape.n h.shape).trans_le (Nat.le_of_lt hlt)
  · exact (congrArg FunnelShape.maxInsertions h.shape).trans_le hcapacity
  · change max t.len (min minCapacity t.shape.maxInsertions) ≤ s.1.shape.maxInsertions
    rw [h.shape]
    omega
  · -- A smaller shape with as much room would be the one made for it.
    have hfull : t.shape.maxInsertions ≤ minCapacity := hfull
    have hsame : shape.maxInsertions = t.shape.maxInsertions := by omega
    have hleast' := hs.2.least
    rw [← hsame, hleast] at hleast'
    cases hleast'
    exact absurd hlt (Nat.lt_irrefl _)

section Cases

variable {Q : Unit → FunnelTable K V × World W K V → Prop} {Z : Panic → FunnelTable K V × World W K V → Prop}

theorem wp_shrinkTo_overflows (hserved : ¬(minCapacity = 0 ∨ ∃ n, FunnelShape.Serves minCapacity t.reserveFraction n)) :
    wp (shrinkTo group u minCapacity) (fun _ _ => False) (fun e _ => e = .capacityOverflow) (t, w) := by
  obtain ⟨hpos, hnone⟩ := not_or.mp hserved
  rw [shrinkTo, wp_bind, wp_get]
  dsimp only
  rw [if_neg (fun hzero => hpos hzero.2)]
  cases hbudget : FunnelShape.forInsertBudget (max t.len minCapacity) t.reserveFraction with
  | error e => exact rfl
  | ok shape =>
    obtain ⟨n, hn⟩ := (FunnelShape.forInsertBudget_ok_iff (by omega)).mp ⟨shape, hbudget⟩
    exact absurd ⟨n, { hn with room := (Nat.le_max_right ..).trans hn.room }⟩ hnone

end Cases

theorem shrinksTo_run : ShrinksTo (Funnel.backend group u) u (reading group) minCapacity (t, w) ↔
    wp (shrinkTo group u minCapacity)
      (fun _ s => Shrunk (Funnel.backend group u) u (reading group) minCapacity (t, w) s) (fun _ _ => False) (t, w) :=
  wp_map _ _ _

theorem served_of_shrinksTo (h : ShrinksTo (Funnel.backend group u) u (reading group) minCapacity (t, w)) :
    minCapacity = 0 ∨ ∃ n, FunnelShape.Serves minCapacity t.reserveFraction n := by
  by_contra hserved
  have hfails := wp_and (shrinksTo_run.mp h) (wp_shrinkTo_overflows hserved)
  rcases hrun : shrinkTo group u minCapacity (t, w) with ⟨e | _, s⟩
  · exact ((wp_of_error hrun).mp hfails).1
  · exact ((wp_of_ok hrun).mp hfails).2

theorem shrinksTo_iff (ho : u.Obliging J) (hj : J w.code) (hw : t.Wf) (hs : t.Snug group u t.reserveFraction) :
    ShrinksTo (Funnel.backend group u) u (reading group) minCapacity (t, w) ↔
      minCapacity = 0 ∨ ∃ n, FunnelShape.Serves minCapacity t.reserveFraction n := by
  constructor
  · exact served_of_shrinksTo
  · intro hserved
    apply shrinksTo_run.mpr
    refine wp_shrinkTo_cases hw hs (shrunk_self hw) hserved fun shape hplanned hleast hroom hlt => ?_
    obtain ⟨p, hp⟩ := hs.2.layout
    exact wp_mono (wp_resizeWithTransition_granted ho hw hplanned (by omega)
      (funnelLayout_of_le hp (Nat.le_of_lt hlt)) hj .explicitResize)
      (fun _ s h => shrunk_rebuilt hs hplanned hleast hroom hlt h) (fun _ _ => id)

end Funnel

namespace Elastic

open ElasticTable

variable {t : ElasticTable K V} {w : World W K V} {minCapacity : Nat}

theorem shrunk_self (hr : t.Ready) : Shrunk (Elastic.backend group u) u (reading group) minCapacity (t, w) (t, w) where
  rearranged := .refl hr
  slots := Nat.le_refl _
  capacity := Nat.le_refl _
  room := Nat.max_le.mpr ⟨hr.limit, Nat.min_le_right ..⟩
  idle := fun _ => rfl

theorem shrunk_rebuilt {s : ElasticTable K V × World W K V} {n : Nat} {g : ElasticGeometry} (hr : t.Ready) (hn : Scaled n)
    (hlt : n < t.totalSlots) (hroom : max t.len minCapacity ≤ Capacity.maxInsertions n t.reserveFraction)
    (hfull : ¬t.maxInsertions ≤ minCapacity) (hg : g.Laid n t.reserveFraction) (h : Rebuilt u t g s.1) :
    Shrunk (Elastic.backend group u) u (reading group) minCapacity (t, w) s := by
  have hcapacity : s.1.maxInsertions = Capacity.maxInsertions n t.reserveFraction :=
    (h.maxInsertions hg).trans hg.maxInsertions
  refine ⟨h.rearranged (by rw [hg.totalSlots]; exact hn), ?_, ?_, ?_, fun hle => absurd hle hfull⟩
  · exact (h.totalSlots.trans hg.totalSlots).trans_le (Nat.le_of_lt hlt)
  · change s.1.maxInsertions ≤ t.maxInsertions
    rw [hcapacity, hr.maxInsertions]
    exact Capacity.maxInsertions_mono _ (Nat.le_of_lt hlt)
  · change max t.len (min minCapacity t.maxInsertions) ≤ s.1.maxInsertions
    rw [hcapacity]
    omega

section Cases

variable {Q : Unit → ElasticTable K V × World W K V → Prop} {Z : Panic → ElasticTable K V × World W K V → Prop}

theorem wp_shrinkTo_overflows (hserved : ¬minCapacity ≤ Capacity.maxInsertions (2 ^ 63) t.reserveFraction) :
    wp (shrinkTo group u minCapacity) (fun _ _ => False) (fun e _ => e = .capacityOverflow) (t, w) := by
  rw [shrinkTo, wp_bind, wp_get]
  dsimp only
  rw [if_neg (fun hzero => by omega)]
  rcases @Capacity.capacityFor_initial group t.reserveFraction (max (max t.len minCapacity) group.initialCapacity) with
    ⟨hle, -⟩ | ⟨-, hnone⟩
  · omega
  · rw [hnone]
    exact rfl

end Cases

theorem shrinksTo_run : ShrinksTo (Elastic.backend group u) u (reading group) minCapacity (t, w) ↔
    wp (shrinkTo group u minCapacity)
      (fun _ s => Shrunk (Elastic.backend group u) u (reading group) minCapacity (t, w) s) (fun _ _ => False) (t, w) :=
  wp_map _ _ _

theorem served_of_shrinksTo (h : ShrinksTo (Elastic.backend group u) u (reading group) minCapacity (t, w)) :
    minCapacity ≤ Capacity.maxInsertions (2 ^ 63) t.reserveFraction := by
  by_contra hserved
  have hfails := wp_and (shrinksTo_run.mp h) (wp_shrinkTo_overflows hserved)
  rcases hrun : shrinkTo group u minCapacity (t, w) with ⟨e | _, s⟩
  · exact ((wp_of_error hrun).mp hfails).1
  · exact ((wp_of_ok hrun).mp hfails).2

theorem shrinksTo_iff (ho : u.Obliging J) (hj : J w.code) (hr : t.Ready) (hs : t.Snug u) :
    ShrinksTo (Elastic.backend group u) u (reading group) minCapacity (t, w) ↔
      minCapacity ≤ Capacity.maxInsertions (2 ^ 63) t.reserveFraction := by
  constructor
  · exact served_of_shrinksTo
  · intro hserved
    apply shrinksTo_run.mpr
    refine wp_shrinkTo_cases hr (shrunk_self hr) hserved fun n hn hlt hroom hfull => ?_
    refine wp_mono (wp_resizeWithTransition_granted ho hr.toWf hs (Nat.le_of_lt hlt) (by omega) hj .explicitResize) ?_
      (fun _ _ => id)
    rintro _ s ⟨g, hg, hrebuilt⟩
    exact shrunk_rebuilt hr hn hlt hroom hfull hg hrebuilt

end Elastic

section Reachable

/-- Where the hasher does not panic and no allocation is refused, `shrink_to` keeps its promise exactly for the
capacities that some number of slots has room for. -/
theorem shrink_to_exact (ho : u.Obliging J) :
    (∀ t : Funnel.FunnelTable K V, Reachable (Funnel.backend group u) u (Funnel.Initial group u) (fun _ => True) t →
      ∀ w, J w.code → ∀ minCapacity,
        (ShrinksTo (Funnel.backend group u) u (Funnel.reading group) minCapacity (t, w) ↔
          minCapacity = 0 ∨ ∃ n, Funnel.FunnelShape.Serves minCapacity t.reserveFraction n)) ∧
    ∀ t : Elastic.ElasticTable K V, Reachable (Elastic.backend group u) u (Elastic.Initial group u) (fun _ => True) t →
      ∀ w, J w.code → ∀ minCapacity,
        (ShrinksTo (Elastic.backend group u) u (Elastic.reading group) minCapacity (t, w) ↔
          minCapacity ≤ Capacity.maxInsertions (2 ^ 63) t.reserveFraction) := by
  constructor
  · rintro t ⟨t₀, w₀, w₁, h₀, hruns⟩ w hj minCapacity
    obtain ⟨hw, hs⟩ := hruns.maintains (Funnel.contract group u)
      (Funnel.FunnelTable.maintains group u t₀.reserveFraction) h₀.fresh.wf h₀.snug
    have hsame : t.reserveFraction = t₀.reserveFraction := hs.1
    exact Funnel.shrinksTo_iff ho hj hw (hsame ▸ hs)
  · rintro t ⟨t₀, w₀, w₁, h₀, hruns⟩ w hj minCapacity
    obtain ⟨hr, hs⟩ := hruns.maintains (Elastic.contract group u) (Elastic.ElasticTable.maintains group u) h₀.fresh.wf
      h₀.snug
    exact Elastic.shrinksTo_iff ho hj hr hs

theorem User.obliging_sample : User.sample.Obliging fun _ => True where
  hash := fun _ _ _ => trivial
  allocate := fun _ _ _ => ⟨rfl, trivial⟩

theorem Funnel.exists_stored : ∃ t slot,
    Reachable (Funnel.backend .scalar User.sample) User.sample (Funnel.Initial .scalar User.sample) (fun _ => True) t ∧
      t.storage.Holds slot (7, 70) ∧ t.reserveFraction.exponent = 3 := by
  obtain ⟨ht, slot, hslot⟩ := Funnel.stored_of_start (A := fun _ => True) fun _ => trivial
  exact ⟨_, slot, ht, hslot, by decide +kernel⟩

/-- A map of one entry with room for 200 keeps room for 20. -/
theorem shrink_to_exact_twenty :
    (∃ t : Funnel.FunnelTable UInt64 Nat, (t.storage.entries = [(7, 70)] ∧ t.shape.maxInsertions = 301) ∧
      ShrinksTo (Funnel.backend .scalar User.sample) User.sample (Funnel.reading .scalar) 20 (t, World.start)) ∧
    ∃ t : Elastic.ElasticTable UInt64 Nat, (t.entries = [(7, 70)] ∧ t.maxInsertions = 256) ∧
      ShrinksTo (Elastic.backend .scalar User.sample) User.sample (Elastic.reading .scalar) 20 (t, World.start) := by
  have hexact := @shrink_to_exact Unit UInt64 Nat .scalar User.sample _ User.obliging_sample
  let ops : List (Op UInt64 Nat) := [.insert 7 70, .reserve 200]
  constructor
  · obtain ⟨t, _, ht, hstate⟩ := Reachable.replayed (b := Funnel.backend .scalar User.sample) (u := User.sample)
      (A := fun _ => True) Funnel.initial_unallocated World.start (fun op (_ : op ∈ ops) _ _ => trivial)
      (fun s => decide ((s.1.storage.entries = [(7, 70)] ∧ s.1.shape.maxInsertions = 301) ∧
        s.1.reserveFraction.exponent = 3))
      (by decide +kernel)
    obtain ⟨hfilled, hexponent⟩ := of_decide_eq_true hstate
    have hserves : Funnel.FunnelShape.Serves 20 t.reserveFraction 144 := by
      refine ⟨by decide, by decide, ?_, ?_⟩
      · rw [hexponent]
        exact ⟨_, rfl⟩
      · unfold Capacity.maxInsertions ReserveFraction.floorReserved
        rw [hexponent]
        decide
    exact ⟨t, hfilled, (hexact.1 t ht World.start trivial 20).mpr (.inr ⟨144, hserves⟩)⟩
  · obtain ⟨t, _, ht, hstate⟩ := Reachable.replayed (b := Elastic.backend .scalar User.sample) (u := User.sample)
      (A := fun _ => True) Elastic.initial_unallocated World.start (fun op (_ : op ∈ ops) _ _ => trivial)
      (fun s => decide ((s.1.entries = [(7, 70)] ∧ s.1.maxInsertions = 256) ∧ s.1.reserveFraction.exponent = 1))
      (by decide +kernel)
    obtain ⟨hfilled, hexponent⟩ := of_decide_eq_true hstate
    have hroom : 20 ≤ Capacity.maxInsertions (2 ^ 63) t.reserveFraction := by
      unfold Capacity.maxInsertions ReserveFraction.floorReserved
      rw [hexponent]
      decide
    exact ⟨t, hfilled, (hexact.2 t ht World.start trivial 20).mpr hroom⟩

/-- A map of one entry panics when it is asked to keep room for `usize::MAX`. -/
theorem shrink_to_overflows :
    (∃ t, Reachable (Funnel.backend .scalar User.sample) User.sample (Funnel.Initial .scalar User.sample)
        (fun _ => True) t ∧
      ¬ShrinksTo (Funnel.backend .scalar User.sample) User.sample (Funnel.reading .scalar) usizeMax
        (t, World.start)) ∧
    ∃ t, Reachable (Elastic.backend .scalar User.sample) User.sample (Elastic.Initial .scalar User.sample)
        (fun _ => True) t ∧
      ¬ShrinksTo (Elastic.backend .scalar User.sample) User.sample (Elastic.reading .scalar) usizeMax
        (t, World.start) := by
  obtain ⟨t, slot, ht, -, hexponent⟩ := Funnel.exists_stored
  obtain ⟨t', -, ht', -⟩ := Elastic.exists_stored (A := fun _ => True) fun _ _ _ => trivial
  refine ⟨⟨t, ht, fun h => ?_⟩, t', ht', fun h => ?_⟩
  · rcases Funnel.served_of_shrinksTo h with hzero | ⟨n, hn⟩
    · exact absurd hzero (by decide)
    · have hroom := hn.room.trans (Capacity.maxInsertions_mono _ hn.size)
      have hless : Capacity.maxInsertions usizeMax t.reserveFraction < usizeMax := by
        unfold Capacity.maxInsertions ReserveFraction.floorReserved
        rw [hexponent]
        decide
      exact absurd hroom (Nat.not_le_of_lt hless)
  · have hserved := (Elastic.served_of_shrinksTo h).trans (Capacity.maxInsertions_le _ _)
    exact absurd hserved (by decide)

end Reachable

end Opthash
