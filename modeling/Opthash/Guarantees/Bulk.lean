import Opthash.Guarantees.Borrows
import Opthash.Guarantees.References
import Opthash.Shell.Bulk

namespace Opthash

open Exec FiniteMap HashMap

variable {W K V : Type} {group : GroupBackend} {u : User W K V} {hash : K → UInt64} {eqv : K → K → Bool}
  {copyKey : K → K} {copyValue : V → V}

theorem Funnel.makes (group : GroupBackend) (u : User W K V) (r : ReserveFraction) :
    Makes (b := Funnel.backend group u) (Funnel.reading group) u fun n => Funnel.withCapacityAndReserve group u n r := by
  intro n w
  have hroom : wp (FunnelTable.tryWithInsertBudget group u n r)
      (fun res w' => (∀ t : FunnelTable K V, res = .ok t → n ≤ t.shape.maxInsertions) ∧ w'.ledger = w.ledger)
      (fun _ w' => w'.ledger = w.ledger) w := by
    have hfailed : ∀ (e : FunnelTable.BuildError) (t : FunnelTable K V), Except.error e = .ok t → n ≤ t.shape.maxInsertions :=
      fun e t h => absurd h (by simp)
    rw [FunnelTable.tryWithInsertBudget, wp_ite]
    refine ⟨fun _ => ⟨hfailed _, rfl⟩, fun _ => ?_⟩
    cases hshape : FunnelShape.forInsertBudget n r with
    | error e => exact ⟨hfailed _, rfl⟩
    | ok shape =>
      dsimp only
      rw [wp_bind, FunnelTable.tryFromShape, wp_bind]
      apply wp_mono (FunnelTable.wp_tryAllocateStorage (R := fun _ w' => w'.ledger = w.ledger) shape.n w) _ (fun _ _ => id)
      rintro (e | ⟨storage, membership⟩) w₁ ⟨hledger, -⟩
      · exact ⟨hfailed _, hledger⟩
      · refine ⟨?_, hledger⟩
        rintro t ht
        cases ht
        exact (FunnelShape.forInsertBudget_spec hshape).1
  have hmade : wp (Funnel.withCapacityAndReserve group u n r)
      (fun (t : FunnelTable K V) w' => (Funnel.Initial group u t ∧ n ≤ t.shape.maxInsertions) ∧ w'.ledger = w.ledger)
      (fun _ w' => w'.ledger = w.ledger) w := by
    rw [Funnel.withCapacityAndReserve, wp_bind]
    apply wp_mono (wp_and hroom (wp_self _ w)) _ (fun _ _ h => h.1)
    rintro (e | t) w₁ ⟨⟨hcapacity, hledger⟩, hrun⟩
    · exact hledger
    · exact ⟨⟨⟨n, r, w, w₁, hrun⟩, hcapacity t rfl⟩, hledger⟩
  exact wp_mono hmade (fun t _ h => ⟨⟨h.1.1.fresh, h.1.2⟩, h.2⟩) fun _ _ => id

theorem Elastic.makes (group : GroupBackend) (u : User W K V) (r : ReserveFraction) :
    Makes (b := Elastic.backend group u) (Elastic.reading group) u fun n =>
      Elastic.ElasticTable.withCapacityAndReserve group u n r := by
  intro n w
  have hgeometry : ∀ {g : Elastic.ElasticGeometry}, Elastic.ElasticGeometry.forInsertBudget group n r = .ok (some g) →
      n ≤ g.maxInsertions := by
    intro g hg
    unfold ElasticGeometry.forInsertBudget at hg
    split at hg
    · omega
    · split at hg
      · cases hg
      · rename_i slots hslots
        have hlaid := ElasticGeometry.laid_of_forSlots hg
        rw [hlaid.maxInsertions]
        exact (Capacity.capacityFor_spec hslots).1
  have hroom : wp (Elastic.ElasticTable.withCapacityAndReserve group u n r)
      (fun t w' => n ≤ t.maxInsertions ∧ w'.ledger = w.ledger) (fun _ w' => w'.ledger = w.ledger) w := by
    rw [ElasticTable.withCapacityAndReserve, wp_bind]
    rcases hbudget : ElasticGeometry.forInsertBudget group n r with e | _ | g
    · exact rfl
    · exact rfl
    · rw [ElasticTable.liftPanic, wp_pure, wp_bind, expect, wp_pure, wp_bind, ElasticTable.tryFromGeometry, wp_bind]
      apply wp_mono (ElasticTable.wp_tryProbeSchedule (R := fun _ w' => w'.ledger = w.ledger)) _ (fun _ _ => id)
      rintro (e | _) w₁ hledger
      · exact hledger
      · dsimp only
        rw [wp_bind]
        apply wp_mono (ElasticTable.wp_tryAllocElasticArena (R := fun _ w' => w'.ledger = w.ledger)) _ (fun _ _ => id)
        rintro (e | ⟨levels, membership⟩) w₂ ⟨hledger', -⟩
        · exact hledger'.trans hledger
        · exact ⟨hgeometry hbudget, hledger'.trans hledger⟩
  apply wp_mono (wp_and hroom (wp_self _ w)) _ (fun _ _ h => h.1)
  rintro t w₁ ⟨⟨hcapacity, hledger⟩, hrun⟩
  have hinitial : Elastic.Initial group u t := ⟨n, r, w, w₁, hrun⟩
  exact ⟨⟨hinitial.fresh, hcapacity⟩, hledger⟩

/-- What is put into the maps of a backend all at once; a load that fails drops what it had taken. -/
structure Loads (b : TableBackend W K V) (R : Reading b.Table b.Location b.Vacant b.Scan K V) (u : User W K V)
    (initial : b.Table → Prop) (withCapacity : ReserveFraction → Nat → Exec Panic (World W K V) b.Table)
    (hash : K → UInt64) (eqv : K → K → Bool) : Prop where
  extend : ∀ t, Reachable b u initial (fun e => e.2.1.Fitting hash eqv (R.entries e.1.1)) t → ∀ source w,
    wp (HashMap.extend b u source)
      (fun _ s => source.ends = true ∧ Extended R u eqv source t s.1 ∧ Books R u source.items (t, w) s)
      (PartlyFilled R u eqv (source.ends = false) source.items (t, w)) (t, w)
  fromIter : ∀ r source w, wp (HashMap.fromIter b u (withCapacity r) source)
    (fun t w' => source.ends = true ∧
      (∃ t₀ w₀, withCapacity r source.hint w = (.ok t₀, w₀) ∧ Collected R u eqv source t₀ t) ∧
      ∀ κ, Accounts u κ 0 w (Ledger.weighEntries κ (R.entries t)) w' (Ledger.weighEntries κ source.items))
    (fun p w' => ((∃ w₀, withCapacity r source.hint w = (.error p, w₀)) ∨ p.Blamed (¬u.Calm ∨ source.ends = false)) ∧
      (p ≠ .abort → ∃ taken ≤ source.items.length, Spent u (source.items.take taken) w w')) w
  fromArray : ∀ r entries w, wp (HashMap.fromArray b u (withCapacity r) entries)
    (fun t w' => (∃ t₀ w₀, withCapacity r entries.length w = (.ok t₀, w₀) ∧ R.capacity t = R.capacity t₀) ∧
      Represents R u eqv t ∧ (R.entries t).Perm (puts eqv entries []) ∧
      (Distinct eqv entries → (R.entries t).Perm entries) ∧
      ∀ κ, Accounts u κ 0 w (Ledger.weighEntries κ (R.entries t)) w' (Ledger.weighEntries κ entries))
    (fun p w' => ((∃ w₀, withCapacity r entries.length w = (.error p, w₀)) ∨ p.Blamed (¬u.Calm)) ∧
      (p ≠ .abort → ∃ taken ≤ entries.length, Spent u (entries.take taken) w w')) w

theorem bulk_loads (group : GroupBackend) (hhash : ∀ k, User.Total (u.hashOne k)) (hl : u.Lawful hash eqv)
    (hcopy : u.Copying eqv copyKey copyValue) :
    Loads (Funnel.backend group u) (Funnel.reading group) u (Funnel.Initial group u)
        (fun r n => Funnel.withCapacityAndReserve group u n r) hash eqv ∧
      Loads (Elastic.backend group u) (Elastic.reading group) u (Elastic.Initial group u)
        (fun r n => Elastic.ElasticTable.withCapacityAndReserve group u n r) hash eqv := by
  constructor
  · have hc := Funnel.contract group u
    constructor
    · intro t ht source w
      exact wp_extend hc hl (ht.stores hc (fun _ h => h.fresh) hhash hl hcopy fun _ => id) source
    · exact fun r source w => wp_fromIter hc hl (Funnel.makes group u r) source w
    · exact fun r entries w => wp_fromArray hc hl (Funnel.makes group u r) entries w
  · have hc := Elastic.contract group u
    constructor
    · intro t ht source w
      exact wp_extend hc hl (ht.stores hc (fun _ h => h.fresh) hhash hl hcopy fun _ => id) source
    · exact fun r source w => wp_fromIter hc hl (Elastic.makes group u r) source w
    · exact fun r entries w => wp_fromArray hc hl (Elastic.makes group u r) entries w

namespace Loaded

def user : User Unit UInt64 Nat := .ofFunctions id (· == ·) true 16 8

def backend : TableBackend Unit UInt64 Nat := Elastic.backend .scalar user

theorem lawful_user : user.Lawful id (· == ·) := User.lawful_ofFunctions User.equality_beq fun _ _ => eq_of_beq

/-- A source that understates its length and repeats a key. -/
def source (ends : Bool) : Source UInt64 Nat := ⟨1, [(7, 70), (9, 90), (7, 71)], ends⟩

def reserve : ReserveFraction := ⟨3, Nat.succ_pos 2, Nat.le_of_ble_eq_true rfl⟩

def run (ends : Bool) : Except Panic backend.Table × World Unit UInt64 Nat :=
  HashMap.fromIter backend user (fun n => Elastic.ElasticTable.withCapacityAndReserve .scalar user n reserve) (source ends)
    World.start

end Loaded

/-- The source is collected, and dropped when it panics at its end. -/
theorem bulk_loads_three :
    (∃ t w, Loaded.run true = (.ok t, w) ∧ ((Elastic.reading .scalar).entries t).Perm [(9, 90), (7, 71)]) ∧
    ∃ p w, Loaded.run false = (.error p, w) ∧ ∃ taken ≤ 3, ∀ κ, w.ledger.gone κ = w.ledger.made κ +
      Ledger.weighEntries κ ((Loaded.source false).items.take taken) := by
  have hloads : ∀ (source : Source UInt64 Nat) (w : World Unit UInt64 Nat)
      (r : Except Panic Loaded.backend.Table × World Unit UInt64 Nat),
      HashMap.fromIter Loaded.backend Loaded.user
        (fun n => Elastic.ElasticTable.withCapacityAndReserve .scalar Loaded.user n Loaded.reserve) source w = r →
      (∀ t w', r = (.ok t, w') → ((Elastic.reading .scalar).entries t).Perm (puts (· == ·) source.items [])) ∧
      ∀ p w', r = (.error p, w') → p ≠ .abort →
        ∃ taken ≤ source.items.length, Spent Loaded.user (source.items.take taken) w w' := by
    intro source w r hr
    have hcalm : Loaded.user.Calm := User.calm_ofFunctions
    have hload := (bulk_loads .scalar hcalm.hashOne Loaded.lawful_user
      (User.copying_ofFunctions User.equality_beq)).2.fromIter Loaded.reserve source w
    constructor
    · rintro t w' rfl
      obtain ⟨-, ⟨t₀, w₀, -, hcollected⟩, -⟩ := (wp_of_ok hr).mp hload
      exact hcollected.entries
    · rintro p w' rfl
      exact ((wp_of_error hr).mp hload).2
  have hok : (Loaded.run true).1.isOk = true := by decide +kernel
  have herror : (match (Loaded.run false).1 with | .error p => decide (p ≠ .abort) | .ok _ => false) = true := by
    decide +kernel
  constructor
  · rcases hrun : Loaded.run true with ⟨p | t, w⟩
    · rw [hrun] at hok
      cases hok
    · exact ⟨t, w, rfl, (hloads (Loaded.source true) World.start _ hrun).1 t w rfl⟩
  · rcases hrun : Loaded.run false with ⟨p | t, w⟩
    · rw [hrun] at herror
      obtain ⟨taken, htaken, hspent⟩ := (hloads (Loaded.source false) World.start _ hrun).2 p w rfl (of_decide_eq_true herror)
      refine ⟨p, w, rfl, taken, htaken, fun κ => ?_⟩
      have heq : w.ledger.gone κ + 0 + 0 = 0 + 0 + w.ledger.made κ + _ := (hspent κ).eq rfl
      omega
    · rw [hrun] at herror
      cases herror

end Opthash
