import Opthash.Elastic.Solvent
import Opthash.Funnel.Solvent
import Opthash.Shell.Scripts

namespace Opthash

open Exec FiniteMap HashMap

namespace User

variable {K V : Type} (hash : K → UInt64) (eqv : K → K → Bool)

/-- Code without a state of its own that never panics; it clones by copying, and memory never runs out. -/
def ofFunctions (needsDrop : Bool) (slotSize slotAlign : Nat) : User Unit K V where
  hashOne := fun k => pure (hash k)
  equivalent := fun q k => pure (eqv q k)
  cloneKey := pure
  cloneValue := pure
  cloneBuilder := pure ()
  dropKey := fun _ => pure ()
  dropValue := fun _ => pure ()
  needsDrop
  slotSize
  slotAlign
  allocate := fun _ w => (true, w)

variable {hash eqv} {needsDrop : Bool} {slotSize slotAlign : Nat}

theorem yields_pure {α : Type} {a a' : α} (h : Yields (pure a : Exec Unit Unit α) a') : a' = a := by
  obtain ⟨_, _, h⟩ := h
  cases h
  rfl

theorem calm_ofFunctions : (ofFunctions hash eqv needsDrop slotSize slotAlign : User Unit K V).Calm :=
  ⟨fun _ _ => trivial, fun _ _ _ => trivial, fun _ _ => trivial, fun _ _ => trivial, fun _ => trivial,
    fun _ _ => trivial, fun _ _ => trivial⟩

theorem lawful_ofFunctions (h : Equality eqv) (hcongr : ∀ k k', eqv k k' → hash k = hash k') :
    (ofFunctions hash eqv needsDrop slotSize slotAlign : User Unit K V).Lawful hash eqv :=
  ⟨h, fun _ _ => ⟨yields_pure, fun hx => hx ▸ ⟨(), (), rfl⟩⟩, fun _ _ _ => yields_pure, hcongr⟩

theorem equality_beq [BEq K] [LawfulBEq K] : Equality (fun k k' : K => k == k') :=
  ⟨fun _ => beq_self_eq_true _, fun _ _ h => BEq.symm h, fun _ _ _ h h' => BEq.trans h h'⟩

theorem copying_ofFunctions (h : Equality eqv) :
    (ofFunctions hash eqv needsDrop slotSize slotAlign : User Unit K V).Copying eqv id id :=
  ⟨fun _ _ => yields_pure, fun _ _ => yields_pure, h.refl⟩

end User

def User.sample : User Unit UInt64 Nat := .ofFunctions id (· == ·) false 16 8

theorem User.lawful_sample : User.sample.Lawful id (· == ·) :=
  User.lawful_ofFunctions User.equality_beq fun _ _ => eq_of_beq

theorem User.calm_sample : User.sample.Calm := User.calm_ofFunctions

theorem User.copying_sample : User.sample.Copying (· == ·) id id := User.copying_ofFunctions User.equality_beq

def World.start : World Unit UInt64 Nat := ⟨(), ⟨[], [], []⟩⟩

theorem User.granting_sample : User.sample.Granting := fun _ _ => rfl

def Op.sample : List (Op UInt64 Nat) :=
  [.insert 7 70, .insert 9 90, .insert 7 71, .removeEntry 9, .reserve 200, .clone]

theorem Op.plain_sample : ∀ op ∈ Op.sample, op.Plain (· == ·) := by
  intro op hop
  simp only [Op.sample, List.mem_cons, List.not_mem_nil, or_false] at hop
  rcases hop with rfl | rfl | rfl | rfl | rfl | rfl <;> exact ⟨trivial, id, fun _ _ _ h => by cases h⟩

variable {W K V : Type} {group : GroupBackend} {u : User W K V} {hash : K → UInt64} {eqv : K → K → Bool}
  {copyKey : K → K} {copyValue : V → V}

namespace Funnel

open FunnelTable

/-- A search for the key finds it exactly when the finite map has it. -/
def Locates (eqv : K → K → Bool) (t : FunnelTable K V) (key : K) (c : Run (FunnelTable K V) W K V (Option Nat)) : Prop :=
  ∀ w, wp c (fun r s => s.1 = t ∧ r.isSome = (find eqv key t.storage.entries).isSome) (fun _ _ => False) (t, w)

section Searches

variable {t : FunnelTable K V} {key : K}

theorem locates_of_reports (hcalm : u.Calm) (hl : u.Lawful hash eqv)
    (hr : Stores (b := Funnel.backend group u) (reading group) u eqv t)
    {c : Run (FunnelTable K V) W K V (Option Nat)}
    (h : ∀ w : World W K V, wp c
      (fun r s => Looking t w.ledger (fun _ => True) s ∧ match r with
        | some slot => Matches u t key slot true
        | none => FunnelTable.Refuted u t key (hash key))
      (LookupPanic u t w.ledger) (t, w)) : Locates eqv t key c := by
  have hc := contract group u
  intro w
  refine wp_mono (h w) ?_ (fun p s h => h.1.2 hcalm)
  rintro (_ | slot) s ⟨hs, hresult⟩
  · refine ⟨hs.table, ?_⟩
    have habsent : Absent (b := Funnel.backend group u) (reading group) u t key :=
      ⟨hash key, (hl.hashes _ _).mpr rfl, hresult⟩
    rw [show find eqv key t.storage.entries = none from habsent.find hc hl hr]
    rfl
  · refine ⟨hs.table, ?_⟩
    obtain ⟨e, he, hans⟩ := hresult
    have hmatched := matched_of_holds (b := Funnel.backend group u) hc hr.wf he hans
    rw [show find eqv key t.storage.entries = some e from hmatched.find hl hr]
    rfl

theorem locates_findLocation (hcalm : u.Calm) (hl : u.Lawful hash eqv)
    (hr : Stores (b := Funnel.backend group u) (reading group) u eqv t) :
    Locates eqv t key (findLocation group u key (hash key) (controlFingerprint (hash key))) :=
  locates_of_reports hcalm hl hr fun _ => FunnelTable.wp_findLocation hr.wf (fun _ _ _ _ => trivial) ⟨rfl, rfl, trivial⟩

theorem locates_findByFullScan (hcalm : u.Calm) (hl : u.Lawful hash eqv)
    (hr : Stores (b := Funnel.backend group u) (reading group) u eqv t) :
    Locates eqv t key (t.findByFullScan (inspectKey u key) (controlFingerprint (hash key))) :=
  locates_of_reports hcalm hl hr fun _ =>
    FunnelTable.wp_findByFullScan hr.wf (fun _ _ _ _ => trivial) ⟨rfl, rfl, trivial⟩

end Searches

/-- What the calls of a script return and leave is what a finite map returns and leaves, and each returns as long as no
allocation is refused and no size overflows. -/
theorem funnel_refines_finite_map (hcalm : u.Calm) (hl : u.Lawful hash eqv) (hcopy : u.Copying eqv copyKey copyValue)
    {t : FunnelTable K V} (ht : Initial group u t) {ops : List (Op K V)} (hplain : ∀ op ∈ ops, op.Plain eqv)
    (w : World W K V) :
    wp (script (Funnel.backend group u) u ops)
      (fun rs s => MapRuns eqv copyKey copyValue [] ops rs s.1.storage.entries ∧
        ∀ key, Locates eqv s.1 key (findLocation group u key (hash key) (controlFingerprint (hash key))) ∧
          Locates eqv s.1 key (s.1.findByFullScan (inspectKey u key) (controlFingerprint (hash key))))
      (fun p _ => p.Exhausted ∧ ¬MemoryLasts u (reading group) (room group u) eqv ops (t, w)) (t, w) := by
  have hfresh := ht.fresh
  refine wp_mono (wp_script (contract group u) (funded group u t.reserveFraction) hcalm hl hcopy hplain hfresh.represents
    (.of_eq hfresh.entries)) ?_ (fun _ _ h => ⟨h.1, h.2 ht.snug⟩)
  rintro rs s ⟨hr, hruns⟩
  exact ⟨hruns, fun key => ⟨locates_findLocation hcalm hl hr.toStores, locates_findByFullScan hcalm hl hr.toStores⟩⟩

def FunnelTable.unallocated : FunnelTable UInt64 Nat :=
  fresh .empty ⟨3, by decide, by decide⟩ (.empty 0) (.zeroed 0)

theorem initial_unallocated : Initial .scalar User.sample FunnelTable.unallocated :=
  ⟨0, ⟨3, by decide, by decide⟩, World.start, World.start, rfl⟩

theorem exists_lasting : ∃ t : FunnelTable UInt64 Nat, Initial .scalar User.sample t ∧
    MemoryLasts (b := Funnel.backend .scalar User.sample) User.sample (reading .scalar) (room .scalar User.sample) (· == ·)
      Op.sample (t, World.start) := by
  refine ⟨_, initial_unallocated, ?_⟩
  apply MemoryLasts.cons
  · refine ⟨User.granting_sample, fun _ _ _ _ => ?_, fun _ h => ?_, fun _ h => ?_⟩
    · exact ⟨144, by decide +kernel, (⟨2752, 64⟩, 15), by decide +kernel⟩
    · cases h
    · cases h
  refine .cons (.of_lt User.granting_sample (by decide +kernel) id id) ?_
  refine .cons (.of_lt User.granting_sample (by decide +kernel) id id) ?_
  refine .cons (.of_lt User.granting_sample (by decide +kernel) id id) ?_
  apply MemoryLasts.cons
  · refine ⟨User.granting_sample, fun _ h => ?_, fun _ h _ => ?_, fun _ h => ?_⟩
    · cases h
    · cases h
      exact ⟨344, by decide +kernel, (⟨6464, 64⟩, 35), by decide +kernel⟩
    · cases h
  refine .cons (.of_lt User.granting_sample (by decide +kernel) id id) ?_
  exact .nil _

/-- Two keys, one of them twice, a removal, a reservation and a clone, from a table without slots. -/
theorem funnel_refines_finite_map_sample : ∃ t : FunnelTable UInt64 Nat, Initial .scalar User.sample t ∧
    wp (script (Funnel.backend .scalar User.sample) User.sample Op.sample)
      (fun rs s => MapRuns (· == ·) id id [] Op.sample rs s.1.storage.entries ∧
        ∀ key, Locates (· == ·) s.1 key (findLocation .scalar User.sample key key (controlFingerprint key)) ∧
          Locates (· == ·) s.1 key (s.1.findByFullScan (inspectKey User.sample key) (controlFingerprint key)))
      (fun _ _ => False) (t, World.start) := by
  obtain ⟨t, ht, hlasts⟩ := exists_lasting
  have hrun := funnel_refines_finite_map User.calm_sample User.lawful_sample User.copying_sample ht Op.plain_sample World.start
  exact ⟨t, ht, wp_mono hrun (fun _ _ => id) fun _ _ h => h.2 hlasts⟩

end Funnel

namespace Elastic

open ElasticTable

theorem elastic_refines_finite_map (hcalm : u.Calm) (hl : u.Lawful hash eqv) (hcopy : u.Copying eqv copyKey copyValue)
    {t : ElasticTable K V} (ht : Initial group u t) {ops : List (Op K V)} (hplain : ∀ op ∈ ops, op.Plain eqv)
    (w : World W K V) :
    wp (script (Elastic.backend group u) u ops)
      (fun rs s => MapRuns eqv copyKey copyValue [] ops rs s.1.entries)
      (fun p _ => p.Exhausted ∧ ¬MemoryLasts u (reading group) (room group u) eqv ops (t, w)) (t, w) := by
  have hfresh := ht.fresh
  refine wp_mono (wp_script (contract group u) (funded group u) hcalm hl hcopy hplain hfresh.represents
    (.of_eq hfresh.entries)) ?_ (fun _ _ h => ⟨h.1, h.2 ht.snug⟩)
  exact fun rs s h => h.2

def ElasticTable.unallocated : ElasticTable UInt64 Nat :=
  fresh ⟨0, 0, [], []⟩ ⟨1, by decide, by decide⟩ [] (.zeroed 0)

theorem initial_unallocated : Initial .scalar User.sample ElasticTable.unallocated :=
  ⟨0, ⟨1, by decide, by decide⟩, World.start, World.start, rfl⟩

theorem exists_lasting : ∃ t : ElasticTable UInt64 Nat, Initial .scalar User.sample t ∧
    MemoryLasts (b := Elastic.backend .scalar User.sample) User.sample (reading .scalar) (room .scalar User.sample) (· == ·)
      Op.sample (t, World.start) := by
  refine ⟨_, initial_unallocated, ?_⟩
  apply MemoryLasts.cons
  · refine ⟨User.granting_sample, fun _ _ _ _ => ?_, fun _ h => ?_, fun _ h => ?_⟩
    · exact ⟨by decide, by decide +kernel, (⟨256, 64⟩, 8, 1), by decide +kernel, by decide, by decide +kernel⟩
    · cases h
    · cases h
  refine .cons (.of_lt User.granting_sample (by decide +kernel) id id) ?_
  refine .cons (.of_lt User.granting_sample (by decide +kernel) id id) ?_
  refine .cons (.of_lt User.granting_sample (by decide +kernel) id id) ?_
  apply MemoryLasts.cons
  · refine ⟨User.granting_sample, fun _ h => ?_, fun _ h _ => ?_, fun _ h => ?_⟩
    · cases h
    · cases h
      exact ⟨512, by decide +kernel, by decide, by decide, (⟨9536, 64⟩, 512, 52), by decide +kernel, by decide, by decide⟩
    · cases h
  refine .cons (.of_lt User.granting_sample (by decide +kernel) id id) ?_
  exact .nil _

theorem elastic_refines_finite_map_sample : ∃ t : ElasticTable UInt64 Nat, Initial .scalar User.sample t ∧
    wp (script (Elastic.backend .scalar User.sample) User.sample Op.sample)
      (fun rs s => MapRuns (· == ·) id id [] Op.sample rs s.1.entries) (fun _ _ => False) (t, World.start) := by
  obtain ⟨t, ht, hlasts⟩ := exists_lasting
  have hrun := elastic_refines_finite_map User.calm_sample User.lawful_sample User.copying_sample ht Op.plain_sample World.start
  exact ⟨t, ht, wp_mono hrun (fun _ _ => id) fun _ _ h => h.2 hlasts⟩

end Elastic

end Opthash
