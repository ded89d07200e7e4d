import Opthash.Guarantees.Filter

namespace Opthash

open Exec FiniteMap HashMap

variable {W W' K V : Type} {hash : K → UInt64} {eqv : K → K → Bool} {copyKey : K → K} {copyValue : V → V}

theorem Reading.Sound.transfer {T L Va S : Type} {R : Reading T L Va S K V} {u : User W K V} {u' : User W' K V}
    (hl : u.Lawful hash eqv) (hl' : u'.Lawful hash eqv) {q : Prop} {t : T} (h : R.Sound u q t) :
    R.Sound u' q t := by
  intro _ loc e he
  obtain ⟨x, hx, hplaced⟩ := h (fun _ => hl.deterministic) loc e he
  exact ⟨x, (hl'.hashes _ _).mpr ((hl.hashes _ _).mp hx), hplaced⟩

namespace HashMap

variable {b : TableBackend W K V} {R : Reading b.Table b.Location b.Vacant b.Scan K V} {u : User W K V} {t : b.Table}
  {loc : b.Location} {e : K × V}

section Calm

variable (hc : Contract R u) (hcalm : u.Calm) (hl : u.Lawful hash eqv) (hs : Stores R u eqv t)
include hc hcalm hl hs

theorem wp_get_find (key : K) (w : World W K V) : wp (step b u (.get key))
    (fun r s => r = .value ((find eqv key (R.entries t)).map Prod.snd) ∧ s.1 = t) (fun _ _ => False) (t, w) := by
  rw [step, wp_map]
  refine wp_mono (wp_getValue hc hs.wf key) ?_ (fun _ _ h => h.1.2 hcalm)
  rintro (_ | v) s ⟨ht, -, hfound, hmiss⟩
  · rw [(hmiss rfl).find hc hl hs]
    exact ⟨rfl, ht⟩
  · obtain ⟨e, hmatched, rfl⟩ := hfound v rfl
    rw [hmatched.find hl hs]
    exact ⟨rfl, ht⟩

theorem wp_containsKey_find (key : K) (w : World W K V) : wp (step b u (.containsKey key))
    (fun r s => r = .found (find eqv key (R.entries t)).isSome ∧ s.1 = t) (fun _ _ => False) (t, w) := by
  rw [step, wp_map]
  refine wp_mono (wp_containsKey hc hs.wf key) ?_ (fun _ _ h => h.1.2 hcalm)
  rintro (_ | _) s ⟨ht, -, hfound, hmiss⟩
  · rw [(hmiss rfl).find hc hl hs]
    exact ⟨rfl, ht⟩
  · obtain ⟨e, hmatched⟩ := hfound rfl
    rw [hmatched.find hl hs]
    exact ⟨rfl, ht⟩

end Calm

/-- Lookups find the entry, and an insertion of its key replaces its value. -/
structure Findable (b : TableBackend W K V) (u : User W K V) (R : Reading b.Table b.Location b.Vacant b.Scan K V)
    (eqv : K → K → Bool) (t : b.Table) (e : K × V) : Prop where
  get : ∀ w, wp (step b u (.get e.1)) (fun r s => r = .value (some e.2) ∧ s.1 = t) (fun _ _ => False) (t, w)
  containsKey : ∀ w, wp (step b u (.containsKey e.1)) (fun r s => r = .found true ∧ s.1 = t) (fun _ _ => False) (t, w)
  insert : ∀ v w, wp (step b u (.insert e.1 v))
    (fun r s => r = .value (some e.2) ∧ (R.entries s.1).Perm (update eqv e.1 (fun _ => v) (R.entries t)))
    (fun _ _ => False) (t, w)

theorem findable_of_stores (hc : Contract R u) (hcalm : u.Calm) (hl : u.Lawful hash eqv) (hs : Stores R u eqv t)
    (hmem : e ∈ R.entries t) : Findable b u R eqv t e := by
  have hself : eqv e.1 e.1 := hl.equality.refl e.1
  have hfind : find eqv e.1 (R.entries t) = some e := find_eq_some hl.equality hs.distinct hmem hself
  have hpresent : ¬Absent R u t e.1 := by
    intro habsent
    rw [habsent.find hc hl hs] at hfind
    cases hfind
  constructor
  · intro w
    have hget := wp_get_find hc hcalm hl hs e.1 w
    rwa [hfind] at hget
  · intro w
    have hcontains := wp_containsKey_find hc hcalm hl hs e.1 w
    rwa [hfind] at hcontains
  · intro v w
    rw [step, wp_bind]
    refine wp_mono (wp_insert (κ := fun _ => 0) hc hs.wf e.1 v) ?_ ?_
    · rintro old ⟨t', w'⟩ ⟨hreplaced, hadded⟩
      rw [wp_bind, wp_onSnd]
      apply wp_handValue (κ := fun _ => 0)
      intro w'' _
      cases old with
      | none =>
        obtain ⟨x, hx, hrefuted, -, -⟩ := hadded rfl
        exact absurd ⟨x, hx, hrefuted⟩ hpresent
      | some old =>
        obtain ⟨-, k', rest, hans, hbefore, hafter⟩ := (hreplaced old rfl).1
        have hmatched : Matched R u t e.1 (k', old) := ⟨hbefore.mem_iff.mpr (List.mem_cons_self ..), hans⟩
        have hsame := hmatched.find hl hs
        rw [hfind] at hsame
        cases hsame
        exact ⟨rfl, hafter.trans (update_perm hl.equality hs.distinct hbefore hself fun _ => v).symm⟩
    · rintro p s ⟨hblamed, habsent, -⟩
      cases hblamed with
      | user h => exact h hcalm
      | abort h => exact h hcalm
      | exhausted h => exact hpresent (habsent h)

end HashMap

namespace User

/-- Keys of 64 bits under one hash, whose hasher panics the `n`th time it is called, counted from 0. -/
def fused (n : Nat) : User Nat UInt64 Nat where
  hashOne := fun _ calls => (if calls = n then .error () else .ok 5, calls + 1)
  equivalent := fun q k => pure (q == k)
  cloneKey := pure
  cloneValue := pure
  cloneBuilder := pure ()
  dropKey := fun _ => pure ()
  dropValue := fun _ => pure ()
  needsDrop := false
  slotSize := 16
  slotAlign := 8
  allocate := fun _ calls => (true, calls)

def unfused : User Unit UInt64 Nat := .ofFunctions (fun _ => 5) (· == ·) false 16 8

theorem lawful_fused (n : Nat) : (fused n).Lawful (fun _ => 5) (· == ·) := by
  refine ⟨equality_beq, fun k x => ⟨?_, ?_⟩, ?_, fun _ _ _ => rfl⟩
  · rintro ⟨calls, calls', h⟩
    simp only [fused] at h
    by_cases hn : calls = n
    · rw [if_pos hn] at h
      cases h
    · rw [if_neg hn] at h
      cases h
      rfl
  · rintro rfl
    refine ⟨n + 1, n + 2, ?_⟩
    simp [fused]
  · rintro q k answer ⟨calls, calls', h⟩
    cases h
    rfl

theorem copying_fused (n : Nat) : (fused n).Copying (· == ·) id id := by
  refine ⟨?_, ?_, fun _ => beq_self_eq_true _⟩
  all_goals
    rintro x x' ⟨calls, calls', h⟩
    cases h
    rfl

theorem lawful_unfused : unfused.Lawful (fun _ => 5) (· == ·) := lawful_ofFunctions equality_beq fun _ _ _ => rfl

end User

section Survival

variable {group : GroupBackend} {u : User W K V} {u' : User W' K V}

/-- In every run whose hasher lasts for the refreshes of the filter it comes to, whatever else panics, code that no
longer panics finds the entries that are stored. -/
theorem entries_survive_panics (hl : u.Lawful hash eqv) (hcopy : u.Copying eqv copyKey copyValue) (hcalm : u'.Calm)
    (hl' : u'.Lawful hash eqv) :
    (∀ t : Funnel.FunnelTable K V, Reachable (Funnel.backend group u) u (Funnel.Initial group u)
        (fun e => e.2.1.Fitting hash eqv e.1.1.storage.entries ∧
          e.2.1.Steadfast (b := Funnel.backend group u) (Funnel.reading group) u e.1.1 e.1.2.code) t →
      ∀ slot e, t.storage.Holds slot e → Findable (Funnel.backend group u') u' (Funnel.reading group) eqv t e) ∧
    ∀ t : Elastic.ElasticTable K V, Reachable (Elastic.backend group u) u (Elastic.Initial group u)
        (fun e => e.2.1.Fitting hash eqv e.1.1.entries ∧
          e.2.1.Steadfast (b := Elastic.backend group u) (Elastic.reading group) u e.1.1 e.1.2.code) t →
      ∀ loc e, t.Holds loc e → Findable (Elastic.backend group u') u' (Elastic.reading group) eqv t e := by
  constructor
  · rintro t ⟨t₀, w₀, w, h₀, hruns⟩ slot e he
    have hs := hruns.stores (Funnel.contract group u) hl hcopy (fun _ => id) h₀.fresh.stores
    exact findable_of_stores (b := Funnel.backend group u') (Funnel.contract group u') hcalm hl'
      ⟨hs.wf, hs.sound.transfer hl hl', hs.distinct⟩ (((Funnel.contract group u).mem_entries hs.wf).mpr ⟨slot, he⟩)
  · rintro t ⟨t₀, w₀, w, h₀, hruns⟩ loc e he
    have hs := hruns.stores (Elastic.contract group u) hl hcopy (fun _ => id) h₀.fresh.stores
    exact findable_of_stores (b := Elastic.backend group u') (Elastic.contract group u') hcalm hl'
      ⟨hs.wf, hs.sound.transfer hl hl', hs.distinct⟩ (((Elastic.contract group u).mem_entries hs.wf).mpr ⟨loc, he⟩)

/-- The entry of one insertion is found after a closure that panics and an insertion whose hash call does. -/
theorem entries_survive_panics_insert : ∃ (t : Funnel.FunnelTable UInt64 Nat) (slot : Nat),
    t.storage.Holds slot (7, 70) ∧
      Findable (Funnel.backend .scalar User.unfused) User.unfused (Funnel.reading .scalar) (· == ·) t (7, 70) := by
  let start : World Nat UInt64 Nat := ⟨0, ⟨[], [], []⟩⟩
  have h₀ : Funnel.Initial .scalar (User.fused 2) Funnel.FunnelTable.unallocated :=
    ⟨0, ⟨3, by decide, by decide⟩, start, start, rfl⟩
  let ops : List (Op UInt64 Nat) := [.insert 7 70, .getOrInsertWith 8 80 none, .insert 9 90]
  let allow : Event (Funnel.backend .scalar (User.fused 2)) → Prop := fun e =>
    e.2.1.Fitting (fun _ => 5) (· == ·) e.1.1.storage.entries ∧
    e.2.1.Steadfast (b := Funnel.backend .scalar (User.fused 2)) (Funnel.reading .scalar) (User.fused 2) e.1.1 e.1.2.code
  have hallow : ∀ op ∈ ops, ∀ s r, allow (s, op, r) := by
    intro op hop s r
    simp only [ops, List.mem_cons, List.not_mem_nil, or_false] at hop
    rcases hop with rfl | rfl | rfl <;> exact ⟨trivial, trivial⟩
  obtain ⟨t, w, ht, hentries⟩ := Reachable.replayed (b := Funnel.backend .scalar (User.fused 2)) (u := User.fused 2)
    h₀ start hallow (fun s => s.1.storage.entries == [(7, 70)]) (by decide +kernel)
  have hmem : (7, 70) ∈ t.storage.entries := by
    rw [eq_of_beq hentries]
    exact List.mem_singleton.mpr rfl
  obtain ⟨slot, hslot⟩ := Region.mem_entries.mp hmem
  exact ⟨t, slot, hslot, (entries_survive_panics (User.lawful_fused 2) (User.copying_fused 2) User.calm_ofFunctions
    User.lawful_unfused).1 t ht slot _ hslot⟩

end Survival

namespace Elastic

open ElasticTable

def refreshing : List (Op UInt64 Nat) :=
  [.insert 1 10, .insert 2 20, .remove 1, .insert 1 10, .remove 1, .insert 1 10, .remove 1, .insert 1 10, .remove 1,
    .insert 1 10, .remove 1]

def missed (s : ElasticTable UInt64 Nat × World Nat UInt64 Nat) : Bool :=
  s.1.entries == [(2, 20)] &&
    match (step (Elastic.backend .scalar User.unfused) User.unfused (.containsKey 2) (s.1, World.start)).1 with
    | .ok (.found present) => !present
    | _ => false

/-- A hasher that panics in the refresh leaves an entry that no lookup finds. -/
theorem interrupted_refresh_loses : (User.fused 11).Lawful (fun _ => 5) (· == ·) ∧ User.unfused.Calm ∧
    ∃ (t : ElasticTable UInt64 Nat) (loc : Nat × Nat),
      Reachable (Elastic.backend .scalar (User.fused 11)) (User.fused 11) (Initial .scalar (User.fused 11))
        (fun e => e.2.1.Plain (· == ·)) t ∧
      t.Holds loc (2, 20) ∧
      ¬Findable (Elastic.backend .scalar User.unfused) User.unfused (Elastic.reading .scalar) (· == ·) t (2, 20) := by
  refine ⟨User.lawful_fused 11, User.calm_ofFunctions, ?_⟩
  let start : World Nat UInt64 Nat := ⟨0, ⟨[], [], []⟩⟩
  have h₀ : Initial .scalar (User.fused 11) ElasticTable.unallocated :=
    ⟨0, ⟨1, by decide, by decide⟩, start, start, rfl⟩
  have hplain : ∀ op ∈ refreshing, ∀ (s : ElasticTable UInt64 Nat × World Nat UInt64 Nat)
      (r : Except Panic (Ret UInt64 Nat)), op.Plain (· == ·) := by
    intro op hop s r
    simp only [refreshing, List.mem_cons, List.not_mem_nil, or_false] at hop
    rcases hop with rfl | rfl | rfl | rfl | rfl | rfl | rfl | rfl | rfl | rfl | rfl <;> exact ⟨trivial, nofun, nofun⟩
  obtain ⟨t, w, ht, hmissed⟩ := Reachable.replayed (b := Elastic.backend .scalar (User.fused 11)) (u := User.fused 11)
    (A := fun e => e.2.1.Plain (· == ·)) h₀ start hplain missed (by decide +kernel)
  obtain ⟨hentries, hmissed⟩ := Bool.and_eq_true_iff.mp hmissed
  have hw := ht.wf (contract .scalar (User.fused 11)) fun t ht => ht.fresh.wf
  have hmem : (2, 20) ∈ t.entries := by
    rw [eq_of_beq hentries]
    exact List.mem_singleton.mpr rfl
  obtain ⟨loc, hloc⟩ := ((contract .scalar (User.fused 11)).mem_entries hw).mp hmem
  refine ⟨t, loc, ht, hloc, fun hfindable => ?_⟩
  have hfound := hfindable.containsKey World.start
  rcases hstep : step (Elastic.backend .scalar User.unfused) User.unfused (.containsKey 2) (t, World.start)
    with ⟨p | r, s'⟩
  · exact (wp_of_error hstep).mp hfound
  · obtain ⟨rfl, -⟩ := (wp_of_ok hstep).mp hfound
    rw [hstep] at hmissed
    cases hmissed

end Elastic

end Opthash
