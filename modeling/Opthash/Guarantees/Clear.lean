import Opthash.Guarantees.Rebuild

namespace Opthash

open Exec FiniteMap HashMap Ledger

variable {W W' K V : Type} {hash : K → UInt64} {eqv : K → K → Bool} {copyKey : K → K} {copyValue : V → V}

namespace HashMap

/-- A call of a run in which no panic has done harm: the hasher lasts for the refreshes of the filter, and no
destructor interrupts a drain. -/
structure Harmless {b : TableBackend W K V} (R : Reading b.Table b.Location b.Vacant b.Scan K V) (u : User W K V)
    (eqv : K → K → Bool) (e : Event b) : Prop where
  plain : e.2.1.Plain eqv
  steadfast : e.2.1.Steadfast R u e.1.1 e.1.2.code
  quiet : e.2.1.Quiet u (R.entries e.1.1) e.1.2.code

theorem Runs.represents {b : TableBackend W K V} {R : Reading b.Table b.Location b.Vacant b.Scan K V} {u : User W K V}
    (hc : Contract R u) (hl : u.Lawful hash eqv) (hcopy : u.Copying eqv copyKey copyValue)
    {s s' : b.Table × World W K V} (h : Runs b u (Harmless R u eqv) s s') (hs : Represents R u eqv s.1) :
    Represents R u eqv s'.1 := by
  refine ⟨h.stores hc hl hcopy (fun e he => ⟨he.plain.fitting hl _, he.steadfast⟩) hs.toStores, ?_⟩
  exact (h.counted hc (fun e he => ⟨he.plain.undrained _, he.quiet⟩) hs.wf hs.counted).2

/-- What was left of the map `t` when its `clear` unwound: the entries that were not taken out make a map of their
own, and every later call sees that map. Where slots are `sized` as before, the calls return while memory lasts. -/
structure Remnant (b : TableBackend W K V) (u : User W K V) (R : Reading b.Table b.Location b.Vacant b.Scan K V)
    (room : Room b) (sized : Prop) (eqv : K → K → Bool) (copyKey : K → K) (copyValue : V → V) (t t' : b.Table)
    (taken : List (K × V)) : Prop where
  entries : (R.entries t).Perm (taken ++ R.entries t')
  len : b.len t' = (R.entries t').length
  found : ∀ e ∈ R.entries t', Findable b u R eqv t' e
  iterated : Distinct eqv (R.entries t') ∧ ∀ w, wp (step b u .iter)
    (fun r s => r = .entries (R.entries t') ∧ s.1 = t') (fun _ _ => False) (t', w)
  gone : ∀ e ∈ taken, ∀ w, wp (step b u (.containsKey e.1)) (fun r s => r = .found false ∧ s.1 = t')
    (fun _ _ => False) (t', w)
  later : ∀ (ops : List (Op K V)) (w : World W K V), (∀ op ∈ ops, op.Plain eqv) → wp (script b u ops)
    (fun rs s => MapRuns eqv copyKey copyValue (R.entries t') ops rs (R.entries s.1))
    (fun p _ => p.Exhausted ∧ (sized → ¬MemoryLasts u R room eqv ops (t', w))) (t', w)

theorem remnant_of_represents {b : TableBackend W K V} {R : Reading b.Table b.Location b.Vacant b.Scan K V}
    {u : User W K V} {room : Room b} {I : b.Table → Prop} {sized : Prop} (hc : Contract R u) (hf : Funded R u room I)
    (hcalm : u.Calm) (hl : u.Lawful hash eqv) (hcopy : u.Copying eqv copyKey copyValue) {t t' : b.Table}
    {taken : List (K × V)} (hd : Distinct eqv (R.entries t)) (hperm : (R.entries t).Perm (taken ++ R.entries t'))
    (hr : Represents R u eqv t') (hi : sized → I t') : Remnant b u R room sized eqv copyKey copyValue t t' taken where
  entries := hperm
  len := (hc.len_eq t').trans (hc.len hr.counted)
  found := fun e he => findable_of_stores hc hcalm hl hr.toStores he
  iterated := by
    refine ⟨hr.distinct, fun w => ?_⟩
    rw [step, wp_map]
    refine wp_mono (wp_iter hc hr.wf) ?_ (fun _ _ => id)
    rintro _ s ⟨rfl, rfl⟩
    exact ⟨rfl, rfl⟩
  gone := by
    intro e he w
    have hnone : find eqv e.1 (R.entries t') = none :=
      find_eq_none.mpr fun e' he' => (hd.perm hl.equality hperm.symm).apart he he'
    have hcontains := wp_containsKey_find hc hcalm hl hr.toStores e.1 w
    rwa [hnone] at hcontains
  later := by
    intro ops w hplain
    exact wp_mono (wp_script hc hf hcalm hl hcopy hplain hr (.refl _)) (fun rs s h => h.2) fun _ _ h =>
      ⟨h.1, fun hsized => h.2 (hi hsized)⟩

theorem wp_clear_represents {b : TableBackend W K V} {R : Reading b.Table b.Location b.Vacant b.Scan K V} {u : User W K V}
    (hc : Contract R u) (hl : u.Lawful hash eqv) {t : b.Table} (hr : Represents R u eqv t) (w : World W K V) :
    wp b.clear (fun _ _ => True) (fun p s => p ≠ .abort → Represents R u eqv s.1 ∧
      ∃ taken, (R.entries t).Perm (taken ++ R.entries s.1)) (t, w) := by
  refine wp_mono (hc.clear hr.wf (fun _ => 0) w) (fun _ _ _ => trivial) ?_
  rintro p s ⟨-, hrest⟩ hne
  obtain ⟨hkeeps, -, taken, hperm, -⟩ := hrest hne
  refine ⟨⟨⟨hkeeps.wf, hkeeps.sound hr.sound, ?_⟩, hkeeps.counted hr.counted⟩, taken, hperm⟩
  have hsub := (List.sublist_append_right taken (R.entries s.1)).map Prod.fst
  exact hr.distinct.of_subperm hl.equality (hsub.subperm.trans (hperm.map Prod.fst).symm.subperm)

end HashMap

section Clear

variable {group : GroupBackend} {u : User W K V} {u' : User W' K V}

/-- Whatever panicked before without harm, and whatever destructors panic in the clear, later code that no longer
panics finds a finite map of the entries that were not taken out. -/
theorem interrupted_clear_leaves_map (hl : u.Lawful hash eqv) (hcopy : u.Copying eqv copyKey copyValue)
    (hcalm : u'.Calm) (hl' : u'.Lawful hash eqv) (hcopy' : u'.Copying eqv copyKey copyValue) :
    (∀ t : Funnel.FunnelTable K V, Reachable (Funnel.backend group u) u (Funnel.Initial group u)
        (Harmless (b := Funnel.backend group u) (Funnel.reading group) u eqv) t →
      ∀ w p s, Funnel.FunnelTable.clear group u (t, w) = (.error p, s) → p ≠ .abort → ∃ taken,
        Remnant (Funnel.backend group u') u' (Funnel.reading group) (Funnel.room group u') (u.SameSlots u') eqv copyKey
          copyValue t s.1 taken) ∧
    ∀ t : Elastic.ElasticTable K V, Reachable (Elastic.backend group u) u (Elastic.Initial group u)
        (Harmless (b := Elastic.backend group u) (Elastic.reading group) u eqv) t →
      ∀ w p s, Elastic.ElasticTable.clear group u (t, w) = (.error p, s) → p ≠ .abort → ∃ taken,
        Remnant (Elastic.backend group u') u' (Elastic.reading group) (Elastic.room group u') (u.SameSlots u') eqv copyKey
          copyValue t s.1 taken := by
  constructor
  · rintro t ⟨t₀, w₀, w₁, h₀, hruns⟩ w p s hclear hne
    have hr := hruns.represents (Funnel.contract group u) hl hcopy h₀.fresh.represents
    have hwp := wp_clear_represents (b := Funnel.backend group u) (Funnel.contract group u) hl hr w
    obtain ⟨hr', taken, hperm⟩ := (wp_of_error hclear).mp hwp hne
    have hs := (hruns.maintains (Funnel.contract group u) (Funnel.FunnelTable.maintains group u t₀.reserveFraction)
      h₀.fresh.wf h₀.snug).2
    have hs' := ((wp_of_error hclear).mp (Funnel.FunnelTable.within_clear Panic.tolerates_any (t, w) hs)).2
    exact ⟨taken, remnant_of_represents (b := Funnel.backend group u') (Funnel.contract group u')
      (Funnel.FunnelTable.funded group u' t₀.reserveFraction) hcalm hl' hcopy' hr.distinct hperm
      ⟨⟨hr'.wf, hr'.sound.transfer hl hl', hr'.distinct⟩, hr'.counted⟩ hs'.transfer⟩
  · rintro t ⟨t₀, w₀, w₁, h₀, hruns⟩ w p s hclear hne
    have hr := hruns.represents (Elastic.contract group u) hl hcopy h₀.fresh.represents
    have hwp := wp_clear_represents (b := Elastic.backend group u) (Elastic.contract group u) hl hr w
    obtain ⟨hr', taken, hperm⟩ := (wp_of_error hclear).mp hwp hne
    have hs := (hruns.maintains (Elastic.contract group u) (Elastic.ElasticTable.maintains group u) h₀.fresh.wf h₀.snug).2
    have hs' := ((wp_of_error hclear).mp (Elastic.ElasticTable.within_clear Panic.tolerates_any (t, w) hs)).2
    exact ⟨taken, remnant_of_represents (b := Elastic.backend group u') (Elastic.contract group u')
      (Elastic.ElasticTable.funded group u') hcalm hl' hcopy' hr.distinct hperm
      ⟨⟨hr'.wf, hr'.sound.transfer hl hl', hr'.distinct⟩, hr'.counted⟩ hs'.transfer⟩

/-- A clear of two entries whose first destructor panics. -/
theorem interrupted_clear_leaves_map_two : ∃ (t : Elastic.ElasticTable UInt64 Nat)
    (s : Elastic.ElasticTable UInt64 Nat × World Unit UInt64 Nat) (taken : List (UInt64 × Nat)),
    Elastic.ElasticTable.clear .scalar User.bursting (t, World.start) = (.error .user, s) ∧ t.len = 2 ∧ s.1.len = 1 ∧
      Remnant (Elastic.backend .scalar User.sample) User.sample (Elastic.reading .scalar) (Elastic.room .scalar User.sample)
        (User.bursting.SameSlots User.sample) (· == ·) id id t s.1 taken := by
  have h₀ : Elastic.Initial .scalar User.bursting Elastic.ElasticTable.unallocated :=
    ⟨0, ⟨1, by decide, by decide⟩, World.start, World.start, rfl⟩
  have hl : User.bursting.Lawful id (· == ·) :=
    ⟨User.equality_beq, User.lawful_sample.hashes, User.lawful_sample.answers, User.lawful_sample.congr⟩
  have hcopy : User.bursting.Copying (· == ·) id id :=
    ⟨User.copying_sample.keys, User.copying_sample.values, User.copying_sample.same⟩
  let ops : List (Op UInt64 Nat) := [.insert 7 70, .insert 9 90]
  let allow : Event (Elastic.backend .scalar User.bursting) → Prop := Harmless (Elastic.reading .scalar) User.bursting (· == ·)
  have hallow : ∀ op ∈ ops, ∀ s r, allow (s, op, r) := by
    intro op hop s r
    simp only [ops, List.mem_cons, List.not_mem_nil, or_false] at hop
    rcases hop with rfl | rfl <;> exact ⟨⟨trivial, nofun, nofun⟩, trivial, trivial⟩
  obtain ⟨t, w, ht, hcheck⟩ := Reachable.replayed (b := Elastic.backend .scalar User.bursting) (u := User.bursting)
    h₀ World.start hallow (fun s => s.1.len == 2 &&
      match Elastic.ElasticTable.clear .scalar User.bursting (s.1, World.start) with
      | (.error p, s') => p == .user && s'.1.len == 1
      | (.ok _, _) => false) (by decide +kernel)
  obtain ⟨hlen, hcheck⟩ := Bool.and_eq_true_iff.mp hcheck
  rcases hclear : Elastic.ElasticTable.clear .scalar User.bursting (t, World.start) with ⟨p | r, s⟩
  · rw [hclear] at hcheck
    obtain ⟨hp, hlen'⟩ := Bool.and_eq_true_iff.mp hcheck
    obtain rfl : p = .user := eq_of_beq hp
    obtain ⟨taken, hremnant⟩ := (interrupted_clear_leaves_map hl hcopy User.calm_sample User.lawful_sample
      User.copying_sample).2 t ht World.start .user s hclear nofun
    exact ⟨t, s, taken, hclear, eq_of_beq hlen, eq_of_beq hlen', hremnant⟩
  · rw [hclear] at hcheck
    cases hcheck

end Clear

end Opthash
