import Opthash.Guarantees.Borrows
import Opthash.Guarantees.Growth
import Opthash.Shell.Equal

namespace Opthash

open Exec FiniteMap HashMap

variable {W K V : Type} {u u' : User W K V} {hash hash' : K → UInt64} {eqv : K → K → Bool}
  {copyKey copyKey' : K → K} {copyValue copyValue' : V → V}

structure Equates (b b' : TableBackend W K V) (R : Reading b.Table b.Location b.Vacant b.Scan K V)
    (R' : Reading b'.Table b'.Location b'.Vacant b'.Scan K V) (u u' : User W K V) (eqv : K → K → Bool)
    (copyValue : V → V) (t : b.Table) (t' : b'.Table) : Prop where
  eq : ∀ eqValue same, Compares eqValue same → ∀ w, wp (HashMap.eq b b' u' eqValue)
    (fun r s => (r = true ↔ Alike eqv same (R.entries t) (R'.entries t')) ∧ s.1 = t ∧ s.2.1 = t')
    (EqPanic u' eqValue t t') (t, t', w)
  clone : ∀ same, (∀ v, same v (copyValue v) = true) → ∀ w, wp (b.cloneTable t)
    (fun t₁ _ => Represents R u eqv t₁ ∧ Alike eqv same (R.entries t) (R.entries t₁))
    (fun p _ => p.Exhausted ∧ ¬u.Granting) w
  index : ∀ key w, wp (HashMap.index b u key)
    (fun v s => (find eqv key (R.entries t)).map Prod.snd = some v ∧ s.1 = t)
    (fun p s => p = .internal "no entry found for key" ∧ find eqv key (R.entries t) = none ∧ s.1 = t) (t, w)

theorem equates_of_represents {b b' : TableBackend W K V} {R : Reading b.Table b.Location b.Vacant b.Scan K V}
    {R' : Reading b'.Table b'.Location b'.Vacant b'.Scan K V} {t : b.Table} {t' : b'.Table} {room : Room b}
    {I : b.Table → Prop} (hc : Contract R u) (hc' : Contract R' u') (hf : Funded R u room I) (hcalm : u.Calm)
    (hl : u.Lawful hash eqv) (hl' : u'.Lawful hash' eqv) (hcopy : u.Copying eqv copyKey copyValue)
    (hr : Represents R u eqv t) (hi : I t) (hr' : Represents R' u' eqv t') :
    Equates b b' R R' u u' eqv copyValue t t' where
  eq := fun eqValue same hsame w => wp_eq hc hc' hl' hr hr' hsame
  clone := by
    intro same hvalue w
    have hclone := hc.cloneTable hr.wf (fun _ => 0) w
    have hgranted : wp (b.cloneTable t) (fun _ _ => True) (fun p _ => u.Granting → p.Solvent) w := by
      by_cases hgrant : u.Granting
      · have hsolvent := (hf.solvent (hcalm.obliging hgrant)).cloneTable hr.wf hi w
        exact wp_mono hsolvent (fun _ _ _ => trivial) fun _ _ h _ => h
      · exact wp_mono hclone (fun _ _ _ => trivial) fun _ _ _ h => absurd h hgrant
    apply wp_mono (wp_and hclone hgranted)
    · rintro t₁ w₁ ⟨⟨hw, hcapacity, hcounted, hsettled, hsound, hclones, -⟩, -⟩
      have hcloned : Cloned R u t t₁ := ⟨hw, hcapacity, hcounted, hsettled, hsound, hclones⟩
      have hdistinct := hcloned.distinct hl hcopy hr.distinct
      refine ⟨⟨⟨hw, hsound hr.sound (hl.clonesHash hcopy), hdistinct⟩, hcounted hr.counted⟩, ?_⟩
      rw [hcopy.copied hclones]
      exact alike_copy hl.equality hcopy.same hvalue
    · rintro p w₁ ⟨⟨hp, -⟩, hsolvent⟩
      cases hp with
      | user h => exact absurd hcalm h
      | abort h => exact absurd hcalm h
      | exhausted h => exact ⟨h, fun hgrant => (hsolvent hgrant).not_exhausted h⟩
  index := by
    intro key w
    rw [HashMap.index, wp_bind]
    apply wp_mono (wp_getValue hc hr.wf key)
    · rintro (_ | v) s ⟨ht, -, hfound, hmiss⟩
      · exact ⟨rfl, (hmiss rfl).find hc hl hr.toStores, ht⟩
      · obtain ⟨e, hmatched, rfl⟩ := hfound v rfl
        rw [hmatched.find hl hr.toStores]
        exact ⟨rfl, ht⟩
    · exact fun p s hp => absurd hcalm hp.1.2

theorem equality_decided (group : GroupBackend) (hcalm : u.Calm) (hcalm' : u'.Calm) (hl : u.Lawful hash eqv)
    (hl' : u'.Lawful hash' eqv) (hcopy : u.Copying eqv copyKey copyValue)
    (hcopy' : u'.Copying eqv copyKey' copyValue') :
    (∀ t t', Reachable (Funnel.backend group u) u (Funnel.Initial group u) (fun e => e.2.1.Plain eqv) t →
      Reachable (Funnel.backend group u') u' (Funnel.Initial group u') (fun e => e.2.1.Plain eqv) t' →
      Equates (Funnel.backend group u) (Funnel.backend group u') (Funnel.reading group) (Funnel.reading group) u u' eqv
        copyValue t t') ∧
    ∀ t t', Reachable (Elastic.backend group u) u (Elastic.Initial group u) (fun e => e.2.1.Plain eqv) t →
      Reachable (Elastic.backend group u') u' (Elastic.Initial group u') (fun e => e.2.1.Plain eqv) t' →
      Equates (Elastic.backend group u) (Elastic.backend group u') (Elastic.reading group) (Elastic.reading group) u u'
        eqv copyValue t t' := by
  constructor
  · rintro t t' ⟨t₀, w₀, w, h₀, hruns⟩ ⟨t₀', w₀', w', h₀', hruns'⟩
    have hc := Funnel.contract group u
    have hc' := Funnel.contract group u'
    have hi := (hruns.maintains hc (Funnel.FunnelTable.maintains group u t₀.reserveFraction) h₀.fresh.wf h₀.snug).2
    exact equates_of_represents hc hc' (Funnel.FunnelTable.funded group u t₀.reserveFraction) hcalm hl hl' hcopy
      (hruns.represents_of_calm hc hcalm hl hcopy h₀.fresh.represents) hi
      (hruns'.represents_of_calm hc' hcalm' hl' hcopy' h₀'.fresh.represents)
  · rintro t t' ⟨t₀, w₀, w, h₀, hruns⟩ ⟨t₀', w₀', w', h₀', hruns'⟩
    have hc := Elastic.contract group u
    have hc' := Elastic.contract group u'
    have hi := (hruns.maintains hc (Elastic.ElasticTable.maintains group u) h₀.fresh.wf h₀.snug).2
    exact equates_of_represents hc hc' (Elastic.ElasticTable.funded group u) hcalm hl hl' hcopy
      (hruns.represents_of_calm hc hcalm hl hcopy h₀.fresh.represents) hi
      (hruns'.represents_of_calm hc' hcalm' hl' hcopy' h₀'.fresh.represents)

section Built

def Built.backend : TableBackend Unit UInt64 Nat := Funnel.backend .scalar User.sample

def Built.leaves (ops : List (Op UInt64 Nat)) (entries : List (UInt64 × Nat)) : Bool :=
  (replay Built.backend User.sample ops (Funnel.FunnelTable.unallocated, World.start)).any
    fun s => s.1.storage.entries == entries

theorem Built.exists_of_leaves (ops : List (Op UInt64 Nat)) (hplain : ∀ op ∈ ops, op.Plain (· == ·))
    (entries : List (UInt64 × Nat)) (h : leaves ops entries = true) :
    ∃ t : backend.Table, Reachable backend User.sample (Funnel.Initial .scalar User.sample)
      (fun e => e.2.1.Plain (· == ·)) t ∧ (Funnel.reading .scalar).entries t = entries := by
  obtain ⟨t, w, ht, hentries⟩ := Reachable.replayed (b := backend) (u := User.sample) (A := fun e => e.2.1.Plain (· == ·))
    Funnel.initial_unallocated World.start (fun op hop _ _ => hplain op hop) (fun s => s.1.storage.entries == entries) h
  exact ⟨t, ht, eq_of_beq hentries⟩

/-- Maps that were built differently are equal when their values are. -/
theorem equality_decided_three : ∃ t t' t'' : Built.backend.Table,
    (Funnel.reading .scalar).entries t = [(7, 70), (9, 90)] ∧ (Funnel.reading .scalar).entries t' = [(9, 90), (7, 70)] ∧
    (∀ w, wp (HashMap.eq Built.backend Built.backend User.sample fun v v' => pure (v == v')) (fun r _ => r = true)
      (fun _ _ => False) (t, t', w)) ∧
    ∀ w, wp (HashMap.eq Built.backend Built.backend User.sample fun v v' => pure (v == v')) (fun r _ => r = false)
      (fun _ _ => False) (t, t'', w) := by
  have hplain : ∀ {ops : List (Op UInt64 Nat)}, (∀ op ∈ ops, (∃ k v, op = .insert k v) ∨ ∃ k, op = .removeEntry k) →
      ∀ op ∈ ops, op.Plain (· == ·) := by
    intro ops hops op hop
    rcases hops op hop with ⟨k, v, rfl⟩ | ⟨k, rfl⟩ <;> exact ⟨trivial, id, fun _ _ _ h => by cases h⟩
  obtain ⟨t, ht, hentries⟩ := Built.exists_of_leaves [.insert 7 70, .insert 9 90] (hplain (by simp))
    [(7, 70), (9, 90)] (by decide +kernel)
  obtain ⟨t', ht', hentries'⟩ := Built.exists_of_leaves
    [.insert 9 91, .insert 11 0, .insert 7 70, .insert 9 90, .removeEntry 11] (hplain (by simp))
    [(9, 90), (7, 70)] (by decide +kernel)
  obtain ⟨t'', ht'', hentries''⟩ := Built.exists_of_leaves [.insert 7 70, .insert 9 91] (hplain (by simp))
    [(7, 70), (9, 91)] (by decide +kernel)
  have halike : ∀ {t₁ t₂ : Built.backend.Table} {answer : Bool} (w : World Unit UInt64 Nat),
      Equates Built.backend Built.backend (Funnel.reading .scalar) (Funnel.reading .scalar) User.sample User.sample
        (· == ·) id t₁ t₂ →
      (answer = true ↔ Alike (· == ·) (· == ·) ((Funnel.reading .scalar).entries t₁) ((Funnel.reading .scalar).entries t₂)) →
      wp (HashMap.eq Built.backend Built.backend User.sample fun v v' => pure (v == v')) (fun r _ => r = answer)
        (fun _ _ => False) (t₁, t₂, w) := by
    intro t₁ t₂ answer w hequates hanswer
    apply wp_mono (hequates.eq _ (· == ·) _ w)
    · exact fun r s hr => Bool.eq_iff_iff.mpr (hr.1.trans hanswer.symm)
    · exact fun p s hp => hp.2.1 ⟨User.calm_sample, fun _ _ _ => trivial⟩
    · rintro v v' answer ⟨s, s', hrun⟩
      cases hrun
      rfl
  have hequates := (equality_decided .scalar User.calm_sample User.calm_sample User.lawful_sample User.lawful_sample
    User.copying_sample User.copying_sample).1
  have hdistinct : ∀ {v v' : Nat}, Distinct (fun k k' : UInt64 => k == k') [(7, v), (9, v')] := by simp [Distinct]
  have hdistinct' : Distinct (fun k k' : UInt64 => k == k') [(9, 90), (7, 70)] := by simp [Distinct]
  refine ⟨t, t', t'', hentries, hentries', fun w => halike w (hequates t t' ht ht') ?_,
    fun w => halike w (hequates t t'' ht ht'') ?_⟩
  · rw [hentries, hentries', alike_iff User.equality_beq hdistinct hdistinct']
    simp [Matches, find]
  · rw [hentries, hentries'', alike_iff User.equality_beq hdistinct hdistinct]
    simp [Matches, find]

end Built

end Opthash
