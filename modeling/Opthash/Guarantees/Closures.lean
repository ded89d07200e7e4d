import Opthash.Guarantees.Filter
import Opthash.Guarantees.Panics
import Opthash.Set

namespace Opthash

open Exec FiniteMap HashMap

variable {W W' T : Type} {hash : T → UInt64} {eqv : T → T → Bool}

namespace HashSet

variable {b : TableBackend W T Unit} {R : Reading b.Table b.Location b.Vacant b.Scan T Unit} {u : User W T Unit}
  {t : b.Table} {w : World W T Unit} {query : T} {make : Option T} {e : T × Unit}

/-- No two stored elements are equal, and `contains` finds and `remove` removes each of them. -/
structure WellFormed (b : TableBackend W T Unit) (u : User W T Unit)
    (R : Reading b.Table b.Location b.Vacant b.Scan T Unit) (eqv : T → T → Bool) (t : b.Table) : Prop where
  distinct : Distinct eqv (R.entries t)
  contains : ∀ e ∈ R.entries t, ∀ w, wp (contains b u e.1) (fun found s => found = true ∧ s.1 = t) (fun _ _ => False) (t, w)
  remove : ∀ e ∈ R.entries t, ∀ w, wp (remove b u e.1)
    (fun removed s => removed = true ∧ (R.entries t).Perm (e :: R.entries s.1))
    (fun p s => p.Exhausted ∧ (R.entries t).Perm (e :: R.entries s.1)) (t, w)

theorem wp_contains_stored (hc : Contract R u) (hcalm : u.Calm) (hl : u.Lawful hash eqv) (hs : Stores R u eqv t)
    (he : e ∈ R.entries t) :
    wp (contains b u e.1) (fun found s => found = true ∧ s.1 = t) (fun _ _ => False) (t, w) := by
  have hfind := find_eq_some hl.equality hs.distinct he (hl.equality.refl e.1)
  refine wp_mono (wp_containsKey hc hs.wf e.1) ?_ (fun _ _ h => h.1.2 hcalm)
  rintro (_ | _) s ⟨ht, -, -, hmiss⟩
  · have := (hmiss rfl).find hc hl hs
    rw [hfind] at this
    cases this
  · exact ⟨rfl, ht⟩

theorem exhausted_of_blamed (hcalm : u.Calm) {p : Panic} (h : p.Blamed (¬u.Calm)) : p.Exhausted := by
  cases h with
  | user h => exact absurd hcalm h
  | abort h => exact absurd hcalm h
  | exhausted h => exact h

theorem wp_removeEntry_stored (hc : Contract R u) (hcalm : u.Calm) (hl : u.Lawful hash eqv) (hs : Stores R u eqv t)
    (he : e ∈ R.entries t) :
    wp (removeEntry b u e.1) (fun removed s => removed = some e ∧ (R.entries t).Perm (e :: R.entries s.1))
      (fun p s => p.Exhausted ∧ (R.entries t).Perm (e :: R.entries s.1)) (t, w) := by
  have hfind := find_eq_some hl.equality hs.distinct he (hl.equality.refl e.1)
  rw [removeEntry, wp_bind]
  refine wp_mono (wp_findLocation_any hc hs.wf e.1) ?_ (fun _ _ h => absurd hcalm h.1.2)
  rintro (_ | loc) ⟨t', w'⟩ ⟨ht, -, hlocated⟩
  · have := Absent.find hc hl hs hlocated
    rw [hfind] at this
    cases this
  · obtain rfl : t' = t := ht
    obtain ⟨e', he', hans⟩ := hlocated
    have hsame := (matched_of_holds hc hs.wf he' hans).find hl hs
    rw [hfind] at hsame
    cases hsame
    dsimp only
    rw [wp_map]
    refine wp_mono (hc.remove hs.wf he' (fun _ => 0) w') ?_ ?_
    · rintro e' s ⟨rfl, -, hperm, -⟩
      exact ⟨rfl, hperm⟩
    · rintro p s ⟨hp, hrest⟩
      have hexhausted := exhausted_of_blamed hcalm hp
      exact ⟨hexhausted, (hrest hexhausted.ne_abort).1⟩

theorem wp_remove_stored (hc : Contract R u) (hcalm : u.Calm) (hl : u.Lawful hash eqv) (hs : Stores R u eqv t)
    (he : e ∈ R.entries t) :
    wp (remove b u e.1) (fun removed s => removed = true ∧ (R.entries t).Perm (e :: R.entries s.1))
      (fun p s => p.Exhausted ∧ (R.entries t).Perm (e :: R.entries s.1)) (t, w) := by
  rw [remove, wp_bind, HashMap.remove, wp_bind]
  refine wp_mono (wp_removeEntry_stored hc hcalm hl hs he) ?_ (fun _ _ => id)
  rintro removed ⟨t', w'⟩ ⟨rfl, hperm⟩
  dsimp only at hperm ⊢
  rw [wp_bind, wp_onSnd]
  refine wp_mono (User.wp_dropBoth (User.wp_dropK (κ := fun _ => 0) e.1) (User.wp_dropV e.2) w') ?_ ?_
  · exact fun _ _ _ => ⟨rfl, hperm⟩
  · exact fun _ _ h => absurd hcalm h.1.2

variable {W' : Type} {b' : TableBackend W' T Unit} {u' : User W' T Unit}

theorem wellFormed_of_stores {R : Reading b'.Table b'.Location b'.Vacant b'.Scan T Unit} {t : b'.Table}
    (hc : Contract R u') (hcalm : u'.Calm) (hl : u'.Lawful hash eqv) (hs : Stores R u' eqv t) :
    WellFormed b' u' R eqv t :=
  ⟨hs.distinct, fun _ he _ => wp_contains_stored hc hcalm hl hs he, fun _ he _ => wp_remove_stored hc hcalm hl hs he⟩

theorem wp_getOrInsertWith_stores {copyKey : T → T} {copyValue : Unit → Unit} (hc : Contract R u)
    (hl : u.Lawful hash eqv) (hcopy : u.Copying eqv copyKey copyValue) (hs : Stores R u eqv t)
    (hfitting : (Op.getOrInsertWith query () make).Fitting hash eqv (R.entries t)) :
    wp (getOrInsertWith b u query make) (fun _ s => Stores R u eqv s.1 ∧ ∀ e ∈ R.entries t, e ∈ R.entries s.1)
      (fun p s => p ≠ .abort → Stores R u eqv s.1 ∧ ∀ e ∈ R.entries t, e ∈ R.entries s.1) (t, w) := by
  have hstores := wp_step_stores (w := w) hc hl hcopy hs hfitting
  rw [step, wp_map] at hstores
  refine wp_mono (wp_and hstores (HashMap.wp_getOrInsertWith (κ := fun _ => 0) hc hs.wf query () make)) ?_ ?_
  · rintro shown s ⟨hstores, ⟨-, -, -, ht, -⟩ | ⟨-, ⟨x, -, -, hadded⟩, -⟩⟩
    · exact ⟨hstores, fun e he => ht ▸ he⟩
    · exact ⟨hstores, fun e he => hadded.entries.mem_iff.mpr (List.mem_cons_of_mem _ he)⟩
  · rintro p s ⟨hstores, hpanic⟩ hne
    exact ⟨hstores hne trivial, fun e he => (hpanic.2 hne).1.entries.mem_iff.mpr he⟩

end HashSet

section Closures

variable {group : GroupBackend} {u : User W T Unit} {u' : User W' T Unit} {copyKey : T → T} {copyValue : Unit → Unit}

/-- In every run whose closures make fitting elements and whose hasher lasts for the refreshes of the filter it comes
to, a call of `get_or_insert_with` leaves a set that code which no longer panics finds well-formed. -/
theorem get_or_insert_with_fits (hl : u.Lawful hash eqv) (hcopy : u.Copying eqv copyKey copyValue) (hcalm : u'.Calm)
    (hl' : u'.Lawful hash eqv) :
    (∀ t : Funnel.FunnelTable T Unit, Reachable (Funnel.backend group u) u (Funnel.Initial group u)
        (fun e => e.2.1.Fitting hash eqv e.1.1.storage.entries ∧
          e.2.1.Steadfast (b := Funnel.backend group u) (Funnel.reading group) u e.1.1 e.1.2.code) t →
      ∀ query make w, (Op.getOrInsertWith query () make).Fitting hash eqv t.storage.entries →
      wp (HashSet.getOrInsertWith (Funnel.backend group u) u query make)
        (fun _ s => HashSet.WellFormed (Funnel.backend group u') u' (Funnel.reading group) eqv s.1 ∧
          ∀ e ∈ t.storage.entries, e ∈ s.1.storage.entries)
        (fun p s => p ≠ .abort → HashSet.WellFormed (Funnel.backend group u') u' (Funnel.reading group) eqv s.1 ∧
          ∀ e ∈ t.storage.entries, e ∈ s.1.storage.entries) (t, w)) ∧
    ∀ t : Elastic.ElasticTable T Unit, Reachable (Elastic.backend group u) u (Elastic.Initial group u)
        (fun e => e.2.1.Fitting hash eqv e.1.1.entries ∧
          e.2.1.Steadfast (b := Elastic.backend group u) (Elastic.reading group) u e.1.1 e.1.2.code) t →
      ∀ query make w, (Op.getOrInsertWith query () make).Fitting hash eqv t.entries →
      wp (HashSet.getOrInsertWith (Elastic.backend group u) u query make)
        (fun _ s => HashSet.WellFormed (Elastic.backend group u') u' (Elastic.reading group) eqv s.1 ∧
          ∀ e ∈ t.entries, e ∈ s.1.entries)
        (fun p s => p ≠ .abort → HashSet.WellFormed (Elastic.backend group u') u' (Elastic.reading group) eqv s.1 ∧
          ∀ e ∈ t.entries, e ∈ s.1.entries) (t, w) := by
  constructor
  · rintro t ⟨t₀, w₀, w₁, h₀, hruns⟩ query make w hfitting
    have hs := hruns.stores (Funnel.contract group u) hl hcopy (fun _ h => h) h₀.fresh.stores
    have hwell : ∀ t', Stores (b := Funnel.backend group u) (Funnel.reading group) u eqv t' →
        HashSet.WellFormed (Funnel.backend group u') u' (Funnel.reading group) eqv t' := fun t' hs' =>
      HashSet.wellFormed_of_stores (Funnel.contract group u') hcalm hl' ⟨hs'.wf, hs'.sound.transfer hl hl', hs'.distinct⟩
    refine wp_mono (HashSet.wp_getOrInsertWith_stores (Funnel.contract group u) hl hcopy hs hfitting) ?_ ?_
    · exact fun _ s h => ⟨hwell s.1 h.1, h.2⟩
    · exact fun _ s h hne => ⟨hwell s.1 (h hne).1, (h hne).2⟩
  · rintro t ⟨t₀, w₀, w₁, h₀, hruns⟩ query make w hfitting
    have hs := hruns.stores (Elastic.contract group u) hl hcopy (fun _ h => h) h₀.fresh.stores
    have hwell : ∀ t', Stores (b := Elastic.backend group u) (Elastic.reading group) u eqv t' →
        HashSet.WellFormed (Elastic.backend group u') u' (Elastic.reading group) eqv t' := fun t' hs' =>
      HashSet.wellFormed_of_stores (Elastic.contract group u') hcalm hl' ⟨hs'.wf, hs'.sound.transfer hl hl', hs'.distinct⟩
    refine wp_mono (HashSet.wp_getOrInsertWith_stores (Elastic.contract group u) hl hcopy hs hfitting) ?_ ?_
    · exact fun _ s h => ⟨hwell s.1 h.1, h.2⟩
    · exact fun _ s h hne => ⟨hwell s.1 (h hne).1, (h hne).2⟩

end Closures

namespace HashSet

def words : User Unit UInt64 Unit := .ofFunctions id (· == ·) false 8 8

def start : World Unit UInt64 Unit := ⟨(), ⟨[], [], []⟩⟩

def emptyFunnel : Funnel.FunnelTable UInt64 Unit :=
  .fresh .empty Funnel.FunnelTable.unallocated.reserveFraction (.empty 0) (.zeroed 0)

def emptyElastic : Elastic.ElasticTable UInt64 Unit :=
  .fresh ⟨0, 0, [], []⟩ Elastic.ElasticTable.unallocated.reserveFraction [] (.zeroed 0)

theorem lawful_words : words.Lawful id (· == ·) := User.lawful_ofFunctions User.equality_beq fun _ _ => eq_of_beq

theorem initial_emptyFunnel : Funnel.Initial .scalar words emptyFunnel :=
  ⟨0, Funnel.FunnelTable.unallocated.reserveFraction, start, start, rfl⟩

theorem initial_emptyElastic : Elastic.Initial .scalar words emptyElastic :=
  ⟨0, Elastic.ElasticTable.unallocated.reserveFraction, start, start, rfl⟩

def misplaces (b : TableBackend Unit UInt64 Unit) (entries : b.Table → List (UInt64 × Unit)) (value : UInt64)
    (called : Except Panic UInt64 × b.Table × World Unit UInt64 Unit) : Bool :=
  called.1.toOption == some value && (entries called.2.1 == [(value, ())] &&
    (contains b words value (called.2.1, start)).1.toOption == some false)

theorem not_wellFormed_of_misplaces {b : TableBackend Unit UInt64 Unit}
    {R : Reading b.Table b.Location b.Vacant b.Scan UInt64 Unit} {value : UInt64}
    {called : Except Panic UInt64 × b.Table × World Unit UInt64 Unit} (h : misplaces b R.entries value called = true) :
    called.1.toOption = some value ∧ ¬WellFormed b words R (· == ·) called.2.1 := by
  obtain ⟨hreturned, h⟩ := Bool.and_eq_true_iff.mp h
  obtain ⟨hentries, hmissed⟩ := Bool.and_eq_true_iff.mp h
  refine ⟨eq_of_beq hreturned, fun hwell => ?_⟩
  have hmem : (value, ()) ∈ R.entries called.2.1 := by
    rw [eq_of_beq hentries]
    exact List.mem_singleton.mpr rfl
  have hfound := hwell.contains _ hmem start
  rcases hcontains : contains b words value (called.2.1, start) with ⟨p | found, s⟩
  · exact (wp_of_error hcontains).mp hfound
  · obtain ⟨rfl, -⟩ := (wp_of_ok hcontains).mp hfound
    rw [hcontains] at hmissed
    cases hmissed

end HashSet

open HashSet

/-- A closure that returns the query, called on a set of two elements. -/
theorem get_or_insert_with_fits_two : ∃ t : Elastic.ElasticTable UInt64 Unit, t.entries = [(3, ()), (1, ())] ∧ ∀ w,
    wp (HashSet.getOrInsertWith (Elastic.backend .scalar words) words 2 (some 2))
      (fun _ s => WellFormed (Elastic.backend .scalar words) words (Elastic.reading .scalar) (· == ·) s.1 ∧
        ∀ e ∈ t.entries, e ∈ s.1.entries)
      (fun p s => p ≠ .abort →
        WellFormed (Elastic.backend .scalar words) words (Elastic.reading .scalar) (· == ·) s.1 ∧
          ∀ e ∈ t.entries, e ∈ s.1.entries) (t, w) := by
  let allow : Event (Elastic.backend .scalar words) → Prop := fun e =>
    e.2.1.Fitting id (· == ·) e.1.1.entries ∧
    e.2.1.Steadfast (b := Elastic.backend .scalar words) (Elastic.reading .scalar) words e.1.1 e.1.2.code
  let ops : List (Op UInt64 Unit) := [.insert 1 (), .getOrInsertWith 3 () (some 3)]
  have hallow : ∀ op ∈ ops, ∀ s r, allow (s, op, r) := by
    intro op hop s r
    simp only [ops, List.mem_cons, List.not_mem_nil, or_false] at hop
    rcases hop with rfl | rfl
    · exact ⟨trivial, trivial⟩
    · exact ⟨fun habsent => ⟨rfl, habsent⟩, trivial⟩
  obtain ⟨t, _, ht, hentries⟩ := Reachable.replayed (b := Elastic.backend .scalar words) (u := words)
    initial_emptyElastic start hallow (fun s => s.1.entries == [(3, ()), (1, ())]) (by decide +kernel)
  refine ⟨t, eq_of_beq hentries, fun w => ?_⟩
  exact (get_or_insert_with_fits lawful_words (User.copying_ofFunctions User.equality_beq) User.calm_ofFunctions
    lawful_words).2 t ht 2 (some 2) w fun habsent => ⟨rfl, habsent⟩

/-- A closure that returns another element than the query, called on an empty set. -/
theorem get_or_insert_with_misplaces :
    (∃ (t : Funnel.FunnelTable UInt64 Unit)
        (called : Except Panic UInt64 × Funnel.FunnelTable UInt64 Unit × World Unit UInt64 Unit),
      Funnel.Initial .scalar words t ∧
      HashSet.getOrInsertWith (Funnel.backend .scalar words) words 1 (some 2) (t, start) = called ∧
      called.1.toOption = some 2 ∧
      ¬WellFormed (Funnel.backend .scalar words) words (Funnel.reading .scalar) (· == ·) called.2.1) ∧
    ∃ (t : Elastic.ElasticTable UInt64 Unit)
        (called : Except Panic UInt64 × Elastic.ElasticTable UInt64 Unit × World Unit UInt64 Unit),
      Elastic.Initial .scalar words t ∧
      HashSet.getOrInsertWith (Elastic.backend .scalar words) words 1 (some 2) (t, start) = called ∧
      called.1.toOption = some 2 ∧
      ¬WellFormed (Elastic.backend .scalar words) words (Elastic.reading .scalar) (· == ·) called.2.1 := by
  constructor
  · have hcall : misplaces (Funnel.backend .scalar words) (Funnel.reading .scalar).entries 2
        (HashSet.getOrInsertWith (Funnel.backend .scalar words) words 1 (some 2) (emptyFunnel, start)) = true := by
      decide +kernel
    obtain ⟨called, hcalled⟩ : ∃ called, HashSet.getOrInsertWith (Funnel.backend .scalar words) words 1 (some 2)
      (emptyFunnel, start) = called := ⟨_, rfl⟩
    rw [hcalled] at hcall
    exact ⟨emptyFunnel, called, initial_emptyFunnel, hcalled, not_wellFormed_of_misplaces hcall⟩
  · have hcall : misplaces (Elastic.backend .scalar words) (Elastic.reading .scalar).entries 2
        (HashSet.getOrInsertWith (Elastic.backend .scalar words) words 1 (some 2) (emptyElastic, start)) = true := by
      decide +kernel
    obtain ⟨called, hcalled⟩ : ∃ called, HashSet.getOrInsertWith (Elastic.backend .scalar words) words 1 (some 2)
      (emptyElastic, start) = called := ⟨_, rfl⟩
    rw [hcalled] at hcall
    exact ⟨emptyElastic, called, initial_emptyElastic, hcalled, not_wellFormed_of_misplaces hcall⟩

end Opthash
