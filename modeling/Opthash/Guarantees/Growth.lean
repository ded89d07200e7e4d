import Opthash.Guarantees.Clear

namespace Opthash

open Exec FiniteMap HashMap

variable {W K V : Type} {hash : K → UInt64} {eqv : K → K → Bool} {copyKey : K → K} {copyValue : V → V}

theorem Op.inserts_of_sought {op : Op K V} {key : K} (h : op.sought = some key) : op.Inserts := by
  cases op with
  | insert | entryOrInsert | tryInsert | getOrInsertWith => trivial
  | _ => cases h

theorem User.Calm.quiet {u : User W K V} (h : u.Calm) (es : List (K × V)) (code : W) : u.Quiet es code := by
  induction es generalizing code with
  | nil => trivial
  | cons e es ih =>
    refine wp_mono (h.dropKey e.1 code) (fun _ code' _ => ?_) (fun _ _ => id)
    exact wp_mono (h.dropValue e.2 code') (fun _ code'' _ => ih code'') (fun _ _ => id)

namespace HashMap

variable {b : TableBackend W K V} {R : Reading b.Table b.Location b.Vacant b.Scan K V} {u : User W K V}
  {t t' : b.Table} {w : World W K V} {s s' : b.Table × World W K V} {op : Op K V} {key : K} {n : Nat}

/-- A call did not find the key and grew the table where it was full, or found the key and kept the capacity. -/
def Decided (R : Reading b.Table b.Location b.Vacant b.Scan K V) (u : User W K V) (t : b.Table) (key : K)
    (t' : b.Table) : Prop :=
  Absent R u t key ∧ R.Grows t t' ∨ (∃ e, Matched R u t key e) ∧ R.capacity t' = R.capacity t

theorem Admitted.decided {query : K} {value : V} (h : Admitted R u t t' query key value) : Decided R u t query t' := by
  obtain ⟨x, hx, hrefuted, hadded⟩ := h.added
  exact .inl ⟨⟨x, hx, hrefuted⟩, hadded.grows⟩

theorem Matched.decided {e : K × V} (h : Matched R u t key e) (ht : t' = t) : Decided R u t key t' :=
  .inr ⟨⟨e, h⟩, ht ▸ rfl⟩

theorem wp_step_decided (hc : Contract R u) (hw : R.Wf t) (hsought : op.sought = some key) :
    wp (step b u op) (fun _ s => Decided R u t key s.1) (fun _ _ => True) (t, w) := by
  cases op with
  | insert key' value =>
    cases hsought
    rw [step, wp_bind]
    refine wp_mono (wp_insert (κ := fun _ => 0) hc hw key value) ?_ (fun _ _ _ => trivial)
    rintro old ⟨t', w'⟩ ⟨hreplaced, hadded⟩
    rw [wp_bind, wp_onSnd]
    apply wp_handValue (κ := fun _ => 0)
    intro w'' _
    cases old with
    | none =>
      obtain ⟨x, hx, hrefuted, hadded, -⟩ := hadded rfl
      exact .inl ⟨⟨x, hx, hrefuted⟩, hadded.grows⟩
    | some old =>
      obtain ⟨hkeeps, k', rest, hans, hbefore, -⟩ := (hreplaced old rfl).1
      exact .inr ⟨⟨(k', old), hbefore.mem_iff.mpr (List.mem_cons_self ..), hans⟩, hkeeps.capacity⟩
  | entryOrInsert key' default =>
    cases hsought
    rw [step, wp_map]
    refine wp_mono (wp_entryOrInsert (κ := fun _ => 0) hc hw key default) ?_ (fun _ _ _ => trivial)
    rintro shown s (⟨e, hmatched, -, ht, -⟩ | ⟨-, hadmitted, -⟩)
    · exact hmatched.decided ht
    · exact hadmitted.decided
  | tryInsert key' value =>
    cases hsought
    rw [step, wp_bind]
    refine wp_mono (wp_tryInsert (κ := fun _ => 0) hc hw key value) ?_ (fun _ _ _ => trivial)
    rintro (e | shown) ⟨t', w'⟩ hr
    · exact hr.1.decided hr.2.1
    · exact hr.2.1.decided
  | getOrInsertWith key' value make =>
    cases hsought
    rw [step, wp_map]
    refine wp_mono (wp_getOrInsertWith (κ := fun _ => 0) hc hw key value make) ?_ (fun _ _ _ => trivial)
    rintro shown s (⟨e, hmatched, -, ht, -⟩ | ⟨-, hadmitted, -⟩)
    · exact hmatched.decided ht
    · exact hadmitted.decided
  | _ => cases hsought

theorem harmless_of_calm (hcalm : u.Calm) {e : Event b} (hplain : e.2.1.Plain eqv) : Harmless R u eqv e where
  plain := hplain
  steadfast := steadfast_of_total hcalm.hashOne _ _ _
  quiet := by
    rcases e with ⟨⟨t, w⟩, op, r⟩
    cases op with
    | drain n => exact hcalm.quiet _ _
    | _ => trivial

theorem Runs.represents_of_calm (hc : Contract R u) (hcalm : u.Calm) (hl : u.Lawful hash eqv)
    (hcopy : u.Copying eqv copyKey copyValue) (h : Runs b u (fun e => e.2.1.Plain eqv) s s')
    (hs : Represents R u eqv s.1) : Represents R u eqv s'.1 := by
  apply h.invariant (I := Represents R u eqv) _ hs
  intro s s' op r hs hstep hplain hne
  have hone : Runs b u (Harmless R u eqv) s s' := .call (.refl s) hstep (harmless_of_calm hcalm hplain) hne
  exact hone.represents hc hl hcopy hs

theorem Decided.capacity (hc : Contract R u) (hl : u.Lawful hash eqv) (hs : Stores R u eqv t)
    (h : Decided R u t key t') :
    R.capacity t ≤ R.capacity t' ∧
      (R.capacity t' ≠ R.capacity t ↔ find eqv key (R.entries t) = none ∧ R.len t = R.capacity t) := by
  rcases h with ⟨habsent, hgrows⟩ | ⟨⟨e, hmatched⟩, hsame⟩
  · have hnone := habsent.find hc hl hs
    rcases Nat.lt_or_eq_of_le (hc.limit hs.wf) with hlt | hfull
    · have hsame := hgrows.below hlt
      exact ⟨Nat.le_of_eq hsame.symm, fun h => absurd hsame h, fun h => absurd h.2 (Nat.ne_of_lt hlt)⟩
    · have hmore := hgrows.reached hfull
      exact ⟨Nat.le_of_lt hmore, fun _ => ⟨hnone, hfull⟩, fun _ => Nat.ne_of_gt hmore⟩
  · refine ⟨Nat.le_of_eq hsame.symm, fun h => absurd hsame h, fun h => ?_⟩
    rw [hmatched.find hl hs] at h
    cases h.1

def KeepsCapacity {α : Type} (b : TableBackend W K V) (t : b.Table) (c : Step b α) : Prop :=
  ∀ w, wp c (fun _ s => b.capacity s.1 = b.capacity t) (fun _ s => b.capacity s.1 = b.capacity t) (t, w)

/-- There is room for `n` entries, and no insertion into fewer changes the capacity. -/
structure Secured (b : TableBackend W K V) (u : User W K V) (eqv : K → K → Bool) (n : Nat)
    (s : b.Table × World W K V) : Prop where
  room : n ≤ b.capacity s.1
  insert : ∀ s', Runs b u (fun e => e.2.1.Plain eqv ∧ ¬e.2.1.Shrinks) s s' → b.len s'.1 < n →
    ∀ op : Op K V, op.Plain eqv → op.Inserts → KeepsCapacity b s'.1 (step b u op)
  steady : ∀ s', Runs b u (fun e => e.2.1.Plain eqv ∧ ¬e.2.1.Shrinks ∧ ¬e.2.1.Reserves ∧
    (e.2.1.Inserts → b.len e.1.1 < n)) s s' → b.capacity s'.1 = b.capacity s.1

/-- How insertions and reservations grow a table; they fail only when memory does not last. -/
structure GrowsAtCapacity (b : TableBackend W K V) (u : User W K V)
    (R : Reading b.Table b.Location b.Vacant b.Scan K V) (room : Room b) (eqv : K → K → Bool) (t : b.Table) : Prop where
  limit : b.len t ≤ b.capacity t
  insert : ∀ (op : Op K V) key w, op.Plain eqv → op.sought = some key → wp (step b u op)
    (fun _ s => b.capacity t ≤ b.capacity s.1 ∧
      (b.capacity s.1 ≠ b.capacity t ↔ find eqv key (R.entries t) = none ∧ b.len t = b.capacity t))
    (fun p s => p.Exhausted ∧ ¬Lasting R u room eqv t op ∧ b.capacity t ≤ b.capacity s.1 ∧
      (b.len t < b.capacity t → b.capacity s.1 = b.capacity t)) (t, w)
  duplicate : ∀ key value w, find eqv key (R.entries t) ≠ none →
    wp (step b u (.insert key value)) (fun _ _ => True) (fun _ _ => False) (t, w)
  reserve : ∀ additional w, wp (step b u (.reserve additional))
    (fun _ s => Secured b u eqv (b.len t + additional) s)
    (fun p s => p.Exhausted ∧ ¬Lasting R u room eqv t (.reserve additional) ∧ s.1 = t) (t, w)
  tryReserve : ∀ additional w, wp (step b u (.tryReserve additional))
    (fun r s => r = .reserved (.ok ()) → Secured b u eqv (b.len t + additional) s) (fun _ _ => False) (t, w)
  others : ∀ op : Op K V, op.Plain eqv → ¬op.Inserts → ¬op.Reserves → ¬op.Shrinks → KeepsCapacity b t (step b u op)

theorem Limits.inserting (hc : Contract R u) (hw : R.Wf t) (h : Limits R op t t') (hinserts : op.Inserts) :
    R.capacity t ≤ R.capacity t' ∧ (R.len t < R.capacity t → R.capacity t' = R.capacity t) := by
  cases h with
  | kept hsame => exact ⟨Nat.le_of_eq hsame.symm, fun _ => hsame⟩
  | stretched _ hbelow hreached =>
    refine ⟨?_, hbelow⟩
    rcases Nat.lt_or_eq_of_le (hc.limit hw) with hlt | hfull
    · exact Nat.le_of_eq (hbelow hlt).symm
    · exact hreached hfull
  | raised hreserves => cases op <;> first | exact absurd hinserts id | exact absurd hreserves id
  | shrunk hshrinks => cases op <;> first | exact absurd hinserts id | exact absurd hshrinks id

theorem Limits.steady (h : Limits R op t t') (hinserts : ¬op.Inserts) (hreserves : ¬op.Reserves)
    (hshrinks : ¬op.Shrinks) : R.capacity t' = R.capacity t := by
  cases h with
  | kept hsame => exact hsame
  | stretched h => exact absurd h hinserts
  | raised h => exact absurd h hreserves
  | shrunk h => exact absurd h hshrinks

theorem Limits.le (hc : Contract R u) (hw : R.Wf t) (h : Limits R op t t') (hshrinks : ¬op.Shrinks) :
    R.capacity t ≤ R.capacity t' := by
  by_cases hinserts : op.Inserts
  · exact (h.inserting hc hw hinserts).1
  · cases h with
    | kept hsame => exact Nat.le_of_eq hsame.symm
    | stretched h => exact absurd h hinserts
    | raised _ hle => exact hle
    | shrunk h => exact absurd h hshrinks

theorem limits_of_step (hc : Contract R u) (hw : R.Wf s.1) {r : Except Panic (Ret K V)} (h : step b u op s = (r, s'))
    (hne : r ≠ .error .abort) : Limits R op s.1 s'.1 := by
  cases r with
  | ok r => exact (done_of_step (κ := fun _ => 0) hc hw h).limits
  | error p => exact (remains_of_step (κ := fun _ => 0) hc hw h hne).limits

theorem wp_step_limits (hc : Contract R u) (hcalm : u.Calm) (hw : R.Wf t) (hplain : op.Plain eqv) :
    wp (step b u op) (fun _ s => Limits R op t s.1) (fun p s => p.Exhausted ∧ Limits R op t s.1) (t, w) := by
  refine wp_mono (wp_and (wp_step (κ := fun _ => 0) hc hw op) (wp_step_exhausted hc hcalm hw hplain))
    (fun _ _ h => h.1.limits) ?_
  rintro p s ⟨⟨-, hremains⟩, hexhausted⟩
  exact ⟨hexhausted, (hremains hexhausted.ne_abort).limits⟩

theorem le_of_saturating {needed capacity : Nat} (h : saturatingUsize needed ≤ capacity) (hlt : capacity < usizeMax) :
    needed ≤ capacity := by
  unfold saturatingUsize at h
  omega

theorem secured (hc : Contract R u) (hcalm : u.Calm) (hw : R.Wf s.1) (hroom : n ≤ R.capacity s.1) :
    Secured b u eqv n s where
  room := by
    rw [hc.capacity_eq]
    exact hroom
  insert := by
    intro s' hruns hlen op hplain hinserts w
    have hreached : R.Wf s'.1 ∧ n ≤ R.capacity s'.1 := by
      apply hruns.invariant (I := fun t => R.Wf t ∧ n ≤ R.capacity t) _ ⟨hw, hroom⟩
      rintro s s' op r ⟨hw, hroom⟩ hstep ⟨-, hshrinks⟩ hne
      exact ⟨wf_of_step hc hw hstep hne, hroom.trans ((limits_of_step hc hw hstep hne).le hc hw hshrinks)⟩
    rw [hc.len_eq] at hlen
    have hkept : ∀ t', Limits R op s'.1 t' → b.capacity t' = b.capacity s'.1 := by
      intro t' h
      rw [hc.capacity_eq, hc.capacity_eq]
      exact (h.inserting hc hreached.1 hinserts).2 (Nat.lt_of_lt_of_le hlen hreached.2)
    exact wp_mono (wp_step_limits hc hcalm hreached.1 hplain) (fun _ s h => hkept s.1 h) fun _ s h => hkept s.1 h.2
  steady := by
    intro s' hruns
    have hreached : R.Wf s'.1 ∧ R.capacity s'.1 = R.capacity s.1 := by
      apply hruns.invariant (I := fun t => R.Wf t ∧ R.capacity t = R.capacity s.1) _ ⟨hw, rfl⟩
      rintro s' s'' op r ⟨hw, hsame⟩ hstep ⟨-, hshrinks, hreserves, hfew⟩ hne
      have hlimits := limits_of_step hc hw hstep hne
      refine ⟨wf_of_step hc hw hstep hne, ?_⟩
      by_cases hinserts : op.Inserts
      · have hlen := hfew hinserts
        rw [hc.len_eq] at hlen
        have hlt := Nat.lt_of_lt_of_le (hlen.trans_le hroom) (Nat.le_of_eq hsame.symm)
        rw [(hlimits.inserting hc hw hinserts).2 hlt, hsame]
      · rw [hlimits.steady hinserts hreserves hshrinks, hsame]
    rw [hc.capacity_eq, hc.capacity_eq]
    exact hreached.2

theorem growsAtCapacity_of_represents {room : Room b} {I : b.Table → Prop} (hc : Contract R u) (hf : Funded R u room I)
    (hcalm : u.Calm) (hl : u.Lawful hash eqv) (hr : Represents R u eqv t) (hi : I t) : GrowsAtCapacity b u R room eqv t where
  limit := by
    rw [hc.len_eq, hc.capacity_eq]
    exact hc.limit hr.wf
  insert := by
    intro op key w hplain hsought
    have hinserts := Op.inserts_of_sought hsought
    refine wp_mono (wp_and (wp_step_lasting hc hf hcalm hl hr.toStores hplain)
      (wp_and (wp_step_decided hc hr.wf hsought) (wp_step_limits hc hcalm hr.wf hplain))) ?_ ?_
    · rintro _ s ⟨-, hdecided, -⟩
      rw [hc.capacity_eq, hc.capacity_eq, hc.len_eq]
      exact hdecided.capacity hc hl hr.toStores
    · rintro p s ⟨⟨-, hlasting⟩, -, hexhausted, hlimits⟩
      rw [hc.capacity_eq, hc.capacity_eq, hc.len_eq]
      exact ⟨hexhausted, hlasting hi, hlimits.inserting hc hr.wf hinserts⟩
  duplicate := by
    intro key value w hfound
    rw [step, wp_bind]
    refine wp_mono (wp_insert (κ := fun _ => 0) hc hr.wf key value) ?_ ?_
    · rintro old ⟨t', w'⟩ -
      rw [wp_bind, wp_onSnd]
      apply wp_handValue (κ := fun _ => 0)
      exact fun _ _ => trivial
    · rintro p s ⟨hblamed, habsent, -⟩
      cases hblamed with
      | user h => exact h hcalm
      | abort h => exact h hcalm
      | exhausted h => exact hfound ((habsent h).find hc hl hr.toStores)
  reserve := by
    intro additional w
    have hplain : (Op.reserve additional : Op K V).Plain eqv := ⟨trivial, id, fun _ _ _ h => by cases h⟩
    have hlasts := wp_step_lasting (w := w) hc hf hcalm hl hr.toStores hplain
    rw [step, wp_map] at hlasts
    rw [step, wp_map, hc.len_eq]
    refine wp_mono (wp_and hlasts (wp_reserve hc hr.wf additional)) ?_ ?_
    · rintro _ ⟨t', w'⟩ ⟨-, ⟨ht, -, hroom⟩ | ⟨-, hrefitted, -⟩⟩
      · obtain rfl : t' = t := ht
        exact secured hc hcalm hr.wf (le_of_saturating hroom (hc.capacity_lt hr.wf))
      · have hw : R.Wf t' := hrefitted.keeps.wf
        exact secured hc hcalm hw (le_of_saturating hrefitted.capacity (hc.capacity_lt hw))
    · rintro p s ⟨⟨hexhausted, hlasting⟩, -, ht, -⟩
      exact ⟨hexhausted, hlasting hi, ht⟩
  tryReserve := by
    intro additional w
    rw [step, wp_map, hc.len_eq]
    refine wp_mono (wp_tryReserve hc hr.wf additional) ?_ (fun _ _ h => h.1.2 hcalm)
    rintro (error | _) ⟨t', w'⟩ hresult hok
    · cases hok
    · rcases hresult with ⟨ht, -, hroom⟩ | ⟨-, hrefitted, -⟩
      · obtain rfl : t' = t := ht
        exact secured hc hcalm hr.wf hroom
      · exact secured hc hcalm hrefitted.keeps.wf hrefitted.capacity
  others := by
    intro op hplain hinserts hreserves hshrinks w
    have hkept : ∀ t', Limits R op t t' → b.capacity t' = b.capacity t := by
      intro t' h
      rw [hc.capacity_eq, hc.capacity_eq]
      exact h.steady hinserts hreserves hshrinks
    exact wp_mono (wp_step_limits hc hcalm hr.wf hplain) (fun _ s h => hkept s.1 h) fun _ s h => hkept s.1 h.2

end HashMap

variable {group : GroupBackend} {u : User W K V}

theorem Funnel.FunnelTable.keepsCapacity_maintenance {t : Funnel.FunnelTable K V} (hw : t.Wf) :
    (∀ transition, KeepsCapacity (Funnel.backend group u) t (resizeWithTransition group u t.shape.n transition)) ∧
      KeepsCapacity (Funnel.backend group u) t (refreshMembership group u) := by
  constructor
  · intro transition w
    refine wp_mono (wp_resizeWithTransition hw hw.planned hw.limit transition w) ?_ ?_
    · exact fun _ s h => congrArg FunnelShape.maxInsertions h.2.shape
    · exact fun p s h => congrArg (fun t => t.shape.maxInsertions) h.2.1
  · intro w
    refine wp_mono (wp_refreshMembership hw) ?_ ?_
    · rintro _ s ⟨hr, -⟩
      obtain ⟨hashAt, heq⟩ := hr.eq
      rw [heq]
      rfl
    · rintro p s ⟨-, ⟨hashAt, slots, heq⟩, -⟩
      rw [heq]
      rfl

theorem Elastic.ElasticTable.keepsCapacity_maintenance {t : Elastic.ElasticTable K V} (hw : t.Wf) :
    (∀ transition, KeepsCapacity (Elastic.backend group u) t (resizeWithTransition group u t.totalSlots transition)) ∧
      KeepsCapacity (Elastic.backend group u) t (refreshMembership group u) := by
  constructor
  · intro transition w
    have hfit : t.len ≤ Capacity.maxInsertions t.totalSlots t.reserveFraction := hw.maxInsertions ▸ hw.limit
    refine wp_mono (wp_resizeWithTransition hw hfit transition w) ?_ ?_
    · rintro _ s ⟨-, g, hg, hr⟩
      exact ((hr.maxInsertions hg).trans hg.maxInsertions).trans hw.maxInsertions.symm
    · exact fun p s h => congrArg ElasticTable.maxInsertions h.2.1
  · intro w
    refine wp_mono (wp_refreshMembership hw) ?_ ?_
    · rintro _ s ⟨hr, -⟩
      obtain ⟨hashAt, heq⟩ := hr.eq
      rw [heq]
      rfl
    · rintro p s ⟨-, ⟨hashAt, locs, heq⟩, -⟩
      rw [heq]
      rfl

/-- Insertions of absent keys into full tables and reservations raise the capacity, nothing but `shrink_to` lowers it,
and cleanups, refreshes of the filter and recovery rebuilds keep it. -/
theorem grows_exactly_at_capacity (hcalm : u.Calm) (hl : u.Lawful hash eqv) (hcopy : u.Copying eqv copyKey copyValue) :
    (∀ t : Funnel.FunnelTable K V,
      Reachable (Funnel.backend group u) u (Funnel.Initial group u) (fun e => e.2.1.Plain eqv) t →
      GrowsAtCapacity (Funnel.backend group u) u (Funnel.reading group) (Funnel.room group u) eqv t ∧
      (∀ transition, KeepsCapacity (Funnel.backend group u) t
        (Funnel.FunnelTable.resizeWithTransition group u t.shape.n transition)) ∧
      KeepsCapacity (Funnel.backend group u) t (Funnel.FunnelTable.refreshMembership group u)) ∧
    ∀ t : Elastic.ElasticTable K V,
      Reachable (Elastic.backend group u) u (Elastic.Initial group u) (fun e => e.2.1.Plain eqv) t →
      GrowsAtCapacity (Elastic.backend group u) u (Elastic.reading group) (Elastic.room group u) eqv t ∧
      (∀ transition, KeepsCapacity (Elastic.backend group u) t
        (Elastic.ElasticTable.resizeWithTransition group u t.totalSlots transition)) ∧
      KeepsCapacity (Elastic.backend group u) t (Elastic.ElasticTable.refreshMembership group u) := by
  constructor
  · rintro t ⟨t₀, w₀, w, h₀, hruns⟩
    have hr := hruns.represents_of_calm (Funnel.contract group u) hcalm hl hcopy h₀.fresh.represents
    have hs := (hruns.maintains (Funnel.contract group u) (Funnel.FunnelTable.maintains group u t₀.reserveFraction)
      h₀.fresh.wf h₀.snug).2
    exact ⟨growsAtCapacity_of_represents (Funnel.contract group u)
      (Funnel.FunnelTable.funded group u t₀.reserveFraction) hcalm hl hr hs,
      Funnel.FunnelTable.keepsCapacity_maintenance hr.wf⟩
  · rintro t ⟨t₀, w₀, w, h₀, hruns⟩
    have hr := hruns.represents_of_calm (Elastic.contract group u) hcalm hl hcopy h₀.fresh.represents
    have hs := (hruns.maintains (Elastic.contract group u) (Elastic.ElasticTable.maintains group u) h₀.fresh.wf h₀.snug).2
    exact ⟨growsAtCapacity_of_represents (Elastic.contract group u) (Elastic.ElasticTable.funded group u) hcalm hl hr hs,
      Elastic.ElasticTable.keepsCapacity_maintenance (Elastic.ElasticTable.Ready.toWf hr.wf)⟩

theorem grows_exactly_at_capacity_insert :
    GrowsAtCapacity (Funnel.backend .scalar User.sample) User.sample (Funnel.reading .scalar)
      (Funnel.room .scalar User.sample) (· == ·)
      Funnel.FunnelTable.stored ∧
    ∃ (t : Elastic.ElasticTable UInt64 Nat) (loc : Nat × Nat), t.Holds loc (7, 70) ∧
      GrowsAtCapacity (Elastic.backend .scalar User.sample) User.sample (Elastic.reading .scalar)
        (Elastic.room .scalar User.sample) (· == ·) t := by
  have hgrows := @grows_exactly_at_capacity Unit UInt64 Nat id (· == ·) id id .scalar User.sample User.calm_sample
    User.lawful_sample User.copying_sample
  obtain ⟨ht, -⟩ := Funnel.stored_of_start (A := fun e => e.2.1.Plain (· == ·)) fun _ => ⟨trivial, nofun, nofun⟩
  obtain ⟨t, loc, ht', hloc⟩ := Elastic.exists_stored (A := fun e => e.2.1.Plain (· == ·))
    fun _ _ _ => ⟨trivial, nofun, nofun⟩
  exact ⟨(hgrows.1 _ ht).1, t, loc, hloc, (hgrows.2 t ht').1⟩

end Opthash
