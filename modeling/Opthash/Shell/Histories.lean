import Opthash.Shell.Survival

namespace Opthash

namespace User

variable {W K V : Type} {u : User W K V}

theorem unfailing_of_total (h : ∀ k, Total (u.hashOne k)) (n : Nat) (c : W) : u.Unfailing n c := by
  induction n generalizing c with
  | zero => trivial
  | succ n ih => exact fun c' _ k => Exec.wp_mono (h k c') (fun _ c'' _ => ih c'') fun _ _ => id

end User

namespace HashMap

variable {W K V : Type} {b : TableBackend W K V} {R : Reading b.Table b.Location b.Vacant b.Scan K V} {u : User W K V}
  {hash : K → UInt64} {eqv : K → K → Bool} {copyKey : K → K} {copyValue : V → V} {A : Event b → Prop}
  {s s' : b.Table × World W K V}

theorem steadfast_of_total (h : ∀ k, User.Total (u.hashOne k)) (op : Op K V) (t : b.Table) (code : W) :
    op.Steadfast R u t code := by
  have hlasts := fun n => User.unfailing_of_total h n code
  cases op with
  | removeEntry key => exact fun _ _ _ _ _ => hlasts _
  | remove key => exact fun _ _ _ _ _ => hlasts _
  | retain f => exact fun _ => hlasts _
  | extractIf pred n => exact fun _ => hlasts _
  | leakExtractIf pred n => exact fun _ => hlasts _
  | _ => trivial

theorem Runs.wf (hc : Contract R u) (h : Runs b u A s s') (hw : R.Wf s.1) : R.Wf s'.1 :=
  h.invariant (I := R.Wf) (fun hw hstep _ hne => wf_of_step hc hw hstep hne) hw

/-- The entries stay where the hashes of their keys lead; lookups find them through the filter in every run whose
hasher lasts for the refreshes it comes to. -/
theorem Runs.sound {q : Prop} (hc : Contract R u)
    (hallow : ∀ e, A e → e.2.1.Consistent u ∧ (q → e.2.1.Steadfast R u e.1.1 e.1.2.code)) (h : Runs b u A s s')
    (hw : R.Wf s.1) (hs : R.Sound u q s.1) : R.Wf s'.1 ∧ R.Sound u q s'.1 := by
  apply h.invariant (I := fun t => R.Wf t ∧ R.Sound u q t) _ ⟨hw, hs⟩
  rintro s s' op r ⟨hw, hs⟩ hstep hop hne
  obtain ⟨hconsistent, hsteadfast⟩ := hallow _ hop
  refine ⟨wf_of_step hc hw hstep hne, ?_⟩
  cases r with
  | ok r => exact (done_of_step (κ := fun _ => 0) hc hw hstep).sound hconsistent hs
  | error p => exact (remains_of_step (κ := fun _ => 0) hc hw hstep hne).sound hconsistent hsteadfast hs

theorem Runs.stores (hc : Contract R u) (hl : u.Lawful hash eqv) (hcopy : u.Copying eqv copyKey copyValue)
    (hallow : ∀ e, A e → e.2.1.Fitting hash eqv (R.entries e.1.1) ∧ e.2.1.Steadfast R u e.1.1 e.1.2.code)
    (h : Runs b u A s s') (hs : Stores R u eqv s.1) : Stores R u eqv s'.1 := by
  apply h.invariant (I := Stores R u eqv) _ hs
  intro s s' op r hs hstep hop hne
  obtain ⟨hfitting, hsteadfast⟩ := hallow _ hop
  have hwp := wp_step_stores (w := s.2) hc hl hcopy hs hfitting
  cases r with
  | ok r => exact (Exec.wp_of_ok hstep).mp hwp
  | error p => exact (Exec.wp_of_error hstep).mp hwp (fun hp => hne (hp ▸ rfl)) hsteadfast

/-- No iterator is forgotten, and a call that takes entries out returns. -/
def Orderly (e : Event b) : Prop := ¬e.2.1.Leaks ∧ (e.2.1.Deletes → ∃ r, e.2.2 = .ok r)

theorem undrained_of_not_leaks {op : Op K V} (h : ¬op.Leaks) (es : List (K × V)) : op.Undrained es := by
  cases op with
  | leakDrain n => exact absurd trivial h
  | _ => trivial

theorem quiet_of_not_deletes {op : Op K V} (h : ¬op.Deletes) (es : List (K × V)) (code : W) : op.Quiet u es code := by
  cases op with
  | drain n => exact absurd trivial h
  | _ => trivial

theorem Runs.settled (hc : Contract R u) (h : Runs b u Orderly s s') (hw : R.Wf s.1) (hcounted : R.Counted s.1)
    (hs : R.Settled s.1) : R.Wf s'.1 ∧ R.Counted s'.1 ∧ R.Settled s'.1 := by
  apply h.invariant (I := fun t => R.Wf t ∧ R.Counted t ∧ R.Settled t) _ ⟨hw, hcounted, hs⟩
  rintro s s' op r ⟨hw, hcounted, hs⟩ hstep ⟨hleaks, hreturns⟩ hne
  refine ⟨wf_of_step hc hw hstep hne, ?_⟩
  cases r with
  | ok r =>
    have hdone := done_of_step (κ := fun _ => 0) hc hw hstep
    exact ⟨hdone.counted (undrained_of_not_leaks hleaks _) hcounted, hdone.settled hleaks hcounted hs⟩
  | error p =>
    have hdeletes : ¬op.Deletes := by
      intro hdeletes
      obtain ⟨r, hr⟩ := hreturns hdeletes
      cases hr
    have hremains := remains_of_step (κ := fun _ => 0) hc hw hstep hne
    exact ⟨hremains.counted (quiet_of_not_deletes hdeletes _ _) hcounted,
      hremains.settled hdeletes hcounted hs⟩

theorem Runs.counted (hc : Contract R u)
    (hallow : ∀ e, A e → e.2.1.Undrained (R.entries e.1.1) ∧ e.2.1.Quiet u (R.entries e.1.1) e.1.2.code)
    (h : Runs b u A s s') (hw : R.Wf s.1) (hcounted : R.Counted s.1) : R.Wf s'.1 ∧ R.Counted s'.1 := by
  apply h.invariant (I := fun t => R.Wf t ∧ R.Counted t) _ ⟨hw, hcounted⟩
  rintro s s' op r ⟨hw, hcounted⟩ hstep hop hne
  obtain ⟨hundrained, hquiet⟩ := hallow _ hop
  refine ⟨wf_of_step hc hw hstep hne, ?_⟩
  cases r with
  | ok r => exact (done_of_step (κ := fun _ => 0) hc hw hstep).counted hundrained hcounted
  | error p => exact (remains_of_step (κ := fun _ => 0) hc hw hstep hne).counted hquiet hcounted

/-- Calls made one after another, whether they return or unwind; none after one that aborts. -/
def replay (b : TableBackend W K V) (u : User W K V) :
    List (Op K V) → b.Table × World W K V → Option (b.Table × World W K V)
  | [], s => some s
  | op :: ops, s => match step b u op s with
    | (.error .abort, _) => none
    | (_, s') => replay b u ops s'

theorem Runs.replay {s'' : b.Table × World W K V} (h : Runs b u A s s') {ops : List (Op K V)}
    (hallow : ∀ op ∈ ops, ∀ s r, A (s, op, r)) (hreplay : HashMap.replay b u ops s' = some s'') :
    Runs b u A s s'' := by
  induction ops generalizing s' with
  | nil =>
    cases hreplay
    exact h
  | cons op ops ih =>
    rw [HashMap.replay] at hreplay
    have hop := hallow op (List.mem_cons_self ..)
    have hrest := fun op' hop' => hallow op' (List.mem_cons_of_mem _ hop')
    rcases hstep : step b u op s' with ⟨r, s₁⟩
    rw [hstep] at hreplay
    by_cases hne : r = .error .abort
    · subst hne
      cases hreplay
    · refine ih (h.call hstep (hop _ _) hne) hrest ?_
      rcases r with (_ | _ | _ | _) | r
      · exact hreplay
      · exact hreplay
      · exact hreplay
      · exact absurd rfl hne
      · exact hreplay

theorem Reachable.replayed {initial : b.Table → Prop} {t₀ : b.Table} (h₀ : initial t₀) (w₀ : World W K V)
    {ops : List (Op K V)} (hallow : ∀ op ∈ ops, ∀ s r, A (s, op, r)) (p : b.Table × World W K V → Bool)
    (hreplay : (HashMap.replay b u ops (t₀, w₀)).any p = true) :
    ∃ t w, Reachable b u initial A t ∧ p (t, w) = true := by
  obtain ⟨s, hs, hp⟩ := (Option.any_eq_true _ _).mp hreplay
  exact ⟨s.1, s.2, ⟨t₀, w₀, s.2, h₀, (Runs.refl _).replay hallow hs⟩, hp⟩

theorem Reachable.wf {initial : b.Table → Prop} {t : b.Table} (hc : Contract R u) (hinitial : ∀ t, initial t → R.Wf t)
    (h : Reachable b u initial A t) : R.Wf t := by
  obtain ⟨t₀, w₀, w, h₀, hruns⟩ := h
  exact hruns.wf hc (hinitial t₀ h₀)

theorem Reachable.stores {initial : b.Table → Prop} {t : b.Table} (hc : Contract R u)
    (hinitial : ∀ t, initial t → Fresh R u t) (hhash : ∀ k, User.Total (u.hashOne k)) (hl : u.Lawful hash eqv)
    (hcopy : u.Copying eqv copyKey copyValue) (hfitting : ∀ e, A e → e.2.1.Fitting hash eqv (R.entries e.1.1))
    (h : Reachable b u initial A t) : Stores R u eqv t := by
  obtain ⟨t₀, w₀, w, h₀, hruns⟩ := h
  exact hruns.stores hc hl hcopy (fun e he => ⟨hfitting e he, steadfast_of_total hhash _ _ _⟩) (hinitial t₀ h₀).stores

theorem Runs.single {op : Op K V} {r : Except Panic (Ret K V)} (h : step b u op s = (r, s')) (hallow : A (s, op, r))
    (hne : r ≠ .error .abort) : Runs b u A s s' := .call (.refl s) h hallow hne

theorem Reachable.one {initial : b.Table → Prop} {t₀ : b.Table} (h₀ : initial t₀) {op : Op K V} {w₀ : World W K V}
    (hallow : ∀ r, A ((t₀, w₀), op, .ok r)) (hok : (step b u op (t₀, w₀)).1.isOk = true) :
    ∃ t r w, step b u op (t₀, w₀) = (.ok r, t, w) ∧ Reachable b u initial A t := by
  rcases hstep : step b u op (t₀, w₀) with ⟨e | r, t, w⟩
  · rw [hstep] at hok
    cases hok
  · exact ⟨t, r, w, rfl, t₀, w₀, w, h₀, .single hstep (hallow r) nofun⟩

end HashMap

end Opthash
