import Opthash.Backends
import Opthash.Elastic.Contract
import Opthash.Funnel.Contract
import Opthash.Shell.Steps

namespace Opthash

open Exec

namespace HashMap

variable {W K V : Type} {b : TableBackend W K V}

/-- A call that was made, the state it was made in, and how it ended. -/
abbrev Event (b : TableBackend W K V) : Type := (b.Table × World W K V) × Op K V × Except Panic (Ret K V)

/-- Runs of a table: calls of safe methods that meet `allow`, none of which aborts. Between two calls the rest of
the program may do to its own state whatever it likes. -/
inductive Runs (b : TableBackend W K V) (u : User W K V) (allow : Event b → Prop) :
    b.Table × World W K V → b.Table × World W K V → Prop
  | refl (s : b.Table × World W K V) : Runs b u allow s s
  | beside {s : b.Table × World W K V} {t : b.Table} {w : World W K V} (w' : World W K V)
      (h : Runs b u allow s (t, w)) : Runs b u allow s (t, w')
  | call {s s' s'' : b.Table × World W K V} {op : Op K V} {r : Except Panic (Ret K V)} (h : Runs b u allow s s')
      (hstep : step b u op s' = (r, s'')) (hallow : allow (s', op, r)) (habort : r ≠ .error .abort) :
      Runs b u allow s s''

theorem Runs.invariant {u : User W K V} {allow : Event b → Prop} {I : b.Table → Prop}
    (hstep : ∀ {s s' : b.Table × World W K V} {op : Op K V} {r : Except Panic (Ret K V)}, I s.1 →
      step b u op s = (r, s') → allow (s, op, r) → r ≠ .error .abort → I s'.1)
    {s s' : b.Table × World W K V} (h : Runs b u allow s s') (hs : I s.1) : I s'.1 := by
  induction h with
  | refl => exact hs
  | beside _ _ ih => exact ih
  | call _ hcall hallow habort ih => exact hstep ih hcall hallow habort

structure Fresh (R : Reading b.Table b.Location b.Vacant b.Scan K V) (u : User W K V) (t : b.Table) : Prop where
  wf : R.Wf t
  counted : R.Counted t
  settled : R.Settled t
  sound : ∀ q, R.Sound u q t
  entries : R.entries t = []

def Reachable (b : TableBackend W K V) (u : User W K V) (initial : b.Table → Prop) (allow : Event b → Prop)
    (t : b.Table) : Prop :=
  ∃ t₀ w₀ w, initial t₀ ∧ Runs b u allow (t₀, w₀) (t, w)

variable {R : Reading b.Table b.Location b.Vacant b.Scan K V} {u : User W K V} {κ : K ⊕ V → Nat} {allow : Event b → Prop}
  {s s' : b.Table × World W K V} {op : Op K V}

theorem done_of_step (hc : Contract R u) (hw : R.Wf s.1) {r : Ret K V} (h : step b u op s = (.ok r, s')) :
    Done R u κ op s s' := (wp_of_ok h).mp (wp_step hc hw op)

theorem failed_of_step (hc : Contract R u) (hw : R.Wf s.1) {p : Panic} (h : step b u op s = (.error p, s')) :
    Failed R u κ op s p s' := (wp_of_error h).mp (wp_step hc hw op)

theorem remains_of_step (hc : Contract R u) (hw : R.Wf s.1) {p : Panic} (h : step b u op s = (.error p, s'))
    (hne : (.error p : Except Panic (Ret K V)) ≠ .error .abort) : Remains R u κ op s s' :=
  (failed_of_step hc hw h).2 fun hp => hne (hp ▸ rfl)

theorem wf_of_step (hc : Contract R u) (hw : R.Wf s.1) {r : Except Panic (Ret K V)} (h : step b u op s = (r, s'))
    (hne : r ≠ .error .abort) : R.Wf s'.1 := by
  cases r with
  | ok r => exact (done_of_step (κ := fun _ => 0) hc hw h).wf
  | error p => exact (remains_of_step (κ := fun _ => 0) hc hw h hne).wf

end HashMap

open HashMap

variable {W K V : Type} (group : GroupBackend) (u : User W K V)

namespace Funnel

open FunnelTable

def Initial (t : FunnelTable K V) : Prop :=
  ∃ capacity r w w', tryWithInsertBudget group u capacity r w = (.ok (.ok t), w')

variable {group u} {t : FunnelTable K V}

theorem Initial.shape (h : Initial group u t) :
    t.shape.Planned t.reserveFraction ∧ t.shape.n < 2 ^ 63 ∧
      t = fresh t.shape t.reserveFraction (.empty t.shape.n) (.zeroed (Membership.wordCount t.shape.n)) := by
  obtain ⟨capacity, r, w, w', hrun⟩ := h
  suffices hwp : wp (tryWithInsertBudget group u capacity r)
      (fun res _ => ∀ t : FunnelTable K V, res = .ok t → t.shape.Planned t.reserveFraction ∧ t.shape.n < 2 ^ 63 ∧
        t = fresh t.shape t.reserveFraction (.empty t.shape.n) (.zeroed (Membership.wordCount t.shape.n)))
      (fun _ _ => True) w from (wp_of_ok hrun).mp hwp t rfl
  rw [tryWithInsertBudget, wp_ite]
  refine ⟨fun _ => nofun, fun _ => ?_⟩
  cases hshape : FunnelShape.forInsertBudget capacity r with
  | error e =>
    intro _ h
    cases h
  | ok shape =>
    dsimp only
    rw [wp_bind, tryFromShape, wp_bind]
    refine wp_mono (wp_tryAllocateStorage shape.n w) ?_ (fun _ _ => id)
    rintro (e | ⟨storage, membership⟩) w₁ ⟨-, hnew⟩
    · intro _ h
      cases h
    · obtain ⟨rfl, rfl, hsmall⟩ := hnew storage membership rfl
      intro _ h
      cases h
      exact ⟨(FunnelShape.forInsertBudget_spec hshape).2, hsmall, rfl⟩

theorem Initial.fresh (h : Initial group u t) : Fresh (b := Funnel.backend group u) (reading group) u t := by
  obtain ⟨hshape, hsmall, ht⟩ := h.shape
  have hstart := rebuilding_start (u := u) hshape hsmall .initial
  rw [ht] at hstart ⊢
  exact ⟨hstart.wf, hstart.counted, .of_clean rfl rfl, hstart.sound, Region.entries_empty⟩

end Funnel

namespace Elastic

open ElasticTable

def Initial (t : ElasticTable K V) : Prop :=
  ∃ capacity r w w', withCapacityAndReserve group u capacity r w = (.ok t, w')

variable {group u} {t : ElasticTable K V}

theorem Initial.blank (h : Initial group u t) :
    ∃ g n, Scaled n ∧ g.Laid n t.reserveFraction ∧ (∀ cap ∈ g.levelCapacities, cap ≤ u32Max) ∧ t.Blank g := by
  obtain ⟨capacity, r, w, w', hrun⟩ := h
  suffices hwp : wp (withCapacityAndReserve group u capacity r)
      (fun (t : ElasticTable K V) _ => ∃ g n, Scaled n ∧ g.Laid n t.reserveFraction ∧
        (∀ cap ∈ g.levelCapacities, cap ≤ u32Max) ∧ t.Blank g) (fun _ _ => True) w from (wp_of_ok hrun).mp hwp
  have hgeometry : ∃ n, Scaled n ∧ (ElasticGeometry.forInsertBudget group capacity r = .ok none ∨
      ∃ g, ElasticGeometry.forInsertBudget group capacity r = .ok (some g) ∧ g.Laid n r) := by
    unfold ElasticGeometry.forInsertBudget
    split
    · exact ⟨0, .inl rfl, ElasticGeometry.forSlots_spec 0 r⟩
    · split
      · exact ⟨0, .inl rfl, .inl rfl⟩
      · rename_i n hn
        obtain ⟨-, doublings, rfl⟩ := Capacity.capacityFor_spec hn
        exact ⟨_, scaled_initialCapacity.scale doublings, ElasticGeometry.forSlots_spec _ r⟩
  obtain ⟨n, hscaled, hgeometry⟩ := hgeometry
  rw [withCapacityAndReserve, wp_bind]
  rcases hgeometry with hnone | ⟨g, hsome, hg⟩
  · rw [hnone]
    exact trivial
  · rw [hsome, liftPanic, wp_pure, wp_bind, expect, wp_pure, wp_bind, tryFromGeometry, wp_bind]
    refine wp_mono wp_tryProbeSchedule ?_ (fun _ _ => id)
    rintro (e | _) w₁ -
    · exact trivial
    · dsimp only
      rw [wp_bind]
      refine wp_mono wp_tryAllocElasticArena ?_ (fun _ _ => id)
      rintro (e | ⟨levels, membership⟩) w₂ ⟨-, hnew⟩
      · exact trivial
      · obtain ⟨rfl, rfl, hsmall⟩ := hnew levels membership rfl
        exact ⟨g, n, hscaled, hg, hsmall, rfl, rfl, rfl, rfl, rfl, rfl, rfl, rfl⟩

theorem Initial.fresh (h : Initial group u t) : Fresh (b := Elastic.backend group u) (reading group) u t := by
  obtain ⟨g, n, hscaled, hg, hsmall, hblank⟩ := h.blank
  refine ⟨⟨hblank.wf hg hsmall, ?_⟩, hblank.counted, .of_clean ?_ hblank.stale, fun _ => hblank.sound, hblank.entries⟩
  · rw [hblank.totalSlots, hg.totalSlots]
    exact hscaled
  · rw [hblank.levels]
    exact fun l hl => (levels_newAt hl).2.2.2.2

end Elastic

end Opthash
