import Opthash.Funnel.Snug
import Opthash.Shell.Solvent

namespace Opthash.Funnel

open Exec FunnelTable HashMap

variable {W K V : Type} {group : GroupBackend} {u : User W K V} {r : ReserveFraction}

namespace FunnelTable

/-- Some slots serve `needed` entries, and a layout of them exists. -/
def Enlarges (group : GroupBackend) (u : User W K V) (t : FunnelTable K V) (needed : Nat) : Prop :=
  ∃ slots, t.nextGrowthSlots needed = some slots ∧ ∃ p, funnelLayout group u.slotSize u.slotAlign slots = .ok p

end FunnelTable

def room (group : GroupBackend) (u : User W K V) : Room (Funnel.backend group u) where
  grows := fun t => t.Enlarges group u (saturatingUsize (t.len + 1))
  reserves := Enlarges group u
  shrinks := fun t minCapacity => minCapacity = 0 ∨ ∃ n, FunnelShape.Serves minCapacity t.reserveFraction n

namespace FunnelTable

variable {t : FunnelTable K V} {w : World W K V} {minCapacity : Nat}

section Cases

variable {Q : Unit → FunnelTable K V × World W K V → Prop} {Z : Panic → FunnelTable K V × World W K V → Prop}

theorem wp_shrinkTo_cases (hw : t.Wf) (hs : t.Snug group u t.reserveFraction) (hself : Q () (t, w))
    (hserved : minCapacity = 0 ∨ ∃ n, FunnelShape.Serves minCapacity t.reserveFraction n)
    (hresize : ∀ shape : FunnelShape, shape.Planned t.reserveFraction →
      FunnelShape.forInsertBudget shape.maxInsertions t.reserveFraction = .ok shape →
      max t.len minCapacity ≤ shape.maxInsertions → shape.n < t.shape.n →
      wp (resizeWithTransition group u shape.n .explicitResize) Q Z (t, w)) :
    wp (shrinkTo group u minCapacity) Q Z (t, w) := by
  rw [shrinkTo, wp_bind, wp_get]
  dsimp only
  rw [wp_ite]
  constructor
  · rintro ⟨hlen, rfl⟩
    rw [wp_ite]
    refine ⟨fun hslots => ?_, fun _ => hself⟩
    exact hresize .empty (FunnelShape.planned_empty _) rfl (by rw [hlen]; exact Nat.le_refl 0) (Nat.pos_of_ne_zero hslots)
  · intro hsome
    have hbudget : ∃ shape, FunnelShape.forInsertBudget (max t.len minCapacity) t.reserveFraction = .ok shape := by
      apply (FunnelShape.forInsertBudget_ok_iff (by omega)).mpr
      rcases Nat.le_total minCapacity t.len with hle | hle
      · rw [Nat.max_eq_left hle]
        have hlimit := hw.limit
        obtain ⟨n, hn⟩ := (FunnelShape.forInsertBudget_ok_iff (by omega)).mp ⟨_, hs.2.least⟩
        exact ⟨n, { hn with room := hlimit.trans hn.room }⟩
      · rw [Nat.max_eq_right hle]
        exact hserved.resolve_left (by omega)
    obtain ⟨shape, hbudget⟩ := hbudget
    obtain ⟨hroom, hplanned⟩ := FunnelShape.forInsertBudget_spec hbudget
    rw [hbudget, orPanic, pure_bind, wp_ite]
    exact ⟨fun hlt => hresize shape hplanned (FunnelShape.forInsertBudget_room hbudget) hroom hlt, fun _ => hself⟩

end Cases

section Solvent

variable (ho : u.Obliging fun _ => True)
include ho

theorem wp_resizeWithTransition_solvent {slots : Nat} {shape : FunnelShape} {transition : EpochTransition}
    (hshape : FunnelShape.fromSlots slots t.reserveFraction = .ok shape)
    (hlayout : ∃ p, funnelLayout group u.slotSize u.slotAlign shape.n = .ok p) :
    wp (resizeWithTransition group u slots transition) (fun _ _ => True) (fun e _ => e.Solvent) (t, w) := by
  rw [resizeWithTransition, wp_bind, wp_get]
  dsimp only
  rw [hshape, orPanic, pure_bind, wp_bind]
  refine wp_mono (wp_tryResizeTo_granted ho (fun _ => id) hlayout trivial) ?_ (fun _ _ => id)
  rintro res s ⟨a, rfl⟩
  exact trivial

theorem resizes_of_layout (hs : t.Snug group u r) {slots : Nat} {shape : FunnelShape}
    (hshape : FunnelShape.fromSlots slots r = .ok shape)
    (hleast : FunnelShape.forInsertBudget shape.maxInsertions r = .ok shape)
    (hlayout : ∃ p, funnelLayout group u.slotSize u.slotAlign shape.n = .ok p) :
    Resizes group u Panic.Solvent (Snug group u r) t slots := by
  intro transition w
  have hsnug : Within (fun _ => True) (fun s => s.1.Snug group u r)
      (resizeWithTransition group u slots transition : Run (FunnelTable K V) W K V _) := by
    refine within_resizeWithTransition (fun shape' h => ?_) transition
    rw [hshape] at h
    cases h
    exact hleast
  have hsolvent : wp (resizeWithTransition group u slots transition) (fun _ _ => True) (fun e _ => e.Solvent) (t, w) :=
    wp_resizeWithTransition_solvent ho (hs.1 ▸ hshape) hlayout
  exact wp_mono (wp_and (hsnug (t, w) hs) hsolvent) (fun _ _ h => h.1) (fun _ _ h => ⟨h.2, h.1.2⟩)

theorem resizes_same (hs : t.Snug group u r) : Resizes group u Panic.Solvent (Snug group u r) t t.shape.n :=
  resizes_of_layout ho hs hs.planned hs.2.least hs.2.layout

theorem resizes_of_nextGrowthSlots (hs : t.Snug group u r) {needed slots : Nat}
    (hgrow : t.nextGrowthSlots needed = some slots)
    (hlayout : ∃ p, funnelLayout group u.slotSize u.slotAlign slots = .ok p) :
    Resizes group u Panic.Solvent (Snug group u r) t slots := by
  cases proposes_of_nextGrowthSlots hgrow with
  | same => exact resizes_same ho hs
  | none => exact resizes_of_layout ho hs rfl rfl hlayout
  | budget hbudget =>
    rw [hs.1] at hbudget
    exact resizes_of_layout ho hs (FunnelShape.forInsertBudget_spec hbudget).2 (FunnelShape.forInsertBudget_room hbudget)
      hlayout

theorem upheld_enlarge (hs : t.Snug group u r) {needed : Nat} (hlarge : t.Enlarges group u needed)
    (transition : EpochTransition) (w : World W K V) :
    Upheld Panic.Solvent (Snug group u r) (expect .capacityOverflow (t.nextGrowthSlots needed) >>= fun slots =>
      resizeWithTransition group u slots transition) t w := by
  obtain ⟨slots, hgrow, hlayout⟩ := hlarge
  refine .expect_bind hs (fun hnone => ?_) fun slots' hgrow' => ?_
  · rw [hgrow] at hnone
    cases hnone
  · rw [hgrow] at hgrow'
    cases hgrow'
    exact resizes_of_nextGrowthSlots ho hs hgrow hlayout transition w

theorem upheld_shrinkTo_solvent (hw : t.Wf) (hs : t.Snug group u r) (hserved : (room group u).shrinks t minCapacity)
    (w : World W K V) : Upheld Panic.Solvent (Snug group u r) (shrinkTo group u minCapacity) t w := by
  have hsame : t.reserveFraction = r := hs.1
  obtain ⟨p, hp⟩ := hs.2.layout
  refine wp_shrinkTo_cases hw (hsame.symm ▸ hs) hs hserved fun shape hplanned hleast _ hlt => ?_
  rw [hsame] at hplanned hleast
  exact resizes_of_layout ho hs hplanned hleast (funnelLayout_of_le hp (Nat.le_of_lt hlt)) .explicitResize w

theorem wp_tryFromShape_granted {shape : FunnelShape}
    (hlayout : ∃ p, funnelLayout group u.slotSize u.slotAlign shape.n = .ok p)
    {Z : Panic → World W K V → Prop} :
    wp (tryFromShape group u shape r) (fun res _ => ∃ t : FunnelTable K V, res = .ok t) Z w := by
  rw [tryFromShape, wp_bind]
  refine wp_mono (wp_tryAllocateStorage_granted ho hlayout trivial) ?_ (fun _ _ => id)
  rintro res w' ⟨⟨⟨storage, membership⟩, rfl⟩, -⟩
  exact ⟨_, rfl⟩

theorem wp_cloneTable_solvent (hs : t.Snug group u r) :
    wp (cloneTable group u t) (fun _ _ => True) (fun e _ => e.Solvent) w := by
  have hE := Panic.tolerates_solvent
  have hdrop : ∀ storage : Region (K × V), Within (fun _ => True) (fun _ : World W K V => True)
      (dropValues group true u [storage]) := fun _ => .steady fun _ _ => id
  rw [cloneTable, wp_bind]
  refine wp_mono (World.within_call hE u.cloneBuilder w trivial) (fun _ w₁ _ => ?_) (fun _ _ h => h.1)
  rw [wp_bind]
  refine wp_mono (wp_tryFromShape_granted ho hs.2.layout) ?_ (fun _ _ => id)
  rintro res w₂ ⟨cloned, rfl⟩
  refine wp_mono (Within.bind (E := Panic.Solvent) (I := fun _ => True) (.withLocal ?_) (fun _ => ?_) w₂ trivial)
    (fun _ _ => id) (fun _ _ h => h.1)
  · refine (within_cloneRegionFrom hE true t.storage).guarded (.get_bind fun s _ => ?_)
    exact .onSnd fun _ => (hdrop s.1).mono fun _ _ => hE.abort
  · exact (within_copyMembershipFrom hE _ _).bind fun _ => .pure _

theorem maintains_solvent (r : ReserveFraction) :
    Maintains (b := Funnel.backend group u) (reading group) u Panic.Solvent (room group u) (FunnelTable.Snug group u r) := by
  have hE := Panic.tolerates_solvent
  have hupkept : Upkept group u Panic.Solvent (Snug group u r : FunnelTable K V → Prop) :=
    upkept_snug hE fun hs => resizes_same ho hs
  have hgrows : ∀ {t : FunnelTable K V}, t.Snug group u r →
      (t.shape.maxInsertions ≤ t.len → t.Enlarges group u (saturatingUsize (t.len + 1))) →
      Grows group u Panic.Solvent (Snug group u r) t :=
    fun hs hroom hfull w => upheld_enlarge ho hs (hroom hfull) .growth w
  exact maintains_of_keeping hupkept {
    tolerates := hE
    insertForVacant := fun hs hroom _ _ vacant _ => hupkept.upheld_insertForVacant hs (hgrows hs hroom) vacant
    insert := fun hw hs _ _ _ hroom _ => hupkept.upheld_insert hs hw fun hrefuted => hgrows hs (hroom hrefuted)
    writeValue := fun _ _ _ _ => id
    finishDeferredRemovals := hupkept.within_settleAfterDeletes
    resize := fun hs hlarge w => upheld_enlarge ho hs hlarge .explicitResize w
    tryResize := fun hs hgrow w =>
      within_tryResize hE (fun _ => hs.of_proposes (proposes_of_nextGrowthSlots hgrow)) (_, w) hs
    shrinkTo := fun hw hs hserved w => upheld_shrinkTo_solvent ho hw hs hserved w
    cloneTable := fun _ hs _ => wp_mono (wp_and (snug_cloneTable hs) (wp_cloneTable_solvent ho hs))
      (fun _ _ h => h.1) (fun _ _ h => h.2) }

end Solvent

theorem funded (group : GroupBackend) (u : User W K V) (r : ReserveFraction) :
    Funded (b := Funnel.backend group u) (reading group) u (room group u) (FunnelTable.Snug group u r) :=
  ⟨maintains group u r, fun ho => maintains_solvent ho r⟩

end FunnelTable

end Opthash.Funnel
