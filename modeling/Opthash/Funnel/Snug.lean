import Opthash.Funnel.Budget
import Opthash.Funnel.Upkept
import Opthash.Raw.Extents

namespace Opthash.Funnel

open Exec FunnelTable HashMap

variable {W K V : Type} {group : GroupBackend} {u : User W K V} {r : ReserveFraction} {key : K} {value : V} {x : UInt64}

/-- A shape as `for_insert_budget` makes them for what they have room for, of a size that has a layout. -/
structure FunnelShape.Snug (group : GroupBackend) (u : User W K V) (r : ReserveFraction) (s : FunnelShape) : Prop where
  least : forInsertBudget s.maxInsertions r = .ok s
  layout : ∃ p, funnelLayout group u.slotSize u.slotAlign s.n = .ok p

theorem funnelLayout_of_le {slotSize slotAlign n n' : Nat} {p : Layout × Nat}
    (h : funnelLayout group slotSize slotAlign n = .ok p) (hn : n' ≤ n) :
    ∃ p', funnelLayout group slotSize slotAlign n' = .ok p' := by
  have hrest : ∀ {controlBytes controlBytes' : Nat} {p : Layout × Nat}, controlBytes' ≤ controlBytes →
      (Arena.layoutForExtents slotSize slotAlign controlBytes n >>= fun base => Arena.extendMembership base.1 n) = .ok p →
      ∃ p', (Arena.layoutForExtents slotSize slotAlign controlBytes' n' >>= fun base =>
        Arena.extendMembership base.1 n') = .ok p' := by
    intro controlBytes controlBytes' p hle h
    obtain ⟨⟨base, offset⟩, hbase, h⟩ := bind_ok h
    obtain ⟨⟨base', offset'⟩, hbase', hwithin, -⟩ := Arena.layoutForExtents_of_le hbase hle hn
    rw [hbase']
    exact Arena.extendMembership_of_le h hwithin hn
  unfold funnelLayout at h ⊢
  by_cases hzero' : n' = 0
  · rw [if_pos hzero']
    by_cases hzero : n = 0
    · rw [if_pos hzero] at h
      exact hrest (Nat.le_refl 0) h
    · rw [if_neg hzero] at h
      obtain ⟨controlBytes, -, h⟩ := bind_ok h
      exact hrest (Nat.zero_le controlBytes) h
  · rw [if_neg (show ¬n = 0 by omega)] at h
    obtain ⟨controlBytes, hcontrol, h⟩ := bind_ok h
    obtain ⟨rfl, hsize⟩ := checkedUsize_spec (orOverflow_spec hcontrol)
    rw [if_neg hzero', show checkedUsize (n' + (group.groupSize - 1)) = some (n' + (group.groupSize - 1)) from
      if_pos (by omega)]
    exact hrest (Nat.add_le_add_right hn _) h

namespace FunnelTable

variable {t : FunnelTable K V} {w : World W K V}

def Snug (group : GroupBackend) (u : User W K V) (r : ReserveFraction) (t : FunnelTable K V) : Prop :=
  t.reserveFraction = r ∧ t.shape.Snug group u r

theorem Snug.transfer {W' : Type} {u' : User W' K V} (h : t.Snug group u r) (hslots : u.SameSlots u') : t.Snug group u' r := by
  refine ⟨h.1, h.2.least, ?_⟩
  rw [hslots.size, hslots.align]
  exact h.2.layout

theorem Snug.planned (h : t.Snug group u r) : FunnelShape.fromSlots t.shape.n r = .ok t.shape :=
  (FunnelShape.forInsertBudget_spec h.2.least).2

theorem wp_tryAllocateStorage_layout (n : Nat) {Z : Panic → World W K V → Prop} :
    wp (tryAllocateStorage group u n : Exec Panic (World W K V) (Except TryReserveError (Region (K × V) × MembershipRegion)))
      (fun res _ => ∀ p, res = .ok p → ∃ p, funnelLayout group u.slotSize u.slotAlign n = .ok p) Z w := by
  rcases hlayout : funnelLayout group u.slotSize u.slotAlign n with e | p
  · unfold tryAllocateStorage
    rw [hlayout]
    exact fun p h => by cases h
  · exact wp_mono (wp_tryAllocateStorage n w) (fun _ _ _ _ _ => ⟨p, rfl⟩) (fun _ _ => id)

theorem within_tryResizeTo {E : Panic → Prop} (hE : Panic.Tolerates E) {shape : FunnelShape}
    (hleast : FunnelShape.forInsertBudget shape.maxInsertions r = .ok shape) (transition : EpochTransition) :
    Within E (fun s => s.1.Snug group u r) (tryResizeTo group u shape transition : Run (FunnelTable K V) W K V _) := by
  rintro ⟨t, w⟩ hs
  rw [tryResizeTo, wp_bind, wp_onSnd]
  refine wp_mono (wp_tryAllocateStorage_layout shape.n) ?_ (fun _ _ => id)
  rintro (e | ⟨storage, membership⟩) w₁ hlayout
  · exact hs
  · have hshape : shape.Snug group u r := ⟨hleast, hlayout _ rfl⟩
    refine (Within.get_bind fun s _ => ?_) (t, w₁) hs
    obtain ⟨t, w⟩ := s
    dsimp only
    refine (Rebuildable.within_rebuild hE.internal ?_ ?_ (fun k => .aside (User.within_hash hE k)) fun e x => ?_).bind
      fun _ => ?_
    · exact fun s h => ⟨h.1, hshape⟩
    · exact fun s s' h h' => ⟨h'.1, h.2⟩
    · exact .onFst fun w => within_placeUnique hE.internal (fun _ _ _ _ _ _ _ => id) e x
    · exact Within.bind (.modify fun _ => id) fun _ => .pure _

theorem within_resizeWithTransition {slots : Nat}
    (hslots : ∀ shape, FunnelShape.fromSlots slots r = .ok shape →
      FunnelShape.forInsertBudget shape.maxInsertions r = .ok shape) (transition : EpochTransition) :
    Within (fun _ => True) (fun s => s.1.Snug group u r)
      (resizeWithTransition group u slots transition : Run (FunnelTable K V) W K V _) := by
  refine .get_bind fun s hs => ?_
  obtain ⟨t, w⟩ := s
  dsimp only
  rw [show t.reserveFraction = r from hs.1]
  cases hshape : FunnelShape.fromSlots slots r with
  | error e => exact .raise_bind trivial
  | ok shape =>
    refine .pure_bind ((within_tryResizeTo Panic.tolerates_any (hslots shape hshape) transition).bind fun result => ?_)
    cases result with
    | ok _ => exact .pure _
    | error e =>
      cases funnelLayout group u.slotSize u.slotAlign shape.n with
      | error e => exact .raise_bind trivial
      | ok layout => exact .pure_bind (.raise trivial)

theorem within_tryResize {E : Panic → Prop} (hE : Panic.Tolerates E) {slots : Nat}
    (hslots : ∀ shape, FunnelShape.fromSlots slots r = .ok shape →
      FunnelShape.forInsertBudget shape.maxInsertions r = .ok shape) :
    Within E (fun s => s.1.Snug group u r) (tryResize group u slots : Run (FunnelTable K V) W K V _) := by
  refine .get_bind fun s hs => ?_
  obtain ⟨t, w⟩ := s
  dsimp only
  rw [show t.reserveFraction = r from hs.1]
  cases hshape : FunnelShape.fromSlots slots r with
  | error e => exact .pure _
  | ok shape => exact within_tryResizeTo hE (hslots shape hshape) .explicitResize

theorem Snug.least (h : t.Snug group u r) {shape : FunnelShape}
    (hshape : FunnelShape.fromSlots t.shape.n r = .ok shape) :
    FunnelShape.forInsertBudget shape.maxInsertions r = .ok shape := by
  rw [h.planned] at hshape
  cases hshape
  exact h.2.least

theorem Snug.of_proposes (h : t.Snug group u r) {slots : Nat} (hslots : t.Proposes slots) {shape : FunnelShape}
    (hshape : FunnelShape.fromSlots slots r = .ok shape) : FunnelShape.forInsertBudget shape.maxInsertions r = .ok shape := by
  cases hslots with
  | same => exact h.least hshape
  | none =>
    cases hshape
    rfl
  | budget hbudget =>
    rw [h.1] at hbudget
    rw [(FunnelShape.forInsertBudget_spec hbudget).2] at hshape
    cases hshape
    exact FunnelShape.forInsertBudget_room hbudget

variable {E : Panic → Prop}

theorem upkept_snug (hE : Panic.Tolerates E)
    (hrebuild : ∀ {t : FunnelTable K V}, t.Snug group u r → Resizes group u E (Snug group u r) t t.shape.n) :
    Upkept group u E (Snug group u r : FunnelTable K V → Prop) where
  tolerates := hE
  place := fun _ _ _ _ _ _ => id
  replaceValue := fun _ _ _ => id
  recordMembership := fun _ _ => id
  clearMembership := id
  recover := id
  restart := id
  rebuild := hrebuild

section Methods

theorem within_remove (h : Upkept group u E (Snug group u r : FunnelTable K V → Prop)) (slot : Nat) :
    Within E (fun s => s.1.Snug group u r) (remove group u slot : Run (FunnelTable K V) W K V _) := by
  refine .get_bind fun s _ => ?_
  obtain ⟨t, w⟩ := s
  refine Within.bind (.expect (h.tolerates.internal _ rfl) _) fun entry => Within.bind (.modify fun _ => id) fun _ => ?_
  exact (User.within_owned h.tolerates h.within_settleAfterDeletes).bind fun _ => .pure _

theorem within_clear (hE : Panic.Tolerates E) :
    Within E (fun s => s.1.Snug group u r) (clear group u : Run (FunnelTable K V) W K V Unit) := by
  refine .ite (fun _ => Within.bind (within_forOccupied (fun _ slot => .get_bind fun s _ => ?_) _) fun _ =>
    .modify fun _ => id) fun _ => .modify fun _ => id
  obtain ⟨t, w⟩ := s
  refine Within.bind (.expect (hE.internal _ rfl) _) fun entry => Within.bind (.modify fun _ => id) fun _ => ?_
  exact .aside (User.within_dropEntry hE entry)

theorem snug_cloneTable (hs : t.Snug group u r) :
    wp (cloneTable group u t) (fun t' _ => t'.Snug group u r) (fun _ _ => True) w := by
  rw [cloneTable, wp_bind]
  refine wp_mono (wp_self _ w) (fun _ w₁ _ => ?_) (fun _ _ _ => trivial)
  rw [wp_bind]
  refine wp_mono wp_tryFromShape ?_ (fun _ _ => id)
  rintro (e | cloned) w₂ ⟨-, hnew⟩
  · exact trivial
  · obtain rfl := hnew cloned rfl
    dsimp only
    rw [wp_bind]
    refine wp_mono (wp_self _ w₂) (fun p w₃ _ => ?_) (fun _ _ _ => trivial)
    obtain ⟨-, storage⟩ := p
    dsimp only
    rw [wp_bind]
    refine wp_mono (wp_self _ w₃) (fun membership w₄ _ => ?_) (fun _ _ _ => trivial)
    exact hs

end Methods

theorem maintains_of_keeping {room : Room (Funnel.backend group u)} (h : Upkept group u E (Snug group u r))
    (hk : Keeping (b := Funnel.backend group u) (reading group) u E room (FunnelTable.Snug group u r)) :
    Maintains (b := Funnel.backend group u) (reading group) u E room (FunnelTable.Snug group u r) where
  toKeeping := hk
  remove := within_remove h
  extractFinish := fun _ _ => id
  tombstoneSlot := fun _ _ => id
  clear := within_clear h.tolerates
  wipeAll := id

theorem maintains (group : GroupBackend) (u : User W K V) (r : ReserveFraction) :
    Maintains (b := Funnel.backend group u) (reading group) u (fun _ => True) Room.any (FunnelTable.Snug group u r) := by
  have hresize : ∀ {t : FunnelTable K V} {slots}, t.Snug group u r → t.Proposes slots →
      Resizes group u (fun _ => True) (Snug group u r) t slots :=
    fun hs hslots transition w => within_resizeWithTransition (fun _ => hs.of_proposes hslots) transition (_, w) hs
  have hupkept := upkept_snug Panic.tolerates_any fun hs => hresize hs .same
  refine maintains_of_keeping hupkept (keeping_of_resizes hupkept hresize ?_ fun hs _ => snug_cloneTable hs)
  exact fun hs hslots w => within_tryResize Panic.tolerates_any (fun _ => hs.of_proposes hslots) (_, w) hs

section Granted

variable {J : W → Prop} (ho : u.Obliging J)
include ho

theorem wp_tryAllocateStorage_granted {n : Nat} (hlayout : ∃ p, funnelLayout group u.slotSize u.slotAlign n = .ok p)
    (hj : J w.code) {Z : Panic → World W K V → Prop} :
    wp (tryAllocateStorage group u n : Exec Panic (World W K V) (Except TryReserveError (Region (K × V) × MembershipRegion)))
      (fun res w' => (∃ p, res = .ok p) ∧ J w'.code) Z w := by
  obtain ⟨⟨layout, words⟩, hlayout⟩ := hlayout
  unfold tryAllocateStorage
  rw [hlayout]
  dsimp only
  rw [wp_ite, wp_bind, wp_bind]
  refine ⟨fun _ => ⟨⟨_, rfl⟩, hj⟩, fun _ => wp_mono (ho.wp_alloc hj layout) ?_ (fun _ _ => id)⟩
  rintro granted w' ⟨rfl, hj'⟩
  exact ⟨⟨_, rfl⟩, hj'⟩

theorem wp_tryResizeTo_granted {shape : FunnelShape} {transition : EpochTransition}
    (hinternal : ∀ text, (Panic.internal text).exhausts = false → E (.internal text))
    (hlayout : ∃ p, funnelLayout group u.slotSize u.slotAlign shape.n = .ok p) (hj : J w.code) :
    wp (tryResizeTo group u shape transition) (fun res _ => ∃ a, res = .ok a) (fun e _ => E e) (t, w) := by
  rw [tryResizeTo, wp_bind, wp_onSnd]
  refine wp_mono (wp_tryAllocateStorage_granted ho hlayout hj) ?_ (fun _ _ => id)
  rintro res w₁ ⟨⟨⟨storage, membership⟩, rfl⟩, hj₁⟩
  dsimp only
  rw [wp_bind, wp_get]
  dsimp only
  rw [wp_bind]
  refine wp_mono (Rebuildable.within_rebuild (I := fun s => J s.2.code) hinternal (fun _ => id) (fun _ _ _ => id)
    (fun k => .onSnd fun _ => ho.within_hash k) (fun e x => .onFst fun w => within_placeUnique hinternal
      (fun _ _ _ _ _ _ _ => id) e x) (t, w₁) hj₁) ?_ (fun _ _ h => h.1)
  exact fun _ _ _ => ⟨_, rfl⟩

theorem wp_resizeWithTransition_granted {shape : FunnelShape} (hw : t.Wf) (hs : shape.Planned t.reserveFraction)
    (hfit : t.len ≤ shape.maxInsertions) (hlayout : ∃ p, funnelLayout group u.slotSize u.slotAlign shape.n = .ok p)
    (hj : J w.code) (transition : EpochTransition) :
    wp (resizeWithTransition group u shape.n transition) (fun _ s => Rebuilt u t shape transition s.1)
      (fun _ _ => False) (t, w) := by
  simp only [resizeWithTransition, wp_bind, wp_get]
  rw [show FunnelShape.fromSlots shape.n t.reserveFraction = .ok shape from hs, orPanic, wp_pure, wp_bind]
  refine wp_mono (wp_and (wp_tryResizeTo hw hs hfit transition w)
    (wp_tryResizeTo_granted (E := (· ≠ .user)) ho (fun _ _ => Panic.noConfusion) hlayout hj)) ?_
    (fun e s h => h.2 h.1.1.1)
  rintro res s ⟨⟨-, hrebuilt⟩, a, rfl⟩
  exact hrebuilt

end Granted

end FunnelTable

theorem Initial.snug {t : FunnelTable K V} (h : Initial group u t) : t.Snug group u t.reserveFraction := by
  obtain ⟨capacity, r, w, w', hrun⟩ := h
  suffices hwp : wp (tryWithInsertBudget group u capacity r)
      (fun res _ => ∀ t : FunnelTable K V, res = .ok t → t.Snug group u t.reserveFraction) (fun _ _ => True) w from
    (wp_of_ok hrun).mp hwp t rfl
  rw [tryWithInsertBudget, wp_ite]
  refine ⟨fun _ => ?_, fun _ => ?_⟩
  · intro _ h
    cases h
  cases hshape : FunnelShape.forInsertBudget capacity r with
  | error e =>
    intro _ h
    cases h
  | ok shape =>
    dsimp only
    rw [wp_bind, tryFromShape, wp_bind]
    refine wp_mono (wp_tryAllocateStorage_layout shape.n) ?_ (fun _ _ => id)
    rintro (e | ⟨storage, membership⟩) w₁ hlayout
    · intro _ h
      cases h
    · intro _ h
      cases h
      exact ⟨rfl, FunnelShape.forInsertBudget_room hshape, hlayout _ rfl⟩

end Opthash.Funnel
