import Opthash.Elastic.Upkept
import Opthash.Raw.Extents

namespace Opthash.Elastic

open Exec ElasticTable HashMap

variable {W K V α β : Type} {group : GroupBackend} {u : User W K V} {key : K} {value : V} {x : UInt64}

theorem ElasticGeometry.forSlots_some {n : Nat} (r : ReserveFraction) (h : n ≤ maxElasticSlots) :
    ∃ g, forSlots n r = .ok (some g) ∧ g.Laid n r := by
  rcases forSlots_spec n r with hnone | hsome
  · rw [forSlots, if_neg (Nat.not_lt.mpr h)] at hnone
    by_cases hzero : n = 0
    · rw [if_pos hzero] at hnone
      cases hnone
    · rw [if_neg hzero] at hnone
      by_cases hone : n = 1
      · rw [if_pos hone] at hnone
        cases hnone
      · rw [if_neg hone] at hnone
        cases hconfig : Geometry.PaperConfig.new n r.exponent with
        | error e =>
          rw [hconfig] at hnone
          cases hnone
        | ok config =>
          rw [hconfig] at hnone
          obtain ⟨levels, -, hnone⟩ := bind_ok hnone
          obtain ⟨plan, -, hnone⟩ := bind_ok hnone
          cases hnone
  · exact hsome

theorem ElasticGeometry.sum_of_forInsertBudget {requested : Nat} {r : ReserveFraction} {g : ElasticGeometry}
    (h : forInsertBudget group requested r = .ok (some g)) : g.levelCapacities.sum = g.totalSlots := by
  have hslots : ∀ {n}, forSlots n r = .ok (some g) → g.levelCapacities.sum = g.totalSlots := by
    intro n hn
    have hg := laid_of_forSlots hn
    exact hg.sum.trans hg.totalSlots.symm
  unfold forInsertBudget at h
  by_cases hzero : requested = 0
  · rw [if_pos hzero] at h
    exact hslots h
  · rw [if_neg hzero] at h
    cases hcapacity : Capacity.capacityFor group.initialCapacity requested r with
    | none =>
      rw [hcapacity] at h
      cases h
    | some n =>
      rw [hcapacity] at h
      exact hslots h

namespace ElasticTable

section Arena

/-- An arena for `n` slots has a layout, with all its offsets in 32 bits. -/
structure Fits (u : User W K V) (n : Nat) : Prop where
  slotSize : u.slotSize ≤ u32Max
  slots : n ≤ u32Max
  layout : ∃ p, elasticArenaLayout u.slotSize u.slotAlign n = .ok p ∧ p.2.1 ≤ u32Max ∧ p.2.1 + n * u.slotSize ≤ u32Max

theorem Fits.of_le {n n' : Nat} (h : Fits u n) (hn : n' ≤ n) : Fits u n' := by
  refine ⟨h.slotSize, hn.trans h.slots, ?_⟩
  obtain ⟨p, hp, hoffset, hdata⟩ := h.layout
  obtain ⟨⟨base, offset⟩, hbase, hp⟩ := bind_ok hp
  obtain ⟨⟨layout, words⟩, hlayout, hp⟩ := bind_ok hp
  cases hp
  obtain ⟨⟨base', offset'⟩, hbase', hwithin, hle⟩ := Arena.layoutForExtents_of_le hbase hn hn
  obtain ⟨⟨layout', words'⟩, hlayout'⟩ := Arena.extendMembership_of_le hlayout hwithin hn
  have hmul : n' * u.slotSize ≤ n * u.slotSize := Nat.mul_le_mul_right _ hn
  dsimp only at hoffset hdata hle
  refine ⟨(layout', offset', words'), ?_, hle.trans hoffset, by dsimp only; omega⟩
  rw [elasticArenaLayout, Arena.layoutFor, hbase', ok_bind]
  dsimp only
  rw [hlayout']
  rfl

theorem checkedU32_spec {n a : Nat} (h : LayoutCursor.checkedU32 n = .ok a) : a = n ∧ n ≤ u32Max := by
  unfold LayoutCursor.checkedU32 at h
  by_cases hle : n ≤ u32Max
  · rw [if_pos hle] at h
    cases h
    exact ⟨rfl, hle⟩
  · rw [if_neg hle] at h
    cases h

theorem checkedU32_ok {n : Nat} (h : n ≤ u32Max) : LayoutCursor.checkedU32 n = .ok n := if_pos h

theorem reserveLevels_bounds {caps : List Nat} {cursor : LayoutCursor} {levels : List (Level K V)}
    (h : reserveLevels caps cursor = .ok levels) (hctrl : cursor.ctrlOff ≤ u32Max) (hdata : cursor.dataOff ≤ u32Max) :
    cursor.ctrlOff + caps.sum ≤ u32Max ∧ cursor.dataOff + caps.sum * cursor.slotSize ≤ u32Max := by
  induction caps generalizing cursor levels with
  | nil => simpa using ⟨hctrl, hdata⟩
  | cons cap caps ih =>
    obtain ⟨_, -, h⟩ := bind_ok h
    obtain ⟨next, hnext, h⟩ := bind_ok h
    obtain ⟨rest, hrest, -⟩ := bind_ok h
    obtain ⟨ctrlOff, hctrlOff, hnext⟩ := bind_ok hnext
    obtain ⟨dataBytes, hdataBytes, hnext⟩ := bind_ok hnext
    obtain ⟨dataOff, hdataOff, hnext⟩ := bind_ok hnext
    cases hnext
    obtain ⟨rfl, hctrl⟩ := checkedU32_spec hctrlOff
    obtain ⟨rfl, -⟩ := checkedU32_spec hdataBytes
    obtain ⟨rfl, hdata⟩ := checkedU32_spec hdataOff
    obtain ⟨hctrlSum, hdataSum⟩ := ih hrest hctrl hdata
    rw [List.sum_cons, Nat.add_mul]
    exact ⟨by rw [← Nat.add_assoc]; exact hctrlSum, by rw [← Nat.add_assoc]; exact hdataSum⟩

theorem reserveLevels_ok {caps : List Nat} {cursor : LayoutCursor} (hctrl : cursor.ctrlOff + caps.sum ≤ u32Max)
    (hdata : cursor.dataOff + caps.sum * cursor.slotSize ≤ u32Max) :
    ∃ levels : List (Level K V), reserveLevels caps cursor = .ok levels := by
  induction caps generalizing cursor with
  | nil => exact ⟨[], rfl⟩
  | cons cap caps ih =>
    rw [List.sum_cons, ← Nat.add_assoc] at hctrl
    rw [List.sum_cons, Nat.add_mul, ← Nat.add_assoc] at hdata
    obtain ⟨levels, hlevels⟩ := @ih { cursor with
      ctrlOff := cursor.ctrlOff + cap, dataOff := cursor.dataOff + cap * cursor.slotSize } hctrl hdata
    refine ⟨.newAt cap :: levels, ?_⟩
    rw [reserveLevels, checkedU32_ok (show cap ≤ u32Max by omega), ok_bind, LayoutCursor.reserve,
      checkedU32_ok (show cursor.ctrlOff + cap ≤ u32Max by omega), ok_bind,
      checkedU32_ok (show cap * cursor.slotSize ≤ u32Max by omega), ok_bind,
      checkedU32_ok (show cursor.dataOff + cap * cursor.slotSize ≤ u32Max by omega), ok_bind]
    change (reserveLevels caps _ >>= _) = _
    rw [hlevels]
    rfl

theorem totalCtrl_ok {caps : List Nat} (start : Nat) (h : start + caps.sum ≤ usizeMax) :
    caps.foldlM (fun total capacity => checkedUsize (total + capacity)) start = some (start + caps.sum) := by
  induction caps generalizing start with
  | nil => rfl
  | cons cap caps ih =>
    rw [List.sum_cons, ← Nat.add_assoc] at h
    rw [List.foldlM_cons, show checkedUsize (start + cap) = some (start + cap) from if_pos (by omega), List.sum_cons,
      ← Nat.add_assoc]
    exact ih (start + cap) h

variable {w : World W K V}

theorem wp_tryAllocElasticArena_fits {caps : List Nat} {Z : Panic → World W K V → Prop} :
    wp (tryAllocElasticArena u caps) (fun res _ => ∀ p, res = .ok p → Fits u caps.sum) Z w := by
  unfold tryAllocElasticArena
  cases htotal : totalCtrl caps with
  | none => exact fun _ h => by cases h
  | some total =>
    have hsum := totalCtrl_spec htotal
    rw [Nat.zero_add] at hsum
    subst hsum
    dsimp only
    rcases hlayout : elasticArenaLayout u.slotSize u.slotAlign caps.sum with e | ⟨layout, off, words⟩
    · exact fun _ h => by cases h
    · apply wp_allocOr
      intro allocated w' _
      rw [wp_ite]
      refine ⟨fun _ => ?_, fun _ _ h => by cases h⟩
      rcases hbuild : (buildElasticLevels u.slotSize off caps : Except _ (List (Level K V))) with e | levels
      · exact fun _ h => by cases h
      · intro _ _
        obtain ⟨cursor, hcursor, hlevels⟩ := bind_ok hbuild
        obtain ⟨dataOff, hdataOff, hcursor⟩ := bind_ok hcursor
        obtain ⟨slotSize, hslotSize, hcursor⟩ := bind_ok hcursor
        cases hcursor
        obtain ⟨rfl, hoff⟩ := checkedU32_spec hdataOff
        obtain ⟨rfl, hsize⟩ := checkedU32_spec hslotSize
        obtain ⟨hctrl, hdata⟩ := reserveLevels_bounds hlevels (Nat.zero_le _) hoff
        rw [Nat.zero_add] at hctrl
        exact ⟨hsize, hctrl, _, hlayout, hoff, hdata⟩

theorem wp_tryAllocElasticArena_granted {J : W → Prop} (ho : u.Obliging J) {caps : List Nat} (hfits : Fits u caps.sum)
    (hj : J w.code) {Z : Panic → World W K V → Prop} :
    wp (tryAllocElasticArena u caps) (fun res w' => (∃ p, res = .ok p) ∧ J w'.code) Z w := by
  obtain ⟨hsize, hslots, ⟨layout, off, words⟩, hlayout, hoff, hdata⟩ := hfits
  have htotal : totalCtrl caps = some caps.sum := by
    have := @totalCtrl_ok caps 0 (by unfold u32Max at hslots; unfold usizeMax; omega)
    rwa [Nat.zero_add] at this
  obtain ⟨levels, hlevels⟩ := @reserveLevels_ok K V caps ⟨0, off, u.slotSize⟩ (by rw [Nat.zero_add]; exact hslots) hdata
  have hbuild : (buildElasticLevels u.slotSize off caps : Except _ (List (Level K V))) = .ok levels := by
    rw [buildElasticLevels, LayoutCursor.new, checkedU32_ok hoff, ok_bind, checkedU32_ok hsize]
    exact hlevels
  unfold tryAllocElasticArena
  rw [htotal]
  dsimp only
  rw [hlayout]
  dsimp only
  rw [hbuild, wp_ite, wp_bind, wp_bind]
  refine ⟨fun _ => ⟨⟨_, rfl⟩, hj⟩, fun _ => wp_mono (ho.wp_alloc hj layout) ?_ (fun _ _ => id)⟩
  rintro granted w' ⟨rfl, hj'⟩
  exact ⟨⟨_, rfl⟩, hj'⟩

end Arena

section Methods

theorem written_totalSlots (P : Nat → Prop) : Written fun t : ElasticTable K V => P t.totalSlots where
  schedule := fun _ => id
  routes := fun _ _ => id
  write := fun _ _ _ _ _ _ => id

def Snug (u : User W K V) (t : ElasticTable K V) : Prop := Fits u t.totalSlots

theorem Snug.transfer {W' : Type} {u' : User W' K V} {t : ElasticTable K V} (h : t.Snug u) (hslots : u.SameSlots u') :
    t.Snug u' := by
  refine ⟨hslots.size.symm ▸ h.slotSize, h.slots, ?_⟩
  rw [hslots.size, hslots.align]
  exact h.layout

theorem within_tryProbeSchedule {E : Panic → Prop} (levels : Nat) :
    Within E (fun _ => True) (tryProbeSchedule u levels : Exec Panic (World W K V) _) := fun _ _ => trivial

theorem within_tryResizeTo {E : Panic → Prop} (hE : Panic.Tolerates E) {g : ElasticGeometry}
    (hsum : g.levelCapacities.sum = g.totalSlots) (transition : EpochTransition) :
    Within E (fun s => s.1.Snug u) (tryResizeTo group u g transition : Run (ElasticTable K V) W K V _) := by
  refine Within.bind (.aside (within_tryProbeSchedule _)) fun res => ?_
  cases res with
  | error e => exact .pure _
  | ok _ =>
    rintro ⟨t, w⟩ hs
    rw [wp_bind, wp_onSnd]
    refine wp_mono wp_tryAllocElasticArena_fits ?_ (fun _ _ => id)
    rintro (e | ⟨levels, membership⟩) w₁ hfits
    · exact hs
    · have hg : Fits u g.totalSlots := hsum ▸ hfits _ rfl
      refine (Rebuildable.within_rebuild hE.internal (fun _ _ => hg) (fun _ _ h _ => h)
        (fun k => .aside (User.within_hash hE k)) fun e x => .onFst fun w =>
          (written_totalSlots (Fits u)).within_placeUnique hE.internal e x).bind (fun _ => ?_) (t, w₁) hs
      exact Within.bind (.modify fun _ => id) fun _ => .pure _

theorem within_resizeWithTransition (slots : Nat) (transition : EpochTransition) :
    Within (fun _ => True) (fun s => s.1.Snug u)
      (resizeWithTransition group u slots transition : Run (ElasticTable K V) W K V _) := by
  refine .get_bind fun s _ => ?_
  obtain ⟨t, w⟩ := s
  dsimp only
  rcases ElasticGeometry.forSlots_spec slots t.reserveFraction with hnone | ⟨g, hsome, hg⟩
  · rw [hnone]
    exact .pure_bind (.raise_bind trivial)
  · rw [hsome]
    refine .pure_bind (.pure_bind
      ((within_tryResizeTo Panic.tolerates_any (hg.sum.trans hg.totalSlots.symm) transition).bind fun res => ?_))
    cases res with
    | ok _ => exact .pure _
    | error e => exact .raise trivial

theorem within_tryResize {E : Panic → Prop} (hE : Panic.Tolerates E) (slots : Nat) :
    Within E (fun s => s.1.Snug u) (tryResize group u slots : Run (ElasticTable K V) W K V _) := by
  refine .get_bind fun s _ => ?_
  obtain ⟨t, w⟩ := s
  dsimp only
  rcases ElasticGeometry.forSlots_spec slots t.reserveFraction with hnone | ⟨g, hsome, hg⟩
  · rw [hnone]
    exact .pure_bind (.pure _)
  · rw [hsome]
    exact .pure_bind (within_tryResizeTo hE (hg.sum.trans hg.totalSlots.symm) .explicitResize)

variable {E : Panic → Prop}

theorem upkept_snug (hE : Panic.Tolerates E)
    (hrebuild : ∀ {t : ElasticTable K V}, t.Snug u → Resizes group u E (ElasticTable.Snug u) t t.totalSlots) :
    Upkept group u E (ElasticTable.Snug u : ElasticTable K V → Prop) where
  toWritten := written_totalSlots (Fits u)
  tolerates := hE
  replaceValue := fun _ _ _ => id
  recordMembership := fun _ _ => id
  clearMembership := id
  recover := id
  rebuild := hrebuild

theorem within_remove (h : Upkept group u E (ElasticTable.Snug u : ElasticTable K V → Prop)) (loc : Nat × Nat) :
    Within E (fun s => s.1.Snug u) (remove group u loc : Run (ElasticTable K V) W K V _) := by
  refine .get_bind fun s _ => ?_
  obtain ⟨t, w⟩ := s
  refine Within.bind (.expect (h.tolerates.internal _ rfl) _) fun entry => Within.bind (.modify fun _ => id) fun _ => ?_
  refine (User.within_owned h.tolerates (.get_bind fun s _ => ?_)).bind fun _ => .pure _
  obtain ⟨t, w⟩ := s
  exact h.within_settleAfterDeletes _

theorem within_drainReset (hE : Panic.Tolerates E) (level : Nat) :
    Within E (fun s => s.1.Snug u) (drainReset group u level : Run (ElasticTable K V) W K V Unit) := by
  refine Within.bind (within_forOccupied (fun _ slot => .get_bind fun s _ => ?_) _) fun _ => .modify fun _ => id
  obtain ⟨t, w⟩ := s
  refine Within.bind (.expect (hE.internal _ rfl) _) fun entry => Within.bind (.modify fun _ => id) fun _ => ?_
  exact .aside (User.within_dropEntry hE entry)

theorem within_clear (hE : Panic.Tolerates E) :
    Within E (fun s => s.1.Snug u) (clear group u : Run (ElasticTable K V) W K V Unit) := by
  refine .get_bind fun s _ => ?_
  obtain ⟨t, w⟩ := s
  exact Within.bind (.forM (within_drainReset hE) _) fun _ => .modify fun _ => id

theorem snug_cloneTable {t : ElasticTable K V} {w : World W K V} (hs : t.Snug u) :
    wp (cloneTable group u t) (fun t' _ => t'.Snug u) (fun _ _ => True) w := by
  refine wp_mono wp_cloneTable_arena (fun t' _ heq => ?_) (fun _ _ _ => trivial)
  rw [heq]
  exact hs

theorem maintains_of_keeping {room : Room (Elastic.backend group u)} (h : Upkept group u E (ElasticTable.Snug u))
    (hk : Keeping (b := Elastic.backend group u) (reading group) u E room (ElasticTable.Snug u)) :
    Maintains (b := Elastic.backend group u) (reading group) u E room (ElasticTable.Snug u) where
  toKeeping := hk
  remove := within_remove h
  extractFinish := fun _ _ => id
  tombstoneSlot := fun _ _ => id
  clear := within_clear h.tolerates
  wipeAll := id

theorem maintains (group : GroupBackend) (u : User W K V) :
    Maintains (b := Elastic.backend group u) (reading group) u (fun _ => True) Room.any (ElasticTable.Snug u) := by
  have hresize : ∀ {t : ElasticTable K V}, t.Snug u → ∀ slots,
      Resizes group u (fun _ => True) (ElasticTable.Snug u) t slots :=
    fun hs slots transition w => within_resizeWithTransition slots transition (_, w) hs
  have hupkept := upkept_snug Panic.tolerates_any fun hs => hresize hs _
  refine maintains_of_keeping hupkept (keeping_of_resizes hupkept hresize ?_ fun hs _ => snug_cloneTable hs)
  exact fun hs slots w => within_tryResize Panic.tolerates_any slots (_, w) hs

end Methods

section Granted

variable {J : W → Prop} (ho : u.Obliging J) {t : ElasticTable K V} {w : World W K V} {E : Panic → Prop}
include ho

theorem wp_tryResizeTo_granted {g : ElasticGeometry} {transition : EpochTransition}
    (hinternal : ∀ text, (Panic.internal text).exhausts = false → E (.internal text))
    (hfits : Fits u g.levelCapacities.sum) (hj : J w.code) :
    wp (tryResizeTo group u g transition) (fun res _ => ∃ a, res = .ok a) (fun e _ => E e) (t, w) := by
  rw [tryResizeTo, wp_bind, wp_onSnd, tryProbeSchedule, wp_bind]
  refine wp_mono (ho.wp_alloc hj _) ?_ (fun _ _ => id)
  rintro granted w₁ ⟨rfl, hj₁⟩
  rw [wp_pure]
  dsimp only
  rw [if_pos rfl, wp_bind, wp_onSnd]
  refine wp_mono (wp_tryAllocElasticArena_granted ho hfits hj₁) ?_ (fun _ _ => id)
  rintro res w₂ ⟨⟨⟨levels, membership⟩, rfl⟩, hj₂⟩
  dsimp only
  rw [wp_bind]
  refine wp_mono (Rebuildable.within_rebuild (I := fun s => J s.2.code) hinternal (fun _ => id) (fun _ _ _ => id)
    (fun k => .onSnd fun _ => ho.within_hash k) (fun e x => .onFst fun w => (written_totalSlots fun _ => J w.code).within_placeUnique
      hinternal e x) (t, w₂) hj₂) ?_ (fun _ _ h => h.1)
  exact fun _ _ _ => ⟨_, rfl⟩

theorem wp_resizeWithTransition_granted {slots : Nat} (hw : t.Wf) (hs : t.Snug u) (hle : slots ≤ t.totalSlots)
    (hfit : t.len ≤ Capacity.maxInsertions slots t.reserveFraction) (hj : J w.code) (transition : EpochTransition) :
    wp (resizeWithTransition group u slots transition)
      (fun _ s => ∃ g, g.Laid slots t.reserveFraction ∧ Rebuilt u t g s.1) (fun _ _ => False) (t, w) := by
  rw [resizeWithTransition, wp_bind, wp_get]
  dsimp only
  rw [wp_bind]
  have hfits : Fits u slots := hs.of_le hle
  have hslots := hfits.slots
  obtain ⟨g, hsome, hg⟩ := ElasticGeometry.forSlots_some t.reserveFraction
    (show slots ≤ maxElasticSlots by unfold maxElasticSlots; unfold u32Max at hslots; omega)
  rw [wp_liftPanic_ok hsome, expect, pure_bind, wp_bind]
  refine wp_mono (wp_and (wp_tryResizeTo hw hg (by rw [hg.maxInsertions]; exact hfit) transition w)
    (wp_tryResizeTo_granted (E := (· ≠ .user)) ho (fun _ _ => Panic.noConfusion) (hg.sum.symm ▸ hfits) hj)) ?_
    (fun e s h => h.2 h.1.1.1)
  rintro res s ⟨⟨-, hrebuilt⟩, a, rfl⟩
  exact ⟨g, hg, hrebuilt⟩

end Granted

end ElasticTable

theorem Initial.snug {t : ElasticTable K V} (h : Initial group u t) : t.Snug u := by
  obtain ⟨capacity, r, w, w', hrun⟩ := h
  suffices hwp : wp (withCapacityAndReserve group u capacity r) (fun (t : ElasticTable K V) _ => t.Snug u) (fun _ _ => True) w
    from (wp_of_ok hrun).mp hwp
  rw [withCapacityAndReserve, wp_bind]
  rcases hgeometry : ElasticGeometry.forInsertBudget group capacity r with e | _ | g
  · exact trivial
  · exact trivial
  · have hsum := ElasticGeometry.sum_of_forInsertBudget hgeometry
    rw [liftPanic, wp_pure, wp_bind, expect, wp_pure, wp_bind, tryFromGeometry, wp_bind]
    refine wp_mono (wp_self _ w) (fun res w₁ _ => ?_) (fun _ _ _ => trivial)
    cases res with
    | error e => exact trivial
    | ok _ =>
      dsimp only
      rw [wp_bind]
      refine wp_mono wp_tryAllocElasticArena_fits ?_ (fun _ _ => id)
      rintro (e | ⟨levels, membership⟩) w₂ hfits
      · exact trivial
      · change Fits u g.totalSlots
        rw [← hsum]
        exact hfits _ rfl

end Opthash.Elastic
