import Opthash.Funnel.Agreement
import Opthash.Funnel.Methods
import Opthash.Lib.Oblivious

namespace Opthash

open Exec

namespace User

variable {T W K V : Type} {u : User W K V} {q : Prop} {α : Type} {P : α → Prop}

/-- Whether an allocation is granted depends on its layout alone. -/
def SteadyAllocator (u : User W K V) : Prop := ∀ layout c c', (u.allocate layout c).1 = (u.allocate layout c').1

theorem oblivious_hash (hcalm : u.Calm) (hd : u.Deterministic) (k : K) {P : UInt64 → Prop} :
    Oblivious q P (onSnd (u.hash k) : Run T W K V UInt64) := by
  refine .of_eq fun t w w' => ⟨?_, rfl⟩
  have hhash := User.wp_hash (u := u) k w
  have hhash' := User.wp_hash (u := u) k w'
  change (u.hash k w).1 = (u.hash k w').1
  rcases hrun : u.hash k w with ⟨e | x, w₁⟩
  · exact absurd hcalm ((wp_of_error hrun).mp hhash).1.2
  rcases hrun' : u.hash k w' with ⟨e | x', w₂⟩
  · exact absurd hcalm ((wp_of_error hrun').mp hhash').1.2
  exact congrArg Except.ok (hd k x x' ((wp_of_ok hrun).mp hhash).1 ((wp_of_ok hrun').mp hhash').1)

theorem oblivious_owned (hcalm : u.Calm) (k : K) (v : V) {c : Run T W K V α} (hc : Oblivious q P c) :
    Oblivious q P (u.owned k v c) := by
  refine hc.guarded (.onSnd () fun w => ?_)
  refine wp_mono (User.wp_dropEntry (κ := fun _ => 0) (k, v) w) (fun _ _ _ => rfl) ?_
  exact fun p w' h => h.1.2 hcalm

end User

section Rebuild

variable {T G W K V : Type} {u : User W K V} {q : Prop} {group : GroupBackend} {α E : Type}

theorem oblivious_forOccupied {padded : Bool} {region : T × World W K V → Region E} {body : α → Nat → Run T W K V α}
    (hregion : ∀ t w w', region (t, w) = region (t, w')) (hbody : ∀ a slot, Oblivious q (fun _ => True) (body a slot))
    (a : α) : Oblivious q (fun _ => True) (forOccupied group padded region body a) := by
  have hscan : ∀ fuel c a, Oblivious q (fun _ => True) (scanWhile group padded region body fuel c a) := by
    intro fuel
    induction fuel with
    | zero => exact fun _ a => .pure a
    | succ fuel ih =>
      intro c a
      refine .get_bind (fun t w w' => by simp only [hregion t w w']) fun s => ?_
      rcases OccupiedIndices.step group padded (region s) c with ⟨_ | slot, c'⟩
      · exact .pure a
      · exact (hbody a slot).seq fun a => ih c' a
  exact .get_bind (fun t w w' => by simp only [hregion t w w']) fun s => hscan _ _ a

theorem oblivious_rebuild (hcalm : u.Calm) (hd : u.Deterministic) (b : Rebuildable T G K V) (next : G) :
    Oblivious q (fun _ => True) (b.rebuild group u next) := by
  refine .get_bind (fun _ _ _ => rfl) fun s => ?_
  obtain ⟨table, w⟩ := s
  refine (Oblivious.modify fun _ _ _ => rfl).seq fun _ => ?_
  refine .guarded (.foldlM (fun exceptional region => ?_) _ _) (.modify fun _ _ _ => rfl)
  refine oblivious_forOccupied (fun _ _ _ => rfl) (fun exceptional slot => ?_) _
  refine (Oblivious.expect _ _).seq fun entry => ?_
  refine (User.oblivious_hash hcalm hd entry.1).seq fun x => ?_
  exact (Oblivious.onFst _).seq fun outside => .pure _

end Rebuild

namespace Funnel.FunnelTable

open Probe Probing

variable {W K V : Type} {u : User W K V} {group : GroupBackend} {key : K} {value : V} {x : UInt64}

theorem oblivious_tryAllocateStorage (n : Nat) :
    Oblivious u.SteadyAllocator (fun r => ∃ a, r = .ok a)
      (onSnd (tryAllocateStorage group u n) : Run (FunnelTable K V) W K V _) := by
  have hnew : ∀ {w w'} {storage : Region (K × V)} {membership},
      tryAllocateStorage group u n w = (.ok (.ok (storage, membership)), w') →
      storage = .empty n ∧ membership = .zeroed (Membership.wordCount n) := by
    intro w w' storage membership hrun
    obtain ⟨hstorage, hmembership, -⟩ := ((wp_of_ok hrun).mp (wp_tryAllocateStorage (R := fun _ _ => True) n w)).2 _ _ rfl
    exact ⟨hstorage, hmembership⟩
  constructor
  · rintro t w w' a a' s s' hrun hrun' ⟨⟨storage, membership⟩, rfl⟩ ⟨⟨storage', membership'⟩, rfl⟩
    obtain ⟨hresult, hs⟩ := Prod.mk.inj hrun
    obtain ⟨hresult', hs'⟩ := Prod.mk.inj hrun'
    obtain ⟨rfl, rfl⟩ := hnew (Prod.ext hresult rfl)
    obtain ⟨rfl, rfl⟩ := hnew (Prod.ext hresult' rfl)
    have ht : t = s.1 := congrArg Prod.fst hs
    have ht' : t = s'.1 := congrArg Prod.fst hs'
    exact ⟨rfl, ht.symm.trans ht'⟩
  · intro hsteady t w w'
    refine ⟨?_, rfl⟩
    change (tryAllocateStorage group u n w).1 = (tryAllocateStorage group u n w').1
    unfold tryAllocateStorage
    rcases funnelLayout group u.slotSize u.slotAlign n with e | ⟨layout, words⟩
    · rfl
    · dsimp only
      by_cases hsize : layout.size = 0
      · rw [if_pos hsize]
        rfl
      · rw [if_neg hsize, bind_apply, bind_apply]
        dsimp only [User.alloc]
        rw [hsteady layout w.code w'.code]
        cases (u.allocate layout w'.code).1 <;> rfl

section Placing

variable (hcalm : u.Calm) (hd : u.Deterministic)
include hcalm hd

theorem oblivious_tryResizeTo (shape : FunnelShape) (transition : EpochTransition) :
    Oblivious u.SteadyAllocator (fun r => ∃ a, r = .ok a)
      (tryResizeTo group u shape transition : Run (FunnelTable K V) W K V _) := by
  refine (oblivious_tryAllocateStorage shape.n).bind (fun r => ?_) ?_
  · rcases r with e | ⟨storage, membership⟩
    · exact .pure _
    · refine .get_bind (fun _ _ _ => rfl) fun s => ?_
      obtain ⟨t, w⟩ := s
      refine (oblivious_rebuild hcalm hd _ _).seq fun recovered => ?_
      exact (Oblivious.modify fun _ _ _ => rfl).seq fun _ => .pure _
  · rintro (e | a) hne s b s' hrun
    · cases hrun
      rintro ⟨a, ha⟩
      cases ha
    · exact absurd ⟨a, rfl⟩ hne

theorem oblivious_resizeWithTransition (slots : Nat) (transition : EpochTransition) :
    Oblivious u.SteadyAllocator (fun _ => True)
      (resizeWithTransition group u slots transition : Run (FunnelTable K V) W K V _) := by
  refine .get_bind (fun _ _ _ => rfl) fun s => ?_
  obtain ⟨t, w⟩ := s
  refine Oblivious.seq ?_ fun shape => ?_
  · cases FunnelShape.fromSlots slots t.reserveFraction with
    | error e => exact .raise _
    | ok shape => exact .pure _
  · refine (oblivious_tryResizeTo hcalm hd shape transition).bind (fun r => ?_) ?_
    · cases r with
      | ok _ => exact .pure _
      | error e =>
        refine Oblivious.seq ?_ fun _ => .raise _
        cases funnelLayout group u.slotSize u.slotAlign shape.n with
        | error e => exact .raise _
        | ok layout => exact .pure _
    · rintro (e | a) hne s b s' hrun
      · rcases hlayout : funnelLayout group u.slotSize u.slotAlign shape.n with e | layout
        · rw [hlayout] at hrun
          cases hrun
        · rw [hlayout] at hrun
          cases hrun
      · exact absurd ⟨a, rfl⟩ hne

theorem oblivious_prepareVacantInsert :
    Oblivious u.SteadyAllocator (fun _ => True) (prepareVacantInsert group u : Run (FunnelTable K V) W K V _) := by
  refine .get_bind (fun _ _ _ => rfl) fun s => ?_
  obtain ⟨t, w⟩ := s
  refine .ite (fun _ => ?_) fun _ => .pure _
  refine Oblivious.seq ?_ fun _ => .pure _
  refine .get_bind (fun _ _ _ => rfl) fun s => ?_
  obtain ⟨t, w⟩ := s
  exact (Oblivious.expect _ _).seq fun slots => oblivious_resizeWithTransition hcalm hd slots .growth

theorem oblivious_placeAbsentAfterSearch (membership : MembershipSlot) (vacancy : Option Vacancy) :
    Oblivious u.SteadyAllocator (fun _ => True)
      (placeAbsentAfterSearch group u key value x membership vacancy : Run (FunnelTable K V) W K V _) := by
  refine (User.oblivious_owned hcalm key value ?_).seq fun found => ?_
  · refine .get_bind (fun _ _ _ => rfl) fun s => ?_
    obtain ⟨t, w⟩ := s
    have hresolve : ∀ (rebuilt : Bool) (vacancy : Option Vacancy) (membership : MembershipSlot),
        Oblivious u.SteadyAllocator (fun _ => True) (do
          let s ← Exec.get
          let found ← s.1.resolveVacancy vacancy
          pure (membership, rebuilt, found) : Run (FunnelTable K V) W K V _) := by
      intro rebuilt vacancy membership
      refine .get_bind (fun _ _ _ => rfl) fun s => ?_
      obtain ⟨t, w⟩ := s
      refine Oblivious.seq ?_ fun _ => .pure _
      cases vacancy with
      | some vacancy => exact .pure _
      | none => exact (Oblivious.expect _ _).seq fun slot => .pure _
    refine .ite (fun _ => ?_) fun _ => (Oblivious.pure _).seq fun p => ?_
    · refine Oblivious.seq ?_ fun p => ?_
      · refine .get_bind (fun _ _ _ => rfl) fun s => ?_
        obtain ⟨t, w⟩ := s
        refine (oblivious_resizeWithTransition hcalm hd t.shape.n .placementRecovery).seq fun _ => ?_
        refine .get_bind (fun _ _ _ => rfl) fun s => ?_
        obtain ⟨t, w⟩ := s
        exact .pure _
      · obtain ⟨rebuilt, vacancy⟩ := p
        exact hresolve _ _ _
    · obtain ⟨rebuilt, vacancy⟩ := p
      exact hresolve _ _ _
  · obtain ⟨membership, rebuilt, vacancy, exceptional⟩ := found
    exact (Oblivious.modify fun _ _ _ => rfl).seq fun _ => .pure _

end Placing

/-- What an insertion of an absent key comes to: growth if the table is full, then the first free slot of the walk. -/
def placeAbsent (group : GroupBackend) (u : User W K V) (key : K) (value : V) (hash : UInt64) :
    Run (FunnelTable K V) W K V Nat := do
  let (vacancy, membership) ← u.owned key value do
    let _ ← prepareVacantInsert group u
    let (t, _) ← Exec.get
    pure (t.searchVacancy group (prepareFunnel t.probeSeed hash), t.membershipSlot hash)
  placeAbsentAfterSearch group u key value hash membership vacancy

theorem oblivious_placeAbsent (hcalm : u.Calm) (hd : u.Deterministic) :
    Oblivious u.SteadyAllocator (fun _ => True) (placeAbsent group u key value x : Run (FunnelTable K V) W K V _) := by
  refine (User.oblivious_owned hcalm key value ?_).seq fun p => oblivious_placeAbsentAfterSearch hcalm hd p.2 p.1
  refine (oblivious_prepareVacantInsert hcalm hd).seq fun _ => ?_
  exact .get_bind (fun _ _ _ => rfl) fun s => .pure _

section Tokens

variable {t : FunnelTable K V} {w : World W K V}

def reported (t : FunnelTable K V) : SearchResult → Option Vacancy
  | .vacant slot => some (t.vacancyAt slot)
  | _ => none

/-- The vacancy an entry's token stands for, unless it stands for a search not yet made. -/
def tokenVacancy (t : FunnelTable K V) (vacant : FunnelVacant) : Option Vacancy :=
  if vacant.exact = FunnelVacant.exhausted then none else some (t.vacancyAt vacant.exact)

theorem owned_congr {α : Type} {c d : Run (FunnelTable K V) W K V α} {s : FunnelTable K V × World W K V}
    (h : c s = d s) : u.owned key value c s = u.owned key value d s := by
  unfold User.owned guarded
  rw [h]

theorem get_bind_apply {α : Type} {f : FunnelTable K V × World W K V → Run (FunnelTable K V) W K V α}
    (s : FunnelTable K V × World W K V) : (Exec.get >>= f) s = f s s := rfl

theorem insertForVacant_eq (hw : t.Wf) {vacant : FunnelVacant} (htoken : vacant.exact ≠ FunnelVacant.unsearched →
    t.tokenVacancy vacant = t.searchVacancy group (prepareFunnel t.probeSeed vacant.hash)) (w : World W K V) :
    insertForVacant group u key value vacant (t, w) = placeAbsent group u key value vacant.hash (t, w) := by
  rw [insertForVacant, placeAbsent, bind_apply, bind_apply]
  congr 1
  apply owned_congr
  rw [bind_apply, bind_apply]
  have hprepare : wp (prepareVacantInsert group u) _ _ (t, w) := wp_prepareVacantInsert hw w
  rcases hrun : prepareVacantInsert group u (t, w) with ⟨e | grown, t₁, w₁⟩
  · rfl
  · obtain ⟨-, -, -, hsame⟩ := (wp_of_ok hrun).mp hprepare
    dsimp only at hsame ⊢
    have hvacancy : (if (grown || vacant.exact == FunnelVacant.unsearched) = true then
        t₁.searchVacancy group (prepareFunnel t₁.probeSeed vacant.hash)
      else if vacant.exact = FunnelVacant.exhausted then none else some (t₁.vacancyAt vacant.exact)) =
        t₁.searchVacancy group (prepareFunnel t₁.probeSeed vacant.hash) := by
      by_cases hsearch : (grown || vacant.exact == FunnelVacant.unsearched) = true
      · rw [if_pos hsearch]
      · rw [if_neg hsearch]
        rw [Bool.or_eq_true, not_or] at hsearch
        obtain rfl := hsame (by simpa using hsearch.1)
        exact htoken (by simpa using hsearch.2)
    rw [bind_apply, bind_apply]
    dsimp only [Exec.get]
    rw [hvacancy]

theorem vacancyForInsert_eq (hw : t.Wf) {exact : Option SearchResult} (hmiss : ∀ r, exact = some r → r.hit? = none)
    (hexact : ∀ r, exact = some r → t.reported r = t.searchVacancy group (prepareFunnel t.probeSeed x))
    (w : World W K V) :
    (do
        let (vacancy, membership) ← u.owned key value (vacancyForInsert group u x exact)
        placeAbsentAfterSearch group u key value x membership vacancy : Run (FunnelTable K V) W K V Nat) (t, w) =
      placeAbsent group u key value x (t, w) := by
  rw [placeAbsent, bind_apply, bind_apply]
  congr 1
  apply owned_congr
  rw [vacancyForInsert, bind_apply, bind_apply]
  have hprepare : wp (prepareVacantInsert group u) _ _ (t, w) := wp_prepareVacantInsert hw w
  dsimp only [Exec.get]
  rw [bind_apply]
  rcases hrun : prepareVacantInsert group u (t, w) with ⟨e | grown, t₁, w₁⟩
  · rfl
  · obtain ⟨-, -, hseed, hsame⟩ := (wp_of_ok hrun).mp hprepare
    dsimp only at hseed hsame ⊢
    rw [← hseed]
    cases grown with
    | true => rw [if_pos rfl, get_bind_apply, get_bind_apply]
    | false =>
      obtain rfl := hsame rfl
      cases exact with
      | none => rw [if_neg Bool.false_ne_true, get_bind_apply, get_bind_apply]
      | some r =>
        have hreported := hexact r rfl
        cases r with
        | hit slot => cases hmiss _ rfl
        | vacant slot => rw [if_neg Bool.false_ne_true, get_bind_apply, get_bind_apply, ← hreported]; rfl
        | full => rw [if_neg Bool.false_ne_true, get_bind_apply, get_bind_apply, ← hreported]; rfl
        | rangeFailure => rw [if_neg Bool.false_ne_true, get_bind_apply, get_bind_apply, ← hreported]; rfl

end Tokens

section Searches

variable {t : FunnelTable K V} {w : World W K V}

theorem no_tombstone (hw : t.Wf) (hc : t.Counted) (hzero : t.tombstones = 0) (slot : Nat) :
    t.storage.ctrl slot ≠ ctrlTombstone := by
  rcases Nat.lt_or_ge slot t.storage.capacity with hlt | hge
  · rw [hc.tombstones, Region.tombstoneCount, List.countP_eq_zero] at hzero
    simpa using hzero slot (List.mem_range.mpr hlt)
  · rw [hw.padded slot hge]
    decide

theorem wp_searchExactMode_reported (hw : t.Wf) (hn : t.shape.n ≠ 0) {cleanEpoch : Bool}
    (hclean : cleanEpoch = true → ∀ slot, t.storage.ctrl slot ≠ ctrlTombstone) :
    wp (t.searchExactMode group (inspectKey u key) cleanEpoch (prepareFunnel t.probeSeed x) (controlFingerprint x))
      (fun r s => s.1 = t ∧
        (r.hit? = none → t.reported r = t.searchVacancy group (prepareFunnel t.probeSeed x)))
      (fun _ _ => True) (t, w) := by
  have hfree : (fun slot => decide (t.modeKind cleanEpoch (controlFingerprint x) slot = .empty ∨
      t.modeKind cleanEpoch (controlFingerprint x) slot = .deleted)) = fun slot => isFree (t.storage.ctrl slot) := by
    funext slot
    have hkind : t.modeKind cleanEpoch (controlFingerprint x) slot =
        slotKind t.storage.ctrl (controlFingerprint x) slot := by
      cases cleanEpoch with
      | true => exact (modeKind_clean (hclean rfl slot)).trans (if_neg fun h => Bool.false_ne_true h.1)
      | false => exact if_neg fun h => Bool.false_ne_true h.1
    rw [hkind]
    exact Bool.eq_iff_iff.mpr (decide_eq_true_iff.trans slotKind_free)
  rw [searchExactMode_eq (isOccupied_controlFingerprint x) (hw.laid hn) hn, wp_map]
  refine wp_mono (wp_lookup hw eqStable_true (fun slot h => occ_of_modeKind h) ⟨rfl, rfl, trivial⟩) ?_
    (fun _ _ _ => trivial)
  rintro o s ⟨hs, hfound⟩
  refine ⟨hs.table, fun hmiss => ?_⟩
  rw [searchVacancy_eq (hw.laid hn) hn, ← hfree]
  cases o with
  | hit slot => cases hmiss
  | vacant slot => exact congrArg (Option.map t.vacancyAt) hfound.2.1
  | failed => exact congrArg (Option.map t.vacancyAt) hfound.2.1
  | exhausted => exact congrArg (Option.map t.vacancyAt) hfound.2.1

def Reports (group : GroupBackend) (t : FunnelTable K V) (x : UInt64) (miss : SearchResult) : Prop :=
  miss.hit? = none ∧ t.reported miss = t.searchVacancy group (prepareFunnel t.probeSeed x)

theorem wp_locate_reports (hw : t.Wf) :
    wp (locate group u key x (controlFingerprint x))
      (fun r s => s.1 = t ∧ ∀ miss, r = .inr (some miss) → t.Reports group x miss) (fun _ _ => True) (t, w) := by
  have hs : Looking t w.ledger (fun _ => True) (t, w) := ⟨rfl, rfl, trivial⟩
  rw [locate, wp_bind, wp_get]
  dsimp only
  rw [wp_ite]
  refine ⟨fun _ => ⟨rfl, fun miss h => by cases h⟩, fun hgate => ?_⟩
  obtain ⟨hn, -⟩ := gate_known hw x (by simpa using hgate)
  rw [searchExactPrepared, wp_bind]
  refine wp_mono (wp_and (wp_searchExactMode hw eqStable_true hn false hs)
    (wp_searchExactMode_reported hw hn fun h => absurd h Bool.false_ne_true)) ?_ (fun _ _ _ => trivial)
  rintro r s ⟨⟨hlooked, ⟨slot, rfl, -⟩ | ⟨hmisses, hrefuted⟩⟩, -, hreported⟩
  · exact ⟨hlooked.table, fun miss h => by cases h⟩
  · have hscan := wp_scanIfExceptional hw eqStable_true (fun slot => (.inl slot : Nat ⊕ Option SearchResult))
      (.inr (some r)) hrefuted hlooked
    have hpost : wp _ (fun (a : Nat ⊕ Option SearchResult) s => s.1 = t ∧
        ∀ miss, a = .inr (some miss) → r.hit? = none → t.Reports group x miss) (fun _ _ => True) s := wp_mono hscan
      (by
        rintro a s' ⟨hlooked, ⟨slot, rfl, -⟩ | ⟨rfl, -⟩⟩
        · exact ⟨hlooked.table, fun miss h => by cases h⟩
        · exact ⟨hlooked.table, fun miss h hnone => by cases h; exact ⟨hnone, hreported hnone⟩⟩)
      (fun _ _ _ => trivial)
    cases r with
    | hit slot => exact hmisses.elim
    | vacant slot => exact wp_mono hpost (fun a s h => ⟨h.1, fun miss hmiss => h.2 miss hmiss rfl⟩) fun _ _ => id
    | full => exact wp_mono hpost (fun a s h => ⟨h.1, fun miss hmiss => h.2 miss hmiss rfl⟩) fun _ _ => id
    | rangeFailure => exact wp_mono hpost (fun a s h => ⟨h.1, fun miss hmiss => h.2 miss hmiss rfl⟩) fun _ _ => id

theorem wp_findForEntry_reports (hw : t.Wf) :
    wp (findForEntry group u key x)
      (fun r s => s.1 = t ∧ ∀ vacant, r = .inr vacant → vacant.hash = x ∧
        (vacant.exact ≠ FunnelVacant.unsearched →
          t.tokenVacancy vacant = t.searchVacancy group (prepareFunnel t.probeSeed x)))
      (fun _ _ => True) (t, w) := by
  have hlocate : wp (locate group u key x (controlFingerprint x)) _ (LookupPanic u t w.ledger) (t, w) :=
    wp_locate hw eqStable_true ⟨rfl, rfl, trivial⟩
  rw [findForEntry, wp_bind]
  refine wp_mono (wp_and hlocate (wp_locate_reports hw)) ?_ (fun _ _ _ => trivial)
  rintro (slot | _ | miss) s ⟨⟨-, hmisses⟩, ht, hreports⟩
  · exact ⟨ht, fun vacant h => by cases h⟩
  · refine ⟨ht, fun vacant h => ?_⟩
    cases h
    exact ⟨rfl, fun hne => absurd rfl hne⟩
  · obtain ⟨hnone, hreported⟩ := hreports miss rfl
    have hmiss := hmisses.2 miss rfl
    cases miss with
    | hit slot => cases hnone
    | vacant slot =>
      refine ⟨ht, fun vacant h => ?_⟩
      cases h
      have hlt : slot < t.shape.n := VacantFor.lt hmiss
      have hsmall := hw.small
      refine ⟨rfl, fun _ => Eq.trans (if_neg fun hexhausted => ?_) hreported⟩
      dsimp only at hexhausted
      unfold FunnelVacant.exhausted usizeMax at hexhausted
      omega
    | full =>
      refine ⟨ht, fun vacant h => ?_⟩
      cases h
      exact ⟨rfl, fun _ => hreported⟩
    | rangeFailure =>
      refine ⟨ht, fun vacant h => ?_⟩
      cases h
      exact ⟨rfl, fun _ => hreported⟩

theorem wp_searchForInsert_reports (hw : t.Wf) (hc : t.Counted) :
    wp (searchForInsert group u key x)
      (fun r s => s.1 = t ∧ ∀ miss, r = .absent (some miss) → t.Reports group x miss) (fun _ _ => True) (t, w) := by
  have hs : Looking t w.ledger (fun _ => True) (t, w) := ⟨rfl, rfl, trivial⟩
  rw [searchForInsert, wp_bind, wp_get]
  dsimp only
  rw [wp_ite]
  refine ⟨fun hgate => ?_, fun _ => ⟨rfl, fun miss h => by cases h⟩⟩
  obtain ⟨hn, -⟩ := gate_known hw x hgate
  have hmode : ∃ cleanEpoch, (cleanEpoch = true → ∀ slot, t.storage.ctrl slot ≠ ctrlTombstone) ∧
      t.searchExactPreparedForInsert group (inspectKey u key) (prepareFunnel t.probeSeed x) (controlFingerprint x) =
        t.searchExactMode group (inspectKey u key) cleanEpoch (prepareFunnel t.probeSeed x) (controlFingerprint x) := by
    rw [searchExactPreparedForInsert]
    by_cases hzero : t.tombstones = 0
    · exact ⟨true, fun _ => no_tombstone hw hc hzero, if_pos hzero⟩
    · exact ⟨false, fun h => absurd h Bool.false_ne_true, if_neg hzero⟩
  obtain ⟨cleanEpoch, hclean, hmode⟩ := hmode
  rw [hmode, wp_bind]
  refine wp_mono (wp_and (wp_searchExactMode hw eqStable_true hn cleanEpoch hs)
    (wp_searchExactMode_reported hw hn hclean)) ?_ (fun _ _ _ => trivial)
  rintro r s ⟨⟨hlooked, ⟨slot, rfl, -⟩ | ⟨hmisses, hrefuted⟩⟩, -, hreported⟩
  · exact ⟨hlooked.table, fun miss h => by cases h⟩
  · have hscan := wp_scanIfExceptional hw eqStable_true InsertSearch.hit (.absent (some r)) hrefuted hlooked
    have hpost : wp _ (fun (a : InsertSearch) s => s.1 = t ∧
        ∀ miss, a = .absent (some miss) → r.hit? = none → t.Reports group x miss) (fun _ _ => True) s := wp_mono hscan
      (by
        rintro a s' ⟨hlooked, ⟨slot, rfl, -⟩ | ⟨rfl, -⟩⟩
        · exact ⟨hlooked.table, fun miss h => by cases h⟩
        · exact ⟨hlooked.table, fun miss h hnone => by cases h; exact ⟨hnone, hreported hnone⟩⟩)
      (fun _ _ _ => trivial)
    cases r with
    | hit slot => exact hmisses.elim
    | vacant slot => exact wp_mono hpost (fun a s h => ⟨h.1, fun miss hmiss => h.2 miss hmiss rfl⟩) fun _ _ => id
    | full => exact wp_mono hpost (fun a s h => ⟨h.1, fun miss hmiss => h.2 miss hmiss rfl⟩) fun _ _ => id
    | rangeFailure => exact wp_mono hpost (fun a s h => ⟨h.1, fun miss hmiss => h.2 miss hmiss rfl⟩) fun _ _ => id

end Searches

section Paths

variable {t : FunnelTable K V} {w : World W K V}

/-- `placeAbsent` returns with the table `t'`, from some state of the user code. -/
def Ends (group : GroupBackend) (u : User W K V) (t : FunnelTable K V) (key : K) (value : V) (x : UInt64)
    (t' : FunnelTable K V) : Prop :=
  ∃ w slot s, placeAbsent group u key value x (t, w) = (.ok slot, s) ∧ s.1 = t'

def Unwinds (group : GroupBackend) (u : User W K V) (t : FunnelTable K V) (key : K) (value : V) (x : UInt64)
    (p : Panic) (t' : FunnelTable K V) : Prop :=
  ∃ w s, placeAbsent group u key value x (t, w) = (.error p, s) ∧ s.1 = t'

theorem wp_placeAbsent (c : Run (FunnelTable K V) W K V Nat)
    (h : c (t, w) = placeAbsent group u key value x (t, w)) :
    wp c (fun _ s => Ends group u t key value x s.1) (fun p s => Unwinds group u t key value x p s.1) (t, w) := by
  unfold wp
  rcases hrun : c (t, w) with ⟨p | slot, s⟩
  · exact ⟨w, s, h.symm.trans hrun, rfl⟩
  · exact ⟨w, slot, s, h.symm.trans hrun, rfl⟩

theorem wp_owned_calm {α : Type} {c : Run (FunnelTable K V) W K V α} {s : FunnelTable K V × World W K V}
    {Q : α → FunnelTable K V × World W K V → Prop} {R : Panic → FunnelTable K V × World W K V → Prop}
    (h : wp c Q (fun _ _ => False) s) : wp (u.owned key value c) Q R s := by
  rw [User.owned, wp_guarded]
  exact wp_mono h (fun _ _ => id) fun _ _ => False.elim

variable (hcalm : u.Calm) (hw : t.Wf) (hmiss : ∀ slot, ¬Matches u t key slot true)
include hcalm hw hmiss

theorem wp_insert_ends (hc : t.Counted) :
    wp (insert group u key value x) (fun r s => r = none ∧ Ends group u t key value x s.1)
      (fun p s => Unwinds group u t key value x p s.1) (t, w) := by
  rw [insert, wp_bind]
  refine wp_owned_calm (wp_mono (wp_and (wp_searchForInsert hw eqStable_true ⟨rfl, rfl, trivial⟩)
    (wp_searchForInsert_reports hw hc)) ?_ fun _ _ h => h.1.1.2 hcalm)
  rintro (slot | exact) ⟨t', w₁⟩ ⟨⟨-, hfound⟩, ht, hreports⟩
  · exact absurd hfound (hmiss slot)
  · obtain rfl : t' = t := ht
    have hplace := wp_placeAbsent _ (@vacancyForInsert_eq _ _ _ u group key value x t' hw exact
      (fun r h => (hreports r (congrArg _ h)).1) (fun r h => (hreports r (congrArg _ h)).2) w₁)
    rw [wp_bind] at hplace
    dsimp only
    rw [wp_bind]
    refine wp_mono hplace ?_ fun _ _ => id
    rintro ⟨vacancy, membership⟩ s h
    rw [wp_bind]
    exact wp_mono h (fun _ s h => ⟨rfl, h⟩) fun _ _ => id

theorem wp_findForEntry_token :
    wp (findForEntry group u key x)
      (fun r s => s.1 = t ∧ ∃ vacant, r = .inr vacant ∧ t.Fits vacant x ∧
        (vacant.exact ≠ FunnelVacant.unsearched →
          t.tokenVacancy vacant = t.searchVacancy group (prepareFunnel t.probeSeed vacant.hash)))
      (fun _ _ => False) (t, w) := by
  refine wp_mono (wp_and (wp_findForEntry hw eqStable_true ⟨rfl, rfl, trivial⟩) (wp_findForEntry_reports hw)) ?_
    fun _ _ h => h.1.1.2 hcalm
  rintro (slot | vacant) s ⟨⟨-, hfound⟩, ht, hreports⟩
  · exact absurd hfound (hmiss slot)
  · obtain ⟨rfl, htoken⟩ := hreports vacant rfl
    exact ⟨ht, vacant, rfl, hfound.2, htoken⟩

omit hcalm hmiss in
theorem wp_insertForVacant_ends {vacant : FunnelVacant} (hfits : t.Fits vacant x)
    (htoken : vacant.exact ≠ FunnelVacant.unsearched →
      t.tokenVacancy vacant = t.searchVacancy group (prepareFunnel t.probeSeed vacant.hash)) :
    wp (insertForVacant group u key value vacant)
      (fun slot s => Ends group u t key value x s.1 ∧ s.1.storage.Holds slot (key, value))
      (fun p s => Unwinds group u t key value x p s.1) (t, w) := by
  have hsame : insertForVacant group u key value vacant (t, w) = placeAbsent group u key value vacant.hash (t, w) :=
    insertForVacant_eq hw htoken w
  have hplace := wp_placeAbsent _ hsame
  rw [hfits.1] at hplace
  refine wp_mono (wp_and hplace (wp_insertForVacant (κ := fun _ => 0) hw hfits)) ?_ fun _ _ h => h.1
  exact fun slot s h => ⟨h.1, h.2.2.1⟩

end Paths

end Funnel.FunnelTable

end Opthash
