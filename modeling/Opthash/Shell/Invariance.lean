import Opthash.Raw.Upkeep
import Opthash.Shell.Runs

namespace Opthash

open Exec

variable {W K V α : Type} {u : User W K V} {E : Panic → Prop}

def Op.sought : Op K V → Option K
  | .insert key _ => some key
  | .entryOrInsert key _ => some key
  | .tryInsert key _ => some key
  | .getOrInsertWith key _ _ => some key
  | _ => none

namespace HashMap

variable {b : TableBackend W K V} {R : Reading b.Table b.Location b.Vacant b.Scan K V} {I : b.Table → Prop}

/-- Whether a table can be had for one entry more, for so many entries, and for those that `shrink_to` keeps. -/
structure Room (b : TableBackend W K V) where
  grows : b.Table → Prop
  reserves : b.Table → Nat → Prop
  shrinks : b.Table → Nat → Prop

def Room.any : Room b := ⟨fun _ => True, fun _ _ => True, fun _ _ => True⟩

/-- The sizes that `op` asks for can be had; `absent` tells the keys that are not stored. -/
structure Room.Affords (room : Room b) (absent : K → Prop) (t : b.Table) (op : Op K V) : Prop where
  grows : ∀ key, op.sought = some key → absent key → b.capacity t ≤ b.len t → room.grows t
  reserves : ∀ n, op = .reserve n → b.capacity t < saturatingUsize (b.len t + n) →
    room.reserves t (saturatingUsize (b.len t + n))
  shrinks : ∀ n, op = .shrinkTo n → room.shrinks t n

theorem Room.affords_any (absent : K → Prop) (t : b.Table) (op : Op K V) : Room.any.Affords absent t op :=
  ⟨fun _ _ _ _ => trivial, fun _ _ _ => trivial, fun _ _ => trivial⟩

/-- The methods that take no entry out keep `I` of their table wherever they end, given the room they need. -/
structure Keeping (R : Reading b.Table b.Location b.Vacant b.Scan K V) (u : User W K V) (E : Panic → Prop) (room : Room b)
    (I : b.Table → Prop) : Prop where
  tolerates : Panic.Tolerates E
  insertForVacant : ∀ {t}, I t → (b.capacity t ≤ b.len t → room.grows t) → ∀ k v vacant w,
    Upheld E I (b.insertForVacant k v vacant) t w
  insert : ∀ {t}, R.Wf t → I t → ∀ k v x, (R.Refuted u t k x → b.capacity t ≤ b.len t → room.grows t) → ∀ w,
    Upheld E I (b.insert k v x) t w
  writeValue : ∀ loc k v {t}, I t → I (b.writeValue loc k v t)
  finishDeferredRemovals : Within E (fun s => I s.1) b.finishDeferredRemovals
  resize : ∀ {t needed}, I t → room.reserves t needed → ∀ w,
    Upheld E I (expect .capacityOverflow (b.growCapacityFor t needed) >>= b.resize) t w
  tryResize : ∀ {t needed newCapacity}, I t → b.growCapacityFor t needed = some newCapacity → ∀ w,
    Upheld E I (b.tryResize newCapacity) t w
  shrinkTo : ∀ {t minCapacity}, R.Wf t → I t → room.shrinks t minCapacity → ∀ w, Upheld E I (b.shrinkTo minCapacity) t w
  cloneTable : ∀ {t}, R.Wf t → I t → ∀ w, wp (b.cloneTable t) (fun t' _ => I t') (fun e _ => E e) w

/-- Every method of the backend keeps `I` of its table, wherever it ends. -/
structure Maintains (R : Reading b.Table b.Location b.Vacant b.Scan K V) (u : User W K V) (E : Panic → Prop) (room : Room b)
    (I : b.Table → Prop) : Prop extends Keeping R u E room I where
  remove : ∀ loc, Within E (fun s => I s.1) (b.remove loc)
  extractFinish : ∀ loc {t}, I t → I (b.extractFinish loc t)
  tombstoneSlot : ∀ loc {t}, I t → I (b.tombstoneSlot loc t)
  clear : Within E (fun s => I s.1) b.clear
  wipeAll : ∀ {t}, I t → I (b.wipeAll t)

theorem within_slotEntry (hE : Panic.Tolerates E) (loc : b.Location) : Within E (fun s => I s.1) (slotEntry b loc) :=
  .get_bind fun _ _ => .expect (hE.internal _ rfl) _

section Sweeps

variable {room : Room b} (hm : Maintains R u E room I)
include hm

theorem within_nextMatchingFrom (pred : Predicate K V) (fuel : Nat) :
    Within E (fun s => I s.2.1) (nextMatchingFrom b pred fuel) := by
  induction fuel with
  | zero => exact .pure _
  | succ fuel ih =>
    refine .get_bind fun s _ => ?_
    obtain ⟨x, t, w⟩ := s
    dsimp only
    rcases b.scanNext t x.scan with ⟨_ | loc, scan⟩ <;> dsimp only
    · refine Within.bind (.modify fun _ => id) fun _ => ?_
      exact Within.bind (.onSnd fun _ => hm.finishDeferredRemovals) fun _ => .pure _
    · refine Within.bind (.modify fun _ => id) fun _ => ?_
      refine Within.bind (.onSnd fun _ => within_slotEntry hm.tolerates loc) fun entry => ?_
      refine Within.bind (.modify fun _ => hm.writeValue loc _ _) fun _ => ?_
      refine Within.bind (.expect hm.tolerates.user _) fun matched => ?_
      refine .ite (fun _ => ?_) fun _ => ih
      exact Within.bind (.modify fun _ => hm.extractFinish loc) fun _ => .pure _

theorem within_nextMatching (pred : Predicate K V) : Within E (fun s => I s.2.1) (nextMatching b pred) := by
  refine .get_bind fun s _ => ?_
  obtain ⟨x, t, w⟩ := s
  exact .ite (fun _ => .pure _) fun _ => within_nextMatchingFrom hm pred _

theorem within_yieldMatching (pred : Predicate K V) (n : Nat) :
    Within E (fun s => I s.2.1) (yieldMatching b pred n) := by
  induction n with
  | zero => exact .pure _
  | succ n ih =>
    refine (within_nextMatching hm pred).bind fun found => ?_
    cases found with
    | none => exact ih
    | some entry =>
      refine Within.bind (.onSnd fun _ => .aside (within_handEntry entry)) fun _ => ?_
      exact ih.bind fun rest => .pure _

theorem within_dropMatching (pred : Predicate K V) (fuel : Nat) :
    Within E (fun s => I s.2.1) (dropMatching b u pred fuel) := by
  induction fuel with
  | zero => exact .pure _
  | succ fuel ih =>
    refine (within_nextMatching hm pred).bind fun found => ?_
    cases found with
    | none => exact .pure _
    | some entry => exact Within.bind (.onSnd fun _ => .aside (User.within_dropEntry hm.tolerates entry)) fun _ => ih

theorem within_withExtractScan {body : Exec Panic (ExtractScan b.Scan K V × b.Table × World W K V) α}
    (hbody : Within E (fun s => I s.2.1) body) : Within E (fun s => I s.1) (withExtractScan b body) := by
  have hdrop : Within E (fun s => I s.2.1) (dropExtractScan b) := by
    refine .get_bind fun s _ => ?_
    obtain ⟨x, t, w⟩ := s
    exact .ite (fun _ => .pure _) fun _ => .onSnd fun _ => hm.finishDeferredRemovals
  refine .get_bind fun s _ => ?_
  obtain ⟨t, w⟩ := s
  refine Within.bind (.withLocal ?_) fun p => .pure _
  exact (hbody.guarded (hdrop.mono fun _ _ => hm.tolerates.abort)).bind fun a => hdrop.bind fun _ => .pure _

theorem within_retain (f : Predicate K V) : Within E (fun s => I s.1) (retain b u f) := by
  refine .get_bind fun s _ => ?_
  obtain ⟨t, w⟩ := s
  exact within_withExtractScan hm (within_dropMatching hm _ _)

theorem within_extractIf (pred : Predicate K V) (n : Nat) : Within E (fun s => I s.1) (extractIf b pred n) :=
  within_withExtractScan hm (within_yieldMatching hm pred n)

end Sweeps

section Drains

variable (hE : Panic.Tolerates E) (htomb : ∀ loc {t}, I t → I (b.tombstoneSlot loc t))
include hE htomb

theorem within_drainNext : Within E (fun s => I s.2.1) (drainNext b) := by
  refine .get_bind fun s _ => ?_
  obtain ⟨scan, t, w⟩ := s
  dsimp only
  rcases b.scanNext t scan with ⟨_ | loc, scan⟩ <;> dsimp only
  · exact Within.bind (.modify fun _ => id) fun _ => .pure _
  · refine Within.bind (.modify fun _ => id) fun _ => ?_
    refine Within.bind (.onSnd fun _ => within_slotEntry hE loc) fun entry => ?_
    exact Within.bind (.modify fun _ => htomb loc) fun _ => .pure _

theorem within_yieldDrained (n : Nat) : Within E (fun s => I s.2.1) (yieldDrained b n) := by
  induction n with
  | zero => exact .pure _
  | succ n ih =>
    refine (within_drainNext hE htomb).bind fun found => ?_
    cases found with
    | none => exact ih
    | some entry =>
      refine Within.bind (.onSnd fun _ => .aside (within_handEntry entry)) fun _ => ?_
      exact ih.bind fun rest => .pure _

theorem within_dropDrained (fuel : Nat) : Within E (fun s => I s.2.1) (dropDrained b u fuel) := by
  induction fuel with
  | zero => exact .pure _
  | succ fuel ih =>
    refine (within_drainNext hE htomb).bind fun found => ?_
    cases found with
    | none => exact .pure _
    | some entry => exact Within.bind (.onSnd fun _ => .aside (User.within_dropEntry hE entry)) fun _ => ih

theorem within_drain (n : Nat) {J : b.Table → Prop} (hwipe : ∀ {t}, I t → J (b.wipeAll t)) {t : b.Table} {w : World W K V}
    (hi : I t) : wp (drain b u n) (fun _ s => J s.1) (fun e s => E e ∧ I s.1) (t, w) := by
  rw [drain, wp_bind, wp_get]
  dsimp only
  rw [wp_bind, wp_withLocal, wp_bind]
  refine wp_mono (within_yieldDrained hE htomb n (b.scan t, t, w) hi) ?_ (fun _ _ => id)
  rintro entries ⟨scan, t₁, w₁⟩ hi₁
  rw [wp_bind, dropDrain, wp_bind, wp_get]
  dsimp only
  rw [wp_bind]
  refine wp_mono (within_dropDrained hE htomb _ (scan, t₁, w₁) hi₁) ?_ (fun _ _ => id)
  rintro _ ⟨scan, t₂, w₂⟩ hi₂
  exact hwipe hi₂

end Drains

theorem within_iterFrom (hE : Panic.Tolerates E) (fuel : Nat) (scan : b.Scan) :
    Within E (fun s => I s.1) (iterFrom b fuel scan) := by
  induction fuel generalizing scan with
  | zero => exact .pure _
  | succ fuel ih =>
    refine .get_bind fun s _ => ?_
    obtain ⟨t, w⟩ := s
    dsimp only
    rcases b.scanNext t scan with ⟨_ | loc, scan⟩ <;> dsimp only
    · exact .pure _
    · refine (within_slotEntry hE loc).bind fun entry => ?_
      exact (ih scan).bind fun rest => .pure _

section Upheld

variable {t : b.Table} {w : World W K V} {β : Type}

section Search

variable (hc : Contract R u) (hE : Panic.Tolerates E) (hw : R.Wf t)
include hc hE hw

theorem reads_findLocation (key : K) : Reads E (findLocation b u key) t w fun _ => True :=
  .of_wp (wp_findLocation_any hc hw key) (fun _ _ h => ⟨h.1, trivial⟩) (fun _ _ h => ⟨hE.unwound h.1, h.2.1⟩)

theorem reads_searchEntry (key : K) : Reads E (do
    let hash ← Exec.onSnd (u.hash key)
    b.findForEntry key hash) t w (Searched R u t key) :=
  .of_wp (wp_searchEntry hc hw key) (fun _ _ h => ⟨h.1, h.2.2⟩) (fun _ _ h => ⟨hE.unwound h.1, h.2.1⟩)

theorem reads_searchOrMake (key : K) (make : Option K) : Reads E (searchOrMake b u key make) t w fun r =>
    r.isRight → Absent R u t key := by
  refine .of_wp (wp_searchOrMake hc hw key make) ?_ ?_
  · rintro (loc | ⟨made, vacant⟩) s ⟨ht, -, hr⟩
    · exact ⟨ht, fun h => absurd h (by simp)⟩
    · obtain ⟨-, x, hx, hrefuted, -⟩ := hr
      exact ⟨ht, fun _ => ⟨x, hx, hrefuted⟩⟩
  · rintro e s ⟨hunwound | ⟨rfl, -⟩, ht, -⟩
    · exact ⟨hE.unwound hunwound, ht⟩
    · exact ⟨hE.user, ht⟩

end Search

section Keep

variable {room : Room b} (hk : Keeping R u E room I) (hw : R.Wf t) (hi : I t)
include hk hw hi

theorem upheld_insert (key : K) (value : V)
    (hgrow : Absent R u t key → b.capacity t ≤ b.len t → room.grows t) : Upheld E I (insert b u key value) t w := by
  have hhash : Reads E (u.owned key value (onSnd (u.hash key)) : Step b UInt64) t w (u.Hashes key) := by
    have hcall : Reads E (onSnd (u.hash key) : Step b UInt64) t w (u.Hashes key) := by
      rw [Reads, wp_onSnd]
      exact wp_mono (User.wp_hash key w) (fun _ _ h => ⟨rfl, h.1⟩) fun _ _ h => ⟨hk.tolerates.unwound h.1, rfl⟩
    exact hcall.guarded hk.tolerates _
  exact hhash.bind hi fun x w' hx => hk.insert hw hi key value x (fun hrefuted => hgrow ⟨x, hx, hrefuted⟩) w'

omit hw in
theorem upheld_insertForVacant (hgrow : b.capacity t ≤ b.len t → room.grows t) {f : b.Location → Step b β}
    (hf : ∀ loc, Within E (fun s => I s.1) (f loc)) (k : K) (v : V) (vacant : b.Vacant) :
    Upheld E I (b.insertForVacant k v vacant >>= f) t w := (hk.insertForVacant hi hgrow k v vacant w).bind hf

theorem upheld_getMut (hc : Contract R u) (key : K) (f : V → V) : Upheld E I (getMut b u key f) t w := by
  refine ((reads_findLocation hc hk.tolerates hw key).upheld hi).bind fun found => ?_
  cases found with
  | none => exact .pure _
  | some loc =>
    refine (within_slotEntry hk.tolerates loc).bind fun entry => ?_
    exact Within.bind (.modify fun _ => hk.writeValue loc _ _) fun _ => .pure _

section Vacant

variable (hc : Contract R u) (key : K) (hgrow : Absent R u t key → b.capacity t ≤ b.len t → room.grows t)
include hc hgrow

theorem upheld_entryOrInsert (default : V) : Upheld E I (entryOrInsert b u key default) t w := by
  have hE := hk.tolerates
  have hentry : ∀ loc, Within E (fun s => I s.1) (slotEntry b loc) := within_slotEntry hE
  refine ((reads_searchEntry hc hE hw key).guarded hE _).bind hi fun found w' hfound => ?_
  cases found with
  | inl loc =>
    refine Within.bind (.aside (User.within_dropBoth hE key default))
      (fun _ => Within.bind (.aside (User.within_dropV hE default)) fun _ => ?_) (t, w') hi
    exact (hentry loc).bind fun _ => .pure _
  | inr vacant =>
    obtain ⟨x, hx, hrefuted, -⟩ := hfound
    exact upheld_insertForVacant hk hi (hgrow ⟨x, hx, hrefuted⟩) (fun loc => (hentry loc).bind fun _ => .pure _) _ _ _

theorem upheld_tryInsert (value : V) : Upheld E I (tryInsert b u key value) t w := by
  have hE := hk.tolerates
  have hentry : ∀ loc, Within E (fun s => I s.1) (slotEntry b loc) := within_slotEntry hE
  refine ((reads_searchEntry hc hE hw key).guarded hE _).bind hi fun found w' hfound => ?_
  cases found with
  | inl loc =>
    refine Within.bind (.aside (User.within_dropBoth hE key value)) (fun _ => ?_) (t, w') hi
    exact (hentry loc).bind fun _ => .pure _
  | inr vacant =>
    obtain ⟨x, hx, hrefuted, -⟩ := hfound
    exact upheld_insertForVacant hk hi (hgrow ⟨x, hx, hrefuted⟩) (fun loc => (hentry loc).bind fun _ => .pure _) _ _ _

theorem upheld_getOrInsertWith (value : V) (make : Option K) : Upheld E I (getOrInsertWith b u key value make) t w := by
  have hE := hk.tolerates
  have hentry : ∀ loc, Within E (fun s => I s.1) (slotEntry b loc) := within_slotEntry hE
  refine ((reads_searchOrMake hc hE hw key make).guarded hE _).bind hi fun found w' hfound => ?_
  rcases found with loc | ⟨made, vacant⟩
  · exact Within.bind (.aside (User.within_dropV hE value)) (fun _ => (hentry loc).bind fun _ => .pure _) (t, w') hi
  · exact upheld_insertForVacant hk hi (hgrow (hfound rfl)) (fun loc => (hentry loc).bind fun _ => .pure _) _ _ _

end Vacant

omit hw in
theorem upheld_reserve (additional : Nat) (hreserve : b.capacity t < saturatingUsize (b.len t + additional) →
    room.reserves t (saturatingUsize (b.len t + additional))) : Upheld E I (reserve b additional) t w := by
  rw [Upheld, reserve, wp_bind, wp_get]
  dsimp only
  rw [wp_ite]
  exact ⟨fun _ => hi, fun hless => hk.resize hi (hreserve (Nat.lt_of_not_le hless)) w⟩

omit hw in
theorem upheld_tryReserve (additional : Nat) : Upheld E I (tryReserve b additional) t w := by
  rw [Upheld, tryReserve, wp_bind, wp_get]
  dsimp only
  cases checkedUsize (b.len t + additional) with
  | none => exact hi
  | some needed =>
    dsimp only
    rw [wp_ite]
    refine ⟨fun _ => hi, fun _ => ?_⟩
    cases hgrow : b.growCapacityFor t needed with
    | none => exact hi
    | some newCapacity => exact hk.tryResize hi hgrow w

theorem upheld_clone (hc : Contract R u) : Upheld E I (clone b) t w := by
  rw [Upheld, clone, wp_bind, wp_get]
  dsimp only
  rw [wp_bind, wp_onSnd]
  refine wp_mono (hk.cloneTable hw hi w) (fun t' w' ht' => ?_) (fun _ _ he => ⟨he, hi⟩)
  rw [wp_bind, wp_modify, wp_onSnd]
  refine wp_mono (hc.dropTable hw (fun _ => 0) w') (fun _ _ _ => ht') ?_
  rintro e w'' ⟨⟨rfl | rfl, -⟩, -⟩
  · exact ⟨hk.tolerates.user, ht'⟩
  · exact ⟨hk.tolerates.abort, ht'⟩

theorem upheld_keeping (hc : Contract R u) {op : Op K V} (hroom : room.Affords (Absent R u t) t op)
    (hkeeps : ¬op.Deletes) : Upheld E I (step b u op) t w := by
  have hE := hk.tolerates
  cases op with
  | insert key value =>
    refine (upheld_insert hk hw hi key value (hroom.grows key rfl)).bind fun old => Within.bind (.aside ?_) fun _ => .pure _
    cases old with
    | none => exact .pure _
    | some old => exact within_handV old
  | get key =>
    refine Upheld.map _ (Reads.upheld (Q := fun _ => True) (.of_wp (wp_getValue hc hw key) ?_ ?_) hi)
    · exact fun _ _ h => ⟨h.1, trivial⟩
    · exact fun _ _ h => ⟨hE.unwound h.1, h.2.1⟩
  | containsKey key =>
    refine Upheld.map _ (Reads.upheld (Q := fun _ => True) (.of_wp (wp_containsKey hc hw key) ?_ ?_) hi)
    · exact fun _ _ h => ⟨h.1, trivial⟩
    · exact fun _ _ h => ⟨hE.unwound h.1, h.2.1⟩
  | getMut key f => exact Upheld.map _ (upheld_getMut hk hw hi hc key f)
  | entryOrInsert key default => exact Upheld.map _ (upheld_entryOrInsert hk hw hi hc key (hroom.grows key rfl) default)
  | tryInsert key value =>
    refine (upheld_tryInsert hk hw hi hc key (hroom.grows key rfl) value).bind fun result => ?_
    refine Within.bind (.aside ?_) fun _ => .pure _
    cases result with
    | ok shown => exact .pure _
    | error stored => exact within_handV value
  | getOrInsertWith key value make =>
    exact Upheld.map _ (upheld_getOrInsertWith hk hw hi hc key (hroom.grows key rfl) value make)
  | reserve additional => exact Upheld.map _ (upheld_reserve hk hi additional (hroom.reserves additional rfl))
  | tryReserve additional => exact Upheld.map _ (upheld_tryReserve hk hi additional)
  | shrinkTo minCapacity => exact Upheld.map _ (hk.shrinkTo hw hi (hroom.shrinks minCapacity rfl) w)
  | clone => exact Upheld.map _ (upheld_clone hk hw hi hc)
  | iter =>
    refine Within.map _ (.get_bind fun s _ => ?_) (t, w) hi
    obtain ⟨t', w'⟩ := s
    exact within_iterFrom hE _ _
  | len =>
    have hread : Within E (fun s : b.Table × World W K V => I s.1) (len b) := .get_bind fun _ _ => .pure _
    exact Within.map _ hread (t, w) hi
  | _ => exact absurd trivial hkeeps

end Keep

variable {room : Room b} (hm : Maintains R u E room I) (hw : R.Wf t) (hi : I t)
include hm hw hi

theorem upheld_remove (hc : Contract R u) (key : K) : Upheld E I (remove b u key) t w := by
  have hE := hm.tolerates
  refine Upheld.bind (((reads_findLocation hc hE hw key).upheld hi).bind fun found => ?_) fun removed => ?_
  · cases found with
    | none => exact .pure _
    | some loc => exact .map _ (hm.remove loc)
  · cases removed with
    | none => exact .pure _
    | some entry => exact Within.bind (.aside (User.within_dropBoth hE entry.1 entry.2)) fun _ => .pure _

theorem upheld_step (hc : Contract R u) {op : Op K V} (hroom : room.Affords (Absent R u t) t op) :
    Upheld E I (step b u op) t w := by
  have hE := hm.tolerates
  cases op with
  | removeEntry key =>
    refine Upheld.bind (((reads_findLocation hc hE hw key).upheld hi).bind fun found => ?_) fun removed =>
      Within.bind (.aside ?_) fun _ => .pure _
    · cases found with
      | none => exact .pure _
      | some loc => exact .map _ (hm.remove loc)
    · cases removed with
      | none => exact .pure _
      | some entry => exact within_handEntry entry
  | remove key =>
    refine (upheld_remove hm hw hi hc key).bind fun removed => Within.bind (.aside ?_) fun _ => .pure _
    cases removed with
    | none => exact .pure _
    | some value => exact within_handV value
  | retain f => exact Within.map _ (within_retain hm f) (t, w) hi
  | extractIf pred n => exact Within.map _ (within_extractIf hm pred n) (t, w) hi
  | drain n =>
    refine Upheld.map _ ?_
    exact within_drain hE hm.tombstoneSlot n hm.wipeAll hi
  | leakExtractIf pred n =>
    refine Within.map _ (.get_bind fun s _ => ?_) (t, w) hi
    obtain ⟨t', w'⟩ := s
    exact Within.bind (.withLocal (within_yieldMatching hm pred n)) fun p => .pure _
  | leakDrain n =>
    refine Within.map _ (.get_bind fun s _ => ?_) (t, w) hi
    obtain ⟨t', w'⟩ := s
    exact Within.bind (.withLocal (within_yieldDrained hE hm.tombstoneSlot n)) fun p => .pure _
  | clear => exact Within.map _ hm.clear (t, w) hi
  | _ => exact upheld_keeping hm.toKeeping hw hi hc hroom id

end Upheld

theorem Runs.maintains {allow : Event b → Prop} {s s' : b.Table × World W K V} (hc : Contract R u)
    (hm : Maintains R u (fun _ => True) Room.any I) (h : Runs b u allow s s') (hw : R.Wf s.1) (hi : I s.1) :
    R.Wf s'.1 ∧ I s'.1 := by
  apply h.invariant (I := fun t => R.Wf t ∧ I t) _ ⟨hw, hi⟩
  rintro ⟨t, w⟩ s' op r ⟨hw, hi⟩ hstep - hne
  refine ⟨wf_of_step hc hw hstep hne, ?_⟩
  have hupheld : wp (step b u op) _ _ (t, w) := upheld_step hm hw hi hc (Room.affords_any _ _ op)
  cases r with
  | ok r => exact (wp_of_ok hstep).mp hupheld
  | error p => exact ((wp_of_error hstep).mp hupheld).2

end HashMap

end Opthash
