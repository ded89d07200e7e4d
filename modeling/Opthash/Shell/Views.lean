import Opthash.Entry
import Opthash.Shell.Entries
import Opthash.Shell.Refinement

namespace Opthash.HashMap

open Exec FiniteMap Sessions

variable {W K V : Type} {b : TableBackend W K V} {R : Reading b.Table b.Location b.Vacant b.Scan K V} {u : User W K V}
  {hash : K → UInt64} {eqv : K → K → Bool} {t t' : b.Table} {w : World W K V} {m : List (K × V)} {key : K}

def At (R : Reading b.Table b.Location b.Vacant b.Scan K V) (u : User W K V) (t : b.Table) :
    Place K → Option (Entry b) → Prop
  | .occupied key, some (.occupied loc) => ∃ value, R.Holds t loc (key, value)
  | .vacant key, some (.vacant key' token) => key' = key ∧ Searched R u t key (.inr token)
  | .gone, none => True
  | _, _ => False

structure Views (R : Reading b.Table b.Location b.Vacant b.Scan K V) (u : User W K V) (eqv : K → K → Bool)
    (s : List (K × V) × Place K) (e : Option (Entry b)) (t : b.Table) : Prop where
  stores : Stores R u eqv t
  entries : (R.entries t).Perm s.1
  place : At R u t s.2 e

def Leaves (R : Reading b.Table b.Location b.Vacant b.Scan K V) (u : User W K V) (eqv : K → K → Bool) (who : Prop)
    (m : List (K × V)) (p : Panic) (t : b.Table) : Prop :=
  p.Blamed (¬u.Calm ∨ who) ∧ (p ≠ .abort → Stores R u eqv t ∧ (R.entries t).Perm m)

theorem Leaves.weaken {who who' : Prop} {m' : List (K × V)} {p : Panic} (h : Leaves R u eqv who m p t)
    (hwho : who → who') (hm : m.Perm m') : Leaves R u eqv who' m' p t :=
  ⟨h.1.mono (Or.imp id hwho), fun hne => ⟨(h.2 hne).1, (h.2 hne).2.trans hm⟩⟩

section Stored

variable (hc : Contract R u) (hl : u.Lawful hash eqv) (hs : Stores R u eqv t)
include hc hl hs

omit hc hl in
theorem stores_rearranged (hl : u.Lawful hash eqv) (h : R.Rearranged u t t') : Stores R u eqv t' :=
  ⟨h.keeps.wf, h.keeps.sound hs.sound, hs.distinct.perm hl.equality h.entries⟩

theorem stores_written {loc : b.Location} {old : V} (he : R.Holds t loc (key, old)) (f : V → V) :
    Stores R u eqv (b.writeValue loc key (f old) t) ∧
      (R.entries (b.writeValue loc key (f old) t)).Perm (update eqv key f (R.entries t)) ∧
      R.Holds (b.writeValue loc key (f old) t) loc (key, f old) := by
  obtain ⟨hsteady, ⟨rest, hbefore, hafter⟩, hholds, -⟩ := hc.writeValue (f old) hs.wf he
  have hupdate : (R.entries (b.writeValue loc key (f old) t)).Perm (update eqv key f (R.entries t)) :=
    hafter.trans (update_perm hl.equality hs.distinct hbefore (hl.equality.refl key) f).symm
  refine ⟨⟨hsteady.wf, hsteady.sound hs.sound, ?_⟩, hupdate, hholds⟩
  exact (distinct_update hs.distinct).perm hl.equality hupdate

omit hc in
theorem stores_added {value : V} {x : UInt64} (h : R.Added u t t' key value x) (hx : u.Hashes key x)
    (hfind : find eqv key (R.entries t) = none) : Stores R u eqv t' :=
  ⟨h.wf, h.sound hs.sound hx, (distinct_put_absent hs.distinct hfind).perm hl.equality h.entries⟩

omit hc in
theorem stores_removed {e : K × V} (hw : R.Wf t') (hsound : R.Sound u True t')
    (h : (R.entries t).Perm (e :: R.entries t')) :
    Stores R u eqv t' ∧ (R.entries t').Perm (erase eqv e.1 (R.entries t)) := by
  refine ⟨⟨hw, hsound, ?_⟩, (erase_perm hl.equality hs.distinct h (hl.equality.refl e.1)).symm⟩
  exact (distinct_cons.mp (hs.distinct.perm hl.equality h.symm)).2

theorem wp_remove_view (hcalm : ∀ n code, u.CalmFor n code) {loc : b.Location} {e : K × V} (he : R.Holds t loc e) :
    wp (b.remove loc)
      (fun e' s => e' = e ∧ Stores R u eqv s.1 ∧ (R.entries s.1).Perm (erase eqv e.1 (R.entries t)))
      (fun p s => Leaves R u eqv False (erase eqv e.1 (R.entries t)) p s.1) (t, w) := by
  apply wp_mono (hc.remove hs.wf he (fun _ => 0) w)
  · rintro e' s ⟨rfl, hsteady, hperm, -⟩
    exact ⟨rfl, stores_removed hl hs hsteady.wf (hsteady.sound hs.sound) hperm⟩
  · rintro p s ⟨hp, hleft⟩
    refine ⟨hp.mono .inl, fun hne => ?_⟩
    obtain ⟨hperm, ⟨t₁, hkeeps, -, -, hunsettled⟩, -⟩ := hleft hne
    rcases hunsettled.sound (hkeeps.sound hs.sound) with hsound | ⟨-, -, hburst⟩
    · exact stores_removed hl hs hunsettled.wf hsound hperm
    · exact absurd (hcalm _ _) hburst

theorem wp_insert_view {token : b.Vacant} (h : Searched R u t key (.inr token)) (value : V) :
    wp (b.insertForVacant key value token)
      (fun loc s => Stores R u eqv s.1 ∧ (R.entries s.1).Perm ((key, value) :: R.entries t) ∧
        R.Holds s.1 loc (key, value))
      (fun p s => Leaves R u eqv False (R.entries t) p s.1) (t, w) := by
  obtain ⟨x, hx, hrefuted, hfits⟩ := h
  have hfind : find eqv key (R.entries t) = none := Absent.find hc hl hs ⟨x, hx, hrefuted⟩
  apply wp_mono (hc.insertForVacant hs.wf hfits (fun _ => 0) key value w)
  · rintro loc s ⟨hadded, hholds, -⟩
    exact ⟨stores_added hl hs hadded hx hfind, hadded.entries, hholds⟩
  · rintro p s ⟨hp, hleft⟩
    refine ⟨hp.mono .inl, fun hne => ?_⟩
    have hrearranged := (hleft hne).1.toRearranged
    exact ⟨stores_rearranged hs hl hrearranged, hrearranged.entries⟩

end Stored

section Calls

variable (hc : Contract R u) (hl : u.Lawful hash eqv)
include hc hl

theorem Views.value {loc : b.Location} {value : V} (h : Views R u eqv (m, .occupied key) (some (.occupied loc)) t)
    (he : R.Holds t loc (key, value)) : Place.value eqv m (.occupied key) = some value := by
  apply value_occupied hl.equality
  · exact h.stores.distinct.perm hl.equality h.entries.symm
  · exact h.entries.mem_iff.mp ((hc.mem_entries h.stores.wf).mpr ⟨loc, he⟩)

theorem wp_modify_view {loc : b.Location} (h : Views R u eqv (m, .occupied key) (some (.occupied loc)) t)
    (f : V → V × Bool) :
    wp (OccupiedEntry.getMut b loc f)
      (fun _ s => Views R u eqv (update eqv key (fun v => (f v).1) m, .occupied key) (some (.occupied loc)) s.1)
      (fun p s => Leaves R u eqv (∃ v, (f v).2 = false) (update eqv key (fun v => (f v).1) m) p s.1) (t, w) := by
  obtain ⟨value, he⟩ := h.place
  obtain ⟨hstores, hentries, hholds⟩ := stores_written hc hl h.stores he fun v => (f v).1
  have hm := hentries.trans (update_congr h.entries key fun v => (f v).1)
  rw [OccupiedEntry.getMut, wp_bind, wp_slotEntry hc he, wp_bind, wp_modify, wp_expect]
  constructor
  · rintro ⟨⟩ -
    exact ⟨hstores, hm, _, hholds⟩
  · intro hnone
    have hpanic : (f value).2 = false := by
      by_contra hreturns
      rw [if_pos (by simpa using hreturns)] at hnone
      cases hnone
    exact ⟨.user (.inr ⟨value, hpanic⟩), fun _ => ⟨hstores, hm⟩⟩

theorem wp_replace_view {loc : b.Location} (h : Views R u eqv (m, .occupied key) (some (.occupied loc)) t) (value : V) :
    wp (OccupiedEntry.insert b loc value)
      (fun old s => some old = Place.value eqv m (.occupied key) ∧
        Views R u eqv (update eqv key (fun _ => value) m, .occupied key) (some (.occupied loc)) s.1)
      (fun _ _ => False) (t, w) := by
  obtain ⟨old, he⟩ := h.place
  obtain ⟨hstores, hentries, hholds⟩ := stores_written hc hl h.stores he fun _ => value
  rw [OccupiedEntry.insert, wp_bind, wp_slotEntry hc he, wp_bind, wp_modify, wp_pure]
  exact ⟨(h.value hc hl he).symm, hstores, hentries.trans (update_congr h.entries key _), _, hholds⟩

theorem wp_call_occupied (hcalm : ∀ n code, u.CalmFor n code) {loc : b.Location}
    (h : Views R u eqv (m, .occupied key) (some (.occupied loc)) t) (c : Call K V) :
    wp (Entry.call b u (.occupied loc) c)
      (fun r s => r.1 = (view eqv (m, .occupied key) c).1 ∧ Views R u eqv (view eqv (m, .occupied key) c).2 r.2 s.1)
      (fun p s => Leaves R u eqv c.MayPanic (left eqv (m, .occupied key) c) p s.1) (t, w) := by
  obtain ⟨value, he⟩ := h.place
  have hvalue : Place.value eqv m (.occupied key) = some value := h.value hc hl he
  have herase : (erase eqv key (R.entries t)).Perm (erase eqv key m) := h.entries.filter _
  cases c with
  | key =>
    rw [Entry.call, wp_bind, Entry.key, OccupiedEntry.key, wp_map, wp_slotEntry hc he]
    exact ⟨rfl, h⟩
  | get =>
    rw [Entry.call, wp_bind, OccupiedEntry.get, wp_map, wp_slotEntry hc he]
    exact ⟨congrArg (Prod.mk none) hvalue.symm, h⟩
  | modify f =>
    rw [Entry.call, Entry.andModify, wp_bind, wp_bind]
    apply wp_mono (wp_modify_view hc hl h f) _ (fun _ _ h => h)
    exact fun _ s h => ⟨rfl, h⟩
  | insert value =>
    rw [Entry.call, wp_bind]
    apply wp_mono (wp_replace_view hc hl h value) _ (fun _ _ h => h.elim)
    rintro old s ⟨hold, hviews⟩
    exact ⟨congrArg (Prod.mk none) hold, hviews⟩
  | orInsert f =>
    rw [Entry.call, wp_bind, Entry.orInsertWithKey, wp_pure, wp_bind, OccupiedEntry.get, wp_map, wp_slotEntry hc he]
    exact ⟨congrArg (Prod.mk none) hvalue.symm, h⟩
  | remove =>
    rw [Entry.call, wp_bind, OccupiedEntry.remove, OccupiedEntry.removeEntry, wp_bind]
    apply wp_mono (wp_remove_view hc hl h.stores hcalm he)
    · rintro e ⟨t', w'⟩ ⟨rfl, hstores, hentries⟩
      rw [wp_bind, wp_onSnd]
      apply wp_mono (User.wp_dropBoth (User.wp_dropK (κ := fun _ => 0) key) (User.wp_dropV value) w')
      · intro _ w'' _
        exact ⟨congrArg (Prod.mk none) hvalue.symm, hstores, hentries.trans herase, trivial⟩
      · intro p w'' hdrop
        exact ⟨hdrop.1.blamed.mono .inl, fun _ => ⟨hstores, hentries.trans herase⟩⟩
    · exact fun p s hleft => hleft.weaken False.elim herase
  | removeEntry =>
    rw [Entry.call, wp_bind, OccupiedEntry.removeEntry]
    apply wp_mono (wp_remove_view hc hl h.stores hcalm he)
    · rintro e s ⟨rfl, hstores, hentries⟩
      exact ⟨congrArg (Prod.mk (some key)) hvalue.symm, hstores, hentries.trans herase, trivial⟩
    · exact fun p s hleft => hleft.weaken False.elim herase
  | intoKey =>
    rw [Entry.call, wp_bind, Entry.key, OccupiedEntry.key, wp_map, wp_slotEntry hc he]
    exact ⟨rfl, h.stores, h.entries, trivial⟩

theorem wp_call_vacant {token : b.Vacant} (h : Views R u eqv (m, .vacant key) (some (.vacant key token)) t)
    (c : Call K V) :
    wp (Entry.call b u (.vacant key token) c)
      (fun r s => r.1 = (view eqv (m, .vacant key) c).1 ∧ Views R u eqv (view eqv (m, .vacant key) c).2 r.2 s.1)
      (fun p s => Leaves R u eqv c.MayPanic (left eqv (m, .vacant key) c) p s.1) (t, w) := by
  have hinsert : ∀ (value : V) (w : World W K V), wp (b.insertForVacant key value token)
      (fun loc s => Views R u eqv ((key, value) :: m, .occupied key) (some (.occupied loc)) s.1 ∧
        R.Holds s.1 loc (key, value))
      (fun p s => Leaves R u eqv False m p s.1) (t, w) := by
    intro value w
    apply wp_mono (wp_insert_view hc hl h.stores h.place.2 value)
    · rintro loc s ⟨hstores, hentries, hholds⟩
      exact ⟨⟨hstores, hentries.trans (h.entries.cons _), value, hholds⟩, hholds⟩
    · exact fun p s hleft => hleft.weaken id h.entries
  cases c with
  | key => exact ⟨rfl, h⟩
  | get => exact ⟨rfl, h⟩
  | modify f => exact ⟨rfl, h⟩
  | insert value =>
    rw [Entry.call, wp_bind, VacantEntry.insertEntry]
    apply wp_mono (hinsert value w)
    · exact fun loc s hviews => ⟨rfl, hviews.1⟩
    · exact fun p s hleft => hleft.weaken False.elim (.refl _)
  | orInsert f =>
    rw [Entry.call, wp_bind, Entry.orInsertWithKey, wp_bind, view]
    cases hf : f key with
    | none =>
      apply User.wp_cleanup (u := u)
      · exact fun hcalm s => ⟨.abort (.inl hcalm), fun hne => absurd rfl hne⟩
      · refine ⟨nofun, fun _ => ?_⟩
        rw [wp_onSnd]
        apply wp_mono (User.wp_dropK (κ := fun _ => 0) key w)
        · exact fun _ w' _ => ⟨.user (.inr ⟨key, hf⟩), fun _ => ⟨h.stores, h.entries⟩⟩
        · exact fun p w' hp => hp.1.2
    | some value =>
      rw [wp_guarded]
      change wp (b.insertForVacant key value token) _ _ (t, w)
      apply wp_mono (hinsert value w)
      · rintro loc s ⟨hviews, hholds⟩
        rw [wp_bind, OccupiedEntry.get, wp_map, wp_slotEntry hc hholds]
        exact ⟨rfl, hviews⟩
      · exact fun p s hleft => hleft.weaken False.elim (.refl _)
  | remove => exact ⟨rfl, h⟩
  | removeEntry => exact ⟨rfl, h⟩
  | intoKey => exact ⟨rfl, h.stores, h.entries, trivial⟩

theorem answers_callEntry (hcalm : ∀ n code, u.CalmFor n code) :
    Answers (callEntry b u) (view eqv) (fun m s => Views R u eqv m s.1 s.2.1)
      fun m c p s => Leaves R u eqv c.MayPanic (left eqv m c) p s.2.1 := by
  rintro ⟨m, place⟩ c ⟨e, t, w⟩ h
  have hplace := h.place
  rw [callEntry, wp_bind, wp_get]
  have hcall : ∀ (e : Entry b), wp (Entry.call b u e c)
      (fun r s => r.1 = (view eqv (m, place) c).1 ∧ Views R u eqv (view eqv (m, place) c).2 r.2 s.1)
      (fun p s => Leaves R u eqv c.MayPanic (left eqv (m, place) c) p s.1) (t, w) →
      wp (onSnd (Entry.call b u e c) >>= fun r => do
          modify fun s => (r.2, s.2)
          pure r.1)
        (fun reply s => reply = (view eqv (m, place) c).1 ∧ Views R u eqv (view eqv (m, place) c).2 s.1 s.2.1)
        (fun p s => Leaves R u eqv c.MayPanic (left eqv (m, place) c) p s.2.1) (some e, t, w) := by
    intro e h
    rw [wp_bind, wp_onSnd]
    exact wp_mono h (fun _ _ h => h) fun _ _ h => h
  cases place with
  | occupied key =>
    rcases e with _ | (loc | ⟨key', token⟩)
    · exact False.elim hplace
    · exact hcall _ (wp_call_occupied hc hl hcalm h c)
    · exact False.elim hplace
  | vacant key =>
    rcases e with _ | (loc | ⟨key', token⟩)
    · exact False.elim hplace
    · exact False.elim hplace
    · obtain rfl : key' = key := hplace.1
      exact hcall _ (wp_call_vacant hc hl h c)
  | gone =>
    cases e with
    | none => cases c <;> exact ⟨rfl, h⟩
    | some e => cases e <;> exact False.elim hplace

theorem wp_entry (hs : Stores R u eqv t) (key : K) :
    wp (entry b u key) (fun e s => Views R u eqv (viewed eqv key (R.entries t)) (some e) s.1)
      (fun p s => Leaves R u eqv False (R.entries t) p s.1) (t, w) := by
  have hleaves : ∀ {p : Panic} {who : Prop}, p.Blamed (¬u.Calm) → Leaves R u eqv who (R.entries t) p t :=
    fun hp => ⟨hp.mono .inl, fun _ => ⟨hs, .refl _⟩⟩
  rw [entry, wp_bind]
  apply User.wp_cleanup (u := u)
  · exact fun hcalm s => ⟨.abort (.inl hcalm), fun hne => absurd rfl hne⟩
  · apply wp_mono (wp_searchEntry hc hs.wf key)
    · rintro (loc | token) ⟨t', w'⟩ ⟨ht, -, hsearched⟩
      · obtain rfl : t' = t := ht
        obtain ⟨e, he, hanswers⟩ := hsearched
        have hfind : find eqv key (R.entries t') = some e := Matched.find hl hs (matched_of_holds hc hs.wf he hanswers)
        dsimp only
        rw [wp_bind, wp_onSnd, viewed, hfind]
        apply wp_mono (User.wp_dropK (κ := fun _ => 0) key w')
        · exact fun _ w'' _ => ⟨hs, .refl _, e.2, he⟩
        · exact fun p w'' hp => hleaves hp.1.blamed
      · obtain rfl : t' = t := ht
        have hfind : find eqv key (R.entries t') = none := by
          obtain ⟨x, hx, hrefuted, -⟩ := hsearched
          exact Absent.find hc hl hs ⟨x, hx, hrefuted⟩
        dsimp only
        rw [wp_pure, viewed, hfind]
        exact ⟨hs, .refl _, rfl, hsearched⟩
    · rintro p ⟨t', w'⟩ ⟨hp, ht, -⟩
      obtain rfl : t' = t := ht
      refine ⟨fun habort => absurd habort hp.ne_abort, fun _ => ?_⟩
      rw [wp_onSnd]
      exact wp_mono (User.wp_dropK (κ := fun _ => 0) key w') (fun _ w'' _ => hleaves hp.blamed) fun p w'' hp => hp.1.2

/-- A chain unwinds in its search, at one of its calls, or where the key of a vacant entry drops. -/
def ChainPanic (R : Reading b.Table b.Location b.Vacant b.Scan K V) (u : User W K V) (eqv : K → K → Bool)
    (m : List (K × V)) (key : K) (calls : List (Call K V)) (p : Panic) (t : b.Table) : Prop :=
  Leaves R u eqv False m p t ∨
  (∃ before c after, calls = before ++ c :: after ∧
    Leaves R u eqv c.MayPanic (left eqv (answers (view eqv) (viewed eqv key m) before).2 c) p t) ∨
  Leaves R u eqv False (answers (view eqv) (viewed eqv key m) calls).2.1 p t

theorem wp_entryChain (hcalm : ∀ n code, u.CalmFor n code) (hs : Stores R u eqv t) (key : K) (calls : List (Call K V)) :
    wp (entryChain b u key calls)
      (fun replies s => replies = (answers (view eqv) (viewed eqv key (R.entries t)) calls).1 ∧ Stores R u eqv s.1 ∧
        (R.entries s.1).Perm (answers (view eqv) (viewed eqv key (R.entries t)) calls).2.1)
      (fun p s => ChainPanic R u eqv (R.entries t) key calls p s.1) (t, w) := by
  rw [entryChain, wp_bind]
  apply wp_mono (wp_entry hc hl hs key)
  · rintro e ⟨t₁, w₁⟩ hviews
    rw [wp_bind, wp_withLocal, wp_bind]
    apply wp_mono ((answers_callEntry hc hl hcalm).session (s := (some e, t₁, w₁)) hviews calls)
    · rintro replies ⟨e', t', w'⟩ ⟨hreplies, hviews'⟩
      rw [wp_bind, dropView, wp_bind, wp_get]
      dsimp only
      rcases e' with _ | (loc | ⟨key', token⟩)
      · exact ⟨hreplies, hviews'.stores, hviews'.entries⟩
      · exact ⟨hreplies, hviews'.stores, hviews'.entries⟩
      · dsimp only
        rw [wp_onSnd, wp_onSnd]
        apply wp_mono (User.wp_dropK (κ := fun _ => 0) key' w')
        · exact fun _ w'' _ => ⟨hreplies, hviews'.stores, hviews'.entries⟩
        · exact fun p w'' hp => .inr (.inr ⟨hp.1.blamed.mono .inl, fun _ => ⟨hviews'.stores, hviews'.entries⟩⟩)
    · rintro p s ⟨before, c, after, hcalls, hleaves⟩
      exact .inr (.inl ⟨before, c, after, hcalls, hleaves⟩)
  · exact fun p s hleaves => .inl hleaves

end Calls

end Opthash.HashMap
