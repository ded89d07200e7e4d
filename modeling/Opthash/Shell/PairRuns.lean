import Opthash.Shell.Assigning
import Opthash.Shell.Histories

namespace Opthash.HashSet

open Exec FiniteMap FiniteSet HashMap

/-- The calls of which programs over two sets are made; some of them consult the other set. -/
inductive Call (T : Type)
  | alone (op : Op T Unit)
  | getOrInsertClone (value : T)
  | retain (present : Bool)

section Definitions

variable {W T : Type} (b : Side → TableBackend W T Unit) (u : Side → User W T Unit)

def perform (side : Side) : Call T → Both b Unit
  | .alone op => do
    let _ ← within b side (HashMap.step (b side) (u side) op)
    pure ()
  | .getOrInsertClone value => do
    let _ ← within b side (getOrInsertClone (b side) (u side) value)
    pure ()
  | .retain present => retain b u side (testMembership b u side present)

structure Event where
  side : Side
  call : Call T
  before : Sets b × World W T Unit

/-- Programs over two sets, with the calls they made; none after one that aborts. Between two calls the rest of the
program may do to its own state whatever it likes. -/
inductive Calls : Sets b × World W T Unit → List (Event b) → Sets b × World W T Unit → Prop
  | nil (s : Sets b × World W T Unit) : Calls s [] s
  | beside {s : Sets b × World W T Unit} {es : List (Event b)} {ts : Sets b} {w : World W T Unit} (w' : World W T Unit)
      (h : Calls s es (ts, w)) : Calls s es (ts, w')
  | call {s s' s'' : Sets b × World W T Unit} {es : List (Event b)} {side : Side} {call : Call T}
      {r : Except Panic Unit} (h : Calls s es s') (hstep : perform b u side call s' = (r, s''))
      (habort : r ≠ .error .abort) : Calls s (es ++ [⟨side, call, s'⟩]) s''

def replay : List (Side × Call T) → Sets b × World W T Unit → Option (Sets b × World W T Unit)
  | [], s => some s
  | (side, call) :: calls, s => match perform b u side call s with
    | (.ok _, s') => replay calls s'
    | _ => none

variable (R : (side : Side) → Reading (b side).Table (b side).Location (b side).Vacant (b side).Scan T Unit)
  (hash : Side → T → UInt64) (eqv : T → T → Bool)

/-- Whatever tests of membership in the other set and the destructors make of the state of the user code, the hasher
lasts for `n` calls. -/
def Lasts (side : Side) (n : Nat) (code : W) : Prop :=
  ∃ J : W → Prop, J code ∧ (u side.other).SearchStable J ∧ (u side).DropStable J ∧ ∀ c, J c → (u side).CalmFor n c

/-- What the closure of `get_or_insert_with` made fits, a forgotten drain took nothing, no destructor interrupts the
drop of another one, and the hasher lasts for the refresh of the filter that the deletes of the call leave to do. -/
def Event.Meets (e : Event b) : Prop :=
  match e.call with
  | .alone op => op.Fitting (hash e.side) eqv ((R e.side).entries (e.before.1 e.side)) ∧
      op.Steadfast (R e.side) (u e.side) (e.before.1 e.side) e.before.2.code ∧
      op.Undrained ((R e.side).entries (e.before.1 e.side)) ∧
      op.Quiet (u e.side) ((R e.side).entries (e.before.1 e.side)) e.before.2.code
  | .getOrInsertClone _ => True
  | .retain present =>
    let final := retained (b e.side)
      (.ofKey (answer (R e.side.other) eqv (e.before.1 e.side.other) present)) (e.before.1 e.side)
    (R e.side).RefreshesDeferred final → Lasts u e.side ((R e.side).entries final).length e.before.2.code

end Definitions

variable {W T : Type} {b : Side → TableBackend W T Unit} {u : Side → User W T Unit}
  {R : (side : Side) → Reading (b side).Table (b side).Location (b side).Vacant (b side).Scan T Unit}
  {hash : Side → T → UInt64} {eqv : T → T → Bool} {copyKey : T → T} {copyValue : Unit → Unit} {ts : Sets b}
  {w : World W T Unit} {side : Side} {s s' : Sets b × World W T Unit} {es : List (Event b)}

theorem Calls.replay (h : Calls b u s es s') {calls : List (Side × Call T)} {s'' : Sets b × World W T Unit}
    (hreplay : HashSet.replay b u calls s' = some s'') :
    ∃ es', Calls b u s (es ++ es') s'' ∧ ∀ e ∈ es', (e.side, e.call) ∈ calls := by
  induction calls generalizing s' es with
  | nil =>
    cases hreplay
    exact ⟨[], by rwa [List.append_nil], fun _ he => absurd he List.not_mem_nil⟩
  | cons first calls ih =>
    obtain ⟨side, call⟩ := first
    rw [HashSet.replay] at hreplay
    rcases hstep : perform b u side call s' with ⟨p | r, s₁⟩
    · rw [hstep] at hreplay
      cases hreplay
    · rw [hstep] at hreplay
      obtain ⟨es', hcalls, hes'⟩ := ih (h.call hstep nofun) hreplay
      rw [List.append_assoc] at hcalls
      refine ⟨_, hcalls, fun e he => ?_⟩
      rcases List.mem_cons.mp he with rfl | he
      · exact List.mem_cons_self ..
      · exact List.mem_cons_of_mem _ (hes' e he)

theorem forall_side {P : Side → Prop} (side : Side) (h : P side) (h' : P side.other) : ∀ side', P side' := by
  cases side <;> rintro (_ | _) <;> assumption

theorem proper_update (hp : ∀ side, Proper (R side) (u side) eqv (ts side)) {t : (b side).Table}
    (h : Proper (R side) (u side) eqv t) (side' : Side) :
    Proper (R side') (u side') eqv (Function.update ts side t side') := by
  refine forall_side (P := fun side' => Proper (R side') (u side') eqv (Function.update ts side t side')) side ?_ ?_ side'
  · rwa [Function.update_self]
  · rw [update_other]
    exact hp side.other

section Properness

variable (hc : ∀ side, Contract (R side) (u side)) (hl : ∀ side, (u side).Lawful (hash side) eqv)
  (hcopy : ∀ side, (u side).Copying eqv copyKey copyValue)
include hc hl hcopy

omit hcopy in
theorem wp_performRetain (hp : ∀ side, Proper (R side) (u side) eqv (ts side)) {side : Side} {present : Bool}
    (hmeets : Event.Meets b u R hash eqv ⟨side, .retain present, ts, w⟩) :
    wp (retain b u side (testMembership b u side present)) (fun _ s => ∀ side, Proper (R side) (u side) eqv (s.1 side))
      (fun p s => p ≠ .abort → ∀ side, Proper (R side) (u side) eqv (s.1 side)) (ts, w) := by
  have hside := hp side
  have hboth : ∀ s : Sets b × World W T Unit, s.1 side.other = ts side.other → Proper (R side) (u side) eqv (s.1 side) →
      ∀ side, Proper (R side) (u side) eqv (s.1 side) := fun s hother hproper =>
    forall_side (P := fun side => Proper (R side) (u side) eqv (s.1 side)) side hproper (hother ▸ hp side.other)
  obtain ⟨J, hj, hsearch, hdrop, hcalm⟩ : ∃ J : W → Prop, J w.code ∧ (u side.other).SearchStable J ∧
      (u side).DropStable J ∧ ((R side).RefreshesDeferred (retained (b side)
        (.ofKey (answer (R side.other) eqv (ts side.other) present)) (ts side)) → ∀ c, J c → (u side).CalmFor
          ((R side).entries (retained (b side) (.ofKey (answer (R side.other) eqv (ts side.other) present))
            (ts side))).length c) := by
    by_cases hrefreshes : (R side).RefreshesDeferred (retained (b side)
      (.ofKey (answer (R side.other) eqv (ts side.other) present)) (ts side))
    · obtain ⟨J, hj, hsearch, hdrop, hcalm⟩ := hmeets hrefreshes
      exact ⟨J, hj, hsearch, hdrop, fun _ => hcalm⟩
    · exact ⟨fun _ => True, trivial, User.searchStable_true _, ⟨fun _ _ => id, fun _ _ => id⟩, fun h => absurd h hrefreshes⟩
  have hanswers := answers_testMembership hc hl (hp side.other).stores hsearch present
  refine wp_mono (HashSet.wp_retain (κ := fun _ => 0) hc hanswers hdrop hside.stores.wf hj) ?_ ?_
  · exact fun _ s h => hboth s h.1 (hside.finished (hl side) h.2)
  · rintro p s ⟨-, hrest⟩ hne
    obtain ⟨hother, ⟨kept, t₁, hdone⟩ | ⟨-, kept, w₁, hpruned, hj₁, -, hunsettled⟩⟩ := hrest hne
    · exact hboth s hother (hside.finished (hl side) hdone)
    · refine hboth s hother ⟨⟨hunsettled.wf, ?_, ?_⟩, hunsettled.counted (hpruned.keeps.counted hside.counted)⟩
      · refine (hunsettled.sound (hpruned.keeps.sound hside.stores.sound)).resolve_right ?_
        rintro ⟨-, hrefreshes, hloud⟩
        exact hloud (hcalm hrefreshes _ hj₁)
      · refine hside.stores.distinct.of_subperm (hl side).equality ?_
        exact ((hunsettled.entries.trans hpruned.entries).map _).subperm.trans hpruned.keys

theorem wp_perform (hp : ∀ side, Proper (R side) (u side) eqv (ts side)) {side : Side} {call : Call T}
    (hmeets : Event.Meets b u R hash eqv ⟨side, call, ts, w⟩) :
    wp (perform b u side call) (fun _ s => ∀ side, Proper (R side) (u side) eqv (s.1 side))
      (fun p s => p ≠ .abort → ∀ side, Proper (R side) (u side) eqv (s.1 side)) (ts, w) := by
  cases call with
  | alone op =>
    obtain ⟨hfitting, hsteadfast, hundrained, hquiet⟩ := hmeets
    have hside := hp side
    rw [perform, wp_bind, wp_within]
    refine wp_mono (wp_and (wp_step_stores (w := w) (hc side) (hl side) (hcopy side) hside.stores hfitting)
      (wp_step (κ := fun _ => 0) (w := w) (hc side) hside.stores.wf op)) ?_ ?_
    · rintro _ s ⟨hstores, hdone⟩
      exact proper_update hp ⟨hstores, hdone.counted hundrained hside.counted⟩
    · rintro p s ⟨hstores, hfailed⟩ hne
      exact proper_update hp ⟨hstores hne hsteadfast, (hfailed.2 hne).counted hquiet hside.counted⟩
  | getOrInsertClone value =>
    rw [perform, wp_bind, wp_within]
    refine wp_mono (wp_getOrInsertClone (hc side) (hl side) (hcopy side) (hp side) value) ?_ ?_
    · exact fun _ s h => proper_update hp h.1
    · exact fun p s h hne => proper_update hp (h.2 hne)
  | retain present => exact wp_performRetain hc hl hp hmeets

theorem proper_of_calls (h : Calls b u s es s') (hes : ∀ e ∈ es, e.Meets b u R hash eqv)
    (hp : ∀ side, Proper (R side) (u side) eqv (s.1 side)) : ∀ side, Proper (R side) (u side) eqv (s'.1 side) := by
  induction h with
  | nil => exact hp
  | beside _ _ ih => exact ih hes
  | @call s' s'' es side call r _ hstep habort ih =>
    have hbefore := ih fun e he => hes e (List.mem_append_left _ he)
    have hwp := wp_perform hc hl hcopy hbefore (hes _ (List.mem_append_right _ (List.mem_singleton.mpr rfl)))
    cases r with
    | ok r => exact (wp_of_ok hstep).mp hwp
    | error p => exact (wp_of_error hstep).mp hwp fun hp => habort (hp ▸ rfl)

end Properness

section Traces

theorem calls_of_perform (call : Call T) (h : Calls b u s es s') :
    wp (perform b u side call) (fun _ s'' => ∃ es', Calls b u s es' s'') (fun p s'' => p ≠ .abort → ∃ es', Calls b u s es' s'')
      s' := by
  refine wp_mono (wp_self (perform b u side call) s') ?_ ?_
  · exact fun _ s'' hstep => ⟨_, h.call hstep nofun⟩
  · exact fun p s'' hstep hne => ⟨_, h.call hstep fun he => hne (Except.error.inj he)⟩

/-- A method that is called without handing its result over is a call of the method, and the rest of the program. -/
theorem calls_of_step {α β : Type} {c : HashMap.Step (b side) α} {hand : α → Exec Panic (World W T Unit) Unit}
    (op : Op T Unit) (ret : α → Ret T Unit) (f : α → β)
    (hop : HashMap.step (b side) (u side) op = do
      let a ← c
      Exec.onSnd (hand a)
      pure (ret a))
    (hhand : ∀ a w, ∃ w', hand a w = (.ok (), w')) (h : Calls b u s es (ts, w)) :
    wp (within b side (do
        let a ← c
        pure (f a))) (fun _ s' => ∃ es', Calls b u s es' s') (fun p s' => p ≠ .abort → ∃ es', Calls b u s es' s')
      (ts, w) := by
  have hperform : wp (perform b u side (.alone op)) _ _ (ts, w) := calls_of_perform (.alone op) h
  rw [perform, hop, wp_bind, wp_within, wp_bind] at hperform
  rw [wp_within, wp_bind]
  refine wp_mono hperform ?_ ?_
  · rintro a ⟨t', w'⟩ hrest
    obtain ⟨w'', hw''⟩ := hhand a w'
    rw [wp_bind, wp_onSnd, wp_of_ok hw''] at hrest
    obtain ⟨es', hcalls⟩ := hrest
    exact ⟨es', hcalls.beside w'⟩
  · exact fun _ _ hcalls => hcalls

theorem exists_handed (old : Option Unit) (w : World W T Unit) :
    ∃ w', (old.elim (pure ()) handV : Exec Panic (World W T Unit) Unit) w = (.ok (), w') := by
  cases old <;> exact ⟨_, rfl⟩

/-- What `c` does is a part of a program that does not touch the other set. -/
def Traced (b : Side → TableBackend W T Unit) (u : Side → User W T Unit) (s : Sets b × World W T Unit) (side : Side)
    {α : Type} (c : Both b α) : Prop :=
  ∀ {es ts w}, Calls b u s es (ts, w) →
    wp c (fun _ s' => s'.1 side.other = ts side.other ∧ ∃ es', Calls b u s es' s')
      (fun p s' => p ≠ .abort → ∃ es', Calls b u s es' s') (ts, w)

theorem Traced.pure {α : Type} (a : α) : Traced b u s side (pure a) := fun h => ⟨rfl, _, h⟩

theorem Traced.bind {α β : Type} {c : Both b α} {f : α → Both b β} (hc : Traced b u s side c)
    (hf : ∀ a, Traced b u s side (f a)) : Traced b u s side (c >>= f) := by
  intro es ts w h
  rw [wp_bind]
  refine wp_mono (hc h) ?_ (fun _ _ => id)
  rintro a ⟨ts', w'⟩ ⟨hother, es', hcalls⟩
  refine wp_mono (hf a hcalls) ?_ (fun _ _ => id)
  exact fun _ _ hrest => ⟨hrest.1.trans hother, hrest.2⟩

theorem Traced.within {α : Type} {c : HashMap.Step (b side) α}
    (h : ∀ {es ts w}, Calls b u s es (ts, w) → wp (HashSet.within b side c) (fun _ s' => ∃ es', Calls b u s es' s')
      (fun p s' => p ≠ .abort → ∃ es', Calls b u s es' s') (ts, w)) : Traced b u s side (HashSet.within b side c) := by
  intro es ts w hcalls
  have hframe : wp (HashSet.within b side c) (fun _ s' => s'.1 side.other = ts side.other) (fun _ _ => True) (ts, w) := by
    rw [wp_within]
    exact wp_mono (wp_self _ _) (fun _ s' _ => update_other ts side s'.1) fun _ _ _ => trivial
  exact wp_mono (wp_and hframe (h hcalls)) (fun _ _ => id) fun _ _ h => h.2

theorem traced_remove (value : T) : Traced b u s side (within b side (remove (b side) (u side) value)) :=
  Traced.within fun h => calls_of_step (.remove value) .value Option.isSome rfl exists_handed h

theorem traced_insert (value : T) : Traced b u s side (within b side (insert (b side) (u side) value)) :=
  Traced.within fun h => calls_of_step (.insert value ()) .value Option.isNone rfl exists_handed h

theorem traced_getOrInsertClone (value : T) :
    Traced b u s side (within b side (getOrInsertClone (b side) (u side) value)) := by
  refine Traced.within fun h => ?_
  have hperform : wp (perform b u side (.getOrInsertClone value)) _ _ _ := calls_of_perform _ h
  rwa [perform, wp_bind] at hperform

theorem traced_clone (value : T) : Traced b u s side (onSnd ((u side).cloneK value)) := by
  intro es ts w h
  rw [wp_onSnd]
  exact wp_mono (wp_self _ _) (fun _ w' _ => ⟨rfl, es, h.beside w'⟩) fun _ w' _ _ => ⟨es, h.beside w'⟩

variable (hc : ∀ side, Contract (R side) (u side)) (hp : ∀ side, Proper (R side) (u side) eqv (ts side))
include hc hp

theorem calls_forOther {body : T → Both b Unit} (hbody : ∀ value, Traced b u s side (body value))
    (h : Calls b u s es (ts, w)) :
    wp (forOther b side body) (fun _ s' => ∃ es', Calls b u s es' s') (fun p s' => p ≠ .abort → ∃ es', Calls b u s es' s')
      (ts, w) := by
  have hremaining := remaining_keys hc hp side.other
  rw [forOther, wp_bind, wp_get]
  refine wp_mono (Iterator.wp_forEach (K := fun _ s' => s'.1 side.other = ts side.other ∧ ∃ es', Calls b u s es' s')
    (fun _ => lawful_iterator hc (hp side.other).stores.wf fun s' hs' => hs'.1) ?_ hremaining ⟨rfl, es, h⟩
    hremaining.fuel) (fun _ _ h => h.2) (fun _ _ => id)
  rintro value _ ⟨ts', w'⟩ ⟨hother, es', hcalls⟩
  refine wp_mono (hbody value hcalls) ?_ (fun _ _ => id)
  exact fun _ _ hrest => ⟨hrest.1.trans hother, hrest.2⟩

theorem calls_assign (op : Assign) (h : Calls b u s es (ts, w)) :
    wp (assign b u side op) (fun _ s' => ∃ es', Calls b u s es' s') (fun p s' => p ≠ .abort → ∃ es', Calls b u s es' s')
      (ts, w) := by
  cases op with
  | bitor => exact calls_forOther hc hp (fun value => Traced.bind (traced_getOrInsertClone value) fun _ => Traced.pure ()) h
  | bitand => exact calls_of_perform (.retain true) h
  | bitxor =>
    refine calls_forOther hc hp (fun value => Traced.bind (traced_remove value) fun removed => ?_) h
    cases removed with
    | true => exact Traced.pure ()
    | false =>
      exact Traced.bind (traced_clone value) fun copy => Traced.bind (traced_insert copy) fun _ => Traced.pure ()
  | sub =>
    change wp (subAssign b u side) _ _ _
    rw [subAssign, wp_bind, wp_get]
    dsimp only
    rw [wp_ite]
    constructor
    · exact fun _ => calls_forOther hc hp (fun value => Traced.bind (traced_remove value) fun _ => Traced.pure ()) h
    · exact fun _ => calls_of_perform (.retain false) h

end Traces

end Opthash.HashSet
