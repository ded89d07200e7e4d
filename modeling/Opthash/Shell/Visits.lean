import Opthash.Shell.Sweeps

namespace Opthash

namespace Predicate

variable {K V : Type} (pred : Predicate K V)

/-- The entries the predicate accepts when it is asked about them in turn, with the values it leaves. -/
def accepted : List (K × V) → List (K × V) → List (K × V)
  | _, [] => []
  | seen, e :: es =>
    if (pred seen e).2 = some true then (e.1, (pred seen e).1) :: accepted (seen ++ [e]) es
    else accepted (seen ++ [e]) es

def refused : List (K × V) → List (K × V) → List (K × V)
  | _, [] => []
  | seen, e :: es =>
    if (pred seen e).2 = some true then refused (seen ++ [e]) es
    else (e.1, (pred seen e).1) :: refused (seen ++ [e]) es

variable {pred} {seen es : List (K × V)} {e : K × V}

theorem accepted_append (es' : List (K × V)) :
    pred.accepted seen (es ++ es') = pred.accepted seen es ++ pred.accepted (seen ++ es) es' := by
  induction es generalizing seen with
  | nil => simp [accepted]
  | cons e es ih =>
    rw [List.cons_append, accepted, accepted, ih, List.append_assoc, List.singleton_append]
    by_cases h : (pred seen e).2 = some true
    · simp [h]
    · simp [h]

theorem refused_append (es' : List (K × V)) :
    pred.refused seen (es ++ es') = pred.refused seen es ++ pred.refused (seen ++ es) es' := by
  induction es generalizing seen with
  | nil => simp [refused]
  | cons e es ih =>
    rw [List.cons_append, refused, refused, ih, List.append_assoc, List.singleton_append]
    by_cases h : (pred seen e).2 = some true
    · simp [h]
    · simp [h]

theorem accepted_of_accepts (h : (pred seen e).2 = some true) :
    pred.accepted [] (seen ++ [e]) = pred.accepted [] seen ++ [(e.1, (pred seen e).1)] := by
  rw [accepted_append]
  simp [accepted, h]

theorem accepted_of_refuses (h : (pred seen e).2 ≠ some true) :
    pred.accepted [] (seen ++ [e]) = pred.accepted [] seen := by
  rw [accepted_append]
  simp [accepted, h]

theorem refused_of_accepts (h : (pred seen e).2 = some true) :
    pred.refused [] (seen ++ [e]) = pred.refused [] seen := by
  rw [refused_append]
  simp [refused, h]

theorem refused_of_refuses (h : (pred seen e).2 ≠ some true) :
    pred.refused [] (seen ++ [e]) = pred.refused [] seen ++ [(e.1, (pred seen e).1)] := by
  rw [refused_append]
  simp [refused, h]

theorem length_accepted_le : (pred.accepted seen es).length ≤ es.length := by
  induction es generalizing seen with
  | nil => simp [accepted]
  | cons e es ih =>
    rw [accepted, List.length_cons]
    by_cases h : (pred seen e).2 = some true
    · simpa [h] using ih
    · simpa [h] using Nat.le_succ_of_le ih

end Predicate

namespace Ledger

variable {K V : Type}

def hand (l : Ledger K V) (e : K × V) : Ledger K V := { l with handed := .inr e.2 :: .inl e.1 :: l.handed }

def drop (l : Ledger K V) (e : K × V) : Ledger K V := { l with dropped := .inr e.2 :: .inl e.1 :: l.dropped }

end Ledger

namespace HashMap

open Exec

variable {W K V : Type} (b : TableBackend W K V) (pred : Predicate K V)

section Programs

def nextCaught (catches : Bool) : Exec Panic (ExtractScan b.Scan K V × b.Table × World W K V) (Option (K × V)) :=
  if catches then Exec.caught .abort none (nextMatching b pred) else nextMatching b pred

/-- `next` called once for each flag, which says whether the caller catches what the call panics with. -/
def callNext : List Bool → Exec Panic (ExtractScan b.Scan K V × b.Table × World W K V) (List (K × V))
  | [] => pure []
  | catches :: calls => do
    match ← nextCaught b pred catches with
    | none => callNext calls
    | some entry => do
      Exec.onSnd (Exec.onSnd (handEntry entry))
      let rest ← callNext calls
      pure (entry :: rest)

/-- A use of an `ExtractScan` up to its drop, with the scan in the state. -/
def scanned {α : Type} (body : Exec Panic (ExtractScan b.Scan K V × b.Table × World W K V) α) :
    Exec Panic (ExtractScan b.Scan K V × b.Table × World W K V) α := do
  let a ← Exec.guarded .abort body (dropExtractScan b)
  dropExtractScan b
  pure a

/-- An `ExtractIf` that is dropped after the calls, or unwound when its caller panics. -/
def useExtractIf (calls : List Bool) (unwinds : Bool) :
    Exec Panic (ExtractScan b.Scan K V × b.Table × World W K V) (List (K × V)) :=
  scanned b do
    let entries ← callNext b pred calls
    if unwinds then Exec.raise .user else pure entries

variable {b pred}

theorem withExtractScan_eq {α : Type} (body : Exec Panic (ExtractScan b.Scan K V × b.Table × World W K V) α)
    (t : b.Table) (w : World W K V) :
    withExtractScan b body (t, w) = ((scanned b body (⟨b.scan t, false, []⟩, t, w)).1,
      (scanned b body (⟨b.scan t, false, []⟩, t, w)).2.2) := by
  change (withLocal ⟨b.scan t, false, []⟩ (scanned b body) >>= fun r => pure r.1) (t, w) = _
  simp only [bind_apply, withLocal]
  rcases scanned b body (⟨b.scan t, false, []⟩, t, w) with ⟨_ | _, _, _⟩ <;> rfl

theorem callNext_replicate (n : Nat) : callNext b pred (List.replicate n false) = yieldMatching b pred n := by
  induction n with
  | zero => rfl
  | succ n ih =>
    rw [List.replicate_succ, callNext, yieldMatching, ih]
    rfl

end Programs

section Definitions

variable (t : b.Table)

def scanOrder : List b.Location := enumerate b t (b.totalSlots t + 1) (b.scan t)

/-- The predicate is asked about the entry at a location: what it has seen by then, and the table it leaves. -/
def ask (s : List (K × V) × b.Table) (loc : b.Location) : List (K × V) × b.Table :=
  match b.slotRef s.2 loc with
  | none => s
  | some e =>
    let t' := b.writeValue loc e.1 (pred s.1 e).1 s.2
    (s.1 ++ [e], if (pred s.1 e).2 = some true then b.extractFinish loc t' else t')

/-- The table after the predicate was asked at the locations in turn, before any cleanup. -/
def asked (locs : List b.Location) : List (K × V) × b.Table := locs.foldl (ask b pred) ([], t)

end Definitions

variable {R : Reading b.Table b.Location b.Vacant b.Scan K V} {u : User W K V} {b pred} {t₀ : b.Table}
  {l : Ledger K V} {y : List (K × V)}

/-- What an extraction leaves that handed out `y`: the rest of the entries, in the table that one cleanup made
of the table in which the predicate was asked. -/
structure Extraction (R : Reading b.Table b.Location b.Vacant b.Scan K V) (u : User W K V) (pred : Predicate K V)
    (t₀ : b.Table) (l : Ledger K V) (y : List (K × V)) (x : ExtractScan b.Scan K V) (s : b.Table × World W K V) :
    Prop where
  seen : x.seen <+: R.entries t₀
  complete : x.finished = true → x.seen = R.entries t₀
  accepted : pred.accepted [] x.seen = y
  cleaned : ∃ t₁ w₁ r w₂, asked b pred t₀ ((scanOrder b t₀).take x.seen.length) = (x.seen, t₁) ∧ R.Keeps u t₀ t₁ ∧
    b.finishDeferredRemovals (t₁, w₁) = (r, s.1, w₂) ∧ (r = .ok () → R.Mended u t₁ s.1)
  entries : (R.entries s.1).Perm (pred.refused [] x.seen ++ (R.entries t₀).drop x.seen.length)
  capacity : R.capacity s.1 = R.capacity t₀
  totalSlots : b.totalSlots s.1 = b.totalSlots t₀
  ledger : s.2.ledger = l

/-- An extraction that has `es` at `locs` before it and the locations `past` behind it. -/
structure Extracting (R : Reading b.Table b.Location b.Vacant b.Scan K V) (u : User W K V) (pred : Predicate K V)
    (t₀ : b.Table) (past locs : List b.Location) (es : List (K × V)) (x : ExtractScan b.Scan K V) (t : b.Table)
    (w : World W K V) : Prop where
  order : scanOrder b t₀ = past ++ locs
  entries : R.entries t₀ = x.seen ++ es
  length : past.length = x.seen.length
  asked : asked b pred t₀ past = (x.seen, t)
  sweeping : Sweeping R u (fun _ => 0) pred t₀ w 0 (pred.refused [] x.seen) locs es x t w

section Steps

variable {past locs : List b.Location} {loc : b.Location} {es : List (K × V)} {e : K × V} {x : ExtractScan b.Scan K V}
  {t : b.Table} {w w' : World W K V}

theorem gone_zero (l : Ledger K V) : l.gone (fun _ => 0) = 0 := by
  simp [Ledger.gone, Ledger.weigh]

theorem Sweeping.beside {kept : List (K × V)} (h : Sweeping R u (fun _ => 0) pred t₀ w 0 kept locs es x t w)
    (w' : World W K V) : Sweeping R u (fun _ => 0) pred t₀ w' 0 kept locs es x t w' :=
  { h with
    gone := fun hp => by
      have hgone := h.gone hp
      rw [gone_zero] at hgone ⊢
      exact hgone
    made := rfl }

theorem Extracting.beside (h : Extracting R u pred t₀ past locs es x t w) (w' : World W K V) :
    Extracting R u pred t₀ past locs es x t w' :=
  { h with sweeping := h.sweeping.beside w' }

theorem asked_append (href : b.slotRef t loc = some e) (h : asked b pred t₀ past = (x.seen, t)) :
    asked b pred t₀ (past ++ [loc]) = (x.seen ++ [e],
      if (pred x.seen e).2 = some true then b.extractFinish loc (b.writeValue loc e.1 (pred x.seen e).1 t)
      else b.writeValue loc e.1 (pred x.seen e).1 t) := by
  rw [asked] at h
  rw [asked, List.foldl_append, h, List.foldl_cons, List.foldl_nil, ask, href]

theorem Extracting.visit (hc : Contract R u) (h : Extracting R u pred t₀ past (loc :: locs) (e :: es) x t w) :
    ∃ scan', b.scanNext t x.scan = (some loc, scan') ∧
      Extracting R u pred t₀ (past ++ [loc]) locs es { x with scan := scan', seen := x.seen ++ [e] }
        (if (pred x.seen e).2 = some true then b.extractFinish loc (b.writeValue loc e.1 (pred x.seen e).1 t)
          else b.writeValue loc e.1 (pred x.seen e).1 t) w := by
  have href := hc.slotRef (holds_cons h.sweeping.holds)
  obtain ⟨scan', hscan, hrefuse, htake⟩ := h.sweeping.visit hc
  refine ⟨scan', hscan, ?_⟩
  have hasked := asked_append href h.asked
  constructor
  · rw [h.order, List.append_assoc, List.singleton_append]
  · rw [h.entries, List.append_assoc, List.singleton_append]
  · simp [h.length]
  · exact hasked
  · by_cases haccepts : (pred x.seen e).2 = some true
    · rw [if_pos haccepts, Predicate.refused_of_accepts haccepts]
      exact htake
    · rw [if_neg haccepts, Predicate.refused_of_refuses haccepts]
      exact hrefuse

theorem Extracting.wp_finish (hc : Contract R u) (h : Extracting R u pred t₀ past locs es x t w)
    (x' : ExtractScan b.Scan K V) (hseen : x'.seen = x.seen) (hfinished : x'.finished = true → es = []) :
    wp b.finishDeferredRemovals
      (fun _ s => Extraction R u pred t₀ w.ledger (pred.accepted [] x.seen) x' s)
      (fun p s => p ≠ .abort ∧ Extraction R u pred t₀ w.ledger (pred.accepted [] x.seen) x' s) (t, w) := by
  have hwf := h.sweeping.keeps.wf
  have hpast : (scanOrder b t₀).take x.seen.length = past := by
    rw [h.order, ← h.length, List.take_left]
  have hrest : (R.entries t₀).drop x.seen.length = es := by
    rw [h.entries, List.drop_left]
  have hcleaned : ∀ {r : Except Panic Unit} {s : b.Table × World W K V},
      b.finishDeferredRemovals (t, w) = (r, s) → (r = .ok () → R.Mended u t s.1) →
      (R.entries s.1).Perm (R.entries t) → R.capacity s.1 = R.capacity t → b.totalSlots s.1 = b.totalSlots t →
      s.2.ledger = w.ledger → Extraction R u pred t₀ w.ledger (pred.accepted [] x.seen) x' s := by
    intro r s hrun hmended hentries hcapacity hslots hledger
    constructor
    · exact ⟨es, by rw [hseen, h.entries]⟩
    · intro hfin
      rw [hseen, h.entries, hfinished hfin, List.append_nil]
    · rw [hseen]
    · refine ⟨t, w, r, s.2, ?_, h.sweeping.keeps, hrun, hmended⟩
      rw [hseen, hpast, h.asked]
    · rw [hseen, hrest]
      exact hentries.trans h.sweeping.entries
    · exact hcapacity.trans h.sweeping.capacity
    · exact hslots.trans h.sweeping.totalSlots
    · exact hledger
  apply wp_mono (wp_and (hc.finishDeferredRemovals hwf w) (wp_self _ _))
  · rintro _ s ⟨⟨hmended, hslots, hledger⟩, hrun⟩
    exact hcleaned hrun (fun _ => hmended) hmended.entries hmended.capacity hslots hledger
  · rintro p s ⟨⟨hp, hunsettled, hslots, hledger⟩, hrun⟩
    exact ⟨hp.ne_abort, hcleaned hrun nofun hunsettled.entries hunsettled.capacity hslots hledger⟩

/-- An extraction between two calls of `next`: under way, or closed by the call that found no more. -/
inductive Progress (R : Reading b.Table b.Location b.Vacant b.Scan K V) (u : User W K V) (pred : Predicate K V)
    (t₀ : b.Table) (l : Ledger K V) (y : List (K × V)) :
    ExtractScan b.Scan K V × b.Table × World W K V → Prop
  | asking {past locs : List b.Location} {es : List (K × V)} {x : ExtractScan b.Scan K V} {t : b.Table}
      {w : World W K V} (extracting : Extracting R u pred t₀ past locs es x t w)
      (accepted : pred.accepted [] x.seen = y) (ledger : w.ledger = l) : Progress R u pred t₀ l y (x, t, w)
  | done {x : ExtractScan b.Scan K V} {s : b.Table × World W K V} (finished : x.finished = true)
      (extraction : Extraction R u pred t₀ l y x s) : Progress R u pred t₀ l y (x, s)

theorem Extracting.wp_nextMatchingFrom (hc : Contract R u) (h : Extracting R u pred t₀ past locs es x t w)
    {fuel : Nat} (hfuel : locs.length < fuel) :
    wp (nextMatchingFrom b pred fuel)
      (fun r s => Progress R u pred t₀ w.ledger (pred.accepted [] x.seen ++ r.toList) s ∧
        (r = none → s.1.finished = true))
      (fun p s => p ≠ .abort ∧ Progress R u pred t₀ w.ledger (pred.accepted [] x.seen) s) (x, t, w) := by
  induction fuel generalizing past locs es x t with
  | zero => omega
  | succ fuel ih =>
    rw [nextMatchingFrom, wp_bind, wp_get]
    dsimp only
    cases locs with
    | nil =>
      obtain rfl : es = [] := List.forall₂_nil_left_iff.mp h.sweeping.holds
      obtain ⟨scan', hscan, -⟩ := hc.scanNext_nil h.sweeping.keeps.wf h.sweeping.scanning
      rw [hscan]
      dsimp only
      rw [wp_bind, wp_modify, wp_bind, wp_onSnd]
      apply wp_mono (h.wp_finish hc { x with scan := scan', finished := true } rfl fun _ => rfl)
      · intro _ s hs
        rw [wp_pure, Option.toList_none, List.append_nil]
        exact ⟨.done rfl hs, fun _ => rfl⟩
      · exact fun p s hs => ⟨hs.1, .done rfl hs.2⟩
    | cons loc locs =>
      cases es with
      | nil => cases h.sweeping.holds
      | cons e es =>
        obtain ⟨scan', hscan, hnext⟩ := h.visit hc
        rw [hscan]
        dsimp only
        rw [wp_bind, wp_modify, wp_bind, wp_onSnd, wp_slotEntry hc (holds_cons h.sweeping.holds)]
        dsimp only
        rw [wp_bind, wp_modify, wp_bind, wp_expect]
        constructor
        · intro matched hmatched
          cases matched with
          | true =>
            rw [if_pos hmatched] at hnext
            rw [if_pos rfl, wp_bind, wp_modify]
            refine ⟨.asking hnext (Predicate.accepted_of_accepts hmatched) rfl, ?_⟩
            exact fun hnone => absurd hnone (Option.some_ne_none _)
          | false =>
            have hskip : (pred x.seen e).2 ≠ some true := by simp [hmatched]
            rw [if_neg hskip] at hnext
            rw [if_neg Bool.false_ne_true, ← Predicate.accepted_of_refuses hskip]
            exact ih hnext (Nat.lt_of_succ_lt_succ hfuel)
        · intro hpanic
          have hskip : (pred x.seen e).2 ≠ some true := by simp [hpanic]
          rw [if_neg hskip] at hnext
          exact ⟨Panic.noConfusion, .asking hnext (Predicate.accepted_of_refuses hskip) rfl⟩

variable {s : ExtractScan b.Scan K V × b.Table × World W K V}

theorem Progress.wp_nextMatching (hc : Contract R u) (h : Progress R u pred t₀ l y s) :
    wp (nextMatching b pred)
      (fun r s' => Progress R u pred t₀ l (y ++ r.toList) s' ∧ (r = none ∨ s.1.finished = true → s'.1.finished = true))
      (fun p s' => p ≠ .abort ∧ Progress R u pred t₀ l y s' ∧ s.1.finished = false) s := by
  cases h with
  | asking hext haccepted hledger =>
    have hunfinished := hext.sweeping.unfinished
    rw [nextMatching_unfinished hext.sweeping, ← haccepted, ← hledger]
    apply wp_mono (hext.wp_nextMatchingFrom hc hext.sweeping.fuel)
    · rintro r s' ⟨hprogress, hnone⟩
      refine ⟨hprogress, fun h => h.elim hnone fun hfin => ?_⟩
      rw [hunfinished] at hfin
      cases hfin
    · exact fun p s' hs' => ⟨hs'.1, hs'.2, hunfinished⟩
  | done hfin hext =>
    apply wp_nextMatching_finished hfin
    rw [Option.toList_none, List.append_nil]
    exact ⟨.done hfin hext, fun _ => hfin⟩

theorem Progress.consumed (h : Progress R u pred t₀ l y s) {l' : Ledger K V} {w' : World W K V}
    (hw' : w'.ledger = l') : Progress R u pred t₀ l' y (s.1, s.2.1, w') := by
  cases h with
  | asking hext haccepted hledger => exact .asking (hext.beside w') haccepted hw'
  | done hfin hext =>
    exact .done hfin ⟨hext.seen, hext.complete, hext.accepted, hext.cleaned, hext.entries, hext.capacity,
      hext.totalSlots, hw'⟩

theorem Progress.wp_dropExtractScan (hc : Contract R u) (h : Progress R u pred t₀ l y s) :
    wp (dropExtractScan b) (fun _ s' => s'.1 = s.1 ∧ Extraction R u pred t₀ l y s'.1 s'.2)
      (fun p s' => p ≠ .abort ∧ s'.1 = s.1 ∧ Extraction R u pred t₀ l y s'.1 s'.2) s := by
  rw [dropExtractScan, wp_bind, wp_get]
  dsimp only
  cases h with
  | asking hext haccepted hledger =>
    rw [hext.sweeping.unfinished, if_neg Bool.false_ne_true, wp_onSnd, ← haccepted, ← hledger]
    have hunfinished := hext.sweeping.unfinished
    apply wp_mono (hext.wp_finish hc _ rfl fun hfin => absurd (hunfinished.symm.trans hfin) Bool.false_ne_true)
    · exact fun _ s' hs' => ⟨rfl, hs'⟩
    · exact fun p s' hs' => ⟨hs'.1, rfl, hs'.2⟩
  | done hfin hext =>
    rw [if_pos hfin]
    exact ⟨rfl, hext⟩

theorem wp_scanned (hc : Contract R u) {α : Type} {body : Exec Panic (ExtractScan b.Scan K V × b.Table × World W K V) α}
    (log : Ledger K V → K × V → Ledger K V) {Q : α → List (K × V) → ExtractScan b.Scan K V → Prop}
    (h : wp body (fun a s' => ∃ y, Q a y s'.1 ∧ Progress R u pred t₀ (y.foldl log l) y s')
      (fun p s' => p ≠ .abort → ∃ y, Progress R u pred t₀ (y.foldl log l) y s') s) :
    wp (scanned b body) (fun a s' => ∃ y, Q a y s'.1 ∧ Extraction R u pred t₀ (y.foldl log l) y s'.1 s'.2)
      (fun p s' => p ≠ .abort → ∃ y, Extraction R u pred t₀ (y.foldl log l) y s'.1 s'.2) s := by
  rw [scanned, wp_bind, wp_guarded]
  apply wp_mono h
  · rintro a s' ⟨y, hQ, hprogress⟩
    rw [wp_bind]
    apply wp_mono (hprogress.wp_dropExtractScan hc)
    · rintro _ s'' ⟨hsame, hext⟩
      rw [wp_pure]
      exact ⟨y, hsame ▸ hQ, hext⟩
    · exact fun p s'' hs'' _ => ⟨y, hs''.2.2⟩
  · intro p s' hpanic
    by_cases hp : p = .abort
    · rw [if_pos hp]
      exact fun hne => absurd hp hne
    · rw [if_neg hp]
      obtain ⟨y, hprogress⟩ := hpanic hp
      apply wp_mono (hprogress.wp_dropExtractScan hc)
      · exact fun _ s'' hs'' _ => ⟨y, hs''.2⟩
      · exact fun _ s'' hs'' hne => absurd rfl hne

theorem Progress.wp_nextCaught (hc : Contract R u) (h : Progress R u pred t₀ l y s) (catches : Bool) :
    wp (nextCaught b pred catches)
      (fun r s' => Progress R u pred t₀ l (y ++ r.toList) s' ∧
        (catches = false ∧ r = none ∨ s.1.finished = true → s'.1.finished = true))
      (fun p s' => p ≠ .abort ∧ Progress R u pred t₀ l y s') s := by
  cases catches with
  | true =>
    rw [nextCaught, if_pos rfl, wp_caught]
    apply wp_mono (h.wp_nextMatching hc)
    · exact fun r s' hs' => ⟨hs'.1, fun hfin => hs'.2 (hfin.imp_left And.right)⟩
    · rintro p s' ⟨hp, hprogress, hunfinished⟩
      rw [if_neg hp, Option.toList_none, List.append_nil, hunfinished]
      exact ⟨hprogress, fun hfin => by simp at hfin⟩
  | false =>
    rw [nextCaught, if_neg Bool.false_ne_true]
    apply wp_mono (h.wp_nextMatching hc)
    · exact fun r s' hs' => ⟨hs'.1, fun hfin => hs'.2 (hfin.imp_left And.right)⟩
    · exact fun p s' hs' => ⟨hs'.1, hs'.2.1⟩

theorem Progress.ledger_eq (h : Progress R u pred t₀ l y s) : s.2.2.ledger = l := by
  cases h with
  | asking _ _ hledger => exact hledger
  | done _ hext => exact hext.ledger

theorem wp_handEntry_ledger (e : K × V) (w : World W K V) :
    wp (handEntry e) (fun _ w' => w'.ledger = w.ledger.hand e) (fun _ _ => False) w := rfl

theorem Progress.wp_callNext (hc : Contract R u) (calls : List Bool) (h : Progress R u pred t₀ l y s) :
    wp (callNext b pred calls)
      (fun taken s' => Progress R u pred t₀ (taken.foldl Ledger.hand l) (y ++ taken) s' ∧
        (s.1.finished = true → s'.1.finished = true) ∧ (s'.1.finished = true ∨ calls.count false ≤ taken.length))
      (fun p s' => p ≠ .abort ∧ ∃ taken, Progress R u pred t₀ (taken.foldl Ledger.hand l) (y ++ taken) s') s := by
  induction calls generalizing l y s with
  | nil =>
    rw [callNext, wp_pure, List.append_nil]
    exact ⟨h, id, .inr (Nat.le_refl _)⟩
  | cons catches calls ih =>
    rw [callNext, wp_bind]
    apply wp_mono (h.wp_nextCaught hc catches)
    · rintro (_ | e) s' ⟨hprogress, hfin⟩
      · rw [Option.toList_none, List.append_nil] at hprogress
        apply wp_mono (ih hprogress)
        · rintro taken s'' ⟨hprogress', hstays, hcount⟩
          refine ⟨hprogress', fun h => hstays (hfin (.inr h)), ?_⟩
          cases catches with
          | true => simpa using hcount
          | false => exact .inl (hstays (hfin (.inl ⟨rfl, rfl⟩)))
        · exact fun _ _ => id
      · rw [Option.toList_some] at hprogress
        dsimp only
        rw [wp_bind, wp_onSnd, wp_onSnd]
        apply wp_mono (wp_handEntry_ledger e s'.2.2)
        · intro _ w' hw'
          rw [hprogress.ledger_eq] at hw'
          rw [wp_bind]
          apply wp_mono (ih (hprogress.consumed hw'))
          · rintro taken s'' ⟨hprogress', hstays, hcount⟩
            rw [List.append_assoc] at hprogress'
            refine ⟨hprogress', fun h => hstays (hfin (.inr h)), hcount.imp_right fun hle => ?_⟩
            rw [List.count_cons, List.length_cons]
            split <;> omega
          · rintro p s'' ⟨hp, taken, hprogress'⟩
            rw [List.append_assoc] at hprogress'
            exact ⟨hp, e :: taken, hprogress'⟩
        · exact fun _ _ h => h.elim
    · rintro p s' ⟨hp, hprogress⟩
      exact ⟨hp, [], by rwa [List.append_nil]⟩

theorem wp_dropV_ledger (v : V) (w : World W K V) :
    wp (u.dropV v) (fun _ w' => w'.ledger = (w.logDropped (.inr v)).ledger)
      (fun _ w' => w'.ledger = (w.logDropped (.inr v)).ledger) w := by
  rw [User.dropV, wp_bind, wp_modify, World.wp_call]
  exact wp_mono (wp_self _ _) (fun _ _ _ => rfl) fun _ _ _ => rfl

theorem wp_dropEntry_ledger (e : K × V) (w : World W K V) :
    wp (u.dropEntry e) (fun _ w' => w'.ledger = w.ledger.drop e) (fun _ w' => w'.ledger = w.ledger.drop e) w := by
  rw [User.dropEntry, wp_bind, wp_guarded, User.dropK, wp_bind, wp_modify, World.wp_call]
  apply wp_mono (wp_self _ _)
  · intro _ code _
    exact wp_dropV_ledger e.2 _
  · intro _ code _
    rw [if_neg Panic.noConfusion]
    exact wp_mono (wp_dropV_ledger e.2 _) (fun _ _ => id) fun _ _ => id

theorem Extraction.length_le (h : Extraction R u pred t₀ l y x (t, w)) : y.length ≤ (R.entries t₀).length := by
  rw [← h.accepted]
  exact Predicate.length_accepted_le.trans h.seen.length_le

theorem Progress.length_le (h : Progress R u pred t₀ l y s) : y.length ≤ (R.entries t₀).length := by
  cases h with
  | asking hext haccepted hledger =>
    rw [← haccepted, hext.entries, List.length_append]
    exact Nat.le_add_right_of_le Predicate.length_accepted_le
  | done hfin hext => exact hext.length_le

theorem Progress.wp_dropMatching (hc : Contract R u) (fuel : Nat) (h : Progress R u pred t₀ l y s)
    (hfuel : (R.entries t₀).length < y.length + fuel) :
    wp (dropMatching b u pred fuel)
      (fun _ s' => s'.1.finished = true ∧ ∃ taken, Progress R u pred t₀ (taken.foldl Ledger.drop l) (y ++ taken) s')
      (fun p s' => p ≠ .abort → ∃ taken, Progress R u pred t₀ (taken.foldl Ledger.drop l) (y ++ taken) s') s := by
  induction fuel generalizing l y s with
  | zero =>
    have := h.length_le
    omega
  | succ fuel ih =>
    rw [dropMatching, wp_bind]
    apply wp_mono (h.wp_nextMatching hc)
    · rintro (_ | e) s' ⟨hprogress, hfin⟩
      · exact ⟨hfin (.inl rfl), [], hprogress⟩
      · rw [Option.toList_some] at hprogress
        dsimp only
        rw [wp_bind, wp_onSnd, wp_onSnd]
        apply wp_mono (wp_dropEntry_ledger e s'.2.2)
        · intro _ w' hw'
          rw [hprogress.ledger_eq] at hw'
          have hlonger : (R.entries t₀).length < (y ++ [e]).length + fuel := by
            rw [List.length_append, List.length_singleton]
            omega
          apply wp_mono (ih (hprogress.consumed hw') hlonger)
          · rintro _ s'' ⟨hfin', taken, hprogress'⟩
            rw [List.append_assoc] at hprogress'
            exact ⟨hfin', e :: taken, hprogress'⟩
          · intro p s'' hpanic hp
            obtain ⟨taken, hprogress'⟩ := hpanic hp
            rw [List.append_assoc] at hprogress'
            exact ⟨e :: taken, hprogress'⟩
        · intro p w' hw' _
          rw [hprogress.ledger_eq] at hw'
          exact ⟨[e], hprogress.consumed hw'⟩
    · rintro p s' ⟨-, hprogress, -⟩ _
      exact ⟨[], by rwa [List.append_nil]⟩

end Steps

theorem progress_start (pred : Predicate K V) (hc : Contract R u) (hw : R.Wf t₀) (w : World W K V) :
    Progress R u pred t₀ w.ledger [] (⟨b.scan t₀, false, []⟩, t₀, w) ∧ (R.entries t₀).length ≤ b.totalSlots t₀ := by
  obtain ⟨locs, hlocs, hshort, hsweeping⟩ := sweeping_scan (κ := fun _ => 0) pred hc hw w
  constructor
  · have hstart : Extracting R u pred t₀ [] locs (R.entries t₀) ⟨b.scan t₀, false, []⟩ t₀ w :=
      ⟨hlocs.symm, rfl, rfl, rfl, hsweeping⟩
    exact .asking hstart rfl rfl
  · rwa [← hsweeping.holds.length_eq]

theorem wp_useExtractIf (pred : Predicate K V) (hc : Contract R u) (hw : R.Wf t₀) (calls : List Bool) (unwinds : Bool)
    (w : World W K V) :
    wp (useExtractIf b pred calls unwinds)
      (fun taken s => Extraction R u pred t₀ (taken.foldl Ledger.hand w.ledger) taken s.1 s.2 ∧
        (s.1.finished = true ∨ calls.count false ≤ taken.length))
      (fun p s => p ≠ .abort → ∃ taken, Extraction R u pred t₀ (taken.foldl Ledger.hand w.ledger) taken s.1 s.2)
      (⟨b.scan t₀, false, []⟩, t₀, w) := by
  have hstart := (progress_start pred hc hw w).1
  rw [useExtractIf]
  apply wp_mono (wp_scanned hc (l := w.ledger) Ledger.hand
    (Q := fun taken y x => taken = y ∧ (x.finished = true ∨ calls.count false ≤ taken.length)) ?_)
  · rintro taken s ⟨_, ⟨rfl, hcount⟩, hext⟩
    exact ⟨hext, hcount⟩
  · exact fun _ _ => id
  · rw [wp_bind]
    apply wp_mono (hstart.wp_callNext hc calls)
    · rintro taken s ⟨hprogress, -, hcount⟩
      cases unwinds with
      | true => exact fun _ => ⟨taken, hprogress⟩
      | false => exact ⟨taken, ⟨rfl, hcount⟩, hprogress⟩
    · exact fun p s hs _ => hs.2

theorem wp_retain_scanned (f : Predicate K V) (hc : Contract R u) (hw : R.Wf t₀) (w : World W K V) :
    wp (scanned b (dropMatching b u f.not (b.totalSlots t₀ + 1)))
      (fun _ s => s.1.seen = R.entries t₀ ∧
        ∃ dropped, Extraction R u f.not t₀ (dropped.foldl Ledger.drop w.ledger) dropped s.1 s.2)
      (fun p s => p ≠ .abort →
        ∃ dropped, Extraction R u f.not t₀ (dropped.foldl Ledger.drop w.ledger) dropped s.1 s.2)
      (⟨b.scan t₀, false, []⟩, t₀, w) := by
  obtain ⟨hstart, hshort⟩ := progress_start f.not hc hw w
  apply wp_mono (wp_scanned hc (l := w.ledger) Ledger.drop
    (Q := fun _ _ x => x.finished = true) ?_)
  · rintro _ s ⟨y, hfin, hext⟩
    exact ⟨hext.complete hfin, y, hext⟩
  · exact fun _ _ => id
  · apply wp_mono (hstart.wp_dropMatching hc _ (by simpa using Nat.lt_succ_of_le hshort))
    · rintro _ s ⟨hfin, y, hprogress⟩
      exact ⟨y, hfin, hprogress⟩
    · exact fun _ _ => id

end HashMap

end Opthash
