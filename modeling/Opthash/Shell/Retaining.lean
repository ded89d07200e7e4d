import Opthash.Shell.Pairs
import Opthash.Shell.Spec

namespace Opthash

namespace Predicate

variable {K V : Type}

/-- A predicate that asks about keys alone and leaves the values. -/
def ofKey (f : K → Bool) : Predicate K V := fun _ e => (e.2, some (f e.1))

variable {f : K → Bool}

theorem answering_ofKey : (ofKey f : Predicate K V).Answering := fun _ _ => rfl

theorem retained_ofKey (seen es : List (K × V)) : (ofKey f).retained seen es = es.filter fun e => f e.1 := by
  induction es generalizing seen with
  | nil => rfl
  | cons e es ih =>
    rw [retained, ih, ofKey]
    cases hf : f e.1 with
    | true => rw [if_pos rfl, List.filter_cons_of_pos (by exact hf)]
    | false => rw [if_neg (by simp), List.filter_cons_of_neg (by simp [hf])]

theorem extract_ofKey (seen seen' es : List (K × V)) (n : Nat) :
    (ofKey f).extract seen es n = (ofKey f).extract seen' es n := by
  induction es generalizing seen seen' n with
  | nil => cases n <;> rfl
  | cons e es ih =>
    cases n with
    | zero => rfl
    | succ n =>
      have hanswer : ofKey f seen e = ofKey f seen' e := rfl
      simp only [extract, hanswer, ih (seen ++ [e]) (seen' ++ [e])]

end Predicate

namespace HashMap

open Ledger

variable {W K V : Type} {b : TableBackend W K V} {R : Reading b.Table b.Location b.Vacant b.Scan K V} {u : User W K V}
  {κ : K ⊕ V → Nat} {pred : Predicate K V} {t₀ t : b.Table} {w₀ w w' : World W K V} {owed : Nat}
  {kept es : List (K × V)} {locs : List b.Location} {x x' : ExtractScan b.Scan K V} {f : K → Bool}

theorem swept_ofKey (seen seen' : List (K × V)) (locs : List b.Location) (n : Nat) (t : b.Table) :
    swept b (.ofKey f) seen locs n t = swept b (.ofKey f) seen' locs n t := by
  induction locs generalizing seen seen' n t with
  | nil => cases n <;> rfl
  | cons loc locs ih =>
    cases n with
    | zero => rfl
    | succ n =>
      rw [swept, swept]
      split
      · rfl
      · rename_i e _
        have hanswer : (Predicate.ofKey f : Predicate K V) seen e = Predicate.ofKey f seen' e := rfl
        simp only [hanswer, ih (seen ++ [e]) (seen' ++ [e])]

theorem Sweeping.of_scan (h : Sweeping R u κ pred t₀ w₀ owed kept locs es x t w) (hfinished : x'.finished = x.finished)
    (hscan : x'.scan = x.scan) : Sweeping R u κ pred t₀ w₀ owed kept locs es x' t w :=
  { h with
    unfinished := hfinished.trans h.unfinished
    scanning := hscan ▸ h.scanning }

theorem Sweeping.of_ledger (h : Sweeping R u κ pred t₀ w₀ owed kept locs es x t w) (hledger : w'.ledger = w.ledger) :
    Sweeping R u κ pred t₀ w₀ owed kept locs es x t w' :=
  { h with
    gone := fun hp => by rw [hledger]; exact h.gone hp
    made := by rw [hledger]; exact h.made }

section Stops

variable {J : W → Prop} {e : K × V} {loc : b.Location}

/-- Where the search for the next match of a sweep stops: at a match, or at the end with its deletes settled. The
sweep was at `t`, with the entries `es` at `locs` still to come. -/
def Stops (R : Reading b.Table b.Location b.Vacant b.Scan K V) (u : User W K V) (κ : K ⊕ V → Nat) (f : K → Bool)
    (t₀ : b.Table) (w₀ : World W K V) (J : W → Prop) (kept : List (K × V)) (locs : List b.Location) (es : List (K × V))
    (t : b.Table) : Option (K × V) → ExtractScan b.Scan K V × b.Table × World W K V → Prop
  | some e, s => J s.2.2.code ∧ ∃ passed locs' rest,
      Sweeping R u κ (.ofKey f) t₀ w₀ (weighEntry κ e) (kept ++ passed) locs' rest s.1 s.2.1 s.2.2 ∧
      locs'.length < locs.length ∧
      (∀ n, ((Predicate.ofKey f).extract [] es (n + 1)).2 = passed ++ ((Predicate.ofKey f).extract [] rest n).2) ∧
      ∀ n, swept b (.ofKey f) [] locs (n + 1) t = swept b (.ofKey f) [] locs' n s.2.1
  | none, s => s.1.finished = true ∧ ∃ passed final, Finished R u κ (.ofKey f) t₀ w₀ (kept ++ passed) final s.2 ∧
      (∀ n, ((Predicate.ofKey f).extract [] es (n + 1)).2 = passed) ∧ ∀ n, swept b (.ofKey f) [] locs (n + 1) t = final

/-- How the search unwinds: in the closure, with the sweep where it was, or in the settling of the deletes. -/
def Breaks (R : Reading b.Table b.Location b.Vacant b.Scan K V) (u : User W K V) (κ : K ⊕ V → Nat) (f : K → Bool)
    (t₀ : b.Table) (w₀ : World W K V) (J : W → Prop) (unwound : Prop) (locs : List b.Location) (t : b.Table) (p : Panic)
    (s : ExtractScan b.Scan K V × b.Table × World W K V) : Prop :=
  unwound ∧ (∃ kept locs es, Sweeping R u κ (.ofKey f) t₀ w₀ 0 kept locs es s.1 s.2.1 s.2.2) ∨
    s.1.finished = true ∧ ∃ final, FinishPanic R u κ (.ofKey f) t₀ w₀ J final p s.2 ∧
      ∀ n, swept b (.ofKey f) [] locs (n + 1) t = final

theorem Stops.skip {r : Option (K × V)} {s : ExtractScan b.Scan K V × b.Table × World W K V}
    (href : b.slotRef t loc = some e) (he : f e.1 = false)
    (h : Stops R u κ f t₀ w₀ J (kept ++ [e]) locs es (b.writeValue loc e.1 e.2 t) r s) :
    Stops R u κ f t₀ w₀ J kept (loc :: locs) (e :: es) t r s := by
  have hanswer : (Predicate.ofKey f : Predicate K V) [] e = (e.2, some false) := by rw [Predicate.ofKey, he]
  have hextract : ∀ n, ((Predicate.ofKey f).extract [] (e :: es) (n + 1)).2 =
      e :: ((Predicate.ofKey f).extract [] es (n + 1)).2 := by
    intro n
    rw [Predicate.extract, hanswer, if_neg (by simp), Predicate.extract_ofKey _ []]
  have hswept : ∀ n, swept b (.ofKey f) [] (loc :: locs) (n + 1) t =
      swept b (.ofKey f) [] locs (n + 1) (b.writeValue loc e.1 e.2 t) := by
    intro n
    rw [swept, href]
    dsimp only
    rw [hanswer, if_neg (by simp), swept_ofKey _ []]
  cases r with
  | none =>
    obtain ⟨hfinished, passed, final, hdone, hpassed, hfinal⟩ := h
    refine ⟨hfinished, e :: passed, final, ?_, fun n => ?_, fun n => (hswept n).trans (hfinal n)⟩
    · rwa [List.append_assoc] at hdone
    · rw [hextract, hpassed]
  | some e' =>
    obtain ⟨hj, passed, locs', rest, hsweeping, hshort, hpassed, hfinal⟩ := h
    refine ⟨hj, e :: passed, locs', rest, ?_, Nat.lt_succ_of_lt hshort, fun n => ?_, fun n => (hswept n).trans (hfinal n)⟩
    · rwa [List.append_assoc] at hsweeping
    · rw [hextract, hpassed, List.cons_append]

theorem Stops.take {x : ExtractScan b.Scan K V} (href : b.slotRef t loc = some e) (he : f e.1 = true) (hj : J w.code)
    (h : Sweeping R u κ (.ofKey f) t₀ w₀ (weighEntry κ e) kept locs es x
      (b.extractFinish loc (b.writeValue loc e.1 e.2 t)) w) :
    Stops R u κ f t₀ w₀ J kept (loc :: locs) (e :: es) t (some e)
      (x, b.extractFinish loc (b.writeValue loc e.1 e.2 t), w) := by
  have hanswer : (Predicate.ofKey f : Predicate K V) [] e = (e.2, some true) := by rw [Predicate.ofKey, he]
  refine ⟨hj, [], locs, es, by rwa [List.append_nil], Nat.lt_succ_self _, fun n => ?_, fun n => ?_⟩
  · rw [Predicate.extract, hanswer, if_pos rfl, Predicate.extract_ofKey _ []]
    rfl
  · rw [swept, href]
    dsimp only
    rw [hanswer, if_pos rfl, swept_ofKey _ []]

theorem Breaks.skip {unwound : Prop} {p : Panic} {s : ExtractScan b.Scan K V × b.Table × World W K V}
    (href : b.slotRef t loc = some e) (he : f e.1 = false)
    (h : Breaks R u κ f t₀ w₀ J unwound locs (b.writeValue loc e.1 e.2 t) p s) :
    Breaks R u κ f t₀ w₀ J unwound (loc :: locs) t p s := by
  refine h.imp_right fun ⟨hfinished, final, hpanic, hfinal⟩ => ⟨hfinished, final, hpanic, fun n => ?_⟩
  have hanswer : (Predicate.ofKey f : Predicate K V) [] e = (e.2, some false) := by rw [Predicate.ofKey, he]
  rw [swept, href]
  dsimp only
  rw [hanswer, if_neg (by simp), swept_ofKey _ []]
  exact hfinal n

end Stops

end HashMap

namespace HashSet

open Exec Ledger HashMap

variable {W T : Type} {b : Side → TableBackend W T Unit} {u : Side → User W T Unit}
  {R : (side : Side) → Reading (b side).Table (b side).Location (b side).Vacant (b side).Scan T Unit}
  {κ : T ⊕ Unit → Nat} {side : Side} {t₀ : (b side).Table} {t : (b side.other).Table} {w₀ w : World W T Unit}
  {J : W → Prop} {f : T → Bool} {pred : T → Both b Bool} {kept es : List (T × Unit)}
  {locs : List (b side).Location} {x : ExtractScan (b side).Scan T Unit} {ts : Sets b} {fuel : Nat}

/-- A closure that answers as `f` does, and leaves the tables and `J` of the state of the user code. -/
def Answers (u : Side → User W T Unit) (J : W → Prop) (f : T → Bool) (t : (b side.other).Table)
    (pred : T → Both b Bool) : Prop :=
  ∀ value ts w, ts side.other = t → wp (pred value)
    (fun r s => r = f value ∧ s.1 = ts ∧ s.2.ledger = w.ledger ∧ (J w.code → J s.2.code))
    (fun p s => Unwound u p ∧ s.1 = ts ∧ s.2.ledger = w.ledger) (ts, w)

theorem wp_nextMatchingFrom (hc : ∀ side, Contract (R side) (u side)) (hpred : Answers u J f t pred)
    (ht : ts side.other = t)
    (h : Sweeping (R side) (u side) κ (.ofKey f) t₀ w₀ 0 kept locs es x (ts side) w) (hj : J w.code)
    (hfuel : locs.length < fuel) :
    wp (nextMatchingFrom b side pred fuel)
      (fun r s => s.2.1 side.other = t ∧
        Stops (R side) (u side) κ f t₀ w₀ J kept locs es (ts side) r (s.1, s.2.1 side, s.2.2))
      (fun p s => s.2.1 side.other = t ∧
        Breaks (R side) (u side) κ f t₀ w₀ J (Unwound u p) locs (ts side) p (s.1, s.2.1 side, s.2.2)) (x, ts, w) := by
  induction fuel generalizing kept locs es x ts w with
  | zero => omega
  | succ fuel ih =>
    rw [nextMatchingFrom, wp_bind, wp_get]
    dsimp only
    cases locs with
    | nil =>
      obtain rfl : es = [] := List.forall₂_nil_left_iff.mp h.holds
      obtain ⟨scan', hscan, -⟩ := (hc side).scanNext_nil h.keeps.wf h.scanning
      have hpruned := h.pruned
      rw [List.append_nil] at hpruned
      rw [hscan]
      dsimp only
      rw [wp_bind, wp_modify, wp_bind, wp_onSnd, wp_within]
      refine wp_mono (wp_finish (hc side) hpruned hj) ?_ ?_
      · intro _ s hs
        rw [wp_pure]
        dsimp only
        rw [update_other, Function.update_self]
        exact ⟨ht, rfl, [], ts side, by rwa [List.append_nil], fun _ => rfl, fun _ => rfl⟩
      · intro p s hs
        dsimp only
        rw [update_other, Function.update_self]
        exact ⟨ht, .inr ⟨rfl, ts side, hs, fun _ => rfl⟩⟩
    | cons loc locs =>
      cases es with
      | nil => cases h.holds
      | cons e es =>
        obtain ⟨scan', hscan, hrefuse, htake⟩ := h.visit (hc side)
        have he := holds_cons h.holds
        have href := (hc side).slotRef he
        have hrefuse : Sweeping (R side) (u side) κ (.ofKey f) t₀ w₀ 0 (kept ++ [e]) locs es { x with scan := scan' }
            ((b side).writeValue loc e.1 () (ts side)) w := hrefuse.of_scan rfl rfl
        have htake : Sweeping (R side) (u side) κ (.ofKey f) t₀ w₀ (weighEntry κ e) kept locs es { x with scan := scan' }
            ((b side).extractFinish loc ((b side).writeValue loc e.1 () (ts side))) w := htake.of_scan rfl rfl
        rw [hscan]
        dsimp only
        rw [wp_bind, wp_modify, wp_bind, wp_onSnd, wp_within, wp_slotEntry (hc side) he, Function.update_eq_self]
        dsimp only
        rw [wp_bind, wp_onSnd, wp_within, wp_modify, wp_bind, wp_onSnd]
        dsimp only
        have hwritten : Function.update ts side ((b side).writeValue loc e.1 () (ts side)) side.other = t :=
          (update_other _ _ _).trans ht
        refine wp_mono (hpred e.1 _ w hwritten) ?_ ?_
        · rintro matched ⟨ts', w'⟩ ⟨hmatched, hts, hledger, hcode⟩
          obtain rfl : ts' = Function.update ts side ((b side).writeValue loc e.1 () (ts side)) := hts
          cases matched with
          | true =>
            rw [if_pos rfl, wp_bind, wp_onSnd, wp_within, wp_modify, wp_pure]
            dsimp only
            rw [update_other, Function.update_self, Function.update_self]
            exact ⟨hwritten, .take href hmatched.symm (hcode hj) (htake.of_ledger hledger)⟩
          | false =>
            rw [if_neg Bool.false_ne_true]
            have hlater := ih (x := { x with scan := scan' }) (w := w') hwritten
              (by rw [Function.update_self]; exact hrefuse.of_ledger hledger) (hcode hj) (Nat.lt_of_succ_lt_succ hfuel)
            rw [Function.update_self] at hlater
            refine wp_mono hlater ?_ ?_
            · exact fun r s h => ⟨h.1, h.2.skip href hmatched.symm⟩
            · exact fun p s h => ⟨h.1, h.2.skip href hmatched.symm⟩
        · rintro p ⟨ts', w'⟩ ⟨hunwound, hts, hledger⟩
          obtain rfl : ts' = Function.update ts side ((b side).writeValue loc e.1 () (ts side)) := hts
          dsimp only
          rw [Function.update_self]
          exact ⟨hwritten, .inl ⟨hunwound, _, _, _, hrefuse.of_ledger hledger⟩⟩

def Loud (u : Side → User W T Unit) : Prop := ∃ side, ¬(u side).Calm

theorem Unwound.loud {p : Panic} (h : Unwound u p) : Loud u ∧ p = .user := by
  obtain ⟨side, rfl, hloud⟩ := h
  exact ⟨⟨side, hloud⟩, rfl⟩

/-- How a sweep unwinds: in the closure or a destructor, or in the settling of its deletes. -/
def Ripped (R : (side : Side) → Reading (b side).Table (b side).Location (b side).Vacant (b side).Scan T Unit)
    (u : Side → User W T Unit) (κ : T ⊕ Unit → Nat) (side : Side) (f : T → Bool) (t₀ : (b side).Table)
    (w₀ : World W T Unit) (J : W → Prop) (final : (b side).Table) (p : Panic)
    (s : ExtractScan (b side).Scan T Unit × (b side).Table × World W T Unit) : Prop :=
  Loud u ∧ (p = .user ∨ p = .abort) ∧
      (p ≠ .abort → ∃ kept locs es, Sweeping (R side) (u side) κ (.ofKey f) t₀ w₀ 0 kept locs es s.1 s.2.1 s.2.2) ∨
    s.1.finished = true ∧ FinishPanic (R side) (u side) κ (.ofKey f) t₀ w₀ J final p s.2

theorem wp_dropMatching (hc : ∀ side, Contract (R side) (u side)) (hpred : Answers u J f t pred)
    (hJ : (u side).DropStable J) (ht : ts side.other = t)
    (h : Sweeping (R side) (u side) κ (.ofKey f) t₀ w₀ 0 kept locs es x (ts side) w) (hj : J w.code)
    (hfuel : locs.length < fuel) :
    wp (dropMatching b u side pred fuel)
      (fun _ s => s.2.1 side.other = t ∧ s.1.finished = true ∧
        Finished (R side) (u side) κ (.ofKey f) t₀ w₀ (kept ++ ((Predicate.ofKey f).extract [] es fuel).2)
          (swept (b side) (.ofKey f) [] locs fuel (ts side)) (s.2.1 side, s.2.2))
      (fun p s => s.2.1 side.other = t ∧
        Ripped R u κ side f t₀ w₀ J (swept (b side) (.ofKey f) [] locs fuel (ts side)) p (s.1, s.2.1 side, s.2.2))
      (x, ts, w) := by
  induction fuel generalizing kept locs es x ts w with
  | zero => omega
  | succ n ih =>
    rw [dropMatching, wp_bind, nextMatching, wp_bind, wp_get]
    dsimp only
    rw [h.unfinished, if_neg Bool.false_ne_true]
    refine wp_mono (wp_nextMatchingFrom hc hpred ht h hj h.fuel) ?_ ?_
    · rintro (_ | e) ⟨x', ts', w'⟩ ⟨ht', hstops⟩
      · obtain ⟨hfinished, passed, final, hdone, hpassed, hfinal⟩ := hstops
        rw [hpassed, hfinal]
        exact ⟨ht', hfinished, hdone⟩
      · obtain ⟨hj', passed, locs', rest, hsweeping, hshort, hpassed, hfinal⟩ := hstops
        dsimp only at hj' hsweeping hfinal ht' ⊢
        rw [hpassed, hfinal, wp_bind, wp_onSnd, wp_onSnd]
        refine wp_mono (wp_and (User.wp_dropEntry (κ := κ) e w') (wp_dropEntry_stable hJ e hj')) ?_ ?_
        · rintro _ w₁ ⟨hdropped, hcode⟩
          have hlater := ih ht' (hsweeping.paid hdropped) hcode (by omega)
          rw [List.append_assoc] at hlater
          exact hlater
        · rintro p w₁ ⟨⟨hburst, hdropped⟩, -⟩
          exact ⟨ht', .inl ⟨⟨side, hburst.2⟩, hburst.1, fun hne => ⟨_, _, _, hsweeping.paid (hdropped hne)⟩⟩⟩
    · rintro p s ⟨ht', ⟨hunwound, hsweeping⟩ | ⟨hfinished, final, hpanic, hfinal⟩⟩
      · exact ⟨ht', .inl ⟨hunwound.loud.1, .inl hunwound.loud.2, fun _ => hsweeping⟩⟩
      · rw [hfinal]
        exact ⟨ht', .inr ⟨hfinished, hpanic⟩⟩

theorem wp_retain {keep : T → Both b Bool} {keeps : T → Bool} (hc : ∀ side, Contract (R side) (u side))
    (hkeep : Answers u J keeps (ts side.other) keep) (hJ : (u side).DropStable J) (hw : (R side).Wf (ts side))
    (hj : J w.code) :
    wp (retain b u side keep)
      (fun _ s => s.1 side.other = ts side.other ∧ Finished (R side) (u side) κ (Predicate.ofKey keeps).not (ts side) w
        ((Predicate.ofKey keeps).not.extract [] ((R side).entries (ts side)) (HashSet.fuel b ts side)).2
        (retained (b side) (.ofKey keeps) (ts side)) (s.1 side, s.2))
      (fun p s => p.Blamed (Loud u) ∧ (p ≠ .abort → s.1 side.other = ts side.other ∧
        ((∃ kept t₁, Finished (R side) (u side) κ (Predicate.ofKey keeps).not (ts side) w kept t₁ (s.1 side, s.2)) ∨
          FinishPanic (R side) (u side) κ (Predicate.ofKey keeps).not (ts side) w J
            (retained (b side) (.ofKey keeps) (ts side)) p (s.1 side, s.2)))) (ts, w) := by
  obtain ⟨locs, hlocs, hshort, hsweeping⟩ := sweeping_scan (κ := κ) (Predicate.ofKey keeps).not (hc side) hw w
  have hdrops : Answers u J (fun value => !keeps value) (ts side.other) fun value => (!·) <$> keep value := by
    intro value ts' w' ht
    rw [wp_map]
    refine wp_mono (hkeep value ts' w' ht) ?_ (fun _ _ => id)
    rintro r s ⟨rfl, hrest⟩
    exact ⟨rfl, hrest⟩
  have hbody := wp_dropMatching (κ := κ) hc hdrops hJ rfl hsweeping hj
    (Nat.lt_succ_of_le hshort)
  rw [retain, wp_bind, wp_get]
  dsimp only
  rw [wp_bind, wp_withLocal, wp_bind, wp_guarded]
  refine wp_mono hbody ?_ ?_
  · rintro _ ⟨x, ts', w'⟩ ⟨ht, hfinished, hdone⟩
    dsimp only at hfinished
    rw [dropExtractScan, wp_bind, wp_get]
    dsimp only
    rw [hfinished, if_pos rfl]
    subst hlocs
    exact ⟨ht, hdone⟩
  · rintro p ⟨x, ts', w'⟩ ⟨ht, ⟨hloud, huser, hsweeping⟩ | ⟨hfinished, hpanic⟩⟩
    · by_cases hne : p = .abort
      · rw [if_pos hne]
        exact ⟨hne ▸ .abort hloud, fun h => absurd hne h⟩
      · rw [if_neg hne]
        obtain rfl := huser.resolve_right hne
        obtain ⟨kept, locs', es, hsweeping⟩ := hsweeping hne
        rw [dropExtractScan, wp_bind, wp_get]
        dsimp only
        rw [hsweeping.unfinished, if_neg Bool.false_ne_true, wp_onSnd, wp_within]
        refine wp_mono (wp_finish (hc side) (J := fun _ => True) hsweeping.pruned trivial) ?_ ?_
        · intro _ s hdone
          dsimp only
          rw [update_other, Function.update_self]
          exact ⟨.user hloud, fun _ => ⟨ht, .inl ⟨_, _, hdone⟩⟩⟩
        · exact fun _ _ _ => ⟨.abort hloud, fun h => absurd rfl h⟩
    · dsimp only at hfinished
      rw [if_neg hpanic.1.ne_abort, dropExtractScan, wp_bind, wp_get]
      dsimp only
      rw [hfinished, if_pos rfl]
      subst hlocs
      exact ⟨hpanic.1.blamed.mono fun h => ⟨side, h⟩, fun _ => ⟨ht, .inr hpanic⟩⟩

end HashSet

end Opthash
