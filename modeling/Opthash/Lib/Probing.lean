import Opthash.Lib.Exec

namespace Opthash.Probing

/-- What a probe reads at a cell before it looks at the entry there. -/
inductive Kind
  | empty
  | deleted
  | candidate
  | other
  deriving DecidableEq

namespace Kind

/-- The kind a probe sees that does not tell deleted cells from others. -/
def blind : Kind → Kind
  | deleted => other
  | kind => kind

@[simp] theorem blind_eq_empty {k : Kind} : k.blind = empty ↔ k = empty := by cases k <;> simp [blind]

@[simp] theorem blind_eq_candidate {k : Kind} : k.blind = candidate ↔ k = candidate := by
  cases k <;> simp [blind]

@[simp] theorem blind_ne_deleted (k : Kind) : k.blind ≠ deleted := by cases k <;> simp [blind]

end Kind

variable {ε σ L : Type}

/-- The kind a full scan sees: it only tells the cells that may hold its key from the others. -/
def matchKind (p : L → Prop) [DecidablePred p] (l : L) : Kind := if p l then .candidate else .other

section MatchKind

variable {p : L → Prop} [DecidablePred p] {l : L}

@[simp] theorem matchKind_candidate : matchKind p l = .candidate ↔ p l := by
  unfold matchKind
  split <;> simp_all

@[simp] theorem matchKind_ne_empty : matchKind p l ≠ .empty := by
  unfold matchKind
  split <;> simp

@[simp] theorem matchKind_ne_deleted : matchKind p l ≠ .deleted := by
  unfold matchKind
  split <;> simp

end MatchKind

inductive Scanned (L : Type)
  | hit (l : L)
  | empty (l : L)
  | passed
  deriving DecidableEq

inductive Outcome (L : Type)
  | hit (l : L)
  | vacant (l : L)
  | failed
  | exhausted
  deriving DecidableEq

namespace Outcome

def hit? : Outcome L → Option L
  | hit l => some l
  | _ => none

def vacancy : Outcome L → Option L
  | vacant l => some l
  | _ => none

end Outcome

section Search

variable (kind : L → Kind) (inspect : L → Exec ε σ Bool)

def scan : List L → Option L → Exec ε σ (Scanned L × Option L)
  | [], reuse => pure (.passed, reuse)
  | l :: ls, reuse =>
    match kind l with
    | .empty => pure (.empty l, reuse)
    | .deleted => scan ls (reuse.or (some l))
    | .candidate => do if ← inspect l then pure (.hit l, reuse) else scan ls reuse
    | .other => scan ls reuse

/-- Probes a walk, in which `none` is a position the walk cannot compute. -/
def search : List (Option L) → Option L → Exec ε σ (Outcome L)
  | [], reuse => pure (reuse.elim .exhausted .vacant)
  | none :: _, reuse => pure (reuse.elim .failed .vacant)
  | some l :: w, reuse =>
    match kind l with
    | .empty => pure (.vacant (reuse.getD l))
    | .deleted => search w (reuse.or (some l))
    | .candidate => do if ← inspect l then pure (.hit l) else search w reuse
    | .other => search w reuse

variable {kind inspect}

theorem scan_append (ls ms : List L) (reuse : Option L) :
    scan kind inspect (ls ++ ms) reuse = (do
      match ← scan kind inspect ls reuse with
      | (.passed, reuse) => scan kind inspect ms reuse
      | found => pure found) := by
  induction ls generalizing reuse with
  | nil => rfl
  | cons l ls ih =>
    simp only [List.cons_append, scan]
    cases kind l with
    | empty => rfl
    | deleted => exact ih _
    | candidate =>
      simp only [bind_assoc]
      congr
      funext answer
      cases answer with
      | true => rfl
      | false => exact ih reuse
    | other => exact ih _

theorem search_append (ls : List L) (w : List (Option L)) (reuse : Option L) :
    search kind inspect (ls.map some ++ w) reuse = (do
      match ← scan kind inspect ls reuse with
      | (.hit l, _) => pure (.hit l)
      | (.empty l, reuse) => pure (.vacant (reuse.getD l))
      | (.passed, reuse) => search kind inspect w reuse) := by
  induction ls generalizing reuse with
  | nil => rfl
  | cons l ls ih =>
    simp only [List.map_cons, List.cons_append, search, scan]
    cases kind l with
    | empty => rfl
    | deleted => exact ih _
    | candidate =>
      simp only [bind_assoc]
      congr
      funext answer
      cases answer with
      | true => rfl
      | false => exact ih reuse
    | other => exact ih _

theorem search_cons (l : L) (w : List (Option L)) (reuse : Option L) :
    search kind inspect (some l :: w) reuse = (do
      match ← scan kind inspect [l] reuse with
      | (.hit l, _) => pure (.hit l)
      | (.empty l, reuse) => pure (.vacant (reuse.getD l))
      | (.passed, reuse) => search kind inspect w reuse) := search_append [l] w reuse

theorem search_match (p : L → Prop) [DecidablePred p] (l : L) (w : List (Option L)) :
    search (matchKind p) inspect (some l :: w) none = (do
      if ← (if p l then inspect l else pure false) then pure (.hit l)
      else search (matchKind p) inspect w none) := by
  rw [search, matchKind]
  by_cases h : p l
  · simp only [if_pos h]
  · simp only [if_neg h]
    rfl

theorem scan_congr {kind' : L → Kind} {ls : List L} (h : ∀ l ∈ ls, kind' l = kind l) (reuse : Option L) :
    scan kind' inspect ls reuse = scan kind inspect ls reuse := by
  induction ls generalizing reuse with
  | nil => rfl
  | cons l ls ih =>
    have ih := ih fun m hm => h m (List.mem_cons_of_mem _ hm)
    simp only [scan, h l (List.mem_cons_self ..), ih]

theorem search_congr {kind' : L → Kind} {w : List (Option L)} (h : ∀ l, some l ∈ w → kind' l = kind l)
    (reuse : Option L) : search kind' inspect w reuse = search kind inspect w reuse := by
  induction w generalizing reuse with
  | nil => rfl
  | cons o w ih =>
    have ih := ih fun m hm => h m (List.mem_cons_of_mem _ hm)
    cases o with
    | none => rfl
    | some l => simp only [search, h l (List.mem_cons_self ..), ih]

end Search

/-- A probe of `w` that stops at no earlier cell comes to `l`. -/
inductive Reached (stop : L → Prop) : List (Option L) → L → Prop
  | here {l : L} {w : List (Option L)} : Reached stop (some l :: w) l
  | there {l m : L} {w : List (Option L)} (hm : ¬stop m) (h : Reached stop w l) :
    Reached stop (some m :: w) l

namespace Reached

variable {stop stop' : L → Prop} {w w' : List (Option L)} {l : L}

theorem mem (h : Reached stop w l) : some l ∈ w := by
  induction h with
  | here => exact List.mem_cons_self ..
  | there _ _ ih => exact List.mem_cons_of_mem _ ih

theorem mono (hs : ∀ m, stop' m → stop m) (h : Reached stop w l) : Reached stop' w l := by
  induction h with
  | here => exact .here
  | there hm _ ih => exact .there (fun h' => hm (hs _ h')) ih

theorem of_mem (hs : ∀ m, ¬stop m) (hw : none ∉ w) (h : some l ∈ w) : Reached stop w l := by
  induction w with
  | nil => cases h
  | cons o w ih =>
    cases o with
    | none => exact absurd (List.mem_cons_self ..) hw
    | some m =>
      rcases List.mem_cons.mp h with ⟨⟨⟩⟩ | h
      · exact .here
      · exact .there (hs m) (ih (fun h' => hw (List.mem_cons_of_mem _ h')) h)

theorem segment {S : Type} {ws : S → List (Option L)} {segments : List S}
    (h : Reached stop (segments.flatMap ws) l) :
    ∃ s ∈ segments, some l ∈ ws s ∧
      ∀ p : S → Bool, p s → Reached stop ((segments.filter p).flatMap ws) l := by
  induction segments with
  | nil => cases h
  | cons s segments ih =>
    rw [List.flatMap_cons] at h
    have hsplit : ∀ v : List (Option L), Reached stop (v ++ segments.flatMap ws) l →
        (∀ w', Reached stop (v ++ w') l) ∧ some l ∈ v ∨
          Reached stop (segments.flatMap ws) l ∧ ∀ w', Reached stop w' l → Reached stop (v ++ w') l := by
      intro v hv
      induction v with
      | nil => exact .inr ⟨hv, fun _ => id⟩
      | cons o v ihv =>
        cases hv with
        | here => exact .inl ⟨fun _ => .here, List.mem_cons_self ..⟩
        | there hm hv =>
          rcases ihv hv with ⟨hall, hmem⟩ | ⟨hrest, hall⟩
          · exact .inl ⟨fun w' => .there hm (hall w'), List.mem_cons_of_mem _ hmem⟩
          · exact .inr ⟨hrest, fun w' h' => .there hm (hall w' h')⟩
    rcases hsplit _ h with ⟨hall, hmem⟩ | ⟨hrest, hall⟩
    · refine ⟨s, List.mem_cons_self .., hmem, fun p hp => ?_⟩
      rw [List.filter_cons_of_pos hp, List.flatMap_cons]
      exact hall _
    · obtain ⟨s', hs', hmem, hp'⟩ := ih hrest
      refine ⟨s', List.mem_cons_of_mem _ hs', hmem, fun p hp => ?_⟩
      rw [List.filter_cons]
      split
      · rw [List.flatMap_cons]
        exact hall _ (hp' p hp)
      · exact hp' p hp

end Reached

def firstFree (free : L → Bool) : List (Option L) → Option L
  | [] => none
  | none :: _ => none
  | some l :: w => if free l then some l else firstFree free w

section FirstFree

variable {free : L → Bool} {stop : L → Prop} {w : List (Option L)} {l : L}

theorem firstFree_free (h : firstFree free w = some l) : free l := by
  induction w with
  | nil => cases h
  | cons o w ih =>
    cases o with
    | none => cases h
    | some m =>
      rw [firstFree] at h
      split at h
      · cases h
        assumption
      · exact ih h

theorem reached_firstFree (hs : ∀ m, stop m → free m) (h : firstFree free w = some l) :
    Reached stop w l := by
  induction w with
  | nil => cases h
  | cons o w ih =>
    cases o with
    | none => cases h
    | some m =>
      rw [firstFree] at h
      split at h
      · cases h
        exact .here
      · rename_i hm
        exact .there (fun h' => hm (hs m h')) (ih h)

theorem firstFree_append (ls : List L) (w : List (Option L)) :
    firstFree free (ls.map some ++ w) = (ls.find? free).or (firstFree free w) := by
  induction ls with
  | nil => rfl
  | cons l ls ih =>
    simp only [List.map_cons, List.cons_append, firstFree, List.find?_cons, ih]
    cases free l <;> rfl

end FirstFree

section Specification

variable {kind : L → Kind} {inspect : L → Exec ε σ Bool} {J : σ → Prop} {Ans : L → Bool → Prop}
  {R : ε → σ → Prop}

/-- The cells a search of `w` may have compared with its key all answered no. -/
def Missed (kind : L → Kind) (Ans : L → Bool → Prop) (w : List (Option L)) : Prop :=
  ∀ l, Reached (kind · = .empty) w l → kind l = .candidate → Ans l false

def Found (kind : L → Kind) (Ans : L → Bool → Prop) (w : List (Option L)) (reuse : Option L) :
    Outcome L → Prop
  | .hit l => some l ∈ w ∧ kind l = .candidate ∧ Ans l true
  | o => Missed kind Ans w ∧
    o.vacancy = reuse.or (firstFree (fun l => kind l = .empty ∨ kind l = .deleted) w) ∧
    (o = .exhausted → none ∉ w)

theorem missed_nil : Missed kind Ans [] := by
  intro l h
  cases h

theorem missed_failed {w : List (Option L)} : Missed kind Ans (none :: w) := by
  intro l h
  cases h

theorem missed_cons {l : L} {w : List (Option L)} (hl : kind l = .candidate → Ans l false)
    (h : Missed kind Ans w) : Missed kind Ans (some l :: w) := by
  intro m hm hc
  cases hm with
  | here => exact hl hc
  | there _ hm => exact h m hm hc

theorem Missed.of_mem {p : L → Prop} [DecidablePred p] {w : List (Option L)} {l : L}
    (h : Missed (matchKind p) Ans w) (hw : none ∉ w) (hl : some l ∈ w) (hp : p l) : Ans l false :=
  h l (Reached.of_mem (fun _ => matchKind_ne_empty) hw hl) (matchKind_candidate.mpr hp)

theorem found_cons {l : L} {w : List (Option L)} {reuse reuse' : Option L} {o : Outcome L}
    (hl : kind l = .candidate → Ans l false)
    (hreuse : reuse'.or (firstFree (fun l => kind l = .empty ∨ kind l = .deleted) w) =
      reuse.or (firstFree (fun l => kind l = .empty ∨ kind l = .deleted) (some l :: w)))
    (h : Found kind Ans w reuse' o) : Found kind Ans (some l :: w) reuse o := by
  cases o with
  | hit m => exact ⟨List.mem_cons_of_mem _ h.1, h.2⟩
  | vacant m => exact ⟨missed_cons hl h.1, h.2.1.trans hreuse, fun h => by cases h⟩
  | failed => exact ⟨missed_cons hl h.1, h.2.1.trans hreuse, fun h => by cases h⟩
  | exhausted => exact ⟨missed_cons hl h.1, h.2.1.trans hreuse, fun ho => by simpa using h.2.2 ho⟩

theorem wp_search {w : List (Option L)} {reuse : Option L} {s : σ}
    (hinspect : ∀ l s, some l ∈ w → kind l = .candidate → J s →
      Exec.wp (inspect l) (fun b s' => J s' ∧ Ans l b) R s) (h : J s) :
    Exec.wp (search kind inspect w reuse) (fun o s' => J s' ∧ Found kind Ans w reuse o) R s := by
  induction w generalizing reuse s with
  | nil =>
    rw [search, Exec.wp_pure]
    refine ⟨h, ?_⟩
    cases reuse with
    | none => exact ⟨missed_nil, rfl, fun _ h => by cases h⟩
    | some l => exact ⟨missed_nil, rfl, fun _ h => by cases h⟩
  | cons o w ih =>
    cases o with
    | none =>
      rw [search, Exec.wp_pure]
      refine ⟨h, ?_⟩
      cases reuse with
      | none => exact ⟨missed_failed, rfl, fun h => by cases h⟩
      | some l => exact ⟨missed_failed, rfl, fun h => by cases h⟩
    | some l =>
      have ih : ∀ {reuse s}, J s → _ := @fun reuse s =>
        @ih reuse s fun m s hm => hinspect m s (List.mem_cons_of_mem _ hm)
      rw [search]
      cases hk : kind l with
      | empty =>
        refine ⟨h, fun m hm hc => ?_, ?_, fun h => by cases h⟩
        · cases hm with
          | here => rw [hk] at hc; cases hc
          | there hm _ => exact absurd hk hm
        · simp only [Outcome.vacancy, firstFree, hk, true_or, decide_true, ↓reduceIte]
          cases reuse <;> rfl
      | deleted =>
        refine Exec.wp_mono (ih h) (fun o s' hf => ⟨hf.1, ?_⟩) (fun _ _ => id)
        refine found_cons (fun hc => by rw [hk] at hc; cases hc) ?_ hf.2
        simp only [firstFree, hk, or_true, decide_true, ↓reduceIte]
        cases reuse <;> rfl
      | candidate =>
        dsimp only
        rw [Exec.wp_bind]
        refine Exec.wp_mono (hinspect l s (List.mem_cons_self ..) hk h) ?_ (fun _ _ => id)
        rintro answer s' ⟨hs', hans⟩
        cases answer with
        | true => exact ⟨hs', List.mem_cons_self .., hk, hans⟩
        | false =>
          refine Exec.wp_mono (ih hs') (fun o s'' hf => ⟨hf.1, ?_⟩) (fun _ _ => id)
          exact found_cons (fun _ => hans) (by simp [firstFree, hk]) hf.2
      | other =>
        refine Exec.wp_mono (ih h) (fun o s' hf => ⟨hf.1, ?_⟩) (fun _ _ => id)
        exact found_cons (fun hc => by rw [hk] at hc; cases hc) (by simp [firstFree, hk]) hf.2

end Specification

section Outcomes

variable {kind : L → Kind} {inspect : L → Exec ε σ Bool}

theorem hit_search_blind (w : List (Option L)) (reuse reuse' : Option L) :
    Outcome.hit? <$> search (fun l => (kind l).blind) inspect w reuse =
      Outcome.hit? <$> search kind inspect w reuse' := by
  induction w generalizing reuse reuse' with
  | nil => cases reuse <;> cases reuse' <;> rfl
  | cons o w ih =>
    cases o with
    | none => cases reuse <;> cases reuse' <;> rfl
    | some l =>
      simp only [search]
      cases kind l with
      | empty => rfl
      | deleted => exact ih _ _
      | candidate =>
        simp only [Kind.blind, map_bind]
        refine bind_congr fun answer => ?_
        cases answer with
        | true => rfl
        | false => exact ih _ _
      | other => exact ih _ _

theorem returns_search_miss {w : List (Option L)} {R : ε → Prop}
    (hmiss : ∀ l, some l ∈ w → kind l = .candidate → Exec.Returns (inspect l) false R) :
    ∃ o, Exec.Returns (search kind inspect w none) o R ∧ o.hit? = none ∧
      o.vacancy = firstFree (fun l => kind l = .empty ∨ kind l = .deleted) w := by
  have hstep : ∀ reuse : Option L, ∃ o, Exec.Returns (search kind inspect w reuse) o R ∧ o.hit? = none ∧
      o.vacancy = reuse.or (firstFree (fun l => kind l = .empty ∨ kind l = .deleted) w) := by
    induction w with
    | nil =>
      intro reuse
      cases reuse with
      | none => exact ⟨.exhausted, Exec.returns_pure _ R, rfl, rfl⟩
      | some l => exact ⟨.vacant l, Exec.returns_pure _ R, rfl, rfl⟩
    | cons o w ih =>
      have ih := ih fun l hl => hmiss l (List.mem_cons_of_mem _ hl)
      intro reuse
      cases o with
      | none =>
        cases reuse with
        | none => exact ⟨.failed, Exec.returns_pure _ R, rfl, rfl⟩
        | some l => exact ⟨.vacant l, Exec.returns_pure _ R, rfl, rfl⟩
      | some l =>
        rw [search]
        cases hk : kind l with
        | empty =>
          refine ⟨.vacant (reuse.getD l), Exec.returns_pure _ R, rfl, ?_⟩
          simp only [Outcome.vacancy, firstFree, hk, true_or, decide_true, ↓reduceIte]
          cases reuse <;> rfl
        | deleted =>
          obtain ⟨o, ho, hhit, hvacancy⟩ := ih (reuse.or (some l))
          refine ⟨o, ho, hhit, hvacancy.trans ?_⟩
          simp only [firstFree, hk, or_true, decide_true, ↓reduceIte]
          cases reuse <;> rfl
        | candidate =>
          obtain ⟨o, ho, hhit, hvacancy⟩ := ih reuse
          refine ⟨o, (hmiss l (List.mem_cons_self ..) hk).bind ho, hhit, hvacancy.trans ?_⟩
          simp [firstFree, hk]
        | other =>
          obtain ⟨o, ho, hhit, hvacancy⟩ := ih reuse
          refine ⟨o, ho, hhit, hvacancy.trans ?_⟩
          simp [firstFree, hk]
  exact hstep none

end Outcomes

end Opthash.Probing
