import Mathlib.Algebra.Order.BigOperators.Group.List
import Mathlib.Tactic.Linarith
import Opthash.Machine

namespace Opthash

/-- A panic that user code or a refused growth explains; `p` says that user code may panic. -/
inductive Panic.Blamed (p : Prop) : Panic → Prop
  | user (h : p) : Blamed p .user
  | abort (h : p) : Blamed p .abort
  | exhausted {e : Panic} (h : e.Exhausted) : Blamed p e

theorem Panic.Blamed.mono {p q : Prop} {e : Panic} (hpq : p → q) (h : e.Blamed p) : e.Blamed q := by
  cases h with
  | user h => exact .user (hpq h)
  | abort h => exact .abort (hpq h)
  | exhausted h => exact .exhausted h

theorem Panic.Exhausted.ne_user {e : Panic} (h : e.Exhausted) : e ≠ .user := by
  rintro rfl
  cases h

theorem Panic.Exhausted.ne_abort {e : Panic} (h : e.Exhausted) : e ≠ .abort := by
  rintro rfl
  cases h

namespace Ledger

variable {K V : Type} (κ : K ⊕ V → Nat)

def weigh (xs : List (K ⊕ V)) : Nat := (xs.map κ).sum

def weighEntry (e : K × V) : Nat := κ (.inl e.1) + κ (.inr e.2)

def weighEntries (es : List (K × V)) : Nat := (es.map (weighEntry κ)).sum

def gone (l : Ledger K V) : Nat := weigh κ l.dropped + weigh κ l.handed

def made (l : Ledger K V) : Nat := weigh κ l.created

/-- What left the tables weighs `n` more, and nothing was cloned. -/
structure Gains (l l' : Ledger K V) (n : Nat) : Prop where
  gone : l'.gone κ = l.gone κ + n
  made : l'.made κ = l.made κ

variable {κ}

@[simp] theorem weigh_cons (x : K ⊕ V) (xs : List (K ⊕ V)) :
    weigh κ (x :: xs) = κ x + weigh κ xs := by simp [weigh]

@[simp] theorem weighEntries_nil : weighEntries κ ([] : List (K × V)) = 0 := rfl

@[simp] theorem weighEntries_cons (e : K × V) (es : List (K × V)) :
    weighEntries κ (e :: es) = weighEntry κ e + weighEntries κ es := by simp [weighEntries]

@[simp] theorem weighEntries_append (es fs : List (K × V)) :
    weighEntries κ (es ++ fs) = weighEntries κ es + weighEntries κ fs := by simp [weighEntries]

theorem weighEntries_perm {es fs : List (K × V)} (h : es.Perm fs) :
    weighEntries κ es = weighEntries κ fs := (h.map _).sum_nat

theorem Gains.refl (l : Ledger K V) : Gains κ l l 0 := ⟨rfl, rfl⟩

theorem Gains.trans {l l' l'' : Ledger K V} {m n : Nat} (h : Gains κ l l' m) (h' : Gains κ l' l'' n) :
    Gains κ l l'' (m + n) := ⟨by rw [h'.gone, h.gone, Nat.add_assoc], by rw [h'.made, h.made]⟩

end Ledger

open Ledger

namespace World

variable {W K V α : Type} {Q : α → World W K V → Prop} {R : Panic → World W K V → Prop}

@[simp] theorem wp_call (c : Exec Unit W α) (w : World W K V) :
    Exec.wp (World.call c) Q R w ↔
      Exec.wp c (fun a code => Q a { w with code }) (fun _ code => R .user { w with code }) w.code := by
  simp only [Exec.wp, World.call]
  rcases c w.code with ⟨_ | _, _⟩ <;> rfl

end World

namespace User

variable {W K V T α : Type} (u : User W K V)

def Hashes (k : K) (x : UInt64) : Prop := Exec.Yields (u.hashOne k) x

def Answers (q k : K) (b : Bool) : Prop := Exec.Yields (u.equivalent q k) b

/-- `c` returns from every state. -/
def Total (c : Exec Unit W α) : Prop := ∀ s, Exec.wp c (fun _ _ => True) (fun _ _ => False) s

structure Calm : Prop where
  hashOne : ∀ k, Total (u.hashOne k)
  equivalent : ∀ q k, Total (u.equivalent q k)
  cloneKey : ∀ k, Total (u.cloneKey k)
  cloneValue : ∀ v, Total (u.cloneValue v)
  cloneBuilder : Total u.cloneBuilder
  dropKey : ∀ k, Total (u.dropKey k)
  dropValue : ∀ v, Total (u.dropValue v)

/-- None of the next `n` hash calls panics. -/
def CalmFor : Nat → W → Prop
  | 0, _ => True
  | n + 1, c => ∀ k, Exec.wp (u.hashOne k) (fun _ c' => CalmFor n c') (fun _ _ => False) c

/-- Key comparisons keep `J` of the state of the user code. -/
def EqStable (J : W → Prop) : Prop := ∀ q k c, J c → J (u.equivalent q k c).2

def Quiet : List (K × V) → W → Prop
  | [], _ => True
  | e :: es, c => Exec.wp (u.dropKey e.1)
      (fun _ c' => Exec.wp (u.dropValue e.2) (fun _ c'' => Quiet es c'') (fun _ _ => False) c') (fun _ _ => False) c

def Deterministic : Prop := ∀ k x y, u.Hashes k x → u.Hashes k y → x = y

def ClonesHash : Prop := ∀ k k' x, Exec.Yields (u.cloneKey k) k' → u.Hashes k x → u.Hashes k' x

def Clones (e e' : K × V) : Prop :=
  Exec.Yields (u.cloneKey e.1) e'.1 ∧ Exec.Yields (u.cloneValue e.2) e'.2

def Unwound (e : Panic) : Prop := e = .user ∧ ¬u.Calm

variable {u} {κ : K ⊕ V → Nat}

theorem Unwound.blamed {e : Panic} (h : u.Unwound e) : e.Blamed (¬u.Calm) := by
  obtain ⟨rfl, h⟩ := h
  exact .user h

theorem wp_total {c : Exec Unit W α} (h : u.Calm → Total c) (w : W) :
    Exec.wp c (fun a t => c w = (.ok a, t)) (fun _ _ => ¬u.Calm) w := by
  unfold Exec.wp
  split
  · assumption
  · rename_i e t hc
    intro hu
    exact (Exec.wp_of_error hc).mp (h hu w)

theorem wp_hash (k : K) (w : World W K V) :
    Exec.wp (u.hash k) (fun x w' => u.Hashes k x ∧ w'.ledger = w.ledger ∧ u.hashOne k w.code = (.ok x, w'.code))
      (fun e w' => u.Unwound e ∧ w'.ledger = w.ledger ∧ ∀ n, ¬u.CalmFor (n + 1) w.code) w := by
  rw [hash, World.wp_call]
  refine Exec.wp_mono (Exec.wp_and (wp_total (fun h => h.hashOne k) w.code)
    (Exec.wp_self (u.hashOne k) w.code)) ?_ ?_
  · rintro x code ⟨hx, -⟩
    exact ⟨⟨_, _, hx⟩, rfl, hx⟩
  · rintro _ code ⟨h, hrun⟩
    exact ⟨⟨rfl, h⟩, rfl, fun n hcalm => (Exec.wp_of_error hrun).mp (hcalm k)⟩

theorem CalmFor.next {n : Nat} {c c' : W} {k : K} {x : UInt64} (h : u.CalmFor (n + 1) c)
    (hrun : u.hashOne k c = (.ok x, c')) : u.CalmFor n c' := (Exec.wp_of_ok hrun).mp (h k)

theorem wp_eq {J : W → Prop} (hJ : u.EqStable J) (q k : K) {w : World W K V} (h : J w.code) :
    Exec.wp (u.eq q k) (fun b w' => u.Answers q k b ∧ w'.ledger = w.ledger ∧ J w'.code)
      (fun e w' => u.Unwound e ∧ w'.ledger = w.ledger) w := by
  rw [eq, World.wp_call]
  refine Exec.wp_mono (wp_total (fun h => h.equivalent q k) w.code) ?_ ?_
  · intro b code hb
    refine ⟨⟨_, _, hb⟩, rfl, ?_⟩
    have := hJ q k w.code h
    rwa [hb] at this
  · intro _ code h
    exact ⟨⟨rfl, h⟩, rfl⟩

def Dropped (κ : K ⊕ V → Nat) (n : Nat) (w w' : World W K V) : Prop := Gains κ w.ledger w'.ledger n

theorem wp_dropK (k : K) (w : World W K V) :
    Exec.wp (u.dropK k) (fun _ w' => Dropped κ (κ (.inl k)) w w')
      (fun e w' => u.Unwound e ∧ Dropped κ (κ (.inl k)) w w') w := by
  rw [dropK, Exec.wp_bind, Exec.wp_modify, World.wp_call]
  refine Exec.wp_mono (wp_total (fun h => h.dropKey k) _) ?_ ?_
  · intro _ code _
    exact ⟨by simp [World.logDropped, gone]; omega, rfl⟩
  · intro _ code h
    exact ⟨⟨rfl, h⟩, by simp [World.logDropped, gone]; omega, rfl⟩

theorem wp_dropV (v : V) (w : World W K V) :
    Exec.wp (u.dropV v) (fun _ w' => Dropped κ (κ (.inr v)) w w')
      (fun e w' => u.Unwound e ∧ Dropped κ (κ (.inr v)) w w') w := by
  rw [dropV, Exec.wp_bind, Exec.wp_modify, World.wp_call]
  refine Exec.wp_mono (wp_total (fun h => h.dropValue v) _) ?_ ?_
  · intro _ code _
    exact ⟨by simp [World.logDropped, gone]; omega, rfl⟩
  · intro _ code h
    exact ⟨⟨rfl, h⟩, by simp [World.logDropped, gone]; omega, rfl⟩

theorem wp_cleanup {σ : Type} {c : Exec Panic σ α} {cleanup : Exec Panic σ Unit} {Q : α → σ → Prop}
    {R : Panic → σ → Prop} {s : σ} (habort : ¬u.Calm → ∀ t, R .abort t)
    (h : Exec.wp c Q (fun e t => (e = .abort → R .abort t) ∧ (e ≠ .abort →
      Exec.wp cleanup (fun _ t' => R e t') (fun _ _ => ¬u.Calm) t)) s) :
    Exec.wp (Exec.guarded .abort c cleanup) Q R s := by
  rw [Exec.wp_guarded]
  refine Exec.wp_mono h (fun _ _ => id) ?_
  rintro e t ⟨hfatal, hcleanup⟩
  split
  · rename_i he
    rw [he]
    exact hfatal he
  · rename_i he
    exact Exec.wp_mono (hcleanup he) (fun _ _ => id) (fun _ t' h' => habort h' t')

/-- The panics of drop glue: one destructor's, or an abort when two panic. -/
def Burst (u : User W K V) (e : Panic) : Prop := (e = .user ∨ e = .abort) ∧ ¬u.Calm

theorem Burst.blamed {e : Panic} (h : u.Burst e) : e.Blamed (¬u.Calm) := by
  obtain ⟨rfl | rfl, h⟩ := h
  · exact .user h
  · exact .abort h

theorem Burst.not_exhausted {e : Panic} (h : u.Burst e) : ¬e.Exhausted := by
  rintro hexhausted
  rcases h.1 with he | he
  · exact hexhausted.ne_user he
  · exact hexhausted.ne_abort he

theorem Unwound.burst {e : Panic} (h : u.Unwound e) : u.Burst e := ⟨.inl h.1, h.2⟩

theorem Unwound.ne_abort {e : Panic} (h : u.Unwound e) : e ≠ .abort := by
  rw [h.1]
  exact Panic.noConfusion

theorem wp_dropBoth {m n : Nat} {c d : Exec Panic (World W K V) Unit}
    (hc : ∀ w, Exec.wp c (fun _ w' => Dropped κ m w w') (fun e w' => u.Unwound e ∧ Dropped κ m w w') w)
    (hd : ∀ w, Exec.wp d (fun _ w' => Dropped κ n w w') (fun e w' => u.Unwound e ∧ Dropped κ n w w') w)
    (w : World W K V) :
    Exec.wp (Exec.guarded .abort c d) (fun _ w' => Dropped κ m w w')
      (fun e w' => u.Burst e ∧ (e ≠ .abort → Dropped κ (m + n) w w')) w := by
  apply wp_cleanup (u := u)
  · exact fun h _ => ⟨⟨.inr rfl, h⟩, fun h' => absurd rfl h'⟩
  · refine Exec.wp_mono (hc w) (fun _ _ => id) ?_
    rintro e w' ⟨he, hw'⟩
    refine ⟨fun h => absurd h he.ne_abort, fun _ => ?_⟩
    refine Exec.wp_mono (hd w') (fun _ w'' hw'' => ⟨he.burst, fun _ => ?_⟩) (fun _ _ h => h.1.2)
    exact Gains.trans hw' hw''

theorem wp_dropEntry (e : K × V) (w : World W K V) :
    Exec.wp (u.dropEntry e) (fun _ w' => Dropped κ (weighEntry κ e) w w')
      (fun p w' => u.Burst p ∧ (p ≠ .abort → Dropped κ (weighEntry κ e) w w')) w := by
  rw [dropEntry, Exec.wp_bind]
  refine Exec.wp_mono (wp_dropBoth (wp_dropK e.1) (wp_dropV e.2) w) ?_ (fun _ _ => id)
  intro _ w' hw'
  refine Exec.wp_mono (wp_dropV (κ := κ) e.2 w') ?_ ?_
  · exact fun _ w'' hw'' => Gains.trans hw' hw''
  · exact fun p w'' h => ⟨h.1.burst, fun _ => Gains.trans hw' h.2⟩

theorem wp_dropEntry_quiet (e : K × V) (w : World W K V) :
    Exec.wp (u.dropEntry e) (fun _ w' => ∀ es, u.Quiet (e :: es) w.code → u.Quiet es w'.code)
      (fun _ _ => ∀ es, ¬u.Quiet (e :: es) w.code) w := by
  rw [dropEntry, Exec.wp_bind, Exec.wp_guarded, dropK, Exec.wp_bind, Exec.wp_modify, World.wp_call]
  refine Exec.wp_mono (Exec.wp_self (u.dropKey e.1) w.code) ?_ ?_
  · intro _ c hkey
    rw [dropV, Exec.wp_bind, Exec.wp_modify, World.wp_call]
    refine Exec.wp_mono (Exec.wp_self (u.dropValue e.2) c) ?_ ?_
    · intro _ c' hvalue es hquiet
      exact (Exec.wp_of_ok hvalue).mp ((Exec.wp_of_ok hkey).mp hquiet)
    · intro _ c' hvalue es hquiet
      exact (Exec.wp_of_error hvalue).mp ((Exec.wp_of_ok hkey).mp hquiet)
  · intro _ c hkey
    have hloud : ∀ es, ¬u.Quiet (e :: es) w.code := fun es hquiet => (Exec.wp_of_error hkey).mp hquiet
    rw [if_neg Panic.noConfusion]
    exact Exec.wp_mono (Exec.wp_self _ _) (fun _ _ _ => hloud) fun _ _ _ => hloud

theorem wp_owned {k : K} {v : V} {c : Run T W K V α} {Q : α → T × World W K V → Prop}
    {R : Panic → T × World W K V → Prop} {s : T × World W K V}
    (habort : ¬u.Calm → ∀ t, R .abort t)
    (h : Exec.wp c Q (fun e t => (e = .abort → R .abort t) ∧ (e ≠ .abort →
      ∀ w', Dropped κ (weighEntry κ (k, v)) t.2 w' → R e (t.1, w'))) s) :
    Exec.wp (u.owned k v c) Q R s := by
  apply wp_cleanup habort
  refine Exec.wp_mono h (fun _ _ => id) ?_
  rintro e t ⟨hfatal, hrest⟩
  refine ⟨hfatal, fun he => ?_⟩
  rw [Exec.wp_onSnd]
  exact Exec.wp_mono (wp_dropEntry (k, v) t.2) (fun _ w' hw' => hrest he w' hw') (fun _ _ h => h.1.2)

theorem wp_cloneK (k : K) (w : World W K V) :
    Exec.wp (u.cloneK k)
      (fun k' w' => Exec.Yields (u.cloneKey k) k' ∧ w'.ledger.gone κ = w.ledger.gone κ ∧
        w'.ledger.made κ = w.ledger.made κ + κ (.inl k'))
      (fun e w' => u.Unwound e ∧ w'.ledger = w.ledger) w := by
  rw [cloneK, Exec.wp_bind, World.wp_call]
  refine Exec.wp_mono (wp_total (fun h => h.cloneKey k) w.code) ?_ ?_
  · intro k' code hk
    refine ⟨⟨_, _, hk⟩, rfl, ?_⟩
    simp [World.logCreated, made]
    omega
  · exact fun _ code h => ⟨⟨rfl, h⟩, rfl⟩

theorem wp_cloneV (v : V) (w : World W K V) :
    Exec.wp (u.cloneV v)
      (fun v' w' => Exec.Yields (u.cloneValue v) v' ∧ w'.ledger.gone κ = w.ledger.gone κ ∧
        w'.ledger.made κ = w.ledger.made κ + κ (.inr v'))
      (fun e w' => u.Unwound e ∧ w'.ledger = w.ledger) w := by
  rw [cloneV, Exec.wp_bind, World.wp_call]
  refine Exec.wp_mono (wp_total (fun h => h.cloneValue v) w.code) ?_ ?_
  · intro v' code hv
    refine ⟨⟨_, _, hv⟩, rfl, ?_⟩
    simp [World.logCreated, made]
    omega
  · exact fun _ code h => ⟨⟨rfl, h⟩, rfl⟩

theorem wp_cloneEntry (e : K × V) (w : World W K V) :
    Exec.wp (u.cloneEntry e)
      (fun e' w' => u.Clones e e' ∧ w'.ledger.gone κ = w.ledger.gone κ ∧
        w'.ledger.made κ = w.ledger.made κ + weighEntry κ e')
      (fun p w' => u.Burst p ∧ (p ≠ .abort → ∃ n,
        w'.ledger.gone κ = w.ledger.gone κ + n ∧ w'.ledger.made κ = w.ledger.made κ + n)) w := by
  rw [cloneEntry, Exec.wp_bind]
  refine Exec.wp_mono (wp_cloneK (κ := κ) e.1 w) ?_ ?_
  · rintro k w' ⟨hk, hgone, hmade⟩
    rw [Exec.wp_bind]
    apply wp_cleanup (u := u)
    · exact fun h _ => ⟨⟨.inr rfl, h⟩, fun h' => absurd rfl h'⟩
    · refine Exec.wp_mono (wp_cloneV (κ := κ) e.2 w') ?_ ?_
      · rintro v w'' ⟨hv, hgone', hmade'⟩
        refine ⟨⟨hk, hv⟩, by rw [hgone', hgone], ?_⟩
        rw [hmade', hmade, weighEntry, Nat.add_assoc]
      · rintro p w'' ⟨hp, hledger⟩
        refine ⟨fun h => absurd h hp.ne_abort, fun _ => ?_⟩
        refine Exec.wp_mono (wp_dropK (κ := κ) k w'') ?_ (fun _ _ h => h.1.2)
        intro _ w''' hdrop
        refine ⟨hp.burst, fun _ => ⟨κ (.inl k), ?_, ?_⟩⟩
        · rw [hdrop.gone, hledger, hgone]
        · rw [hdrop.made, hledger, hmade]
  · rintro p w' ⟨hp, hledger⟩
    exact ⟨hp.burst, fun _ => ⟨0, by rw [hledger]; rfl, by rw [hledger]; rfl⟩⟩

end User

section Lookups

variable {T W K V : Type}

structure Looking (t : T) (ledger : Ledger K V) (J : W → Prop) (s : T × World W K V) : Prop where
  table : s.1 = t
  ledger : s.2.ledger = ledger
  code : J s.2.code

def LookupPanic (u : User W K V) (t : T) (ledger : Ledger K V) (e : Panic) (s : T × World W K V) : Prop :=
  u.Unwound e ∧ s.1 = t ∧ s.2.ledger = ledger

theorem wp_compare {u : User W K V} {t : T} {ledger : Ledger K V} {J : W → Prop} (hJ : u.EqStable J) (q k : K)
    {s : T × World W K V} (hs : Looking t ledger J s) :
    Exec.wp (Exec.onSnd (u.eq q k)) (fun b s' => Looking t ledger J s' ∧ u.Answers q k b)
      (LookupPanic u t ledger) s := by
  rw [Exec.wp_onSnd]
  refine Exec.wp_mono (User.wp_eq hJ q k hs.code) ?_ ?_
  · rintro b w' ⟨hb, hledger, hcode⟩
    exact ⟨⟨hs.table, hledger.trans hs.ledger, hcode⟩, hb⟩
  · rintro p w' ⟨hp, hledger⟩
    exact ⟨hp, hs.table, hledger.trans hs.ledger⟩

end Lookups

/-- What drops of entries that weigh `n` leave; without drop glue they leave nothing. -/
structure Drained {W K V : Type} (u : User W K V) (κ : K ⊕ V → Nat) (n : Nat) (w w' : World W K V) :
    Prop where
  made : w'.ledger.made κ = w.ledger.made κ
  le : w'.ledger.gone κ ≤ w.ledger.gone κ + n
  eq : u.needsDrop = true → w'.ledger.gone κ = w.ledger.gone κ + n

end Opthash
