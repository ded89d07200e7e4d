import Opthash.Shell.Operations

namespace Opthash

open Ledger

namespace User

variable {W K V : Type} (u : User W K V)

/-- What calls of user code other than the hasher make of its state. -/
inductive Aside : W → W → Prop
  | refl (c : W) : Aside c c
  | equivalent {c c' : W} (q k : K) : Aside c c' → Aside c (u.equivalent q k c').2
  | dropKey {c c' : W} (k : K) : Aside c c' → Aside c (u.dropKey k c').2
  | dropValue {c c' : W} (v : V) : Aside c c' → Aside c (u.dropValue v c').2

/-- None of the next `n` hash calls panics, whatever else is called between them. -/
def Unfailing : Nat → W → Prop
  | 0, _ => True
  | n + 1, c => ∀ c', u.Aside c c' → ∀ k, Exec.wp (u.hashOne k) (fun _ c'' => Unfailing n c'') (fun _ _ => False) c'

variable {u}

theorem Aside.trans {c c' c'' : W} (h : u.Aside c c') (h' : u.Aside c' c'') : u.Aside c c'' := by
  induction h' with
  | refl => exact h
  | equivalent q k _ ih => exact ih.equivalent q k
  | dropKey k _ ih => exact ih.dropKey k
  | dropValue v _ ih => exact ih.dropValue v

theorem Unfailing.aside {n : Nat} {c c' : W} (h : u.Unfailing n c) (ha : u.Aside c c') : u.Unfailing n c' := by
  cases n with
  | zero => trivial
  | succ n => exact fun c'' ha' k => h c'' (ha.trans ha') k

theorem Unfailing.eqStable (n : Nat) : u.EqStable (u.Unfailing n) :=
  fun q k c h => h.aside (.equivalent q k (.refl c))

theorem Unfailing.dropStable (n : Nat) : u.DropStable (u.Unfailing n) :=
  ⟨fun k c h => h.aside (.dropKey k (.refl c)), fun v c h => h.aside (.dropValue v (.refl c))⟩

theorem Unfailing.calmFor {n : Nat} {c : W} (h : u.Unfailing n c) : u.CalmFor n c := by
  induction n generalizing c with
  | zero => trivial
  | succ n ih => exact fun k => Exec.wp_mono (h c (.refl c) k) (fun _ _ => ih) fun _ _ => id

theorem Unfailing.next {n : Nat} {c c' : W} {k : K} {x : UInt64} (h : u.Unfailing (n + 1) c)
    (hrun : u.hashOne k c = (.ok x, c')) : u.Unfailing n c' := (Exec.wp_of_ok hrun).mp (h c (.refl c) k)

end User

namespace Op

variable {W K V : Type}

def Returning : Op K V → Prop
  | .getOrInsertWith _ _ make => make ≠ none
  | .retain f => f.Answering
  | .extractIf pred _ => pred.Answering
  | .leakExtractIf pred _ => pred.Answering
  | _ => True

def Leaks : Op K V → Prop
  | .leakExtractIf _ _ => True
  | .leakDrain _ => True
  | _ => False

def Deletes : Op K V → Prop
  | .removeEntry _ => True
  | .remove _ => True
  | .retain _ => True
  | .extractIf _ _ => True
  | .drain _ => True
  | .leakExtractIf _ _ => True
  | .leakDrain _ => True
  | .clear => True
  | _ => False

def Inserts : Op K V → Prop
  | .insert _ _ => True
  | .entryOrInsert _ _ => True
  | .tryInsert _ _ => True
  | .getOrInsertWith _ _ _ => True
  | _ => False

def Reserves : Op K V → Prop
  | .reserve _ => True
  | .tryReserve _ => True
  | _ => False

def Shrinks : Op K V → Prop
  | .shrinkTo _ => True
  | _ => False

def Undrained (es : List (K × V)) : Op K V → Prop
  | .leakDrain n => n = 0 ∨ es = []
  | _ => True

def Quiet (u : User W K V) (es : List (K × V)) (code : W) : Op K V → Prop
  | .drain n => u.Quiet (es.drop n) code
  | _ => True

/-- Keys made by closures and clones hash like the keys they stand for. -/
def Consistent (u : User W K V) : Op K V → Prop
  | .getOrInsertWith key _ (some made) => ∀ x, u.Hashes key x → u.Hashes made x
  | .clone => u.ClonesHash
  | _ => True

/-- The call's closures leave the weights of what they mutate, and make no entries of their own. -/
def Conserves (κ : K ⊕ V → Nat) : Op K V → Prop
  | .getMut _ f => ∀ v, κ (.inr (f v)) = κ (.inr v)
  | .getOrInsertWith _ _ _ => False
  | .retain f => f.Preserves κ
  | .extractIf pred _ => pred.Preserves κ
  | .leakExtractIf pred _ => pred.Preserves κ
  | _ => True

def supplies (κ : K ⊕ V → Nat) : Op K V → Nat
  | .insert key value => weighEntry κ (key, value)
  | .entryOrInsert key default => weighEntry κ (key, default)
  | .tryInsert key value => weighEntry κ (key, value)
  | _ => 0

section Steadfast

variable {b : TableBackend W K V} (R : Reading b.Table b.Location b.Vacant b.Scan K V) (u : User W K V) (t : b.Table)
  (code : W)

/-- If the deletes of the call leave a refresh of the filter to do, the hasher lasts for it. -/
def Steadfast : Op K V → Prop
  | .removeEntry key => ∀ loc e, R.Holds t loc e → u.Answers key e.1 true → R.RefreshesAfter t loc →
      u.Unfailing (R.entries t).length code
  | .remove key => ∀ loc e, R.Holds t loc e → u.Answers key e.1 true → R.RefreshesAfter t loc →
      u.Unfailing (R.entries t).length code
  | .retain f => R.RefreshesDeferred (HashMap.retained b f t) →
      u.Unfailing (R.entries (HashMap.retained b f t)).length code
  | .extractIf pred n => R.RefreshesDeferred (HashMap.extracted b pred n t) →
      u.Unfailing (R.entries (HashMap.extracted b pred n t)).length code
  | .leakExtractIf pred n => R.RefreshesDeferred (HashMap.extracted b pred n t) →
      u.Unfailing (R.entries (HashMap.extracted b pred n t)).length code
  | _ => True

end Steadfast

end Op

namespace HashMap

open Exec

variable {W K V : Type} {b : TableBackend W K V} (R : Reading b.Table b.Location b.Vacant b.Scan K V) (u : User W K V)
  (κ : K ⊕ V → Nat)

/-- What is stored and what left weigh `n` more than before, clones apart; less only without drop glue. -/
structure Balanced (n : Nat) (s s' : b.Table × World W K V) : Prop where
  le : s'.2.ledger.gone κ + weighEntries κ (R.entries s'.1) + s.2.ledger.made κ ≤
    s.2.ledger.gone κ + weighEntries κ (R.entries s.1) + s'.2.ledger.made κ + n
  eq : u.needsDrop = true → s'.2.ledger.gone κ + weighEntries κ (R.entries s'.1) + s.2.ledger.made κ =
    s.2.ledger.gone κ + weighEntries κ (R.entries s.1) + s'.2.ledger.made κ + n

/-- How a call moves the insertion limit: an insertion raises it only once it is reached. -/
inductive Limits (op : Op K V) (t t' : b.Table) : Prop
  | kept (capacity : R.capacity t' = R.capacity t)
  | stretched (inserts : op.Inserts) (below : R.len t < R.capacity t → R.capacity t' = R.capacity t)
      (reached : R.len t = R.capacity t → R.capacity t ≤ R.capacity t')
  | raised (reserves : op.Reserves) (capacity : R.capacity t ≤ R.capacity t')
  | shrunk (shrinks : op.Shrinks)

structure Done (op : Op K V) (s s' : b.Table × World W K V) : Prop where
  wf : R.Wf s'.1
  counted : op.Undrained (R.entries s.1) → R.Counted s.1 → R.Counted s'.1
  settled : ¬op.Leaks → R.Counted s.1 → R.Settled s.1 → R.Settled s'.1
  sound : ∀ {q : Prop}, op.Consistent u → R.Sound u q s.1 → R.Sound u q s'.1
  limits : Limits R op s.1 s'.1
  balance : op.Conserves κ → Balanced R u κ (op.supplies κ) s s'

structure Remains (op : Op K V) (s s' : b.Table × World W K V) : Prop where
  wf : R.Wf s'.1
  counted : op.Quiet u (R.entries s.1) s.2.code → R.Counted s.1 → R.Counted s'.1
  settled : ¬op.Deletes → R.Counted s.1 → R.Settled s.1 → R.Settled s'.1
  sound : ∀ {q : Prop}, op.Consistent u → (q → op.Steadfast R u s.1 s.2.code) → R.Sound u q s.1 → R.Sound u q s'.1
  limits : Limits R op s.1 s'.1
  balance : op.Conserves κ → Balanced R u κ (op.supplies κ) s s'

def Failed (op : Op K V) (s : b.Table × World W K V) (p : Panic) (s' : b.Table × World W K V) : Prop :=
  p.Blamed (¬u.Calm ∨ ¬op.Returning) ∧ (p ≠ .abort → Remains R u κ op s s')

variable {R u κ} {t t' : b.Table} {w w' : World W K V} {op : Op K V}

theorem Balanced.of_dropped {m n : Nat} (hd : User.Dropped κ m w w')
    (h : weighEntries κ (R.entries t') + m = weighEntries κ (R.entries t) + n) : Balanced R u κ n (t, w) (t', w') := by
  have hgone := hd.gone
  have hmade := hd.made
  refine ⟨?_, fun _ => ?_⟩
  all_goals
    dsimp only
    omega

theorem Balanced.of_ledger {n : Nat} (hl : w'.ledger = w.ledger)
    (h : weighEntries κ (R.entries t') = weighEntries κ (R.entries t) + n) : Balanced R u κ n (t, w) (t', w') :=
  .of_dropped (m := 0) ⟨by rw [hl]; rfl, by rw [hl]⟩ h

theorem Balanced.perm {n : Nat} {t₁ : b.Table} (h : Balanced R u κ n (t, w) (t₁, w'))
    (hperm : (R.entries t').Perm (R.entries t₁)) : Balanced R u κ n (t, w) (t', w') := by
  have hweight := weighEntries_perm (κ := κ) hperm
  refine ⟨?_, fun hneeds => ?_⟩
  · dsimp only
    rw [hweight]
    exact h.le
  · dsimp only
    rw [hweight]
    exact h.eq hneeds

theorem Done.looked (hw : R.Wf t) (hl : w'.ledger = w.ledger) (hsupplies : op.supplies κ = 0) :
    Done R u κ op (t, w) (t, w') where
  wf := hw
  counted := fun _ => id
  settled := fun _ _ => id
  sound := fun _ => id
  limits := .kept rfl
  balance := fun _ => .of_ledger hl (by rw [hsupplies]; rfl)

theorem Failed.looked {p : Panic} {s : b.Table × World W K V} (hw : R.Wf t) (hsupplies : op.supplies κ = 0)
    (h : LookupPanic u t w.ledger p s) : Failed R u κ op (t, w) p s := by
  obtain ⟨t', w'⟩ := s
  obtain ⟨hp, ht, hl⟩ := h
  obtain rfl : t' = t := ht
  refine ⟨hp.blamed.mono .inl, fun _ => ⟨hw, fun _ => id, fun _ _ => id, fun _ _ => id, .kept rfl, fun _ => ?_⟩⟩
  exact .of_ledger hl (by rw [hsupplies]; rfl)

theorem Done.steady (h : R.Steady u t t') (hbalance : op.Conserves κ → Balanced R u κ (op.supplies κ) (t, w) (t', w')) :
    Done R u κ op (t, w) (t', w') where
  wf := h.wf
  counted := fun _ => h.counted
  settled := fun _ => h.settled
  sound := fun _ => h.sound
  limits := .kept h.capacity
  balance := hbalance

theorem Remains.stretched (hinserts : op.Inserts) (h : R.Stretched u t t')
    (hbalance : op.Conserves κ → Balanced R u κ (op.supplies κ) (t, w) (t', w')) : Remains R u κ op (t, w) (t', w') where
  wf := h.keeps.wf
  counted := fun _ => h.keeps.counted
  settled := fun _ => h.settled
  sound := fun _ _ => h.keeps.sound
  limits := .stretched hinserts h.below h.reached
  balance := hbalance

theorem Remains.steady (h : R.Steady u t t')
    (hbalance : op.Conserves κ → Balanced R u κ (op.supplies κ) (t, w) (t', w')) : Remains R u κ op (t, w) (t', w') where
  wf := h.wf
  counted := fun _ => h.counted
  settled := fun _ => h.settled
  sound := fun _ _ => h.sound
  limits := .kept h.capacity
  balance := hbalance

theorem Balanced.dropped_all {n : Nat} (h : (R.entries t').Perm (R.entries t)) (hd : User.Dropped κ n w w') :
    Balanced R u κ n (t, w) (t', w') := .of_dropped hd (by rw [weighEntries_perm h])

theorem Failed.notPlaced {p : Panic} {s : b.Table × World W K V} {key : K} {value : V} (hinserts : op.Inserts)
    (hsupplies : op.supplies κ = weighEntry κ (key, value)) (h : NotPlaced R u κ t key value w p s) :
    Failed R u κ op (t, w) p s := by
  refine ⟨h.1.mono .inl, fun hne => .stretched hinserts (h.2 hne).1 fun _ => ?_⟩
  rw [hsupplies]
  exact .dropped_all (h.2 hne).1.entries (h.2 hne).2

end HashMap

end Opthash
