import Opthash.Lib.Weights
import Opthash.Shell.Iterators
import Opthash.Shell.Runs

namespace Opthash

open Exec Ledger Weights

def Ledger.tokens {K V : Type} (es : List (K × V)) : List (K ⊕ V) := es.flatMap fun e => [.inl e.1, .inr e.2]

namespace Op

variable {W K V τ : Type}

/-- What a call is given by value, and the key its closure makes where it is called. -/
def supply (b : TableBackend W K V) (u : User W K V) (s : b.Table × World W K V) : Op K V → List (K ⊕ V)
  | .insert key value => [.inl key, .inr value]
  | .entryOrInsert key default => [.inl key, .inr default]
  | .tryInsert key value => [.inl key, .inr value]
  | .getOrInsertWith key value make => match (HashMap.searchOrMake b u key make s).1 with
    | .ok (.inr (made, _)) => [.inl made, .inr value]
    | _ => [.inr value]
  | _ => []

def Names (name : K ⊕ V → τ) : Op K V → Prop
  | .getMut _ f => ∀ v, name (.inr (f v)) = name (.inr v)
  | .retain f => ∀ seen e, name (.inr (f seen e).1) = name (.inr e.2)
  | .extractIf pred _ => ∀ seen e, name (.inr (pred seen e).1) = name (.inr e.2)
  | .leakExtractIf pred _ => ∀ seen e, name (.inr (pred seen e).1) = name (.inr e.2)
  | _ => True

end Op

def World.yield {W K V : Type} (w : World W K V) : Except Panic (Option (K × V)) → World W K V
  | .ok (some e) => (w.logHanded (.inl e.1)).logHanded (.inr e.2)
  | _ => w

namespace HashMap

variable {W K V τ : Type} (b : TableBackend W K V) (u : User W K V)

/-- Who has entries: a map, a map consumed for its entries, and a map that a live `Drain` or `ExtractIf` borrows. -/
inductive Owner
  | map (t : b.Table)
  | intoIter (i : IntoIter b)
  | drain (t : b.Table) (scan : b.Scan)
  | extractIf (pred : Predicate K V) (x : ExtractScan b.Scan K V) (t : b.Table)

variable {b}

def Owner.table : Owner b → b.Table
  | .map t => t
  | .intoIter i => i.table
  | .drain t _ => t
  | .extractIf _ _ t => t

/-- What can be done with an owner, whether it returns or unwinds: the owners it leaves in its place, and what the
caller gave away for it. -/
inductive Moves (name : K ⊕ V → τ) : Owner b → World W K V → List (Owner b) → World W K V → List (K ⊕ V) → Prop
  | call {t t' : b.Table} {w w' : World W K V} {op : Op K V} {r : Except Panic (Ret K V)}
      (hstep : step b u op (t, w) = (r, (t', w'))) (habort : r ≠ .error .abort) (hnames : op.Names name) :
      Moves name (.map t) w [.map t'] w' (op.supply b u (t, w))
  | cloned {t t' : b.Table} {w w' : World W K V} (hclone : b.cloneTable t w = (.ok t', w')) :
      Moves name (.map t) w [.map t, .map t'] w' []
  | cloneUnwound {t : b.Table} {w w' : World W K V} {p : Panic} (hclone : b.cloneTable t w = (.error p, w'))
      (habort : p ≠ .abort) : Moves name (.map t) w [.map t] w' []
  | consume {t : b.Table} {w : World W K V} : Moves name (.map t) w [.intoIter (intoIter b t)] w []
  | next {i i' : IntoIter b} {w w' : World W K V} {r : Except Panic (Option (K × V))}
      (hnext : IntoIter.next b (i, w) = (r, (i', w'))) (habort : r ≠ .error .abort) :
      Moves name (.intoIter i) w [.intoIter i'] (w'.yield r) []
  | drain {t : b.Table} {w : World W K V} : Moves name (.map t) w [.drain t (b.scan t)] w []
  | nextDrained {t t' : b.Table} {scan scan' : b.Scan} {w w' : World W K V} {r : Except Panic (Option (K × V))}
      (hnext : drainNext b (scan, t, w) = (r, (scan', t', w'))) (habort : r ≠ .error .abort) :
      Moves name (.drain t scan) w [.drain t' scan'] (w'.yield r) []
  | endDrain {t t' : b.Table} {scan scan' : b.Scan} {w w' : World W K V} {r : Except Panic Unit}
      (hdrop : dropDrain b u (scan, t, w) = (r, (scan', t', w'))) (habort : r ≠ .error .abort) :
      Moves name (.drain t scan) w [.map t'] w' []
  | leakDrain {t : b.Table} {scan : b.Scan} {w : World W K V} : Moves name (.drain t scan) w [.map t] w []
  | extractIf {t : b.Table} {w : World W K V} {pred : Predicate K V}
      (hnames : ∀ seen e, name (.inr (pred seen e).1) = name (.inr e.2)) :
      Moves name (.map t) w [.extractIf pred ⟨b.scan t, false, []⟩ t] w []
  | nextMatching {pred : Predicate K V} {x x' : ExtractScan b.Scan K V} {t t' : b.Table} {w w' : World W K V}
      {r : Except Panic (Option (K × V))} (hnext : nextMatching b pred (x, t, w) = (r, (x', t', w')))
      (habort : r ≠ .error .abort) : Moves name (.extractIf pred x t) w [.extractIf pred x' t'] (w'.yield r) []
  | endExtractIf {pred : Predicate K V} {x x' : ExtractScan b.Scan K V} {t t' : b.Table} {w w' : World W K V}
      {r : Except Panic Unit} (hdrop : dropExtractScan b (x, t, w) = (r, (x', t', w'))) (habort : r ≠ .error .abort) :
      Moves name (.extractIf pred x t) w [.map t'] w' []
  | leakExtractIf {pred : Predicate K V} {x : ExtractScan b.Scan K V} {t : b.Table} {w : World W K V} :
      Moves name (.extractIf pred x t) w [.map t] w []
  | drop {t : b.Table} {w w' : World W K V} {r : Except Panic Unit} (hdrop : b.dropTable t w = (r, w'))
      (habort : r ≠ .error .abort) : Moves name (.map t) w [] w' []
  | dropIter {i : IntoIter b} {w w' : World W K V} {r : Except Panic Unit} (hdrop : b.dropTable i.table w = (r, w'))
      (habort : r ≠ .error .abort) : Moves name (.intoIter i) w [] w' []

/-- A run of a program: its owners, and what it gave away. It starts with none, and may do to its own state whatever
it likes. -/
inductive Program (initial : b.Table → Prop) (name : K ⊕ V → τ) : List (Owner b) → World W K V → List (K ⊕ V) → Prop
  | start (code : W) : Program initial name [] ⟨code, ⟨[], [], []⟩⟩ []
  | beside {owners : List (Owner b)} {w : World W K V} {supplied : List (K ⊕ V)} (code : W)
      (h : Program initial name owners w supplied) : Program initial name owners { w with code } supplied
  | create {owners : List (Owner b)} {w : World W K V} {supplied : List (K ⊕ V)} {t : b.Table} (ht : initial t)
      (h : Program initial name owners w supplied) : Program initial name (.map t :: owners) w supplied
  | act {before after os : List (Owner b)} {o : Owner b} {w w' : World W K V} {supplied more : List (K ⊕ V)}
      (h : Program initial name (before ++ o :: after) w supplied) (hmoves : Moves u name o w os w' more) :
      Program initial name (before ++ os ++ after) w' (supplied ++ more)

variable {u} {R : Reading b.Table b.Location b.Vacant b.Scan K V} {κ : K ⊕ V → Nat} {name : K ⊕ V → τ}

theorem Program.alone {initial : b.Table → Prop} {o : Owner b} {os : List (Owner b)} {w w' : World W K V}
    {supplied more : List (K ⊕ V)} (h : Program u initial name [o] w supplied) (hmoves : Moves u name o w os w' more) :
    Program u initial name os w' (supplied ++ more) := by
  have hact := @Program.act _ _ _ _ _ u initial name [] [] os o w w' supplied more h hmoves
  rwa [List.nil_append, List.append_nil] at hact

def Owner.Wf (R : Reading b.Table b.Location b.Vacant b.Scan K V) (name : K ⊕ V → τ) : Owner b → Prop
  | .map t => R.Wf t
  | .intoIter i => ∃ es, Underway R [] es i.table i.scan ∧ es.length ≤ i.remaining
  | .drain t scan => ∃ es, Underway R [] es t scan
  | .extractIf pred x t => R.Wf t ∧ (∀ seen e, name (.inr (pred seen e).1) = name (.inr e.2)) ∧
      (x.finished = false → ∃ kept es, Underway R kept es t x.scan)

def held (R : Reading b.Table b.Location b.Vacant b.Scan K V) (owners : List (Owner b)) : List (K ⊕ V) :=
  owners.flatMap fun o => tokens (R.entries o.table)

/-- What was held and given away before is held after or has left, clones apart; some of it may be forgotten where
nothing needs dropping. -/
structure Accounts (u : User W K V) (κ : K ⊕ V → Nat) (before : Nat) (w : World W K V) (after : Nat) (w' : World W K V)
    (given : Nat) : Prop where
  le : w'.ledger.gone κ + after + w.ledger.made κ ≤ w.ledger.gone κ + before + w'.ledger.made κ + given
  eq : u.needsDrop = true →
    w'.ledger.gone κ + after + w.ledger.made κ = w.ledger.gone κ + before + w'.ledger.made κ + given

theorem total_eq_weigh (κ : K ⊕ V → Nat) (xs : List (K ⊕ V)) : total κ xs = weigh κ xs := by
  induction xs with
  | nil => rfl
  | cons x xs ih => simp [weigh, ih]

theorem total_tokens (es : List (K × V)) : total κ (tokens es) = weighEntries κ es := by
  induction es with
  | nil => rfl
  | cons e es ih =>
    rw [weighEntries_cons, ← ih, tokens, List.flatMap_cons, total_append]
    simp [weighEntry, tokens]

@[simp] theorem total_held_nil : total κ (held R []) = 0 := rfl

@[simp] theorem total_held_cons (o : Owner b) (os : List (Owner b)) :
    total κ (held R (o :: os)) = weighEntries κ (R.entries o.table) + total κ (held R os) := by
  rw [held, List.flatMap_cons, total_append, total_tokens]
  rfl

@[simp] theorem total_held_append (os os' : List (Owner b)) :
    total κ (held R (os ++ os')) = total κ (held R os) + total κ (held R os') := by
  rw [held, List.flatMap_append, total_append]
  rfl

section Accounting

variable {before after given m : Nat} {w w' w'' : World W K V}

theorem Accounts.trans {middle given' : Nat} (h : Accounts u κ before w middle w' given)
    (h' : Accounts u κ middle w' after w'' given') : Accounts u κ before w after w'' (given + given') := by
  constructor
  · have hle := h.le
    have hle' := h'.le
    omega
  · intro hneeds
    have heq := h.eq hneeds
    have heq' := h'.eq hneeds
    omega

theorem Accounts.of_dropped (hd : User.Dropped κ m w w') (h : after + m = before + given) :
    Accounts u κ before w after w' given := by
  have hgone := hd.gone
  have hmade := hd.made
  constructor
  · omega
  · intro _
    omega

theorem Accounts.of_drained (hd : Drained u κ m w w') (h : after + m = before + given) :
    Accounts u κ before w after w' given := by
  have hmade := hd.made
  constructor
  · have hle := hd.le
    omega
  · intro hneeds
    have heq := hd.eq hneeds
    omega

theorem Accounts.of_ledger (hl : w'.ledger = w.ledger) (h : after = before + given) :
    Accounts u κ before w after w' given := by
  apply Accounts.of_dropped (m := 0) ⟨_, _⟩ h
  · rw [hl, Nat.add_zero]
  · rw [hl]

def yielded (κ : K ⊕ V → Nat) : Except Panic (Option (K × V)) → Nat
  | .ok (some e) => weighEntry κ e
  | _ => 0

theorem dropped_yield (w : World W K V) (r : Except Panic (Option (K × V))) :
    User.Dropped κ (yielded κ r) w (w.yield r) := by
  rcases r with p | _ | e
  · exact Gains.refl _
  · exact Gains.refl _
  · constructor
    · simp only [World.yield, World.logHanded, gone, weigh_cons, yielded, weighEntry]
      omega
    · rfl

end Accounting

end HashMap

end Opthash
