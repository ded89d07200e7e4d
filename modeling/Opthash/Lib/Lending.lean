import Mathlib.Data.List.Perm.Basic
import Opthash.Lib.Sessions

namespace Opthash.Lending

open Sessions

variable {K V : Type}

/-- What is asked of an iterator that is underway: its next entry, a view of the rest, how many are left. -/
inductive Look
  | next
  | view
  | len
  deriving DecidableEq

/-- What the owner of the iterator and of the references it yields does: `replace` leaves a value behind the `i`th
reference and takes the one it finds. -/
inductive Use (V : Type)
  | look (l : Look)
  | read (i : Nat)
  | replace (i : Nat) (v : V)

inductive Shown (K V : Type)
  | entry (e : Option (K × V))
  | entries (es : List (K × V))
  | count (n : Nat)
  deriving DecidableEq

/-- The entries that were lent, each a cell of its own, and the ones still to come. -/
structure Loan (K V : Type) where
  lent : List (K × V)
  rest : List (K × V)
  remaining : Nat

namespace Loan

def look (l : Loan K V) : Look → Shown K V × Loan K V
  | .next => match l.rest with
    | [] => (.entry none, l)
    | e :: rest => (.entry (some e), ⟨l.lent ++ [e], rest, l.remaining - 1⟩)
  | .view => (.entries l.rest, l)
  | .len => (.count l.remaining, l)

def use (l : Loan K V) : Use V → Shown K V × Loan K V
  | .look a => l.look a
  | .read i => (.entry l.lent[i]?, l)
  | .replace i v => (.entry l.lent[i]?, { l with lent := l.lent.modify i fun e => (e.1, v) })

variable {l : Loan K V}

theorem look_next_nil (h : l.rest = []) : l.look .next = (.entry none, l) := by
  simp only [look, h]

theorem look_next_cons {e : K × V} {es : List (K × V)} (h : l.rest = e :: es) :
    l.look .next = (.entry (some e), ⟨l.lent ++ [e], es, l.remaining - 1⟩) := by
  simp only [look, h]

theorem map_fst_use (l : Loan K V) (a : Use V) :
    ((l.use a).2.lent ++ (l.use a).2.rest).map Prod.fst = (l.lent ++ l.rest).map Prod.fst := by
  cases a with
  | look a =>
    cases a with
    | next =>
      cases hrest : l.rest with
      | nil => rw [use, look_next_nil hrest, hrest]
      | cons e es => rw [use, look_next_cons hrest, List.append_assoc, List.singleton_append]
    | view => rfl
    | len => rfl
  | read i => rfl
  | replace i v =>
    have hlent : (l.lent.modify i fun e => (e.1, v)).map Prod.fst = l.lent.map Prod.fst := by
      apply List.ext_getElem?
      intro j
      rw [List.getElem?_map, List.getElem?_modify, List.getElem?_map]
      split <;> simp [Function.comp_def]
    simp only [use, List.map_append, hlent]

def nexts : List (Use V) → Nat
  | [] => 0
  | .look .next :: uses => nexts uses + 1
  | _ :: uses => nexts uses

theorem rest_answers (l : Loan K V) (uses : List (Use V)) :
    (answers use l uses).2.rest = l.rest.drop (nexts uses) := by
  induction uses generalizing l with
  | nil => rfl
  | cons a uses ih =>
    rw [answers, ih]
    cases a with
    | look a =>
      cases a with
      | next =>
        cases hrest : l.rest with
        | nil => rw [use, look_next_nil hrest, hrest, List.drop_nil, List.drop_nil]
        | cons e es => rw [use, look_next_cons hrest, nexts, List.drop_succ_cons]
      | view => rfl
      | len => rfl
    | read i => rfl
    | replace i v => rfl

theorem remaining_use {l : Loan K V} (h : l.remaining = l.rest.length) (a : Use V) :
    (l.use a).2.remaining = (l.use a).2.rest.length := by
  cases a with
  | look a =>
    cases a with
    | next =>
      cases hrest : l.rest with
      | nil => rw [use, look_next_nil hrest, h]
      | cons e es =>
        rw [use, look_next_cons hrest, h, hrest]
        rfl
    | view => exact h
    | len => exact h
  | read i => exact h
  | replace i v => exact h

end Loan

theorem perm_modify {α : Type} {xs : List α} {i : Nat} {x : α} (h : xs[i]? = some x) (f : α → α) :
    ∃ others, xs.Perm (x :: others) ∧ (xs.modify i f).Perm (f x :: others) := by
  obtain ⟨hi, rfl⟩ := List.getElem?_eq_some_iff.mp h
  refine ⟨xs.eraseIdx i, (List.getElem_cons_eraseIdx_perm hi).symm, ?_⟩
  have hset : xs.modify i f = xs.set i (f xs[i]) := by
    rw [List.modify_eq_set_getElem?, h]
    rfl
  rw [hset]
  exact List.set_perm_cons_eraseIdx hi _

end Opthash.Lending
