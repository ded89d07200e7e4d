import Opthash.Lib.Lending
import Opthash.Map

namespace Opthash.HashMap

open Lending Sessions

variable {W K V : Type} (b : TableBackend W K V)

/-- `Iter`, beside the table that it borrows. -/
structure Iter where
  scan : b.Scan
  remaining : Nat

abbrev IterMut : Type := Iter b
abbrev Drain : Type := Iter b

def iterMut (t : b.Table) : IterMut b := ⟨b.scan t, b.len t⟩

def drainOf (t : b.Table) : Drain b := ⟨b.scan t, b.len t⟩

/-- `IterMut::next`; the location stands for the references to its key and value. -/
def IterMut.next : Exec Panic (IterMut b × b.Table × World W K V) (Option b.Location) := do
  let (i, t, _) ← Exec.get
  match b.scanNext t i.scan with
  | (none, scan) => do
    Exec.modify fun s => ({ s.1 with scan }, s.2)
    pure none
  | (some loc, scan) => do
    Exec.modify fun s => (⟨scan, wrappingDec usizeMax s.1.remaining⟩, s.2)
    pure (some loc)

def Drain.next : Exec Panic (Drain b × b.Table × World W K V) (Option (K × V)) := do
  match ← IterMut.next b with
  | none => pure none
  | some loc => do
    let entry ← Exec.onSnd (slotEntry b loc)
    Exec.modify fun s => (s.1, b.tombstoneSlot loc s.2.1, s.2.2)
    pure (some entry)

/-- What `view` shows: a clone of the scan runs to its end. -/
def Iter.view (i : Iter b) : Step b (List (K × V)) := do
  let (t, _) ← Exec.get
  iterFrom b (b.totalSlots t + 1) i.scan

def useIterMut : Use V → Exec Panic (List b.Location × IterMut b × b.Table × World W K V) (Shown K V)
  | .look .next => do
    match ← Exec.onSnd (IterMut.next b) with
    | none => pure (.entry none)
    | some loc => do
      Exec.modify fun s => (s.1 ++ [loc], s.2)
      let entry ← Exec.onSnd (Exec.onSnd (slotEntry b loc))
      pure (.entry (some entry))
  | .look .view => do
    let (_, i, _) ← Exec.get
    .entries <$> Exec.onSnd (Exec.onSnd (i.view b))
  | .look .len => do
    let (_, i, _) ← Exec.get
    pure (.count i.remaining)
  | .read i => do
    let (lent, _) ← Exec.get
    match lent[i]? with
    | none => pure (.entry none)
    | some loc => (fun entry => .entry (some entry)) <$> Exec.onSnd (Exec.onSnd (slotEntry b loc))
  | .replace i v => do
    let (lent, _) ← Exec.get
    match lent[i]? with
    | none => pure (.entry none)
    | some loc => do
      let entry ← Exec.onSnd (Exec.onSnd (slotEntry b loc))
      Exec.modify fun s => (s.1, s.2.1, b.writeValue loc entry.1 v s.2.2.1, s.2.2.2)
      pure (.entry (some entry))

/-- A session of `iter_mut`, at the end of which the iterator and the references are gone. -/
def withIterMut (uses : List (Use V)) : Step b (List (Shown K V)) := do
  let (t, _) ← Exec.get
  let (shown, _) ← Exec.withLocal (iterMut b t) do
    let (shown, _) ← Exec.withLocal ([] : List b.Location) (session (useIterMut b) uses)
    pure shown
  pure shown

def lookDrain : Look → Exec Panic (Drain b × b.Table × World W K V) (Shown K V)
  | .next => .entry <$> Drain.next b
  | .view => do
    let (i, _) ← Exec.get
    .entries <$> Exec.onSnd (i.view b)
  | .len => do
    let (i, _) ← Exec.get
    pure (.count i.remaining)

def lookIntoIter : Look → Exec Panic (IntoIter b × World W K V) (Shown K V)
  | .next => .entry <$> IntoIter.next b
  | .view => do
    let (i, _) ← Exec.get
    .entries <$> Exec.zoom (fun s => (s.1.table, s.2)) (fun r s => ({ s.1 with table := r.1 }, r.2))
      (Iter.view b ⟨i.scan, i.remaining⟩)
  | .len => do
    let (i, _) ← Exec.get
    pure (.count i.remaining)

end Opthash.HashMap
