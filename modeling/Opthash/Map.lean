import Opthash.Reserve

namespace Opthash

structure TableBackend (W K V : Type) where
  Table : Type
  Location : Type
  Vacant : Type
  Scan : Type
  len : Table → Nat
  capacity : Table → Nat
  totalSlots : Table → Nat
  reserveConfig : Table → ReserveFraction
  slotRef : Table → Location → Option (K × V)
  writeValue : Location → K → V → Table → Table
  find : K → UInt64 → Run Table W K V (Option Location)
  findForEntry : K → UInt64 → Run Table W K V (Location ⊕ Vacant)
  insertForVacant : K → V → Vacant → Run Table W K V Location
  insert : K → V → UInt64 → Run Table W K V (Option V)
  remove : Location → Run Table W K V (K × V)
  tombstoneSlot : Location → Table → Table
  extractFinish : Location → Table → Table
  finishDeferredRemovals : Run Table W K V Unit
  scan : Table → Scan
  scanNext : Table → Scan → Option Location × Scan
  growCapacityFor : Table → Nat → Option Nat
  resize : Nat → Run Table W K V Unit
  tryResize : Nat → Run Table W K V (Except TryReserveError Unit)
  shrinkTo : Nat → Run Table W K V Unit
  clear : Run Table W K V Unit
  wipeAll : Table → Table
  cloneTable : Table → Exec Panic (World W K V) Table
  dropTable : Table → Exec Panic (World W K V) Unit

/-- A stateful `FnMut(&K, &mut V) -> bool`: from the pairs it saw before and the pair it is shown, the
value it leaves behind and its answer, `none` when it panics. -/
abbrev Predicate (K V : Type) : Type := List (K × V) → K × V → V × Option Bool

def Predicate.not {K V : Type} (f : Predicate K V) : Predicate K V := fun seen e =>
  ((f seen e).1, (f seen e).2.map (!·))

structure ExtractScan (S K V : Type) where
  scan : S
  finished : Bool
  seen : List (K × V)

namespace HashMap

variable {W K V : Type} (b : TableBackend W K V) (u : User W K V)

abbrev Step (α : Type) : Type := Run b.Table W K V α

def slotEntry (loc : b.Location) : Step b (K × V) := do
  let (t, _) ← Exec.get
  Exec.expect (.internal "read of an uninitialised slot") (b.slotRef t loc)

def findLocation (key : K) : Step b (Option b.Location) := do
  let hash ← Exec.onSnd (u.hash key)
  b.find key hash

def insert (key : K) (value : V) : Step b (Option V) := do
  let hash ← u.owned key value (Exec.onSnd (u.hash key))
  b.insert key value hash

def getKeyValue (key : K) : Step b (Option (K × V)) := do
  match ← findLocation b u key with
  | some loc => some <$> slotEntry b loc
  | none => pure none

def get (key : K) : Step b (Option V) := do
  let entry ← getKeyValue b u key
  pure (entry.map Prod.snd)

def containsKey (key : K) : Step b Bool := do
  let loc ← findLocation b u key
  pure loc.isSome

/-- `get_mut`, and the value the caller leaves behind the reference. -/
def getMut (key : K) (f : V → V) : Step b (Option V) := do
  match ← findLocation b u key with
  | some loc => do
    let entry ← slotEntry b loc
    Exec.modify fun s => (b.writeValue loc entry.1 (f entry.2) s.1, s.2)
    pure (some entry.2)
  | none => pure none

def removeEntry (key : K) : Step b (Option (K × V)) := do
  match ← findLocation b u key with
  | some loc => some <$> b.remove loc
  | none => pure none

/-- The removed key drops, and takes the value with it when its destructor panics. -/
def remove (key : K) : Step b (Option V) := do
  match ← removeEntry b u key with
  | some entry => do
    Exec.onSnd (Exec.guarded .abort (u.dropK entry.1) (u.dropV entry.2))
    pure (some entry.2)
  | none => pure none

/-- `entry(key).or_insert(default)`: the value the returned reference shows. -/
def entryOrInsert (key : K) (default : V) : Step b V := do
  let found ← u.owned key default do
    let hash ← Exec.onSnd (u.hash key)
    b.findForEntry key hash
  match found with
  | .inl loc => do
    Exec.onSnd (Exec.guarded .abort (u.dropK key) (u.dropV default))
    Exec.onSnd (u.dropV default)
    let entry ← slotEntry b loc
    pure entry.2
  | .inr vacant => do
    let loc ← b.insertForVacant key default vacant
    let entry ← slotEntry b loc
    pure entry.2

/-- `Err` hands the value back beside the occupied entry's. -/
def tryInsert (key : K) (value : V) : Step b (Except (K × V) V) := do
  let found ← u.owned key value do
    let hash ← Exec.onSnd (u.hash key)
    b.findForEntry key hash
  match found with
  | .inl loc => do
    Exec.onSnd (Exec.guarded .abort (u.dropK key) (u.dropV value))
    let entry ← slotEntry b loc
    pure (.error entry)
  | .inr vacant => do
    let loc ← b.insertForVacant key value vacant
    let entry ← slotEntry b loc
    pure (.ok entry.2)

/-- The search of `get_or_insert_key_with`, and what its closure returns, `none` when it panics. -/
def searchOrMake (key : K) (make : Option K) : Step b (b.Location ⊕ K × b.Vacant) := do
  let hash ← Exec.onSnd (u.hash key)
  match ← b.findForEntry key hash with
  | .inl loc => pure (.inl loc)
  | .inr vacant => do
    let made ← Exec.expect .user make
    pure (.inr (made, vacant))

def getOrInsertWith (key : K) (value : V) (make : Option K) : Step b K := do
  match ← Exec.guarded .abort (searchOrMake b u key make) (Exec.onSnd (u.dropV value)) with
  | .inl loc => do
    Exec.onSnd (u.dropV value)
    let entry ← slotEntry b loc
    pure entry.1
  | .inr (made, vacant) => do
    let loc ← b.insertForVacant made value vacant
    let entry ← slotEntry b loc
    pure entry.1

/-- The loop of `next_matching`; a scan visits each slot at most once. -/
def nextMatchingFrom (pred : Predicate K V) :
    Nat → Exec Panic (ExtractScan b.Scan K V × b.Table × World W K V) (Option (K × V))
  | 0 => pure none
  | fuel + 1 => do
    let (x, t, _) ← Exec.get
    match b.scanNext t x.scan with
    | (none, scan) => do
      Exec.modify fun s => ({ s.1 with scan, finished := true }, s.2)
      Exec.onSnd b.finishDeferredRemovals
      pure none
    | (some loc, scan) => do
      Exec.modify fun s => ({ s.1 with scan }, s.2)
      let entry ← Exec.onSnd (slotEntry b loc)
      let (value, answer) := pred x.seen entry
      Exec.modify fun s =>
        ({ s.1 with seen := s.1.seen ++ [entry] }, b.writeValue loc entry.1 value s.2.1, s.2.2)
      let matched ← Exec.expect .user answer
      if matched then do
        Exec.modify fun s => (s.1, b.extractFinish loc s.2.1, s.2.2)
        pure (some (entry.1, value))
      else nextMatchingFrom pred fuel

def nextMatching (pred : Predicate K V) :
    Exec Panic (ExtractScan b.Scan K V × b.Table × World W K V) (Option (K × V)) := do
  let (x, t, _) ← Exec.get
  if x.finished then pure none else nextMatchingFrom b pred (b.totalSlots t + 1)

def dropExtractScan : Exec Panic (ExtractScan b.Scan K V × b.Table × World W K V) Unit := do
  let (x, _) ← Exec.get
  if x.finished then pure () else Exec.onSnd b.finishDeferredRemovals

/-- Runs `body` over a fresh `ExtractScan`, which drops at the end and on unwinding. -/
def withExtractScan {α : Type} (body : Exec Panic (ExtractScan b.Scan K V × b.Table × World W K V) α) :
    Step b α := do
  let (t, _) ← Exec.get
  let (a, _) ← Exec.withLocal (⟨b.scan t, false, []⟩ : ExtractScan b.Scan K V) do
    let a ← Exec.guarded .abort body (dropExtractScan b)
    dropExtractScan b
    pure a
  pure a

/-- `next` called `n` times; the caller owns what it yields. -/
def yieldMatching (pred : Predicate K V) :
    Nat → Exec Panic (ExtractScan b.Scan K V × b.Table × World W K V) (List (K × V))
  | 0 => pure []
  | n + 1 => do
    match ← nextMatching b pred with
    | none => yieldMatching pred n
    | some entry => do
      Exec.onSnd (Exec.onSnd (handEntry entry))
      let rest ← yieldMatching pred n
      pure (entry :: rest)

def extractIf (pred : Predicate K V) (n : Nat) : Step b (List (K × V)) :=
  withExtractScan b (yieldMatching b pred n)

def dropMatching (pred : Predicate K V) :
    Nat → Exec Panic (ExtractScan b.Scan K V × b.Table × World W K V) Unit
  | 0 => pure ()
  | fuel + 1 => do
    match ← nextMatching b pred with
    | none => pure ()
    | some entry => do
      Exec.onSnd (Exec.onSnd (u.dropEntry entry))
      dropMatching pred fuel

def retain (f : Predicate K V) : Step b Unit := do
  let (t, _) ← Exec.get
  withExtractScan b (dropMatching b u f.not (b.totalSlots t + 1))

def drainNext : Exec Panic (b.Scan × b.Table × World W K V) (Option (K × V)) := do
  let (scan, t, _) ← Exec.get
  match b.scanNext t scan with
  | (none, scan) => do
    Exec.modify fun s => (scan, s.2)
    pure none
  | (some loc, scan) => do
    Exec.modify fun s => (scan, s.2)
    let entry ← Exec.onSnd (slotEntry b loc)
    Exec.modify fun s => (s.1, b.tombstoneSlot loc s.2.1, s.2.2)
    pure (some entry)

def yieldDrained : Nat → Exec Panic (b.Scan × b.Table × World W K V) (List (K × V))
  | 0 => pure []
  | n + 1 => do
    match ← drainNext b with
    | none => yieldDrained n
    | some entry => do
      Exec.onSnd (Exec.onSnd (handEntry entry))
      let rest ← yieldDrained n
      pure (entry :: rest)

def dropDrained : Nat → Exec Panic (b.Scan × b.Table × World W K V) Unit
  | 0 => pure ()
  | fuel + 1 => do
    match ← drainNext b with
    | none => pure ()
    | some entry => do
      Exec.onSnd (Exec.onSnd (u.dropEntry entry))
      dropDrained fuel

/-- `Drop for Drain`: drops what is left, then wipes the table. -/
def dropDrain : Exec Panic (b.Scan × b.Table × World W K V) Unit := do
  let (_, t, _) ← Exec.get
  dropDrained b u (b.totalSlots t + 1)
  Exec.modify fun s => (s.1, b.wipeAll s.2.1, s.2.2)

/-- A `Drain` that yields up to `n` entries and drops. -/
def drain (n : Nat) : Step b (List (K × V)) := do
  let (t, _) ← Exec.get
  let (entries, _) ← Exec.withLocal (b.scan t) do
    let entries ← yieldDrained b n
    dropDrain b u
    pure entries
  pure entries

/-- A `Drain` that yields up to `n` entries and is forgotten. -/
def leakDrain (n : Nat) : Step b (List (K × V)) := do
  let (t, _) ← Exec.get
  let (entries, _) ← Exec.withLocal (b.scan t) (yieldDrained b n)
  pure entries

def leakExtractIf (pred : Predicate K V) (n : Nat) : Step b (List (K × V)) := do
  let (t, _) ← Exec.get
  let (entries, _) ← Exec.withLocal (⟨b.scan t, false, []⟩ : ExtractScan b.Scan K V)
    (yieldMatching b pred n)
  pure entries

def iterFrom : Nat → b.Scan → Step b (List (K × V))
  | 0, _ => pure []
  | fuel + 1, scan => do
    let (t, _) ← Exec.get
    match b.scanNext t scan with
    | (none, _) => pure []
    | (some loc, scan) => do
      let entry ← slotEntry b loc
      let rest ← iterFrom fuel scan
      pure (entry :: rest)

def iter : Step b (List (K × V)) := do
  let (t, _) ← Exec.get
  iterFrom b (b.totalSlots t + 1) (b.scan t)

structure IntoIter where
  table : b.Table
  scan : b.Scan
  remaining : Nat

def intoIter (t : b.Table) : IntoIter b := ⟨t, b.scan t, b.len t⟩

/-- `IntoIter::next`: an entry that is moved out leaves a tombstone, so that the table will not drop it. -/
def IntoIter.next : Exec Panic (IntoIter b × World W K V) (Option (K × V)) := do
  let (i, _) ← Exec.get
  match b.scanNext i.table i.scan with
  | (none, scan) => do
    Exec.modify fun s => ({ s.1 with scan }, s.2)
    pure none
  | (some loc, scan) => do
    Exec.modify fun s => ({ s.1 with scan, remaining := wrappingDec usizeMax s.1.remaining }, s.2)
    let entry ← Exec.expect (.internal "read of an uninitialised slot") (b.slotRef i.table loc)
    Exec.modify fun s => ({ s.1 with table := b.tombstoneSlot loc s.1.table }, s.2)
    pure (some entry)

def len : Step b Nat := do
  let (t, _) ← Exec.get
  pure (b.len t)

def reserve (additional : Nat) : Step b Unit := do
  let (t, _) ← Exec.get
  let needed := saturatingUsize (b.len t + additional)
  if needed ≤ b.capacity t then pure ()
  else do
    let newCapacity ← Exec.expect .capacityOverflow (b.growCapacityFor t needed)
    b.resize newCapacity

def tryReserve (additional : Nat) : Step b (Except TryReserveError Unit) := do
  let (t, _) ← Exec.get
  match checkedUsize (b.len t + additional) with
  | none => pure (.error .capacityOverflow)
  | some needed =>
    if needed ≤ b.capacity t then pure (.ok ())
    else match b.growCapacityFor t needed with
    | none => pure (.error .capacityOverflow)
    | some newCapacity => b.tryResize newCapacity

/-- `*self = self.clone()`: the old table drops once the clone is complete. -/
def clone : Step b Unit := do
  let (t, _) ← Exec.get
  let cloned ← Exec.onSnd (b.cloneTable t)
  Exec.modify fun s => (cloned, s.2)
  Exec.onSnd (b.dropTable t)

end HashMap

end Opthash
