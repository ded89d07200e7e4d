import Opthash.Lib.Sessions
import Opthash.Lib.Views
import Opthash.Map

namespace Opthash.HashMap

open FiniteMap Sessions

variable {W K V : Type} (b : TableBackend W K V) (u : User W K V)

/-- A view of one key of a map that it borrows. -/
inductive Entry
  | occupied (loc : b.Location)
  | vacant (key : K) (vacant : b.Vacant)

/-- `entry`; the key drops when its search unwinds or finds an equal one. -/
def entry (key : K) : Step b (Entry b) := do
  let found ← Exec.guarded .abort (do
    let hash ← Exec.onSnd (u.hash key)
    b.findForEntry key hash) (Exec.onSnd (u.dropK key))
  match found with
  | .inl loc => do
    Exec.onSnd (u.dropK key)
    pure (.occupied loc)
  | .inr token => pure (.vacant key token)

namespace OccupiedEntry

variable (loc : b.Location)

def key : Step b K := Prod.fst <$> slotEntry b loc

def get : Step b V := Prod.snd <$> slotEntry b loc

/-- A use of `get_mut`, which may panic once it has written. -/
def getMut (f : V → V × Bool) : Step b Unit := do
  let entry ← slotEntry b loc
  Exec.modify fun s => (b.writeValue loc entry.1 (f entry.2).1 s.1, s.2)
  Exec.expect .user (if (f entry.2).2 then some () else none)

def insert (value : V) : Step b V := do
  let entry ← slotEntry b loc
  Exec.modify fun s => (b.writeValue loc entry.1 value s.1, s.2)
  pure entry.2

def removeEntry : Step b (K × V) := b.remove loc

/-- The removed key drops, and takes the value with it when its destructor panics. -/
def remove : Step b V := do
  let entry ← removeEntry b loc
  Exec.onSnd (Exec.guarded .abort (u.dropK entry.1) (u.dropV entry.2))
  pure entry.2

end OccupiedEntry

def VacantEntry.insertEntry (key : K) (vacant : b.Vacant) (value : V) : Step b b.Location :=
  b.insertForVacant key value vacant

/-- `or_insert_with_key`, of which `or_insert`, `or_insert_with` and `or_default` are instances; the location stands
for the reference to the value. -/
def Entry.orInsertWithKey (f : K → Option V) : Entry b → Step b b.Location
  | .occupied loc => pure loc
  | .vacant key token => do
    let value ← Exec.guarded .abort (Exec.expect .user (f key)) (Exec.onSnd (u.dropK key))
    VacantEntry.insertEntry b key token value

def Entry.andModify (f : V → V × Bool) : Entry b → Step b (Entry b)
  | .occupied loc => do
    OccupiedEntry.getMut b loc f
    pure (.occupied loc)
  | .vacant key token => pure (.vacant key token)

def Entry.key : Entry b → Step b K
  | .occupied loc => OccupiedEntry.key b loc
  | .vacant key _ => pure key

/-- A call on an entry, and the entry after it, `none` once it is consumed. A call its variant does not have does
nothing. -/
def Entry.call : Entry b → Call K V → Step b (Reply K V × Option (Entry b))
  | e, .key => do
    let key ← Entry.key b e
    pure ((some key, none), some e)
  | .occupied loc, .get => do
    let value ← OccupiedEntry.get b loc
    pure ((none, some value), some (.occupied loc))
  | e, .modify f => do
    let e ← Entry.andModify b f e
    pure ((none, none), some e)
  | .occupied loc, .insert value => do
    let old ← OccupiedEntry.insert b loc value
    pure ((none, some old), some (.occupied loc))
  | .vacant key token, .insert value => do
    let loc ← VacantEntry.insertEntry b key token value
    pure ((none, none), some (.occupied loc))
  | e, .orInsert f => do
    let loc ← Entry.orInsertWithKey b u f e
    let value ← OccupiedEntry.get b loc
    pure ((none, some value), some (.occupied loc))
  | .occupied loc, .remove => do
    let value ← OccupiedEntry.remove b u loc
    pure ((none, some value), none)
  | .occupied loc, .removeEntry => do
    let entry ← OccupiedEntry.removeEntry b loc
    pure ((some entry.1, some entry.2), none)
  | e, .intoKey => do
    let key ← Entry.key b e
    pure ((some key, none), none)
  | .vacant key token, _ => pure ((none, none), some (.vacant key token))

def callEntry (c : Call K V) : Exec Panic (Option (Entry b) × b.Table × World W K V) (Reply K V) := do
  let (e, _) ← Exec.get
  match e with
  | none => pure (none, none)
  | some e => do
    let (reply, e) ← Exec.onSnd (Entry.call b u e c)
    Exec.modify fun s => (e, s.2)
    pure reply

def dropView : Exec Panic (Option (Entry b) × b.Table × World W K V) Unit := do
  let (e, _) ← Exec.get
  match e with
  | some (.vacant key _) => Exec.onSnd (Exec.onSnd (u.dropK key))
  | _ => pure ()

def entryChain (key : K) (calls : List (Call K V)) : Step b (List (Reply K V)) := do
  let e ← entry b u key
  let (replies, _) ← Exec.withLocal (some e) do
    let replies ← session (callEntry b u) calls
    dropView b u
    pure replies
  pure replies

end Opthash.HashMap
