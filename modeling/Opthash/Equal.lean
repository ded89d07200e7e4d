import Opthash.Map

namespace Opthash.HashMap

variable {W K V : Type} (b b' : TableBackend W K V) (u' : User W K V) (eqValue : V → V → Exec Unit W Bool)

def allMatch : Nat → b.Scan → Exec Panic (b.Table × b'.Table × World W K V) Bool
  | 0, _ => pure true
  | fuel + 1, scan => do
    let (t, _, _) ← Exec.get
    match b.scanNext t scan with
    | (none, _) => pure true
    | (some loc, scan) => do
      let entry ← Exec.expect (.internal "read of an uninitialised slot") (b.slotRef t loc)
      match ← Exec.onSnd (get b' u' entry.1) with
      | none => pure false
      | some value => do
        let same ← Exec.onSnd (Exec.onSnd (World.call (eqValue entry.2 value)))
        if same then allMatch fuel scan else pure false

def eq : Exec Panic (b.Table × b'.Table × World W K V) Bool := do
  let (t, t', _) ← Exec.get
  if b.len t = b'.len t' then allMatch b b' u' eqValue (b.totalSlots t + 1) (b.scan t) else pure false

/-- `map[key]`. -/
def index (u : User W K V) (key : K) : Step b V := do
  let value ← get b u key
  Exec.expect (.internal "no entry found for key") value

end Opthash.HashMap
