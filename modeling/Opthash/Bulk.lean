import Opthash.Lib.Puts
import Opthash.Backends

namespace Opthash.HashMap

variable {W K V : Type} (b : TableBackend W K V) (u : User W K V)

/-- An iterator of the caller: the lower bound of its size hint, which need not be right, what it yields, and whether
it then ends or panics. -/
structure Source (K V : Type) where
  hint : Nat
  items : List (K × V)
  ends : Bool

/-- The loop of `extend`; a value that is replaced drops. -/
def insertAll : List (K × V) → Step b Unit
  | [] => pure ()
  | (key, value) :: items => do
    match ← insert b u key value with
    | none => pure ()
    | some old => Exec.onSnd (u.dropV old)
    insertAll items

def extend (source : Source K V) : Step b Unit := do
  reserve b source.hint
  insertAll b u source.items
  Exec.expect .user (if source.ends then some () else none)

/-- `from_iter`, with the constructor `withCapacity` of the map; a map that `extend` unwinds out of drops. -/
def fromIter (withCapacity : Nat → Exec Panic (World W K V) b.Table) (source : Source K V) :
    Exec Panic (World W K V) b.Table := do
  let t ← withCapacity source.hint
  let (_, t) ← Exec.withLocal t (Exec.guarded .abort (extend b u source) do
    let (t, _) ← Exec.get
    Exec.onSnd (b.dropTable t))
  pure t

/-- `From<[(K, V); N]>`. -/
def fromArray (withCapacity : Nat → Exec Panic (World W K V) b.Table) (entries : List (K × V)) :
    Exec Panic (World W K V) b.Table := fromIter b u withCapacity ⟨entries.length, entries, true⟩

end Opthash.HashMap

namespace Opthash.Funnel

open FunnelTable

variable {W K V : Type} (group : GroupBackend) (u : User W K V)

def withCapacityAndReserve (capacity : Nat) (r : ReserveFraction) : Exec Panic (World W K V) (FunnelTable K V) := do
  match ← tryWithInsertBudget group u capacity r with
  | .error _ => Exec.raise (.internal "invalid Funnel construction")
  | .ok t => pure t

end Opthash.Funnel
