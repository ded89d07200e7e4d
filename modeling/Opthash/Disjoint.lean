import Opthash.Lib.References
import Opthash.Map

namespace Opthash.HashMap

open FiniteMap

variable {W K V σ L : Type} (b : TableBackend W K V) (u : User W K V)

def checkDisjointAliasing [DecidableEq L] : List (Option L) → Exec Panic σ Unit
  | [] => pure ()
  | none :: locations => checkDisjointAliasing locations
  | some loc :: locations =>
    if some loc ∈ locations then
      Exec.raise (.internal "get_disjoint_mut: duplicate keys resolve to the same entry")
    else checkDisjointAliasing locations

def locateDisjoint : List K → Step b (List (Option b.Location))
  | [] => pure []
  | key :: keys => do
    let location ← findLocation b u key
    let locations ← locateDisjoint keys
    pure (location :: locations)

/-- `get_disjoint_key_value_mut`; a location stands for the references to its key and value. -/
def getDisjointKeyValueMut [DecidableEq b.Location] (keys : List K) : Step b (List (Option b.Location)) := do
  let locations ← locateDisjoint b u keys
  checkDisjointAliasing locations
  pure locations

def getDisjointUncheckedMut (keys : List K) : Step b (List (Option b.Location)) := locateDisjoint b u keys

def access (locations : List (Option b.Location)) : Access V → Step b (Option (K × V))
  | .read i => match locations[i]?.join with
    | none => pure none
    | some loc => some <$> slotEntry b loc
  | .write i v => match locations[i]?.join with
    | none => pure none
    | some loc => do
      let entry ← slotEntry b loc
      Exec.modify fun s => (b.writeValue loc entry.1 v s.1, s.2)
      pure none

def accessAll (locations : List (Option b.Location)) : List (Access V) → Step b (List (Option (K × V)))
  | [] => pure []
  | a :: as => do
    let r ← access b locations a
    let rs ← accessAll locations as
    pure (r :: rs)

end Opthash.HashMap
