import Opthash.Raw.Arena

namespace Opthash

structure Rebuildable (T G K V : Type) where
  padded : Bool
  swapGeneration : T → G → T × G
  regions : G → List (Region (K × V))
  placeUnique : K × V → UInt64 → Exec Panic T Bool

namespace Rebuildable

variable {W T G K V : Type}

def moveRegion (group : GroupBackend) (b : Rebuildable T G K V) (u : User W K V)
    (exceptional : Bool) (region : Region (K × V)) : Run T W K V Bool :=
  forOccupied group b.padded (fun _ => region)
    (fun exceptional slot => do
      let entry ← region.getRef slot
      let keyHash ← Exec.onSnd (u.hash entry.1)
      let outside ← Exec.onFst (b.placeUnique entry keyHash)
      pure (exceptional || outside))
    exceptional

/-- Installs `next` and moves every entry into it; unwinding puts the old generation back. -/
def rebuild (group : GroupBackend) (b : Rebuildable T G K V) (u : User W K V) (next : G) :
    Run T W K V Bool := do
  let (table, _) ← Exec.get
  let previous := (b.swapGeneration table next).2
  Exec.modify (fun s => ((b.swapGeneration s.1 next).1, s.2))
  Exec.guarded .abort
    ((b.regions previous).foldlM (moveRegion group b u) false)
    (Exec.modify (fun s => ((b.swapGeneration s.1 previous).1, s.2)))

end Rebuildable

end Opthash
