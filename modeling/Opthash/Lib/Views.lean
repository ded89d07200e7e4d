import Opthash.Lib.References

namespace Opthash.FiniteMap

variable {K V : Type}

/-- Where a view of one key stands: at an entry, whose key is the stored one, or at none. -/
inductive Place (K : Type)
  | occupied (key : K)
  | vacant (key : K)
  | gone
  deriving DecidableEq

/-- A call on a view. The function of `modify` says what it leaves behind and whether it returns, the one of
`orInsert` gives no value when it panics. -/
inductive Call (K V : Type)
  | key
  | get
  | modify (f : V → V × Bool)
  | insert (value : V)
  | orInsert (f : K → Option V)
  | remove
  | removeEntry
  | intoKey

abbrev Reply (K V : Type) : Type := Option K × Option V

variable (eqv : K → K → Bool)

def viewed (key : K) (m : List (K × V)) : List (K × V) × Place K :=
  (m, match find eqv key m with
    | some e => .occupied e.1
    | none => .vacant key)

def Place.value (m : List (K × V)) : Place K → Option V
  | .occupied key => (find eqv key m).map Prod.snd
  | _ => none

def Place.key : Place K → Option K
  | .occupied key => some key
  | .vacant key => some key
  | .gone => none

/-- What a call does to the finite map and to the view. -/
def view : List (K × V) × Place K → Call K V → Reply K V × List (K × V) × Place K
  | (m, p), .key => ((p.key, none), m, p)
  | (m, p), .get => ((none, p.value eqv m), m, p)
  | (m, .occupied key), .modify f => ((none, none), update eqv key (fun v => (f v).1) m, .occupied key)
  | (m, .occupied key), .insert value =>
    ((none, Place.value eqv m (.occupied key)), update eqv key (fun _ => value) m, .occupied key)
  | (m, .vacant key), .insert value => ((none, none), (key, value) :: m, .occupied key)
  | (m, .occupied key), .orInsert _ => ((none, Place.value eqv m (.occupied key)), m, .occupied key)
  | (m, .vacant key), .orInsert f => match f key with
    | some value => ((none, some value), (key, value) :: m, .occupied key)
    | none => ((none, none), m, .gone)
  | (m, .occupied key), .remove => ((none, Place.value eqv m (.occupied key)), erase eqv key m, .gone)
  | (m, .occupied key), .removeEntry =>
    ((some key, Place.value eqv m (.occupied key)), erase eqv key m, .gone)
  | (m, p), .intoKey => ((p.key, none), m, .gone)
  | (m, p), _ => ((none, none), m, p)

/-- What a call that unwinds leaves: an insertion the map as it was, another call what it was about to. -/
def left : List (K × V) × Place K → Call K V → List (K × V)
  | (m, .vacant _), _ => m
  | (m, p), c => (view eqv (m, p) c).2.1

def Call.MayPanic : Call K V → Prop
  | .modify f => ∃ v, (f v).2 = false
  | .orInsert f => ∃ k, f k = none
  | _ => False

variable {eqv} {m : List (K × V)} {key : K} {value : V}

theorem value_occupied (h : Equality eqv) (hd : Distinct eqv m) (he : (key, value) ∈ m) :
    Place.value eqv m (.occupied key) = some value := by
  rw [Place.value, find_eq_some h hd he (h.refl key)]
  rfl

end Opthash.FiniteMap
