import Opthash.Lib.Exec

namespace Opthash

def usizeMax : Nat := 2 ^ 64 - 1
def isizeMax : Nat := 2 ^ 63 - 1
def u32Max : Nat := 2 ^ 32 - 1

def checkedUsize (n : Nat) : Option Nat := if n ≤ usizeMax then some n else none
def saturatingUsize (n : Nat) : Nat := min n usizeMax

theorem checkedUsize_spec {n m : Nat} (h : checkedUsize n = some m) : m = n ∧ n ≤ usizeMax := by
  simp only [checkedUsize] at h
  split at h <;> cases h
  exact ⟨rfl, by assumption⟩

/-- `counter += 1` and `counter -= 1` of a counter whose largest value is `m`, wrapping. -/
def wrappingInc (m n : Nat) : Nat := if n = m then 0 else n + 1
def wrappingDec (m n : Nat) : Nat := if n = 0 then m else n - 1

theorem wrappingDec_of_pos {m n : Nat} (h : 0 < n) : wrappingDec m n = n - 1 := if_neg (Nat.ne_of_gt h)

inductive GroupBackend
  | scalar
  | neon
  | sse2
  deriving DecidableEq, Repr

namespace GroupBackend

def groupSize : GroupBackend → Nat
  | scalar => 8
  | neon => 8
  | sse2 => 16

def initialCapacity : GroupBackend → Nat
  | scalar => 8
  | neon => 16
  | sse2 => 16

theorem groupSize_pos (g : GroupBackend) : 0 < g.groupSize := by cases g <;> decide

theorem groupSize_le (g : GroupBackend) : g.groupSize ≤ 16 := by cases g <;> decide

theorem initialCapacity_pos (g : GroupBackend) : 0 < g.initialCapacity := by cases g <;> decide

end GroupBackend

structure Layout where
  size : Nat
  align : Nat
  deriving DecidableEq, Repr

/-- Why a call unwinds. `alloc` is `handle_alloc_error`; `abort` is a panic raised while unwinding. -/
inductive Panic
  | user
  | internal (message : String)
  | alloc
  | abort
  deriving DecidableEq, Repr

namespace Panic

def capacityOverflow : Panic := internal "capacity overflow"
def constructedLayout : Panic := internal "constructed Funnel layout"

def cloneAllocation (error : String) : Panic := internal ("Funnel clone allocation failed: " ++ error)

/-- The table would not fit: an overflowing capacity or layout, or a refused allocation. -/
inductive Exhausted : Panic → Prop
  | capacity : Exhausted capacityOverflow
  | layout : Exhausted constructedLayout
  | clone (error : String) : Exhausted (cloneAllocation error)
  | alloc : Exhausted .alloc

end Panic

/-- The code a table is instantiated with. A call of it moves a state of its own and may panic. -/
structure User (W K V : Type) where
  hashOne : K → Exec Unit W UInt64
  equivalent : K → K → Exec Unit W Bool
  cloneKey : K → Exec Unit W K
  cloneValue : V → Exec Unit W V
  cloneBuilder : Exec Unit W Unit
  dropKey : K → Exec Unit W Unit
  dropValue : V → Exec Unit W Unit
  needsDrop : Bool
  slotSize : Nat
  slotAlign : Nat
  allocate : Layout → W → Bool × W

/-- What became of the keys and values that left the tables, and which ones were made by cloning. -/
structure Ledger (K V : Type) where
  dropped : List (K ⊕ V)
  handed : List (K ⊕ V)
  created : List (K ⊕ V)
  deriving DecidableEq

structure World (W K V : Type) where
  code : W
  ledger : Ledger K V

namespace World

variable {W K V α : Type}

def call (c : Exec Unit W α) : Exec Panic (World W K V) α := fun w =>
  match c w.code with
  | (.ok a, code) => (.ok a, { w with code })
  | (.error _, code) => (.error .user, { w with code })

def logDropped (x : K ⊕ V) (w : World W K V) : World W K V :=
  { w with ledger := { w.ledger with dropped := x :: w.ledger.dropped } }

def logHanded (x : K ⊕ V) (w : World W K V) : World W K V :=
  { w with ledger := { w.ledger with handed := x :: w.ledger.handed } }

def logCreated (x : K ⊕ V) (w : World W K V) : World W K V :=
  { w with ledger := { w.ledger with created := x :: w.ledger.created } }

end World

variable {W K V T α : Type}

abbrev Run (T W K V : Type) : Type → Type := Exec Panic (T × World W K V)

namespace User

variable (u : User W K V)

def hash (k : K) : Exec Panic (World W K V) UInt64 := World.call (u.hashOne k)

def eq (q k : K) : Exec Panic (World W K V) Bool := World.call (u.equivalent q k)

def dropK (k : K) : Exec Panic (World W K V) Unit := do
  Exec.modify (World.logDropped (.inl k))
  World.call (u.dropKey k)

def dropV (v : V) : Exec Panic (World W K V) Unit := do
  Exec.modify (World.logDropped (.inr v))
  World.call (u.dropValue v)

/-- Drop glue of a pair: the value drops even when the key's destructor panics. -/
def dropEntry (e : K × V) : Exec Panic (World W K V) Unit := do
  Exec.guarded .abort (u.dropK e.1) (u.dropV e.2)
  u.dropV e.2

/-- Runs the part of a function that may unwind while it owns a key and a value. -/
def owned (k : K) (v : V) (c : Run T W K V α) : Run T W K V α :=
  Exec.guarded .abort c (Exec.onSnd (u.dropEntry (k, v)))

def cloneK (k : K) : Exec Panic (World W K V) K := do
  let k' ← World.call (u.cloneKey k)
  Exec.modify (World.logCreated (.inl k'))
  pure k'

def cloneV (v : V) : Exec Panic (World W K V) V := do
  let v' ← World.call (u.cloneValue v)
  Exec.modify (World.logCreated (.inr v'))
  pure v'

/-- The derived `Clone` of an entry: the cloned key drops when the value's `clone` panics. -/
def cloneEntry (e : K × V) : Exec Panic (World W K V) (K × V) := do
  let k ← u.cloneK e.1
  let v ← Exec.guarded .abort (u.cloneV e.2) (u.dropK k)
  pure (k, v)

def alloc (layout : Layout) : Exec Panic (World W K V) Bool := fun w =>
  (.ok (u.allocate layout w.code).1, { w with code := (u.allocate layout w.code).2 })

end User

def handK (k : K) : Exec Panic (World W K V) Unit := Exec.modify (World.logHanded (.inl k))

def handV (v : V) : Exec Panic (World W K V) Unit := Exec.modify (World.logHanded (.inr v))

def handEntry (e : K × V) : Exec Panic (World W K V) Unit := do
  handK e.1
  handV e.2

end Opthash
