import Opthash.Lib.Exec

namespace Opthash

/-- An iterator over a state it shares: a step that yields or ends, and bounds on how much is left. -/
structure Iterator (ε σ I α : Type) where
  next : I → Exec ε σ (Option α × I)
  sizeHint : I → Nat × Option Nat

/-- `Chain`: an iterator that is exhausted is taken out. -/
structure Chain (I J : Type) where
  a : Option I
  b : Option J

def Bounds (hint : Nat × Option Nat) (n : Nat) : Prop := hint.1 ≤ n ∧ ∀ m, hint.2 = some m → n ≤ m

namespace Iterator

open Exec

variable {ε σ I J α : Type} (it : Iterator ε σ I α)

def take : Nat → I → Exec ε σ (List α × I)
  | 0, i => pure ([], i)
  | n + 1, i => do
    let (value, i) ← it.next i
    let (values, i) ← take n i
    pure (value.toList ++ values, i)

def find (p : α → Exec ε σ Bool) : Nat → I → Exec ε σ (Option α × I)
  | 0, i => pure (none, i)
  | fuel + 1, i => do
    match ← it.next i with
    | (none, i) => pure (none, i)
    | (some a, i) => do
      let found ← p a
      if found then pure (some a, i) else find p fuel i

def all (p : α → Exec ε σ Bool) : Nat → I → Exec ε σ Bool
  | 0, _ => pure true
  | fuel + 1, i => do
    match ← it.next i with
    | (none, _) => pure true
    | (some a, i) => do
      let holds ← p a
      if holds then all p fuel i else pure false

def forEach (body : α → Exec ε σ Unit) : Nat → I → Exec ε σ Unit
  | 0, _ => pure ()
  | fuel + 1, i => do
    match ← it.next i with
    | (none, _) => pure ()
    | (some a, i) => do
      body a
      forEach body fuel i

def chainHint (limit : Nat) : Option (Nat × Option Nat) → Option (Nat × Option Nat) → Nat × Option Nat
  | none, none => (0, some 0)
  | some h, none => h
  | none, some h => h
  | some (x, x'), some (y, y') =>
    (min (x + y) limit, x'.bind fun m => y'.bind fun n => if m + n ≤ limit then some (m + n) else none)

def nextOfB (g : Iterator ε σ J α) (c : Chain I J) : Exec ε σ (Option α × Chain I J) :=
  match c.b with
  | none => pure (none, c)
  | some j => do
    let (value, j) ← g.next j
    pure (value, { c with b := some j })

def chain (limit : Nat) (f : Iterator ε σ I α) (g : Iterator ε σ J α) : Iterator ε σ (Chain I J) α where
  next := fun c => match c.a with
    | none => nextOfB g c
    | some i => do
      match ← f.next i with
      | (none, _) => nextOfB g { c with a := none }
      | (some a, i) => pure (some a, { c with a := some i })
  sizeHint := fun c => chainHint limit (c.a.map f.sizeHint) (c.b.map g.sizeHint)

/-- What is `Left` is yielded in order, one value a step. A step keeps `P`, or raises within `Z`. -/
structure Lawful (P : σ → Prop) (Z : ε → Prop) (Left : I → List α → Prop) : Prop where
  next : ∀ {i xs s}, Left i xs → P s →
    wp (it.next i) (fun r s' => r.1 = xs.head? ∧ Left r.2 xs.tail ∧ P s') (fun e _ => Z e) s
  hint : ∀ {i xs}, Left i xs → Bounds (it.sizeHint i) xs.length

variable {it} {P : σ → Prop} {Z : ε → Prop} {Left : I → List α → Prop} {i : I} {xs : List α} {s : σ} {fuel : Nat}

theorem Lawful.take (h : it.Lawful P Z Left) (n : Nat) (hi : Left i xs) (hs : P s) :
    wp (it.take n i)
      (fun r s' => r.1 = xs.take n ∧ Left r.2 (xs.drop n) ∧ Bounds (it.sizeHint r.2) (xs.length - n) ∧ P s')
      (fun e _ => Z e) s := by
  induction n generalizing i xs s with
  | zero => exact ⟨List.take_zero.symm, hi, h.hint hi, hs⟩
  | succ n ih =>
    rw [Iterator.take, wp_bind]
    refine wp_mono (h.next hi hs) ?_ (fun _ _ => id)
    rintro ⟨value, i'⟩ s' ⟨hvalue, hi', hs'⟩
    rw [wp_bind]
    refine wp_mono (ih hi' hs') ?_ (fun _ _ => id)
    rintro ⟨values, i''⟩ s'' ⟨hvalues, hi'', hbounds, hs''⟩
    dsimp only at hvalue hvalues hi'' hbounds ⊢
    subst hvalue hvalues
    cases xs with
    | nil => exact ⟨List.take_nil, by simpa using hi'', by simpa using hbounds, hs''⟩
    | cons x xs => exact ⟨rfl, hi'', by simpa using hbounds, hs''⟩

theorem Lawful.find (h : it.Lawful P Z Left) {p : α → Exec ε σ Bool} {f : α → Bool}
    (hp : ∀ a s, P s → wp (p a) (fun found s' => found = f a ∧ P s') (fun e _ => Z e) s) (hi : Left i xs) (hs : P s)
    (hfuel : xs.length < fuel) :
    wp (it.find p fuel i)
      (fun r s' => r.1 = (xs.filter f).head? ∧ (∃ rest, Left r.2 rest ∧ rest.filter f = (xs.filter f).tail) ∧ P s')
      (fun e _ => Z e) s := by
  induction fuel generalizing i xs s with
  | zero => omega
  | succ fuel ih =>
    rw [Iterator.find, wp_bind]
    refine wp_mono (h.next hi hs) ?_ (fun _ _ => id)
    rintro ⟨value, i'⟩ s' ⟨hvalue, hi', hs'⟩
    dsimp only at hvalue
    subst hvalue
    cases xs with
    | nil => exact ⟨rfl, ⟨[], hi', rfl⟩, hs'⟩
    | cons a xs =>
      simp only [List.head?_cons]
      rw [wp_bind]
      refine wp_mono (hp a s' hs') ?_ (fun _ _ => id)
      rintro found s'' ⟨rfl, hs''⟩
      cases ha : f a with
      | true =>
        rw [if_pos rfl, wp_pure, List.filter_cons_of_pos ha]
        exact ⟨rfl, ⟨xs, hi', rfl⟩, hs''⟩
      | false =>
        rw [if_neg Bool.false_ne_true, List.filter_cons_of_neg (by rw [ha]; exact Bool.false_ne_true)]
        exact ih hi' hs'' (Nat.lt_of_succ_lt_succ hfuel)

theorem Lawful.all (h : it.Lawful P Z Left) {p : α → Exec ε σ Bool} {f : α → Bool}
    (hp : ∀ a s, P s → wp (p a) (fun holds s' => holds = f a ∧ P s') (fun e _ => Z e) s) (hi : Left i xs) (hs : P s)
    (hfuel : xs.length < fuel) :
    wp (it.all p fuel i) (fun r s' => r = xs.all f ∧ P s') (fun e _ => Z e) s := by
  induction fuel generalizing i xs s with
  | zero => omega
  | succ fuel ih =>
    rw [Iterator.all, wp_bind]
    refine wp_mono (h.next hi hs) ?_ (fun _ _ => id)
    rintro ⟨value, i'⟩ s' ⟨hvalue, hi', hs'⟩
    dsimp only at hvalue
    subst hvalue
    cases xs with
    | nil => exact ⟨rfl, hs'⟩
    | cons a xs =>
      simp only [List.head?_cons]
      rw [wp_bind]
      refine wp_mono (hp a s' hs') ?_ (fun _ _ => id)
      rintro holds s'' ⟨rfl, hs''⟩
      rw [List.all_cons]
      cases ha : f a with
      | true =>
        rw [if_pos rfl, Bool.true_and]
        exact ih hi' hs'' (Nat.lt_of_succ_lt_succ hfuel)
      | false =>
        rw [if_neg Bool.false_ne_true]
        exact ⟨rfl, hs''⟩

/-- The rule of a `for` loop: `K` holds of what is left and of the state. -/
theorem wp_forEach {body : α → Exec ε σ Unit} {K : List α → σ → Prop} {R : ε → σ → Prop}
    (h : ∀ xs, it.Lawful (K xs) (fun _ => False) Left)
    (hbody : ∀ a xs s, K (a :: xs) s → wp (body a) (fun _ s' => K xs s') R s) (hi : Left i xs) (hs : K xs s)
    (hfuel : xs.length < fuel) : wp (it.forEach body fuel i) (fun _ s' => K [] s') R s := by
  induction fuel generalizing i xs s with
  | zero => omega
  | succ fuel ih =>
    rw [Iterator.forEach, wp_bind]
    refine wp_mono ((h xs).next hi hs) ?_ (fun _ _ => False.elim)
    rintro ⟨value, i'⟩ s' ⟨hvalue, hi', hs'⟩
    dsimp only at hvalue
    subst hvalue
    cases xs with
    | nil => exact hs'
    | cons a xs =>
      simp only [List.head?_cons]
      rw [wp_bind]
      refine wp_mono (hbody a xs s' hs') ?_ (fun _ _ => id)
      exact fun _ s'' hs'' => ih hi' hs'' (Nat.lt_of_succ_lt_succ hfuel)

section Chains

variable {f : Iterator ε σ I α} {g : Iterator ε σ J α} {LeftF : I → List α → Prop} {LeftG : J → List α → Prop}

def LeftIn (Left : I → List α → Prop) : Option I → List α → Prop
  | none, xs => xs = []
  | some i, xs => Left i xs

def LeftOf (LeftF : I → List α → Prop) (LeftG : J → List α → Prop) (c : Chain I J) (zs : List α) : Prop :=
  ∃ xs ys, LeftIn LeftF c.a xs ∧ LeftIn LeftG c.b ys ∧ zs = xs ++ ys

theorem bounds_chainHint (limit : Nat) {a : Option (Nat × Option Nat)} {b : Option (Nat × Option Nat)} {m n : Nat}
    (ha : a.elim (m = 0) fun h => Bounds h m) (hb : b.elim (n = 0) fun h => Bounds h n) :
    Bounds (chainHint limit a b) (m + n) := by
  cases a with
  | none =>
    obtain rfl : m = 0 := ha
    rw [Nat.zero_add]
    cases b with
    | none =>
      obtain rfl : n = 0 := hb
      exact ⟨Nat.le_refl 0, fun _ _ => Nat.zero_le _⟩
    | some h => exact hb
  | some h =>
    cases b with
    | none =>
      obtain rfl : n = 0 := hb
      exact ha
    | some h' =>
      obtain ⟨x, x'⟩ := h
      obtain ⟨y, y'⟩ := h'
      refine ⟨(Nat.min_le_left _ _).trans (Nat.add_le_add ha.1 hb.1), fun k hk => ?_⟩
      obtain ⟨u, hu, hk⟩ := Option.bind_eq_some_iff.mp hk
      obtain ⟨v, hv, hk⟩ := Option.bind_eq_some_iff.mp hk
      split at hk
      · cases hk
        exact Nat.add_le_add (ha.2 u hu) (hb.2 v hv)
      · cases hk

theorem Lawful.hintIn {k : Option I} (h : it.Lawful P Z Left) (hk : LeftIn Left k xs) :
    (k.map it.sizeHint).elim (xs.length = 0) fun hint => Bounds hint xs.length := by
  cases k with
  | none => exact congrArg List.length hk
  | some i => exact h.hint hk

theorem Lawful.nextOfB (hg : g.Lawful P Z LeftG) {c : Chain I J} (ha : c.a = none) (hb : LeftIn LeftG c.b xs) (hs : P s) :
    wp (nextOfB g c) (fun r s' => r.1 = xs.head? ∧ LeftOf LeftF LeftG r.2 xs.tail ∧ P s') (fun e _ => Z e) s := by
  obtain ⟨a, b⟩ := c
  obtain rfl : a = none := ha
  cases b with
  | none =>
    obtain rfl : xs = [] := hb
    exact ⟨rfl, ⟨[], [], rfl, rfl, rfl⟩, hs⟩
  | some j =>
    dsimp only [Iterator.nextOfB]
    rw [wp_bind]
    refine wp_mono (hg.next hb hs) ?_ (fun _ _ => id)
    rintro ⟨value, j'⟩ s' ⟨hvalue, hj, hs'⟩
    exact ⟨hvalue, ⟨[], xs.tail, rfl, hj, rfl⟩, hs'⟩

theorem Lawful.chain (limit : Nat) (hf : f.Lawful P Z LeftF) (hg : g.Lawful P Z LeftG) :
    (Iterator.chain limit f g).Lawful P Z (LeftOf LeftF LeftG) := by
  constructor
  · rintro ⟨a, b⟩ zs s ⟨xs, ys, ha, hb, rfl⟩ hs
    cases a with
    | none =>
      obtain rfl : xs = [] := ha
      exact hg.nextOfB rfl hb hs
    | some i =>
      dsimp only [Iterator.chain]
      rw [wp_bind]
      refine wp_mono (hf.next ha hs) ?_ (fun _ _ => id)
      rintro ⟨value, i'⟩ s' ⟨hvalue, hi', hs'⟩
      dsimp only at hvalue
      subst hvalue
      cases xs with
      | nil => exact hg.nextOfB rfl hb hs'
      | cons x xs => exact ⟨rfl, ⟨xs, ys, hi', hb, rfl⟩, hs'⟩
  · rintro ⟨a, b⟩ zs ⟨xs, ys, ha, hb, rfl⟩
    rw [List.length_append]
    exact bounds_chainHint limit (hf.hintIn ha) (hg.hintIn hb)

end Chains

end Iterator

end Opthash
