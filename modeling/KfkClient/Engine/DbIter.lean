import KfkClient.Engine.InternalKey
import KfkClient.Engine.MergingIterator

/-!
# The user's iterator (`db_iter.cc`)

`DBIter` turns an iterator over internal entries into one over the user's keys: of each key it
shows the newest entry that the snapshot sees, unless that is a deletion. Moving forward the
internal iterator stands at the entry shown; moving backward the entry shown is kept aside and
the internal iterator stands before the entries of its key.

The loops are given a bound for the steps that they may take; a bound above the number of
entries is enough.

## Main definitions

- `DBIter` with `seek`, `seekToFirst`, `seekToLast`, `next`, `prev`
- `visible` — the bindings that a set of entries shows at a snapshot
-/

namespace KfkClient.Engine

open MultiVersion Cursors

variable {ι K V : Type} [LinearOrder K]

instance : Keyed (Entry K V) (InternalKey K) := ⟨Entry.ikey⟩

/-- The key that is skipped hides what is not after it. -/
def hidden (skip : Option K) (k : K) : Bool :=
  match skip with
  | some k' => decide (k ≤ k')
  | none => false

section Loops

variable [Iter ι (Entry K V) (InternalKey K)]

/-- The loop of `FindNextUserEntry`; `skip` is the key to skip while `skipping` is set. -/
def findNextLoop (sequence : ℕ) : ℕ → Option K → ι → Option ι
  | 0, _, _ => none
  | limit + 1, skip, it =>
    match Iter.entry it with
    | none => some it
    | some e =>
      if e.seq ≤ sequence then
        match e.val with
        | none => findNextLoop sequence limit (some e.key) (Iter.next it)
        | some _ =>
          if hidden skip e.key then findNextLoop sequence limit skip (Iter.next it) else some it
      else findNextLoop sequence limit skip (Iter.next it)

/-- A binding is saved and the entry belongs to an earlier key. -/
def passes (saved : Option (K × V)) (k : K) : Bool :=
  match saved with
  | some (k', _) => decide (k < k')
  | none => false

/-- The loop of `FindPrevUserEntry`; nothing is saved while `value_type` is a deletion. -/
def findPrevLoop (sequence : ℕ) : ℕ → Option (K × V) → ι → Option (Option (K × V) × ι)
  | 0, _, _ => none
  | limit + 1, saved, it =>
    match Iter.entry it with
    | none => some (saved, it)
    | some e =>
      if e.seq ≤ sequence then
        if passes saved e.key then some (saved, it)
        else findPrevLoop sequence limit (e.val.map fun v => (e.key, v)) (Iter.prev it)
      else findPrevLoop sequence limit saved (Iter.prev it)

/-- The loop of `Prev` that leaves the entries of the current key. -/
def leaveLoop : ℕ → K → ι → Option ι
  | 0, _, _ => none
  | limit + 1, k, it =>
    match Iter.entry (Iter.prev it) with
    | none => some (Iter.prev it)
    | some e => if e.key < k then some (Iter.prev it) else leaveLoop limit k (Iter.prev it)

end Loops

structure DBIter (ι K V : Type) where
  iter : ι
  sequence : ℕ
  direction : Direction
  valid : Bool
  savedKey : Option K
  savedValue : Option V

namespace DBIter

def new (iter : ι) (sequence : ℕ) : DBIter ι K V := ⟨iter, sequence, .forward, false, none, none⟩

variable [Iter ι (Entry K V) (InternalKey K)]

/-- `key()` and `value()`, when valid. -/
def entry (d : DBIter ι K V) : Option (K × V) :=
  if d.valid then
    match d.direction with
    | .forward => (Iter.entry d.iter).bind fun e => e.val.map fun v => (e.key, v)
    | .reverse => d.savedKey.bind fun k => d.savedValue.map fun v => (k, v)
  else none

/-- The end of `FindNextUserEntry`: at an entry to show, or at the end of the entries. -/
def settleNext (d : DBIter ι K V) (it : ι) : DBIter ι K V :=
  { d with iter := it, valid := (Iter.entry it).isSome, savedKey := none }

def findNextUserEntry (limit : ℕ) (skip : Option K) (d : DBIter ι K V) : Option (DBIter ι K V) :=
  (findNextLoop d.sequence limit skip d.iter).map d.settleNext

/-- The end of `FindPrevUserEntry`: with a binding to show, or at the front of the entries. -/
def settlePrev (d : DBIter ι K V) : Option (K × V) × ι → DBIter ι K V
  | (none, it) =>
    { d with
      iter := it, valid := false, savedKey := none, savedValue := none, direction := .forward }
  | (some (k, v), it) =>
    { d with iter := it, valid := true, savedKey := some k, savedValue := some v }

def findPrevUserEntry (limit : ℕ) (d : DBIter ι K V) : Option (DBIter ι K V) :=
  (findPrevLoop d.sequence limit none d.iter).map d.settlePrev

def seek (limit : ℕ) (target : K) (d : DBIter ι K V) : Option (DBIter ι K V) :=
  let it := Iter.seek (lookupKey target d.sequence) d.iter
  let d := { d with iter := it, direction := .forward, savedKey := none, savedValue := none }
  if (Iter.entry it).isSome then findNextUserEntry limit none d
  else some { d with valid := false }

def seekToFirst (limit : ℕ) (d : DBIter ι K V) : Option (DBIter ι K V) :=
  let it := Iter.seekToFirst d.iter
  let d := { d with iter := it, direction := .forward, savedValue := none }
  if (Iter.entry it).isSome then findNextUserEntry limit none d
  else some { d with valid := false }

def seekToLast (limit : ℕ) (d : DBIter ι K V) : Option (DBIter ι K V) :=
  findPrevUserEntry limit
    { d with iter := Iter.seekToLast d.iter, direction := .reverse, savedValue := none }

/-- Out of the reverse direction, into the entries of the current key or before them. -/
def advance (it : ι) : ι :=
  if (Iter.entry it).isSome then Iter.next it else Iter.seekToFirst it

def next (limit : ℕ) (d : DBIter ι K V) : Option (DBIter ι K V) :=
  if d.valid then
    match d.direction with
    | .reverse =>
      let it := advance d.iter
      let d := { d with iter := it, direction := .forward }
      if (Iter.entry it).isSome then findNextUserEntry limit d.savedKey d
      else some { d with valid := false, savedKey := none }
    | .forward =>
      match Iter.entry d.iter with
      | some e => findNextUserEntry limit (some e.key) d
      | none => none
  else none

def prev (limit : ℕ) (d : DBIter ι K V) : Option (DBIter ι K V) :=
  if d.valid then
    match d.direction with
    | .forward =>
      match Iter.entry d.iter with
      | some e =>
        (leaveLoop limit e.key d.iter).bind fun it =>
          if (Iter.entry it).isSome then
            findPrevUserEntry limit
              { d with iter := it, direction := .reverse, savedKey := some e.key }
          else
            some { d with iter := it, valid := false, savedKey := none, savedValue := none }
      | none => none
    | .reverse => findPrevUserEntry limit d
  else none

def move (limit : ℕ) (d : DBIter ι K V) : Move K → Option (DBIter ι K V)
  | .seekToFirst => d.seekToFirst limit
  | .seekToLast => d.seekToLast limit
  | .seek target => d.seek limit target
  | .next => d.next limit
  | .prev => d.prev limit

end DBIter

/-- The bindings that a set of entries shows at a snapshot. -/
def visible (S : Set (Entry K V)) (s : ℕ) : Set (K × V) := {p | Reads S s p.1 (some p.2)}

omit [LinearOrder K] in
theorem mem_visible {S : Set (Entry K V)} {s : ℕ} {p : K × V} :
    p ∈ visible S s ↔ ∃ e, IsNewest S s p.1 e ∧ e.val = some p.2 := by
  constructor
  · rintro (h | ⟨_, h⟩)
    · exact h
    · cases h
  · exact fun h => .inl h

omit [LinearOrder K] in
theorem visible_injOn {S : Set (Entry K V)} (hd : Distinct S) (s : ℕ) :
    Set.InjOn Keyed.key (visible S s) := by
  rintro ⟨k, v⟩ hp ⟨k', v'⟩ hp' (hk : k = k')
  subst hk
  have hv : some v = some v' := Reads.unique hd hp hp'
  rw [Option.some.inj hv]

end KfkClient.Engine
