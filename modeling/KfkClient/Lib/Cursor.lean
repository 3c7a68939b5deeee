import KfkClient.Lib.Transition

/-!
# Iterators over a set of keyed entries

An iterator stands at an entry or is invalid. What it shows after a move is said by the order
of the keys alone: the least entry, the greatest one, the least one from a target on, the
next and the previous one. `Iterates S Ok` says that an implementation does this for the set
`S` as long as its own invariant `Ok` holds, and every move keeps that.

## Main definitions

- `Keyed`, `Iter`, `Steps`, `Move` — entries with a key, the operations of an iterator, its
  progress, a call
- `Best`, `Least`, `Greatest` — what a move has to find
- `Iterates`, `Presents` — an implementation, a machine is an iterator over a set
- `Cursor` — a place in a sorted list, the plainest implementation

## Main results

- `Presents.run_rel` — two machines that present one set cannot be told apart by any calls
- `Cursor.iterates` — a cursor is an iterator over its list
-/

namespace Cursors

open Transition

class Keyed (E : Type) (T : outParam Type) where
  key : E → T

/-- The operations of an iterator. `next` and `prev` are called at an entry. -/
class Iter (ι : Type) (E : outParam Type) (T : outParam Type) where
  entry : ι → Option E
  seekToFirst : ι → ι
  seekToLast : ι → ι
  seek : T → ι → ι
  next : ι → ι
  prev : ι → ι

instance {T H : Type} : Keyed (T × H) T := ⟨Prod.fst⟩

/-- A bound for the moves that are left in either direction. -/
class Steps (ι : Type) (E : outParam Type) (T : outParam Type) extends Iter ι E T where
  ahead : ι → ℕ
  behind : ι → ℕ
  ahead_next : ∀ it : ι, (entry it).isSome = true → ahead (next it) < ahead it
  behind_prev : ∀ it : ι, (entry it).isSome = true → behind (prev it) < behind it

inductive Move (T : Type) where
  | seekToFirst
  | seekToLast
  | seek (target : T)
  | next
  | prev
  deriving DecidableEq, Repr

variable {ι κ E T : Type}

/-- One call; `next` and `prev` cannot happen on an iterator that is not valid. -/
def Iter.move [Iter ι E T] (it : ι) : Move T → Option ι
  | .seekToFirst => some (seekToFirst it)
  | .seekToLast => some (seekToLast it)
  | .seek target => some (seek target it)
  | .next => if (entry it).isSome then some (next it) else none
  | .prev => if (entry it).isSome then some (prev it) else none

section Extremes

variable [Keyed E T]

open Keyed

/-- An entry of `S` that no other one beats, or none when `S` has none. -/
def Best (r : T → T → Prop) (S : Set E) : Option E → Prop
  | some x => x ∈ S ∧ ∀ y ∈ S, r (key x) (key y)
  | none => ∀ y, y ∉ S

theorem Best.unique {r : T → T → Prop} (hanti : ∀ a b, r a b → r b a → a = b) {S : Set E}
    (hinj : Set.InjOn key S) {o o' : Option E} (h : Best r S o) (h' : Best r S o') : o = o' := by
  cases o with
  | none =>
    cases o' with
    | none => rfl
    | some y => exact absurd h'.1 (h y)
  | some x =>
    cases o' with
    | none => exact absurd h.1 (h' x)
    | some y =>
      have hkey := hanti _ _ (h.2 y h'.1) (h'.2 x h.1)
      rw [hinj h.1 h'.1 hkey]

theorem Best.congr {r : T → T → Prop} {S S' : Set E} {o : Option E} (h : Best r S o)
    (hS : ∀ x, x ∈ S ↔ x ∈ S') : Best r S' o := by
  have heq : S = S' := Set.ext hS
  rwa [← heq]

/-- Of two entries the better one is taken, the first where none is. -/
def pick (better : T → T → Bool) : Option E → Option E → Option E
  | none, o => o
  | some x, none => some x
  | some x, some y => if better (key y) (key x) then some y else some x

theorem Best.pick {r : T → T → Prop} {better : T → T → Bool}
    (htrans : ∀ a b c, r a b → r b c → r a c) (hyes : ∀ a b, better a b = true → r a b)
    (hno : ∀ a b, better a b = false → r b a) {S S' : Set E} {o o' : Option E}
    (h : Best r S o) (h' : Best r S' o') : Best r (S ∪ S') (pick better o o') := by
  cases o with
  | none =>
    refine h'.congr fun x => ?_
    constructor
    · exact fun hx => .inr hx
    · exact fun hx => hx.resolve_left (h x)
  | some x =>
    cases o' with
    | none =>
      refine h.congr fun y => ?_
      constructor
      · exact fun hy => .inl hy
      · exact fun hy => hy.resolve_right (h' y)
    | some y =>
      rw [Cursors.pick]
      split
      · rename_i hb
        refine ⟨.inr h'.1, ?_⟩
        rintro z (hz | hz)
        · exact htrans _ _ _ (hyes _ _ hb) (h.2 z hz)
        · exact h'.2 z hz
      · rename_i hb
        refine ⟨.inl h.1, ?_⟩
        rintro z (hz | hz)
        · exact h.2 z hz
        · exact htrans _ _ _ (hno _ _ (by simpa using hb)) (h'.2 z hz)

variable [LinearOrder T]

abbrev Least (S : Set E) : Option E → Prop := Best (· ≤ ·) S

abbrev Greatest (S : Set E) : Option E → Prop := Best (· ≥ ·) S

def atOrAfter (S : Set E) (t : T) : Set E := {x | x ∈ S ∧ t ≤ key x}

def after (S : Set E) (t : T) : Set E := {x | x ∈ S ∧ t < key x}

def before (S : Set E) (t : T) : Set E := {x | x ∈ S ∧ key x < t}

theorem Least.unique {S : Set E} (hinj : Set.InjOn key S) {o o' : Option E} (h : Least S o)
    (h' : Least S o') : o = o' := Best.unique (fun _ _ => le_antisymm) hinj h h'

theorem Greatest.unique {S : Set E} (hinj : Set.InjOn key S) {o o' : Option E}
    (h : Greatest S o) (h' : Greatest S o') : o = o' :=
  Best.unique (fun _ _ h h' => le_antisymm h' h) hinj h h'

theorem Least.pick {S S' : Set E} {o o' : Option E} (h : Least S o) (h' : Least S' o') :
    Least (S ∪ S') (pick (fun a b => decide (a < b)) o o') :=
  Best.pick (r := (· ≤ ·)) (fun _ _ _ => le_trans) (fun _ _ h => (of_decide_eq_true h).le)
    (fun _ _ h => not_lt.mp (of_decide_eq_false h)) h h'

theorem Greatest.pick {S S' : Set E} {o o' : Option E} (h : Greatest S o)
    (h' : Greatest S' o') : Greatest (S ∪ S') (pick (fun a b => decide (b < a)) o o') :=
  Best.pick (r := (· ≥ ·)) (fun _ _ _ h h' => le_trans h' h)
    (fun _ _ h => (of_decide_eq_true h).le) (fun _ _ h => not_lt.mp (of_decide_eq_false h)) h h'

/-- The implementation `ι` is an iterator over `S` as long as `Ok` holds, and its moves keep
that. -/
structure Iterates [Iter ι E T] (S : Set E) (Ok : ι → Prop) : Prop where
  mem : ∀ {it x}, Ok it → Iter.entry it = some x → x ∈ S
  seekToFirst : ∀ {it}, Ok it →
    Ok (Iter.seekToFirst it) ∧ Least S (Iter.entry (Iter.seekToFirst it))
  seekToLast : ∀ {it}, Ok it →
    Ok (Iter.seekToLast it) ∧ Greatest S (Iter.entry (Iter.seekToLast it))
  seek : ∀ {it} (t : T), Ok it →
    Ok (Iter.seek t it) ∧ Least (atOrAfter S t) (Iter.entry (Iter.seek t it))
  next : ∀ {it x}, Ok it → Iter.entry it = some x →
    Ok (Iter.next it) ∧ Least (after S (key x)) (Iter.entry (Iter.next it))
  prev : ∀ {it x}, Ok it → Iter.entry it = some x →
    Ok (Iter.prev it) ∧ Greatest (before S (key x)) (Iter.entry (Iter.prev it))

/-- What a call has to show, given what was shown before. -/
def Shows (S : Set E) (m : Move T) (o o' : Option E) : Prop :=
  match m with
  | .seekToFirst => Least S o'
  | .seekToLast => Greatest S o'
  | .seek t => Least (atOrAfter S t) o'
  | .next => ∃ x, o = some x ∧ Least (after S (key x)) o'
  | .prev => ∃ x, o = some x ∧ Greatest (before S (key x)) o'

theorem Shows.unique {S : Set E} (hinj : Set.InjOn key S) {m : Move T} {o o₁ o₂ : Option E}
    (h₁ : Shows S m o o₁) (h₂ : Shows S m o o₂) : o₁ = o₂ := by
  cases m with
  | seekToFirst => exact Least.unique hinj h₁ h₂
  | seekToLast => exact Greatest.unique hinj h₁ h₂
  | seek t => exact Least.unique (hinj.mono fun _ hx => hx.1) h₁ h₂
  | next =>
    obtain ⟨x, hx, h₁⟩ := h₁
    obtain ⟨y, hy, h₂⟩ := h₂
    cases hx.symm.trans hy
    exact h₁.unique (hinj.mono fun _ hx => hx.1) h₂
  | prev =>
    obtain ⟨x, hx, h₁⟩ := h₁
    obtain ⟨y, hy, h₂⟩ := h₂
    cases hx.symm.trans hy
    exact h₁.unique (hinj.mono fun _ hx => hx.1) h₂

/-- A machine that takes calls presents `S`: what it shows is what the calls have to show, and
it refuses only `next` and `prev` where it shows nothing. -/
def Presents {σ : Type} (step : σ → Move T → Option σ) (view : σ → Option E) (S : Set E)
    (Ok : σ → Prop) : Prop :=
  ∀ s m, Ok s → (∃ s', step s m = some s' ∧ Ok s' ∧ Shows S m (view s) (view s')) ∨
    step s m = none ∧ (m = .next ∨ m = .prev) ∧ view s = none

theorem Presents.step_rel {σ τ : Type} {step : σ → Move T → Option σ}
    {step' : τ → Move T → Option τ} {view : σ → Option E} {view' : τ → Option E} {S : Set E}
    {Ok : σ → Prop} {Ok' : τ → Prop} (h : Presents step view S Ok)
    (h' : Presents step' view' S Ok') (hinj : Set.InjOn key S) {a : σ} {b : τ} (m : Move T)
    (ha : Ok a) (hb : Ok' b) (hview : view a = view' b) :
    Option.Rel (fun a b => Ok a ∧ Ok' b ∧ view a = view' b) (step a m) (step' b m) := by
  -- `next` and `prev` show something only from an entry
  have hneeds : ∀ o o' : Option E, (m = .next ∨ m = .prev) → Shows S m o o' → o ≠ none := by
    rintro o o' (rfl | rfl) ⟨x, hx, _⟩ rfl
    · cases hx
    · cases hx
  rcases h a m ha with ⟨a', hstep, ha', hshow⟩ | ⟨hstep, hm, hnone⟩
  · rcases h' b m hb with ⟨b', hstep', hb', hshow'⟩ | ⟨_, hm, hnone⟩
    · rw [hstep, hstep']
      rw [← hview] at hshow'
      exact .some ⟨ha', hb', hshow.unique hinj hshow'⟩
    · exact absurd (hview.trans hnone) (hneeds _ _ hm hshow)
  · rcases h' b m hb with ⟨b', _, _, hshow'⟩ | ⟨hstep', _, _⟩
    · exact absurd (hview.symm.trans hnone) (hneeds _ _ hm hshow')
    · rw [hstep, hstep']
      exact .none

/-- Two machines that present one set cannot be told apart by any calls. -/
theorem Presents.run_rel {σ τ : Type} {step : σ → Move T → Option σ}
    {step' : τ → Move T → Option τ} {view : σ → Option E} {view' : τ → Option E} {S : Set E}
    {Ok : σ → Prop} {Ok' : τ → Prop} (h : Presents step view S Ok)
    (h' : Presents step' view' S Ok') (hinj : Set.InjOn key S) {a : σ} {b : τ}
    (ha : Ok a) (hb : Ok' b) (hview : view a = view' b) (moves : List (Move T)) :
    Option.Rel (fun a b => Ok a ∧ Ok' b ∧ view a = view' b)
      (run step a moves) (run step' b moves) :=
  Transition.run_rel (P := fun _ => True)
    (fun _ _ m hab _ => h.step_rel h' hinj m hab.1 hab.2.1 hab.2.2) (fun _ _ => trivial)
    ⟨ha, hb, hview⟩

/-- An iterator presents the set that it is an iterator over. -/
theorem Iterates.presents [Iter ι E T] {S : Set E} {Ok : ι → Prop} (h : Iterates S Ok) :
    Presents Iter.move Iter.entry S Ok := by
  intro it m hok
  cases m with
  | seekToFirst => exact .inl ⟨_, rfl, h.seekToFirst hok⟩
  | seekToLast => exact .inl ⟨_, rfl, h.seekToLast hok⟩
  | seek t => exact .inl ⟨_, rfl, h.seek t hok⟩
  | next =>
    cases hx : Iter.entry it with
    | none => exact .inr ⟨by rw [Iter.move, hx]; rfl, .inl rfl, rfl⟩
    | some x =>
      have hnext := h.next hok hx
      exact .inl ⟨_, by rw [Iter.move, hx]; rfl, hnext.1, x, rfl, hnext.2⟩
  | prev =>
    cases hx : Iter.entry it with
    | none => exact .inr ⟨by rw [Iter.move, hx]; rfl, .inr rfl, rfl⟩
    | some x =>
      have hprev := h.prev hok hx
      exact .inl ⟨_, by rw [Iter.move, hx]; rfl, hprev.1, x, rfl, hprev.2⟩

/-- An iterator may be one of two kinds. -/
instance [Iter ι E T] [Iter κ E T] : Iter (ι ⊕ κ) E T where
  entry := Sum.elim Iter.entry Iter.entry
  seekToFirst := Sum.map Iter.seekToFirst Iter.seekToFirst
  seekToLast := Sum.map Iter.seekToLast Iter.seekToLast
  seek t := Sum.map (Iter.seek t) (Iter.seek t)
  next := Sum.map Iter.next Iter.next
  prev := Sum.map Iter.prev Iter.prev

theorem Iterates.sum [Iter ι E T] [Iter κ E T] {S : Set E} {Ok : ι → Prop} {Ok' : κ → Prop}
    (h : Iterates S Ok) (h' : Iterates S Ok') : Iterates S (Sum.elim Ok Ok') where
  mem := by
    rintro (i | j) x hok hx
    · exact h.mem hok hx
    · exact h'.mem hok hx
  seekToFirst := by
    rintro (i | j) hok
    · exact h.seekToFirst hok
    · exact h'.seekToFirst hok
  seekToLast := by
    rintro (i | j) hok
    · exact h.seekToLast hok
    · exact h'.seekToLast hok
  seek := by
    rintro (i | j) t hok
    · exact h.seek t hok
    · exact h'.seek t hok
  next := by
    rintro (i | j) x hok hx
    · exact h.next hok hx
    · exact h'.next hok hx
  prev := by
    rintro (i | j) x hok hx
    · exact h.prev hok hx
    · exact h'.prev hok hx

theorem Iterates.never [Iter ι E T] {S : Set E} : Iterates S fun _ : ι => False where
  mem h := h.elim
  seekToFirst h := h.elim
  seekToLast h := h.elim
  seek _ h := h.elim
  next h := h.elim
  prev h := h.elim

/-- The invariant may speak of something that the moves do not change. -/
theorem Iterates.exists [Iter ι E T] {α : Type} {S : Set E} {P : α → Prop} {Ok : α → ι → Prop}
    (h : ∀ a, P a → Iterates S (Ok a)) : Iterates S fun it => ∃ a, P a ∧ Ok a it where
  mem := by
    rintro it x ⟨a, ha, hok⟩ hx
    exact (h a ha).mem hok hx
  seekToFirst := by
    rintro it ⟨a, ha, hok⟩
    exact ⟨⟨a, ha, ((h a ha).seekToFirst hok).1⟩, ((h a ha).seekToFirst hok).2⟩
  seekToLast := by
    rintro it ⟨a, ha, hok⟩
    exact ⟨⟨a, ha, ((h a ha).seekToLast hok).1⟩, ((h a ha).seekToLast hok).2⟩
  seek := by
    rintro it t ⟨a, ha, hok⟩
    exact ⟨⟨a, ha, ((h a ha).seek t hok).1⟩, ((h a ha).seek t hok).2⟩
  next := by
    rintro it x ⟨a, ha, hok⟩ hx
    exact ⟨⟨a, ha, ((h a ha).next hok hx).1⟩, ((h a ha).next hok hx).2⟩
  prev := by
    rintro it x ⟨a, ha, hok⟩ hx
    exact ⟨⟨a, ha, ((h a ha).prev hok hx).1⟩, ((h a ha).prev hok hx).2⟩

/-- A finite set of entries with different keys is listed in the order of the keys. -/
theorem exists_sorted {S : Set E} (hfin : S.Finite) (hinj : Set.InjOn key S) :
    ∃ xs : List E, (xs.Pairwise fun x y => key x < key y) ∧ ∀ x, x ∈ xs ↔ x ∈ S := by
  let le : E → E → Bool := fun x y => decide (key x ≤ key y)
  have hperm := List.mergeSort_perm hfin.toFinset.toList le
  have hmem : ∀ x, x ∈ hfin.toFinset.toList.mergeSort le ↔ x ∈ S := fun x => by
    rw [hperm.mem_iff, Finset.mem_toList, Set.Finite.mem_toFinset]
  have hle : (hfin.toFinset.toList.mergeSort le).Pairwise fun x y => le x y = true := by
    refine List.pairwise_mergeSort ?_ ?_ _
    · intro x y z hxy hyz
      exact decide_eq_true ((of_decide_eq_true hxy).trans (of_decide_eq_true hyz))
    · intro x y
      simpa [le] using le_total (key x) (key y)
  have hnodup : (hfin.toFinset.toList.mergeSort le).Nodup :=
    hperm.nodup_iff.mpr hfin.toFinset.nodup_toList
  refine ⟨_, (hle.and hnodup).imp_of_mem ?_, hmem⟩
  intro x y hx hy hxy
  refine lt_of_le_of_ne (of_decide_eq_true hxy.1) fun heq => hxy.2 ?_
  exact hinj ((hmem x).mp hx) ((hmem y).mp hy) heq

/-- In a sorted list, the first place that `P` allows. -/
theorem least_getElem {xs : List E} {P : T → Prop} {i : ℕ}
    (hs : xs.Pairwise fun x y => key x < key y)
    (hbelow : ∀ j, j < i → ∀ x, xs[j]? = some x → ¬ P (key x))
    (hat : ∀ x, xs[i]? = some x → P (key x)) : Least {y | y ∈ xs ∧ P (key y)} xs[i]? := by
  have hplace : ∀ y ∈ xs, P (key y) → ∃ j, i ≤ j ∧ xs[j]? = some y := by
    intro y hy hP
    obtain ⟨j, hj⟩ := List.mem_iff_getElem?.mp hy
    exact ⟨j, not_lt.mp fun hlt => hbelow j hlt y hj hP, hj⟩
  cases hx : xs[i]? with
  | none =>
    rintro y ⟨hy, hP⟩
    obtain ⟨j, hij, hj⟩ := hplace y hy hP
    have hlen := List.getElem?_eq_none_iff.mp hx
    have hlt := (List.getElem?_eq_some_iff.mp hj).1
    omega
  | some x =>
    refine ⟨⟨List.mem_of_getElem? hx, hat x hx⟩, ?_⟩
    rintro y ⟨hy, hP⟩
    obtain ⟨j, hij, hj⟩ := hplace y hy hP
    obtain ⟨hi, rfl⟩ := List.getElem?_eq_some_iff.mp hx
    obtain ⟨hjlt, rfl⟩ := List.getElem?_eq_some_iff.mp hj
    rcases hij.eq_or_lt with rfl | hlt
    · exact le_rfl
    · exact (List.pairwise_iff_getElem.mp hs i j hi hjlt hlt).le

/-- In a sorted list, the last place that `P` allows. -/
theorem greatest_getElem {xs : List E} {P : T → Prop} {i : ℕ}
    (hs : xs.Pairwise fun x y => key x < key y)
    (habove : ∀ j, i < j → ∀ x, xs[j]? = some x → ¬ P (key x))
    (hat : ∀ x, xs[i]? = some x → P (key x)) (hend : xs[i]? = none → ∀ y ∈ xs, ¬ P (key y)) :
    Greatest {y | y ∈ xs ∧ P (key y)} xs[i]? := by
  cases hx : xs[i]? with
  | none => exact fun y hy => hend hx y hy.1 hy.2
  | some x =>
    refine ⟨⟨List.mem_of_getElem? hx, hat x hx⟩, ?_⟩
    rintro y ⟨hy, hP⟩
    obtain ⟨j, hj⟩ := List.mem_iff_getElem?.mp hy
    have hij : j ≤ i := not_lt.mp fun hlt => habove j hlt y hj hP
    obtain ⟨hi, rfl⟩ := List.getElem?_eq_some_iff.mp hx
    obtain ⟨hjlt, rfl⟩ := List.getElem?_eq_some_iff.mp hj
    rcases hij.eq_or_lt with rfl | hlt
    · exact le_rfl
    · exact (List.pairwise_iff_getElem.mp hs j i hjlt hi hlt).le

end Extremes

/-- A place in a list: what lies before it, nearest first, and what lies after it. -/
structure Spot (E : Type) where
  left : List E
  here : E
  right : List E
  deriving DecidableEq, Repr

def Spot.all (s : Spot E) : List E := s.left.reverse ++ s.here :: s.right

/-- A cursor stands at a place of a sorted list, or is not valid. -/
structure Cursor (E : Type) {T : Type} [Keyed E T] [LT T] where
  all : List E
  sorted : all.Pairwise fun x y => Keyed.key x < Keyed.key y
  spot : Option (Spot E)
  inside : ∀ s, spot = some s → s.all = all

namespace Cursor

open Keyed

def firstSpot : List E → Option (Spot E)
  | [] => none
  | x :: right => some ⟨[], x, right⟩

def lastSpot (all : List E) : Option (Spot E) :=
  match all.reverse with
  | [] => none
  | x :: left => some ⟨left, x, []⟩

/-- The first place that `stop` accepts. -/
def scan (stop : E → Bool) : List E → List E → Option (Spot E)
  | _, [] => none
  | left, x :: right => if stop x then some ⟨left, x, right⟩ else scan stop (x :: left) right

theorem scan_all {stop : E → Bool} {left right : List E} {s : Spot E}
    (h : scan stop left right = some s) : s.all = left.reverse ++ right := by
  induction right generalizing left with
  | nil => cases h
  | cons x right ih =>
    rw [scan] at h
    split at h
    · cases h
      rfl
    · rw [ih h, List.reverse_cons, List.append_assoc]
      rfl

theorem scan_here {stop : E → Bool} {left right : List E} :
    (scan stop left right).map Spot.here = right.find? stop := by
  induction right generalizing left with
  | nil => rfl
  | cons x right ih =>
    rw [scan, List.find?_cons]
    cases stop x with
    | true => rfl
    | false => exact ih

end Cursor

def Spot.next : Spot E → Option (Spot E)
  | ⟨_, _, []⟩ => none
  | ⟨left, x, y :: right⟩ => some ⟨x :: left, y, right⟩

def Spot.prev : Spot E → Option (Spot E)
  | ⟨[], _, _⟩ => none
  | ⟨y :: left, x, right⟩ => some ⟨left, y, x :: right⟩

theorem Spot.next_all {s s' : Spot E} (h : s.next = some s') : s'.all = s.all := by
  obtain ⟨left, x, _ | ⟨y, right⟩⟩ := s
  · cases h
  · cases h
    simp [Spot.all]

theorem Spot.prev_all {s s' : Spot E} (h : s.prev = some s') : s'.all = s.all := by
  obtain ⟨_ | ⟨y, left⟩, x, right⟩ := s
  · cases h
  · cases h
    simp [Spot.all]

namespace Cursor

open Keyed

variable [Keyed E T] [LinearOrder T]

def entry (c : Cursor E) : Option E := c.spot.map Spot.here

def seekToFirst (c : Cursor E) : Cursor E where
  all := c.all
  sorted := c.sorted
  spot := firstSpot c.all
  inside := by
    intro s hs
    cases hall : c.all with
    | nil =>
      rw [hall] at hs
      cases hs
    | cons x right =>
      rw [hall] at hs
      cases hs
      rfl

def seekToLast (c : Cursor E) : Cursor E where
  all := c.all
  sorted := c.sorted
  spot := lastSpot c.all
  inside := by
    intro s hs
    rw [lastSpot] at hs
    split at hs
    · cases hs
    · rename_i x left hrev
      cases hs
      rw [Spot.all, ← List.reverse_cons, ← hrev, List.reverse_reverse]

def seek (target : T) (c : Cursor E) : Cursor E where
  all := c.all
  sorted := c.sorted
  spot := scan (fun x => target ≤ key x) [] c.all
  inside := fun _ hs => scan_all hs

def next (c : Cursor E) : Cursor E where
  all := c.all
  sorted := c.sorted
  spot := c.spot.bind Spot.next
  inside := by
    intro s hs
    obtain ⟨s₀, hs₀, hnext⟩ := Option.bind_eq_some_iff.mp hs
    rw [Spot.next_all hnext, c.inside s₀ hs₀]

def prev (c : Cursor E) : Cursor E where
  all := c.all
  sorted := c.sorted
  spot := c.spot.bind Spot.prev
  inside := by
    intro s hs
    obtain ⟨s₀, hs₀, hprev⟩ := Option.bind_eq_some_iff.mp hs
    rw [Spot.prev_all hprev, c.inside s₀ hs₀]

instance : Iter (Cursor E) E T where
  entry := entry
  seekToFirst := seekToFirst
  seekToLast := seekToLast
  seek := seek
  next := next
  prev := prev

/-- A cursor that has not been moved yet. -/
def new (all : List E) (sorted : all.Pairwise fun x y => key x < key y) : Cursor E :=
  ⟨all, sorted, none, fun _ h => by cases h⟩

variable {all : List E}

theorem least_of_sorted {P : E → Bool} (hs : all.Pairwise fun x y => key x < key y) :
    Least {x | x ∈ all ∧ P x = true} (all.find? P) := by
  cases hfind : all.find? P with
  | none =>
    rintro y ⟨hy, hP⟩
    exact List.find?_eq_none.mp hfind y hy hP
  | some x =>
    obtain ⟨hx, left, right, rfl, hleft⟩ := List.find?_eq_some_iff_append.mp hfind
    refine ⟨⟨by simp, hx⟩, ?_⟩
    rintro y ⟨hy, hP⟩
    rcases List.mem_append.mp hy with hl | hr
    · have hfalse := hleft y hl
      rw [hP] at hfalse
      cases hfalse
    · rcases List.mem_cons.mp hr with rfl | hr
      · exact le_rfl
      · have htail := (List.pairwise_append.mp hs).2.1
        exact ((List.pairwise_cons.mp htail).1 y hr).le

theorem sorted_parts {s : Spot E} (h : s.all.Pairwise fun x y => key x < key y) :
    (∀ y ∈ s.left, key y < key s.here) ∧ (∀ y ∈ s.right, key s.here < key y) := by
  obtain ⟨_, htail, hcross⟩ := List.pairwise_append.mp h
  refine ⟨fun y hy => ?_, (List.pairwise_cons.mp htail).1⟩
  exact hcross y (List.mem_reverse.mpr hy) s.here List.mem_cons_self

theorem mem_all {s : Spot E} {y : E} : y ∈ s.all ↔ y ∈ s.left ∨ y = s.here ∨ y ∈ s.right := by
  simp [Spot.all]

theorem next_least {s : Spot E} (h : s.all.Pairwise fun x y => key x < key y) :
    Least (after {y | y ∈ s.all} (key s.here)) (s.next.map Spot.here) := by
  obtain ⟨hleft, hright⟩ := sorted_parts h
  obtain ⟨left, x, right⟩ := s
  have hafter : ∀ y, y ∈ after {y | y ∈ Spot.all ⟨left, x, right⟩} (key x) → y ∈ right := by
    rintro y ⟨hy, hlt⟩
    rcases mem_all.mp hy with hl | rfl | hr
    · exact absurd (hleft y hl) hlt.asymm
    · exact absurd hlt (lt_irrefl _)
    · exact hr
  cases right with
  | nil => exact fun y hy => absurd (hafter y hy) List.not_mem_nil
  | cons z right =>
    refine ⟨⟨mem_all.mpr (.inr (.inr List.mem_cons_self)), hright z List.mem_cons_self⟩, ?_⟩
    intro y hy
    rcases List.mem_cons.mp (hafter y hy) with rfl | hr
    · exact le_rfl
    · obtain ⟨_, htail, _⟩ := List.pairwise_append.mp h
      have hpair := (List.pairwise_cons.mp htail).2
      exact ((List.pairwise_cons.mp hpair).1 y hr).le

theorem prev_greatest {s : Spot E} (h : s.all.Pairwise fun x y => key x < key y) :
    Greatest (before {y | y ∈ s.all} (key s.here)) (s.prev.map Spot.here) := by
  obtain ⟨hleft, hright⟩ := sorted_parts h
  obtain ⟨left, x, right⟩ := s
  have hbefore : ∀ y, y ∈ before {y | y ∈ Spot.all ⟨left, x, right⟩} (key x) → y ∈ left := by
    rintro y ⟨hy, hlt⟩
    rcases mem_all.mp hy with hl | rfl | hr
    · exact hl
    · exact absurd hlt (lt_irrefl _)
    · exact absurd (hright y hr) hlt.asymm
  cases left with
  | nil => exact fun y hy => absurd (hbefore y hy) List.not_mem_nil
  | cons z left =>
    refine ⟨⟨mem_all.mpr (.inl List.mem_cons_self), hleft z List.mem_cons_self⟩, ?_⟩
    intro y hy
    rcases List.mem_cons.mp (hbefore y hy) with rfl | hl
    · exact le_rfl
    · obtain ⟨hfront, _, _⟩ := List.pairwise_append.mp h
      have hpair := List.pairwise_reverse.mp hfront
      exact ((List.pairwise_cons.mp hpair).1 y hl).le

theorem lastSpot_greatest (hs : all.Pairwise fun x y => key x < key y) :
    Greatest {x | x ∈ all} ((lastSpot all).map Spot.here) := by
  rw [lastSpot]
  split
  · rename_i hrev
    intro y hy
    have hnil : all = [] := List.reverse_eq_nil_iff.mp hrev
    rw [hnil] at hy
    exact List.not_mem_nil hy
  · rename_i x left hrev
    have hpair : (x :: left).Pairwise fun a b => key b < key a := by
      rw [← hrev]
      exact List.pairwise_reverse.mpr hs
    have hmem : ∀ y, y ∈ all ↔ y ∈ x :: left := fun y => by rw [← hrev, List.mem_reverse]
    refine ⟨(hmem x).mpr List.mem_cons_self, fun y hy => ?_⟩
    rcases List.mem_cons.mp ((hmem y).mp hy) with rfl | hl
    · exact le_rfl
    · exact ((List.pairwise_cons.mp hpair).1 y hl).le

theorem spot_of_entry {c : Cursor E} {x : E} (h : c.entry = some x) :
    ∃ s, c.spot = some s ∧ s.here = x ∧ s.all = c.all := by
  obtain ⟨s, hs, hx⟩ := Option.map_eq_some_iff.mp h
  exact ⟨s, hs, hx, c.inside s hs⟩

theorem injOn (c : Cursor E) : Set.InjOn key {x | x ∈ c.all} := by
  intro x hx y hy heq
  obtain ⟨i, hi, rfl⟩ := List.mem_iff_getElem.mp hx
  obtain ⟨j, hj, rfl⟩ := List.mem_iff_getElem.mp hy
  have hpair := List.pairwise_iff_getElem.mp c.sorted
  rcases Nat.lt_trichotomy i j with hlt | rfl | hlt
  · exact absurd heq (hpair i j hi hj hlt).ne
  · rfl
  · exact absurd heq (hpair j i hj hi hlt).ne'

/-- A cursor is an iterator over the entries of its list. -/
theorem iterates (all : List E) :
    Iterates {x | x ∈ all} (fun c : Cursor E => c.all = all) where
  mem := by
    rintro c x rfl hx
    obtain ⟨s, _, rfl, hall⟩ := spot_of_entry hx
    show s.here ∈ c.all
    rw [← hall]
    exact mem_all.mpr (.inr (.inl rfl))
  seekToFirst := by
    rintro c rfl
    refine ⟨rfl, ?_⟩
    show Least {x | x ∈ c.all} ((firstSpot c.all).map Spot.here)
    have hs := c.sorted
    cases hall : c.all with
    | nil => exact fun y hy => List.not_mem_nil hy
    | cons x right =>
      rw [hall] at hs
      refine ⟨List.mem_cons_self, fun y hy => ?_⟩
      rcases List.mem_cons.mp hy with rfl | hr
      · exact le_rfl
      · exact ((List.pairwise_cons.mp hs).1 y hr).le
  seekToLast := by
    rintro c rfl
    exact ⟨rfl, lastSpot_greatest c.sorted⟩
  seek := by
    rintro c t rfl
    refine ⟨rfl, ?_⟩
    show Least _ ((scan (fun x => decide (t ≤ key x)) [] c.all).map Spot.here)
    rw [scan_here]
    refine (least_of_sorted c.sorted).congr fun x => ?_
    rw [Set.mem_ofPred_eq, decide_eq_true_iff]
    rfl
  next := by
    rintro c x rfl hx
    obtain ⟨s, hs, rfl, hall⟩ := spot_of_entry hx
    refine ⟨rfl, ?_⟩
    show Least _ ((c.spot.bind Spot.next).map Spot.here)
    rw [hs, ← hall]
    exact next_least (hall ▸ c.sorted)
  prev := by
    rintro c x rfl hx
    obtain ⟨s, hs, rfl, hall⟩ := spot_of_entry hx
    refine ⟨rfl, ?_⟩
    show Greatest _ ((c.spot.bind Spot.prev).map Spot.here)
    rw [hs, ← hall]
    exact prev_greatest (hall ▸ c.sorted)

end Cursor

end Cursors
