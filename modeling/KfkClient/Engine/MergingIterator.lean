import KfkClient.Lib.Cursor
import KfkClient.Lib.Lists

/-!
# The merging iterator (`merger.cc`)

A merging iterator shows the entries of its children as one iterator. While it moves forward
every child stands at its first entry at or after the current one, while it moves backward
every child stands at its last entry at or before it; a change of direction moves the other
children over.

## Main results

- `MergingIterator.iterates` — it is an iterator over the union of its children's sets
-/

namespace KfkClient.Engine

open Cursors Cursors.Keyed Lists

inductive Direction where
  | forward
  | reverse
  deriving DecidableEq, Repr

structure MergingIterator (ι : Type) where
  children : List ι
  current : Option ℕ
  direction : Direction
  deriving Repr

namespace MergingIterator

variable {ι E T : Type}

def new (children : List ι) : MergingIterator ι := ⟨children, none, .forward⟩

def others (f : ι → ι) (i : ℕ) (children : List ι) : List ι :=
  children.mapIdx fun j child => if j = i then child else f child

variable [Iter ι E T]

def childEntry (children : List ι) (i : ℕ) : Option E := children[i]?.bind Iter.entry

/-- `key()` and `value()`, when valid. -/
def entry (it : MergingIterator ι) : Option E := it.current.bind (childEntry it.children)

/-- The current child is the one that the scan chose, and shows the entry that it saw. -/
theorem entry_of_scan {children : List ι} {best : Option (ℕ × E)} (d : Direction)
    (h : ∀ j x, best = some (j, x) → childEntry children j = some x) :
    entry ⟨children, best.map Prod.fst, d⟩ = best.map Prod.snd := by
  cases best with
  | none => rfl
  | some b => exact h b.1 b.2 rfl

theorem childEntry_of_entry {it : MergingIterator ι} {x : E} (h : it.entry = some x) :
    ∃ i, it.current = some i ∧ ∃ c, it.children[i]? = some c ∧ Iter.entry c = some x := by
  obtain ⟨i, hi, hx⟩ := Option.bind_eq_some_iff.mp h
  exact ⟨i, hi, Option.bind_eq_some_iff.mp hx⟩

variable [Keyed E T]

/-- One round of `FindSmallest` and `FindLargest`: a valid child replaces the best one so far
only when it is strictly better. -/
def consider (better : T → T → Bool) (i : ℕ) (child : ι) (best : Option (ℕ × E)) :
    Option (ℕ × E) :=
  match Iter.entry child with
  | none => best
  | some x =>
    match best with
    | none => some (i, x)
    | some (j, y) => if better (key x) (key y) then some (i, x) else some (j, y)

theorem consider_snd (better : T → T → Bool) (i : ℕ) (child : ι) (best : Option (ℕ × E)) :
    (consider better i child best).map Prod.snd =
      pick better (best.map Prod.snd) (Iter.entry child) := by
  rw [consider]
  cases best with
  | none => cases Iter.entry child <;> rfl
  | some b =>
    cases Iter.entry child with
    | none => rfl
    | some x =>
      show Option.map _ (if _ then _ else _) = if _ then _ else _
      split <;> rfl

theorem consider_entry {better : T → T → Bool} {i j : ℕ} {child : ι} {best : Option (ℕ × E)}
    {x : E} (h : consider better i child best = some (j, x)) :
    best = some (j, x) ∨ j = i ∧ Iter.entry child = some x := by
  rw [consider] at h
  cases hc : Iter.entry child with
  | none =>
    rw [hc] at h
    exact .inl h
  | some y =>
    rw [hc] at h
    cases best with
    | none =>
      cases h
      exact .inr ⟨rfl, rfl⟩
    | some b =>
      dsimp only at h
      split at h
      · cases h
        exact .inr ⟨rfl, rfl⟩
      · exact .inl h

/-- What the children of a list of sets show together. -/
def union (P : T → Prop) (sets : List (Set E)) : Set E := {x | (∃ S ∈ sets, x ∈ S) ∧ P (key x)}

theorem union_cons {P : T → Prop} {S : Set E} {sets : List (Set E)} {x : E} :
    x ∈ union P (S :: sets) ↔ x ∈ {y | y ∈ S ∧ P (key y)} ∪ union P sets := by
  constructor
  · rintro ⟨⟨S', hS', hx⟩, hP⟩
    rcases List.mem_cons.mp hS' with rfl | hS'
    · exact .inl ⟨hx, hP⟩
    · exact .inr ⟨⟨S', hS', hx⟩, hP⟩
  · rintro (⟨hx, hP⟩ | ⟨⟨S', hS', hx⟩, hP⟩)
    · exact ⟨⟨S, List.mem_cons_self, hx⟩, hP⟩
    · exact ⟨⟨S', List.mem_cons_of_mem _ hS', hx⟩, hP⟩

theorem best_union_nil {r : T → T → Prop} {P : T → Prop} :
    Best r (union P ([] : List (Set E))) none := by
  rintro y ⟨⟨S, hS, _⟩, _⟩
  exact List.not_mem_nil hS

/-- Every child stands at the best entry that `P` allows. -/
def Stand (r : T → T → Prop) (P : T → Prop) (children : List ι) (sets : List (Set E)) : Prop :=
  List.Forall₂ (fun c S => Best r {y | y ∈ S ∧ P (key y)} (Iter.entry c)) children sets

theorem stand_narrow {r : T → T → Prop} {P Q : T → Prop} {children : List ι}
    {sets : List (Set E)}
    (h : Stand r P children sets)
    (hPQ : ∀ S ∈ sets, ∀ y ∈ S, P (key y) ↔ Q (key y)) : Stand r Q children sets := by
  induction h with
  | nil => exact .nil
  | cons hc _ ih =>
    refine .cons (hc.congr fun y => ?_) (ih fun S hS => hPQ S (List.mem_cons_of_mem _ hS))
    exact and_congr_right fun hy => hPQ _ List.mem_cons_self y hy

/-- Every child is moved. -/
theorem map_stand {r : T → T → Prop} {P : T → Prop} {f : ι → ι} {Okc : Set E → ι → Prop}
    {sets : List (Set E)} {children : List ι}
    (hf : ∀ S ∈ sets, ∀ c, Okc S c →
      Okc S (f c) ∧ Best r {y | y ∈ S ∧ P (key y)} (Iter.entry (f c)))
    (h : List.Forall₂ (fun c S => Okc S c) children sets) :
    List.Forall₂ (fun c S => Okc S c) (children.map f) sets ∧ Stand r P (children.map f) sets := by
  induction h with
  | nil => exact ⟨.nil, .nil⟩
  | cons hc _ ih =>
    have hhead := hf _ List.mem_cons_self _ hc
    have htail := ih fun S hS => hf S (List.mem_cons_of_mem _ hS)
    exact ⟨.cons hhead.1 htail.1, .cons hhead.2 htail.2⟩

/-- No key occurs in two children. -/
def NoCommonKey (sets : List (Set E)) : Prop :=
  sets.Pairwise fun S S' => ∀ x ∈ S, ∀ y ∈ S', key x ≠ key y

theorem NoCommonKey.of_ne {sets : List (Set E)} (h : NoCommonKey sets) {i j : ℕ} {S S' : Set E}
    (hS : sets[i]? = some S) (hS' : sets[j]? = some S') (hne : i ≠ j) {x y : E} (hx : x ∈ S)
    (hy : y ∈ S') : key x ≠ key y := by
  obtain ⟨hi, rfl⟩ := List.getElem?_eq_some_iff.mp hS
  obtain ⟨hj, rfl⟩ := List.getElem?_eq_some_iff.mp hS'
  have hpair := List.pairwise_iff_getElem.mp h
  rcases Nat.lt_or_gt_of_ne hne with hlt | hlt
  · exact hpair i j hi hj hlt x hx y hy
  · exact (hpair j i hj hi hlt y hy x hx).symm

variable [LinearOrder T]

def smallestLoop : ℕ → List ι → Option (ℕ × E) → Option (ℕ × E)
  | _, [], smallest => smallest
  | i, child :: rest, smallest =>
    smallestLoop (i + 1) rest (consider (fun a b => decide (a < b)) i child smallest)

-- the last child is looked at first
def largestLoop : ℕ → List ι → Option (ℕ × E)
  | _, [] => none
  | i, child :: rest =>
    consider (fun a b => decide (b < a)) i child (largestLoop (i + 1) rest)

def findSmallest (children : List ι) : Option ℕ := (smallestLoop 0 children none).map Prod.fst

def findLargest (children : List ι) : Option ℕ := (largestLoop 0 children).map Prod.fst

def seekToFirst (it : MergingIterator ι) : MergingIterator ι :=
  let children := it.children.map Iter.seekToFirst
  ⟨children, findSmallest children, .forward⟩

def seekToLast (it : MergingIterator ι) : MergingIterator ι :=
  let children := it.children.map Iter.seekToLast
  ⟨children, findLargest children, .reverse⟩

def seek (target : T) (it : MergingIterator ι) : MergingIterator ι :=
  let children := it.children.map (Iter.seek target)
  ⟨children, findSmallest children, .forward⟩

/-- A child other than the current one is moved past the current key. -/
def past (x : E) (child : ι) : ι :=
  let child := Iter.seek (key x) child
  match Iter.entry child with
  | some y => if key x = key y then Iter.next child else child
  | none => child

/-- A child other than the current one is moved before the current key. -/
def ahead (x : E) (child : ι) : ι :=
  let child := Iter.seek (key x) child
  match Iter.entry child with
  | some _ => Iter.prev child
  | none => Iter.seekToLast child

def next (it : MergingIterator ι) : MergingIterator ι :=
  match it.current, it.entry with
  | some i, some x =>
    let children :=
      if it.direction = .forward then it.children else others (past x) i it.children
    let children := children.modify i Iter.next
    ⟨children, findSmallest children, .forward⟩
  | _, _ => it

def prev (it : MergingIterator ι) : MergingIterator ι :=
  match it.current, it.entry with
  | some i, some x =>
    let children :=
      if it.direction = .reverse then it.children else others (ahead x) i it.children
    let children := children.modify i Iter.prev
    ⟨children, findLargest children, .reverse⟩
  | _, _ => it

instance : Iter (MergingIterator ι) E T where
  entry := entry
  seekToFirst := seekToFirst
  seekToLast := seekToLast
  seek := seek
  next := next
  prev := prev

/-! ### The current child -/

theorem smallestLoop_least {P : T → Prop} {children : List ι} {sets : List (Set E)}
    (h : Stand (· ≤ ·) P children sets) {A : Set E} (i : ℕ) {smallest : Option (ℕ × E)}
    (hA : Least A (smallest.map Prod.snd)) :
    Least (A ∪ union P sets) ((smallestLoop i children smallest).map Prod.snd) := by
  induction h generalizing i A smallest with
  | nil =>
    refine hA.congr fun x => ?_
    constructor
    · exact fun hx => .inl hx
    · exact fun hx => hx.resolve_right (best_union_nil (r := (· ≤ ·)) x)
  | cons hc _ ih =>
    have hstep := Least.pick hA hc
    rw [← consider_snd (i := i)] at hstep
    refine (ih (i + 1) hstep).congr fun x => ?_
    rw [Set.union_assoc]
    exact or_congr_right union_cons.symm

theorem largestLoop_greatest {P : T → Prop} {children : List ι} {sets : List (Set E)}
    (h : Stand (· ≥ ·) P children sets) (i : ℕ) :
    Greatest (union P sets) ((largestLoop i children).map Prod.snd) := by
  induction h generalizing i with
  | nil => exact best_union_nil
  | cons hc _ ih =>
    have hstep := Greatest.pick (ih (i + 1)) hc
    rw [← consider_snd (i := i)] at hstep
    refine hstep.congr fun x => ?_
    rw [union_cons, Set.union_comm]

theorem smallestLoop_entry {children : List ι} {n j : ℕ} {smallest : Option (ℕ × E)} {x : E}
    (h : smallestLoop n children smallest = some (j, x)) :
    smallest = some (j, x) ∨ ∃ i, j = n + i ∧ childEntry children i = some x := by
  induction children generalizing n smallest with
  | nil => exact .inl h
  | cons child rest ih =>
    rcases ih h with hbest | ⟨i, rfl, hi⟩
    · rcases consider_entry hbest with hsmall | ⟨rfl, hx⟩
      · exact .inl hsmall
      · exact .inr ⟨0, rfl, hx⟩
    · exact .inr ⟨i + 1, by omega, hi⟩

theorem largestLoop_entry {children : List ι} {n j : ℕ} {x : E}
    (h : largestLoop n children = some (j, x)) :
    ∃ i, j = n + i ∧ childEntry children i = some x := by
  induction children generalizing n with
  | nil => cases h
  | cons child rest ih =>
    rcases consider_entry h with hrest | ⟨rfl, hx⟩
    · obtain ⟨i, rfl, hi⟩ := ih hrest
      exact ⟨i + 1, by omega, hi⟩
    · exact ⟨0, rfl, hx⟩

theorem entry_findSmallest (children : List ι) (d : Direction) :
    entry ⟨children, findSmallest children, d⟩ = (smallestLoop 0 children none).map Prod.snd := by
  refine entry_of_scan d fun j x h => ?_
  rcases smallestLoop_entry h with h | ⟨i, rfl, hi⟩
  · cases h
  · rwa [Nat.zero_add]

theorem entry_findLargest (children : List ι) (d : Direction) :
    entry ⟨children, findLargest children, d⟩ = (largestLoop 0 children).map Prod.snd := by
  refine entry_of_scan d fun j x h => ?_
  obtain ⟨i, rfl, hi⟩ := largestLoop_entry h
  rwa [Nat.zero_add]

/-! ### The invariant -/

/-- Where the children stand, by the direction of the last move. -/
def Placed (it : MergingIterator ι) (sets : List (Set E)) (x : E) : Prop :=
  match it.direction with
  | .forward => Stand (· ≤ ·) (key x ≤ ·) it.children sets
  | .reverse => Stand (· ≥ ·) (· ≤ key x) it.children sets

structure Ok (Okc : Set E → ι → Prop) (sets : List (Set E)) (it : MergingIterator ι) : Prop where
  children : List.Forall₂ (fun c S => Okc S c) it.children sets
  placed : ∀ x, it.entry = some x → it.Placed sets x

variable {Okc : Set E → ι → Prop} {sets : List (Set E)}

/-- After the children are placed for a move forward, the smallest one is the current one. -/
theorem settle_forward {P : T → Prop} (hP : ∀ a b, P a → a ≤ b → P b) {children : List ι}
    (hok : List.Forall₂ (fun c S => Okc S c) children sets)
    (hstand : Stand (· ≤ ·) P children sets) :
    Ok Okc sets ⟨children, findSmallest children, .forward⟩ ∧
      Least (union P sets) (entry ⟨children, findSmallest children, .forward⟩) := by
  have hleast : Least (union P sets) (entry ⟨children, findSmallest children, .forward⟩) := by
    rw [entry_findSmallest]
    have hnone : Least (∅ : Set E) ((none : Option (ℕ × E)).map Prod.snd) := fun _ hy => hy
    have h := smallestLoop_least hstand 0 hnone
    rwa [Set.empty_union] at h
  refine ⟨⟨hok, fun x hx => ?_⟩, hleast⟩
  rw [hx] at hleast
  show Stand (· ≤ ·) (key x ≤ ·) children sets
  refine stand_narrow hstand fun S hS y hy => ?_
  constructor
  · exact fun hPy => hleast.2 y ⟨⟨S, hS, hy⟩, hPy⟩
  · exact hP _ _ hleast.1.2

theorem settle_reverse {P : T → Prop} (hP : ∀ a b, P a → b ≤ a → P b) {children : List ι}
    (hok : List.Forall₂ (fun c S => Okc S c) children sets)
    (hstand : Stand (· ≥ ·) P children sets) :
    Ok Okc sets ⟨children, findLargest children, .reverse⟩ ∧
      Greatest (union P sets) (entry ⟨children, findLargest children, .reverse⟩) := by
  have hgreatest : Greatest (union P sets)
      (entry ⟨children, findLargest children, .reverse⟩) := by
    rw [entry_findLargest]
    exact largestLoop_greatest hstand 0
  refine ⟨⟨hok, fun x hx => ?_⟩, hgreatest⟩
  rw [hx] at hgreatest
  show Stand (· ≥ ·) (· ≤ key x) children sets
  refine stand_narrow hstand fun S hS y hy => ?_
  constructor
  · exact fun hPy => hgreatest.2 y ⟨⟨S, hS, hy⟩, hPy⟩
  · exact hP _ _ hgreatest.1.2

/-! ### The moves -/

/-- The child that is current moves one way, the others another. -/
theorem forall₂_move {R R' : ι → Set E → Prop} {children : List ι} (f g : ι → ι) (i : ℕ)
    (h : List.Forall₂ R children sets)
    (hcur : ∀ c S, children[i]? = some c → sets[i]? = some S → R c S → R' (g c) S)
    (hother : ∀ j c S, j ≠ i → children[j]? = some c → sets[j]? = some S → R c S → R' (f c) S) :
    List.Forall₂ R' ((others f i children).modify i g) sets := by
  refine forall₂_of_getElem h (by rw [List.length_modify, others, List.length_mapIdx]) ?_
  intro j c c₁ S hc hc₁ hS hR
  rw [List.getElem?_modify, others, List.getElem?_mapIdx, hc] at hc₁
  by_cases hij : i = j
  · subst hij
    simp only [Option.map_some, ↓reduceIte] at hc₁
    cases hc₁
    exact hcur c S hc hS hR
  · simp only [Option.map_some, if_neg hij, if_neg (Ne.symm hij)] at hc₁
    cases hc₁
    exact hother j c S (Ne.symm hij) hc hS hR

theorem others_id (i : ℕ) (children : List ι) : others id i children = children := by
  refine List.ext_getElem? fun j => ?_
  rw [others, List.getElem?_mapIdx]
  cases children[j]? with
  | none => rfl
  | some c =>
    show some (if j = i then c else c) = some c
    rw [ite_self]

section Moves

variable (hiter : ∀ S ∈ sets, Iterates S (Okc S))

include hiter

theorem mem_of_entry {it : MergingIterator ι} (hok : Ok Okc sets it) {x : E} {i : ℕ} {c : ι}
    (hc : it.children[i]? = some c) (hx : Iter.entry c = some x) :
    ∃ S, sets[i]? = some S ∧ x ∈ S := by
  obtain ⟨hi, rfl⟩ := List.getElem?_eq_some_iff.mp hc
  have hi' : i < sets.length := hok.children.length_eq ▸ hi
  refine ⟨sets.get ⟨i, hi'⟩, List.getElem?_eq_getElem hi', ?_⟩
  exact (hiter _ (List.get_mem _ _)).mem (hok.children.get hi hi') hx

/-- A child at its first entry from the key of `x` on, which it does not have, is past `x`. -/
theorem past_spec {S : Set E} (hS : S ∈ sets) {x : E} (c : ι) (hc : Okc S c) :
    Okc S (past x c) ∧ Least (after S (key x)) (Iter.entry (past x c)) := by
  have hseek := (hiter S hS).seek (key x) hc
  rw [past]
  split
  · rename_i y hy
    split
    · rename_i hxy
      have hnext := (hiter S hS).next hseek.1 hy
      rwa [← hxy] at hnext
    · rename_i hxy
      refine ⟨hseek.1, ?_⟩
      rw [hy] at hseek ⊢
      have hlt : key x < key y := hseek.2.1.2.lt_of_ne hxy
      exact ⟨⟨hseek.2.1.1, hlt⟩, fun z hz => hseek.2.2 z ⟨hz.1, hz.2.le⟩⟩
  · rename_i hy
    refine ⟨hseek.1, ?_⟩
    rw [hy] at hseek ⊢
    exact fun z hz => hseek.2 z ⟨hz.1, hz.2.le⟩

theorem ahead_spec {S : Set E} (hS : S ∈ sets) {x : E} (c : ι) (hc : Okc S c) :
    Okc S (ahead x c) ∧ Greatest (before S (key x)) (Iter.entry (ahead x c)) := by
  have hseek := (hiter S hS).seek (key x) hc
  rw [ahead]
  split
  · -- `y` is the first entry from `x` on, so what is before it is before `x`
    rename_i y hy
    have hprev := (hiter S hS).prev hseek.1 hy
    refine ⟨hprev.1, hprev.2.congr fun z => and_congr_right fun hz => ?_⟩
    rw [hy] at hseek
    constructor
    · intro hlt
      by_contra hge
      exact absurd (hseek.2.2 z ⟨hz, not_lt.mp hge⟩) (not_le.mpr hlt)
    · exact fun hlt => hlt.trans_le hseek.2.1.2
  · rename_i hy
    have hlast := (hiter S hS).seekToLast hseek.1
    refine ⟨hlast.1, hlast.2.congr fun z => ?_⟩
    rw [hy] at hseek
    constructor
    · exact fun hz => ⟨hz, not_le.mp fun hle => hseek.2 z ⟨hz, hle⟩⟩
    · exact fun hz => hz.1

variable (hsep : NoCommonKey sets)

include hsep

/-- Another child has no entry with the current key. -/
theorem stand_others {it : MergingIterator ι} (hok : Ok Okc sets it) {x : E} {i : ℕ} {c : ι}
    (hc : it.children[i]? = some c) (hx : Iter.entry c = some x) {j : ℕ} {S : Set E}
    (hne : j ≠ i) (hS : sets[j]? = some S) {y : E} (hy : y ∈ S) : key y ≠ key x := by
  obtain ⟨S', hS', hxS⟩ := mem_of_entry hiter hok hc hx
  exact hsep.of_ne hS hS' hne hy hxS

/-- `Next`: whatever way the iterator moved before, every child is past the current key. -/
theorem next_stand {it : MergingIterator ι} (hok : Ok Okc sets it) {x : E} {i : ℕ} {c : ι}
    (hent : it.entry = some x) (hc : it.children[i]? = some c) (hx : Iter.entry c = some x) :
    let children := (if it.direction = .forward then it.children
      else others (past x) i it.children).modify i Iter.next
    List.Forall₂ (fun c S => Okc S c ∧ Best (· ≤ ·) {y | y ∈ S ∧ key x < key y} (Iter.entry c))
      children sets := by
  have hplaced := hok.placed x hent
  rw [Placed] at hplaced
  intro children
  have hcur : ∀ c' S, it.children[i]? = some c' → sets[i]? = some S → Okc S c' →
      Okc S (Iter.next c') ∧
        Best (· ≤ ·) {y | y ∈ S ∧ key x < key y} (Iter.entry (Iter.next c')) := by
    intro c' S hc' hS hok'
    cases hc.symm.trans hc'
    exact (hiter S (List.mem_of_getElem? hS)).next hok' hx
  cases hd : it.direction with
  | forward =>
    rw [hd] at hplaced
    have hboth := Lists.forall₂_and hok.children hplaced
    have hchildren : children = (others id i it.children).modify i Iter.next := by
      show List.modify (if it.direction = Direction.forward then _ else _) i _ = _
      rw [if_pos hd, others_id]
    rw [hchildren]
    refine forall₂_move id Iter.next i hboth (fun c' S hc' hS h => hcur c' S hc' hS h.1) ?_
    rintro j c' S hne hc' hS ⟨hok', hstand⟩
    refine ⟨hok', hstand.congr fun y => and_congr_right fun hy => ?_⟩
    have hkey := stand_others hiter hsep hok hc hx hne hS hy
    exact ⟨fun hle => hle.lt_of_ne hkey.symm, le_of_lt⟩
  | reverse =>
    have hchildren : children = (others (past x) i it.children).modify i Iter.next := by
      show List.modify (if it.direction = Direction.forward then _ else _) i _ = _
      rw [if_neg (by rw [hd]; exact Direction.noConfusion)]
    rw [hchildren]
    refine forall₂_move (past x) Iter.next i hok.children hcur ?_
    intro j c' S _ _ hS hok'
    exact past_spec hiter (List.mem_of_getElem? hS) c' hok'

theorem prev_stand {it : MergingIterator ι} (hok : Ok Okc sets it) {x : E} {i : ℕ} {c : ι}
    (hent : it.entry = some x) (hc : it.children[i]? = some c) (hx : Iter.entry c = some x) :
    let children := (if it.direction = .reverse then it.children
      else others (ahead x) i it.children).modify i Iter.prev
    List.Forall₂ (fun c S => Okc S c ∧ Best (· ≥ ·) {y | y ∈ S ∧ key y < key x} (Iter.entry c))
      children sets := by
  have hplaced := hok.placed x hent
  rw [Placed] at hplaced
  intro children
  have hcur : ∀ c' S, it.children[i]? = some c' → sets[i]? = some S → Okc S c' →
      Okc S (Iter.prev c') ∧
        Best (· ≥ ·) {y | y ∈ S ∧ key y < key x} (Iter.entry (Iter.prev c')) := by
    intro c' S hc' hS hok'
    cases hc.symm.trans hc'
    exact (hiter S (List.mem_of_getElem? hS)).prev hok' hx
  cases hd : it.direction with
  | reverse =>
    rw [hd] at hplaced
    have hboth := Lists.forall₂_and hok.children hplaced
    have hchildren : children = (others id i it.children).modify i Iter.prev := by
      show List.modify (if it.direction = Direction.reverse then _ else _) i _ = _
      rw [if_pos hd, others_id]
    rw [hchildren]
    refine forall₂_move id Iter.prev i hboth (fun c' S hc' hS h => hcur c' S hc' hS h.1) ?_
    rintro j c' S hne hc' hS ⟨hok', hstand⟩
    refine ⟨hok', hstand.congr fun y => and_congr_right fun hy => ?_⟩
    have hkey := stand_others hiter hsep hok hc hx hne hS hy
    exact ⟨fun hle => hle.lt_of_ne hkey, le_of_lt⟩
  | forward =>
    have hchildren : children = (others (ahead x) i it.children).modify i Iter.prev := by
      show List.modify (if it.direction = Direction.reverse then _ else _) i _ = _
      rw [if_neg (by rw [hd]; exact Direction.noConfusion)]
    rw [hchildren]
    refine forall₂_move (ahead x) Iter.prev i hok.children hcur ?_
    intro j c' S _ _ hS hok'
    exact ahead_spec hiter (List.mem_of_getElem? hS) c' hok'

/-- A merging iterator is an iterator over what its children are iterators over. -/
theorem iterates :
    Iterates {x | ∃ S ∈ sets, x ∈ S} (Ok Okc sets) where
  mem := by
    intro it x hok hx
    obtain ⟨i, _, c, hc, hxc⟩ := childEntry_of_entry hx
    obtain ⟨S, hS, hxS⟩ := mem_of_entry hiter hok hc hxc
    exact ⟨S, List.mem_of_getElem? hS, hxS⟩
  seekToFirst := by
    intro it hok
    have hall : ∀ S ∈ sets, ∀ c, Okc S c → Okc S (Iter.seekToFirst c) ∧
        Best (· ≤ ·) {y | y ∈ S ∧ True} (Iter.entry (Iter.seekToFirst c)) := by
      intro S hS c hc
      have h := (hiter S hS).seekToFirst hc
      exact ⟨h.1, h.2.congr fun y => (and_iff_left trivial).symm⟩
    have hmoved := map_stand (P := fun _ => True) hall hok.children
    have h := settle_forward (fun _ _ _ _ => trivial) hmoved.1 hmoved.2
    exact ⟨h.1, h.2.congr fun y => and_iff_left trivial⟩
  seekToLast := by
    intro it hok
    have hall : ∀ S ∈ sets, ∀ c, Okc S c → Okc S (Iter.seekToLast c) ∧
        Best (· ≥ ·) {y | y ∈ S ∧ True} (Iter.entry (Iter.seekToLast c)) := by
      intro S hS c hc
      have h := (hiter S hS).seekToLast hc
      exact ⟨h.1, h.2.congr fun y => (and_iff_left trivial).symm⟩
    have hmoved := map_stand (P := fun _ => True) hall hok.children
    have h := settle_reverse (fun _ _ _ _ => trivial) hmoved.1 hmoved.2
    exact ⟨h.1, h.2.congr fun y => and_iff_left trivial⟩
  seek := by
    intro it t hok
    have hmoved := map_stand (P := (t ≤ ·)) (fun S hS c hc => (hiter S hS).seek t hc) hok.children
    exact settle_forward (fun _ _ h hle => le_trans h hle) hmoved.1 hmoved.2
  next := by
    intro it x hok hx
    obtain ⟨i, hi, c, hc, hxc⟩ := childEntry_of_entry hx
    have hstand := next_stand hiter hsep hok hx hc hxc
    have hent : it.entry = some x := hx
    have heq : Iter.next it = it.next := rfl
    rw [heq, next, hi, hent]
    exact settle_forward (fun _ _ h hle => lt_of_lt_of_le h hle) (hstand.imp fun _ _ h => h.1)
      (hstand.imp fun _ _ h => h.2)
  prev := by
    intro it x hok hx
    obtain ⟨i, hi, c, hc, hxc⟩ := childEntry_of_entry hx
    have hstand := prev_stand hiter hsep hok hx hc hxc
    have hent : it.entry = some x := hx
    have heq : Iter.prev it = it.prev := rfl
    rw [heq, prev, hi, hent]
    exact settle_reverse (fun _ _ h hle => lt_of_le_of_lt hle h) (hstand.imp fun _ _ h => h.1)
      (hstand.imp fun _ _ h => h.2)

end Moves

theorem new_ok {children : List ι} (h : List.Forall₂ (fun c S => Okc S c) children sets) :
    Ok Okc sets (new children) := ⟨h, fun _ hx => by cases hx⟩

end MergingIterator

/-- One child is used as it is. -/
def newMergingIterator {ι : Type} : List ι → MergingIterator ι ⊕ ι
  | [child] => .inr child
  | list => .inl (.new list)

open MergingIterator in
theorem newMergingIterator_iterates {ι E T : Type} [Iter ι E T] [Keyed E T] [LinearOrder T]
    {Okc : Set E → ι → Prop} {sets : List (Set E)} {children : List ι}
    (hiter : ∀ S ∈ sets, Iterates S (Okc S)) (hsep : NoCommonKey sets)
    (h : List.Forall₂ (fun c S => Okc S c) children sets) :
    ∃ Ok : MergingIterator ι ⊕ ι → Prop, Iterates {x | ∃ S ∈ sets, x ∈ S} Ok ∧
      Ok (newMergingIterator children) := by
  have hmerge := MergingIterator.iterates hiter hsep
  match children, sets, h with
  | [], [], _ => exact ⟨_, hmerge.sum Iterates.never, new_ok .nil⟩
  | [child], [S], .cons hc .nil =>
    refine ⟨_, hmerge.sum (?_ : Iterates _ (Okc S)), hc⟩
    have hS : {x | ∃ S' ∈ [S], x ∈ S'} = S := by
      ext x
      simp
    rw [hS]
    exact hiter S List.mem_cons_self
  | _ :: _ :: _, _ :: _ :: _, h => exact ⟨_, hmerge.sum Iterates.never, new_ok h⟩

/-- Whatever calls are made, a merging iterator over sorted runs without a key in common does
what a cursor on the merged run does. -/
theorem merging_iterator_merges {E T : Type} [Keyed E T] [LinearOrder T]
    (children : List (Cursor E)) (merged : Cursor E)
    (hsep : children.Pairwise fun c c' => ∀ x ∈ c.all, ∀ y ∈ c'.all, key x ≠ key y)
    (hall : ∀ x, x ∈ merged.all ↔ ∃ c ∈ children, x ∈ c.all) (hnew : merged.spot = none)
    (moves : List (Move T)) :
    Option.Rel (fun it c => Iter.entry it = Iter.entry c)
      (Transition.run Iter.move (MergingIterator.new children) moves)
      (Transition.run Iter.move merged moves) := by
  let Okc : Set E → Cursor E → Prop := fun S c => ∃ xs, {x | x ∈ xs} = S ∧ c.all = xs
  have hiter : ∀ S, Iterates S (Okc S) := by
    intro S
    refine Iterates.exists ?_
    rintro xs rfl
    exact Cursor.iterates xs
  have hmerge : Iterates _ (MergingIterator.Ok Okc (children.map fun c => {x | x ∈ c.all})) :=
    MergingIterator.iterates (fun S _ => hiter S) (List.pairwise_map.mpr hsep)
  have hset : {x | ∃ S ∈ children.map (fun c => {x | x ∈ c.all}), x ∈ S} =
      {x | x ∈ merged.all} := by
    ext x
    rw [Set.mem_ofPred_eq, Set.mem_ofPred_eq, hall x]
    simp
  rw [hset] at hmerge
  have hinj : Set.InjOn key {x | x ∈ merged.all} := Cursor.injOn merged
  refine Transition.rel_mono (fun _ _ h => h.2.2)
    (hmerge.presents.run_rel (Cursor.iterates merged.all).presents hinj ?_ rfl ?_ moves)
  · exact MergingIterator.new_ok
      (List.forall₂_map_right_iff.mpr (List.forall₂_same.mpr fun c _ => ⟨c.all, rfl, rfl⟩))
  · show none = merged.spot.map Spot.here
    rw [hnew]
    rfl

theorem merging_iterator_merges_two :
    let odd : Cursor (ℕ × ℕ) := .new [(1, 10), (5, 50)] (by decide)
    let even : Cursor (ℕ × ℕ) := .new [(2, 20)] (by decide)
    ∃ it, Transition.run Iter.move (MergingIterator.new [odd, even])
        [.seek 2, .prev, .next, .next] = some it ∧ Iter.entry it = some (5, 50) := by
  intro odd even
  have hrel := merging_iterator_merges [odd, even] (.new [(1, 10), (2, 20), (5, 50)] (by decide))
    (by decide) (fun x => by simp [odd, even, Cursor.new]; tauto) rfl
    [.seek 2, .prev, .next, .next]
  revert hrel
  generalize Transition.run Iter.move (MergingIterator.new [odd, even]) _ = r
  rintro ⟨⟩
  exact ⟨_, rfl, by assumption⟩

end KfkClient.Engine
