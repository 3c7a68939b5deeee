import KfkClient.Engine.InternalKey
import KfkClient.Lib.Bisect
import KfkClient.Lib.Lists

/-!
# Versions: the table files of each level (`version_edit.h`, `version_set.cc`)

A table file is its `FileMetaData` together with the entries in it. The files of level 0 may
overlap and the one with the greatest number is the newest; the files of a deeper level are
sorted and share no user key.

## Main definitions

- `FileMetaData`, `Version`, `Apart` — files, the files of all levels, files sharing no user key
- `findFile`, `someFileOverlapsRange`, `getOverlappingInputs`, `pickLevelForMemTableOutput`

## Main results

- `findFile_split` — the bisection parts the files of a level
- `someFileOverlapsRange_iff` — the search for an overlap is exact
- `getOverlappingInputs_spec` — the inputs found are closed under overlap in level 0
-/

namespace KfkClient.Engine

open MultiVersion Bisect Lists

def kNumLevels : ℕ := 7

def kMaxMemCompactLevel : ℕ := 2

/-- A table file: what `FileMetaData` says about it, and the entries that were added to it, the
first and the last of which give its range. -/
structure FileMetaData (K V : Type) [LinearOrder K] where
  number : ℕ
  fileSize : ℕ
  smallest : InternalKey K
  largest : InternalKey K
  content : List (Entry K V)
  sorted : Sorted content
  head_eq : content.head?.map Entry.ikey = some smallest
  last_eq : content.getLast?.map Entry.ikey = some largest

/-- The files of each level. -/
abbrev Version (K V : Type) [LinearOrder K] := ℕ → List (FileMetaData K V)

variable {K V : Type} [LinearOrder K]

namespace FileMetaData

variable (f : FileMetaData K V)

def entries : Set (Entry K V) := Engine.entries f.content

theorem smallest_mem : ∃ e ∈ f.entries, Entry.ikey e = f.smallest := by
  obtain ⟨e, he, hk⟩ := Option.map_eq_some_iff.mp f.head_eq
  exact ⟨e, List.mem_of_head? he, hk⟩

theorem largest_mem : ∃ e ∈ f.entries, Entry.ikey e = f.largest := by
  obtain ⟨e, he, hk⟩ := Option.map_eq_some_iff.mp f.last_eq
  exact ⟨e, List.mem_of_getLast? he, hk⟩

variable {f}

theorem smallest_le {e : Entry K V} (he : e ∈ f.entries) : f.smallest ≤ Entry.ikey e := by
  obtain ⟨x, hx, hk⟩ := Option.map_eq_some_iff.mp f.head_eq
  obtain ⟨rest, hrest⟩ := List.head?_eq_some_iff.mp hx
  have hsorted := f.sorted
  rw [Sorted, hrest] at hsorted
  have hmem : e ∈ f.content := he
  rw [hrest] at hmem
  rcases List.mem_cons.mp hmem with rfl | hmem
  · exact hk.ge
  · rw [← hk]
    exact ((List.pairwise_cons.mp hsorted).1 e hmem).le

theorem le_largest {e : Entry K V} (he : e ∈ f.entries) : Entry.ikey e ≤ f.largest := by
  obtain ⟨x, hx, hk⟩ := Option.map_eq_some_iff.mp f.last_eq
  obtain ⟨front, hfront⟩ := List.getLast?_eq_some_iff.mp hx
  have hsorted := f.sorted
  rw [Sorted, hfront] at hsorted
  have hmem : e ∈ f.content := he
  rw [hfront] at hmem
  rcases List.mem_append.mp hmem with hmem | hmem
  · rw [← hk]
    exact ((List.pairwise_append.mp hsorted).2.2 e hmem x (List.mem_singleton_self x)).le
  · rw [List.mem_singleton.mp hmem, hk]

theorem smallest_le_largest (f : FileMetaData K V) : f.smallest ≤ f.largest := by
  obtain ⟨e, he, hk⟩ := f.smallest_mem
  rw [← hk]
  exact le_largest he

theorem range_le (f : FileMetaData K V) : f.smallest.userKey ≤ f.largest.userKey :=
  InternalKey.userKey_le_of_le f.smallest_le_largest

theorem smallest_key_le {e : Entry K V} (he : e ∈ f.entries) : f.smallest.userKey ≤ e.key :=
  InternalKey.userKey_le_of_le (smallest_le he)

theorem key_le_largest {e : Entry K V} (he : e ∈ f.entries) : e.key ≤ f.largest.userKey :=
  InternalKey.userKey_le_of_le (le_largest he)

/-- The user key lies in the range of the file. -/
def Covers (f : FileMetaData K V) (k : K) : Prop :=
  f.smallest.userKey ≤ k ∧ k ≤ f.largest.userKey

theorem covers_of_mem {e : Entry K V} (he : e ∈ f.entries) : f.Covers e.key :=
  ⟨smallest_key_le he, key_le_largest he⟩

/-- The range of the file meets the user keys from `lo` to `hi`. -/
def Overlaps (f : FileMetaData K V) (lo hi : K) : Prop :=
  lo ≤ f.largest.userKey ∧ f.smallest.userKey ≤ hi

instance (f : FileMetaData K V) (lo hi : K) : Decidable (f.Overlaps lo hi) := by
  unfold Overlaps
  infer_instance

end FileMetaData

/-- Files in the order of their keys that share no user key, as in every level but 0. -/
def Apart (files : List (FileMetaData K V)) : Prop :=
  files.Pairwise fun f g => f.largest.userKey < g.smallest.userKey

/-- Files in the order of their internal keys, as a version is checked to have them. Two
neighbours may share a user key. -/
def Consecutive (files : List (FileMetaData K V)) : Prop :=
  files.Pairwise fun f g => f.largest < g.smallest

/-- `FindFile`: the first file whose largest key is not before `key`. -/
def findFile (files : List (FileMetaData K V)) (key : InternalKey K) : ℕ :=
  lowerBound (fun mid => match files[mid]? with
    | some f => decide (f.largest < key)
    | none => false) 0 files.length

-- `AfterFile` and `BeforeFile`, for a user key that is not null
def afterFile (userKey : K) (f : FileMetaData K V) : Bool := decide (f.largest.userKey < userKey)

def beforeFile (userKey : K) (f : FileMetaData K V) : Bool := decide (userKey < f.smallest.userKey)

def someFileOverlapsRange (disjointSortedFiles : Bool) (files : List (FileMetaData K V))
    (smallestUserKey largestUserKey : K) : Bool :=
  if disjointSortedFiles then
    let small : InternalKey K := ⟨smallestUserKey, kMaxSequenceNumber, kValueTypeForSeek⟩
    match files[findFile files small]? with
    | none => false
    | some f => !beforeFile largestUserKey f
  else files.any fun f => !(afterFile smallestUserKey f || beforeFile largestUserKey f)

def overlapInLevel (v : Version K V) (level : ℕ) (smallestUserKey largestUserKey : K) : Bool :=
  someFileOverlapsRange (decide (0 < level)) (v level) smallestUserKey largestUserKey

def totalFileSize (files : List (FileMetaData K V)) : ℕ := (files.map FileMetaData.fileSize).sum

/-- The files whose range reaches beyond a range of user keys on the left or on the right. -/
def beyond (files : List (FileMetaData K V)) (userBegin userEnd : K) : ℕ :=
  files.countP (fun f => f.smallest.userKey < userBegin) +
    files.countP (fun f => userEnd < f.largest.userKey)

theorem beyond_begin_lt {files : List (FileMetaData K V)} {f : FileMetaData K V} (hf : f ∈ files)
    {userBegin : K} (userEnd : K) (h : f.smallest.userKey < userBegin) :
    beyond files f.smallest.userKey userEnd < beyond files userBegin userEnd := by
  have hlt := countP_lt_of_imp (p := fun g : FileMetaData K V =>
      decide (g.smallest.userKey < f.smallest.userKey))
    (q := fun g => decide (g.smallest.userKey < userBegin)) hf (by simp) (by simpa using h)
    fun g _ hg => by simpa using (of_decide_eq_true hg).trans h
  simp only [beyond]
  omega

theorem beyond_end_lt {files : List (FileMetaData K V)} {f : FileMetaData K V} (hf : f ∈ files)
    (userBegin : K) {userEnd : K} (h : userEnd < f.largest.userKey) :
    beyond files userBegin f.largest.userKey < beyond files userBegin userEnd := by
  have hlt := countP_lt_of_imp (p := fun g : FileMetaData K V =>
      decide (f.largest.userKey < g.largest.userKey))
    (q := fun g => decide (userEnd < g.largest.userKey)) hf (by simp) (by simpa using h)
    fun g _ hg => by simpa using h.trans (of_decide_eq_true hg)
  simp only [beyond]
  omega

/-- A search that starts again with fewer files beyond its range is nearer to its end. -/
theorem restart_lt {b b' : ℕ} (h : b' < b) (n i : ℕ) :
    b' * (n + 1) + (n - 0) < b * (n + 1) + (n - i) := by
  have hmul := Nat.mul_le_mul_right (n + 1) (Nat.succ_le_of_lt h)
  rw [Nat.succ_mul] at hmul
  omega

/-- The loop of `GetOverlappingInputs` from the position `i` on. In level 0 a file that
reaches beyond the range widens it, and the search starts again. -/
def overlappingLoop (level : ℕ) (files : List (FileMetaData K V)) (userBegin userEnd : K) (i : ℕ)
    (inputs : List (FileMetaData K V)) : List (FileMetaData K V) :=
  match _h : files[i]? with
  | none => inputs
  | some f =>
    if f.largest.userKey < userBegin then
      overlappingLoop level files userBegin userEnd (i + 1) inputs
    else if userEnd < f.smallest.userKey then
      overlappingLoop level files userBegin userEnd (i + 1) inputs
    else if level = 0 ∧ f.smallest.userKey < userBegin then
      overlappingLoop level files f.smallest.userKey userEnd 0 []
    else if level = 0 ∧ userEnd < f.largest.userKey then
      overlappingLoop level files userBegin f.largest.userKey 0 []
    else overlappingLoop level files userBegin userEnd (i + 1) (inputs ++ [f])
termination_by beyond files userBegin userEnd * (files.length + 1) + (files.length - i)
decreasing_by
  · have hi := (List.getElem?_eq_some_iff.mp _h).1
    omega
  · have hi := (List.getElem?_eq_some_iff.mp _h).1
    omega
  · rename_i hwiden
    exact restart_lt (beyond_begin_lt (List.mem_of_getElem? _h) _ hwiden.2) _ i
  · rename_i hwiden
    exact restart_lt (beyond_end_lt (List.mem_of_getElem? _h) _ hwiden.2) _ i
  · have hi := (List.getElem?_eq_some_iff.mp _h).1
    omega

def getOverlappingInputs (v : Version K V) (level : ℕ) (first last : InternalKey K) :
    List (FileMetaData K V) :=
  overlappingLoop level (v level) first.userKey last.userKey 0 []

-- `MaxGrandParentOverlapBytes`
def maxGrandParentOverlapBytes (maxFileSize : ℕ) : ℕ := 10 * maxFileSize

/-- The loop of `PickLevelForMemTableOutput`, with the number of levels it may still go
down. -/
def pickLevelLoop (maxFileSize : ℕ) (v : Version K V) (smallestUserKey largestUserKey : K)
    (level : ℕ) : ℕ → ℕ
  | 0 => level
  | fuel + 1 =>
    if overlapInLevel v (level + 1) smallestUserKey largestUserKey then level
    else if level + 2 < kNumLevels ∧ maxGrandParentOverlapBytes maxFileSize <
        totalFileSize (getOverlappingInputs v (level + 2)
          ⟨smallestUserKey, kMaxSequenceNumber, kValueTypeForSeek⟩
          ⟨largestUserKey, 0, .deletion⟩) then level
    else pickLevelLoop maxFileSize v smallestUserKey largestUserKey (level + 1) fuel

def pickLevelForMemTableOutput (maxFileSize : ℕ) (v : Version K V)
    (smallestUserKey largestUserKey : K) : ℕ :=
  if overlapInLevel v 0 smallestUserKey largestUserKey then 0
  else pickLevelLoop maxFileSize v smallestUserKey largestUserKey 0 kMaxMemCompactLevel

/-! ## What the searches find -/

theorem Apart.consecutive {files : List (FileMetaData K V)} (h : Apart files) :
    Consecutive files := by
  refine List.Pairwise.imp ?_ h
  intro f g hfg
  exact InternalKey.lt_iff.mpr (.inl hfg)

theorem Consecutive.eq_or_lt {files : List (FileMetaData K V)} (h : Consecutive files)
    {f g : FileMetaData K V} (hf : f ∈ files) (hg : g ∈ files) :
    f = g ∨ f.largest < g.smallest ∨ g.largest < f.smallest := by
  have hpair := List.pairwise_iff_getElem.mp h
  obtain ⟨i, hi, rfl⟩ := List.mem_iff_getElem.mp hf
  obtain ⟨j, hj, rfl⟩ := List.mem_iff_getElem.mp hg
  rcases Nat.lt_trichotomy i j with hlt | rfl | hlt
  · exact .inr (.inl (hpair i j hi hj hlt))
  · exact .inl rfl
  · exact .inr (.inr (hpair j i hj hi hlt))

theorem Consecutive.largest_lt {files : List (FileMetaData K V)} (h : Consecutive files) :
    files.Pairwise fun f g => f.largest < g.largest := by
  refine List.Pairwise.imp ?_ h
  intro f g hfg
  exact hfg.trans_le g.smallest_le_largest

/-- `FindFile` parts the files of a level into those before the key and the others. -/
theorem findFile_split {files : List (FileMetaData K V)} (h : Consecutive files)
    (key : InternalKey K) :
    ∃ before after, files = before ++ after ∧ files[findFile files key]? = after.head? ∧
      (∀ f ∈ before, f.largest < key) ∧ ∀ f ∈ after, key ≤ f.largest := by
  have hlt := List.pairwise_iff_getElem.mp h.largest_lt
  have hmono : ∀ i j, i ≤ j → j < files.length →
      (match files[j]? with
        | some f => decide (f.largest < key)
        | none => false) = true →
      (match files[i]? with
        | some f => decide (f.largest < key)
        | none => false) = true := by
    intro i j hij hj hbefore
    have hi : i < files.length := by omega
    rw [List.getElem?_eq_getElem hj] at hbefore
    rw [List.getElem?_eq_getElem hi]
    have hlej : files[j].largest < key := by simpa using hbefore
    rcases hij.eq_or_lt with rfl | hij
    · simpa using hlej
    · simpa using (hlt i j hi hj hij).trans hlej
  obtain ⟨_, hle, hbelow, habove⟩ := lowerBound_spec hmono (Nat.zero_le _)
  refine ⟨files.take (findFile files key), files.drop (findFile files key),
    (List.take_append_drop _ _).symm, (List.head?_drop).symm, ?_, ?_⟩
  · intro f hf
    obtain ⟨i, hi, rfl⟩ := List.mem_iff_getElem.mp hf
    rw [List.length_take] at hi
    have := hbelow i (Nat.zero_le _) (by unfold findFile at hi; omega)
    rw [List.getElem?_eq_getElem (by omega)] at this
    simpa using this
  · intro f hf
    obtain ⟨i, hi, rfl⟩ := List.mem_iff_getElem.mp hf
    rw [List.length_drop] at hi
    have := habove (findFile files key + i) (Nat.le_add_right _ _) (by omega)
    rw [List.getElem?_eq_getElem (by omega)] at this
    simpa using this

/-- The seek key of a user key comes before all entries for it. -/
theorem lt_seekKey {a : InternalKey K} (ha : a.sequence ≤ kMaxSequenceNumber) (k : K) :
    a < ⟨k, kMaxSequenceNumber, kValueTypeForSeek⟩ ↔ a.userKey < k := by
  rw [InternalKey.lt_iff]
  constructor
  · rintro (h | ⟨_, h⟩)
    · exact h
    · exfalso
      rw [InternalKey.tag_eq, InternalKey.tag_eq] at h
      have hcode := a.type.code_le
      have hone : kValueTypeForSeek.code = 1 := rfl
      dsimp only at h
      rw [hone] at h
      generalize a.type.code = c at hcode h
      omega
  · exact .inl

theorem someFileOverlapsRange_iff {disjointSorted : Bool} {files : List (FileMetaData K V)}
    (hapart : disjointSorted = true → Apart files)
    (hmax : ∀ f ∈ files, f.largest.sequence ≤ kMaxSequenceNumber) (lo hi : K) :
    someFileOverlapsRange disjointSorted files lo hi = true ↔ ∃ f ∈ files, f.Overlaps lo hi := by
  rw [someFileOverlapsRange]
  split
  · rename_i hdisjoint
    obtain ⟨before, after, rfl, hget, hbefore, hafter⟩ := findFile_split
      (hapart hdisjoint).consecutive (⟨lo, kMaxSequenceNumber, kValueTypeForSeek⟩ : InternalKey K)
    have hmiss : ∀ f ∈ before, ¬ f.Overlaps lo hi := by
      intro f hf hover
      have hlt := (lt_seekKey (hmax f (List.mem_append_left _ hf)) lo).mp (hbefore f hf)
      exact absurd hover.1 hlt.not_ge
    dsimp only
    rw [hget]
    cases after with
    | nil =>
      simp only [List.head?_nil, List.append_nil, Bool.false_eq_true, false_iff, not_exists,
        not_and]
      exact hmiss
    | cons g after =>
      have hg : lo ≤ g.largest.userKey := by
        have hmem : g ∈ before ++ g :: after := by simp
        exact not_lt.mp fun hlt => absurd ((lt_seekKey (hmax g hmem) lo).mpr hlt)
          (hafter g List.mem_cons_self).not_gt
      simp only [List.head?_cons, beforeFile, Bool.not_eq_true', decide_eq_false_iff_not, not_lt]
      constructor
      · intro hle
        exact ⟨g, by simp, hg, hle⟩
      · rintro ⟨f, hf, hover⟩
        rcases List.mem_append.mp hf with hf | hf
        · exact absurd hover (hmiss f hf)
        · rcases List.mem_cons.mp hf with rfl | hf
          · exact hover.2
          · have htail := (List.pairwise_append.mp (hapart hdisjoint)).2.1
            have hlt := (List.pairwise_cons.mp htail).1 f hf
            exact (g.range_le.trans_lt hlt).le.trans hover.2
  · simp only [List.any_eq_true, afterFile, beforeFile, Bool.not_eq_true', Bool.or_eq_false_iff,
      decide_eq_false_iff_not, not_lt, FileMetaData.Overlaps]

/-! ## `GetOverlappingInputs` -/

/-- Some file of the list has the user key in its range. -/
def Covered (files : List (FileMetaData K V)) (k : K) : Prop := ∃ f ∈ files, f.Covers k

/-- What `GetOverlappingInputs` promises: the files that overlap a range around the given
one. In level 0 none of them reaches out of that range, and what was added to it is
covered. -/
structure Overlapping (level : ℕ) (files : List (FileMetaData K V)) (lo hi : K)
    (result : List (FileMetaData K V)) (lo' hi' : K) : Prop where
  lo_le : lo' ≤ lo
  le_hi : hi ≤ hi'
  eq_filter : result = files.filter fun f => decide (f.Overlaps lo' hi')
  closed : level = 0 → ∀ f ∈ result, lo' ≤ f.smallest.userKey ∧ f.largest.userKey ≤ hi'
  same : level ≠ 0 → lo' = lo ∧ hi' = hi
  covered : ∀ k, lo' ≤ k → k ≤ hi' → (lo ≤ k ∧ k ≤ hi) ∨ Covered result k

theorem overlappingLoop_none {level : ℕ} {files : List (FileMetaData K V)} {lo hi : K} {i : ℕ}
    {inputs : List (FileMetaData K V)} (h : files[i]? = none) :
    overlappingLoop level files lo hi i inputs = inputs := by
  rw [overlappingLoop]
  split
  · rfl
  · rename_i hf
    cases h.symm.trans hf

theorem overlappingLoop_some {level : ℕ} {files : List (FileMetaData K V)} {lo hi : K} {i : ℕ}
    {inputs : List (FileMetaData K V)} {f : FileMetaData K V} (h : files[i]? = some f) :
    overlappingLoop level files lo hi i inputs =
      if f.largest.userKey < lo then overlappingLoop level files lo hi (i + 1) inputs
      else if hi < f.smallest.userKey then overlappingLoop level files lo hi (i + 1) inputs
      else if level = 0 ∧ f.smallest.userKey < lo then
        overlappingLoop level files f.smallest.userKey hi 0 []
      else if level = 0 ∧ hi < f.largest.userKey then
        overlappingLoop level files lo f.largest.userKey 0 []
      else overlappingLoop level files lo hi (i + 1) (inputs ++ [f]) := by
  rw [overlappingLoop]
  split
  · rename_i hf
    cases h.symm.trans hf
  · rename_i g hg
    obtain rfl : g = f := Option.some.inj (hg.symm.trans h)
    rfl

theorem filter_take_succ {files : List (FileMetaData K V)} {i : ℕ} {f : FileMetaData K V}
    (h : files[i]? = some f) (p : FileMetaData K V → Bool) :
    (files.take (i + 1)).filter p = (files.take i).filter p ++ if p f then [f] else [] := by
  rw [List.take_add_one, h, List.filter_append, Option.toList_some, List.filter_singleton,
    Bool.cond_eq_ite]

/-- Widening the range by a file that overlaps it, when the wider range ends up well. -/
theorem Overlapping.widen {level : ℕ} {files result : List (FileMetaData K V)}
    {lo hi lo₁ hi₁ lo' hi' : K} {f : FileMetaData K V} (hlevel : level = 0) (hf : f ∈ files)
    (hover : f.Overlaps lo hi)
    (hlo : lo₁ ≤ lo) (hhi : hi ≤ hi₁)
    (hleft : ∀ k, lo₁ ≤ k → k < lo → f.Covers k) (hright : ∀ k, hi < k → k ≤ hi₁ → f.Covers k)
    (h : Overlapping level files lo₁ hi₁ result lo' hi') :
    Overlapping level files lo hi result lo' hi' where
  lo_le := h.lo_le.trans hlo
  le_hi := hhi.trans h.le_hi
  eq_filter := h.eq_filter
  closed := h.closed
  same := fun hne => absurd hlevel hne
  covered := by
    have hmem : f ∈ result := by
      rw [h.eq_filter, List.mem_filter]
      refine ⟨hf, decide_eq_true ⟨?_, ?_⟩⟩
      · exact (h.lo_le.trans hlo).trans hover.1
      · exact hover.2.trans (hhi.trans h.le_hi)
    intro k hk hk'
    rcases h.covered k hk hk' with ⟨h1, h2⟩ | hcov
    · by_cases hklo : k < lo
      · exact .inr ⟨f, hmem, hleft k h1 hklo⟩
      · by_cases hkhi : hi < k
        · exact .inr ⟨f, hmem, hright k hkhi h2⟩
        · exact .inl ⟨not_lt.mp hklo, not_lt.mp hkhi⟩
    · exact .inr hcov

theorem overlappingLoop_spec (level : ℕ) (files : List (FileMetaData K V)) (lo hi : K) (i : ℕ)
    (inputs : List (FileMetaData K V)) (hinputs : inputs =
      (files.take i).filter fun f => decide (f.Overlaps lo hi))
    (hclosed : level = 0 → ∀ f ∈ inputs, lo ≤ f.smallest.userKey ∧ f.largest.userKey ≤ hi) :
    ∃ lo' hi',
      Overlapping level files lo hi (overlappingLoop level files lo hi i inputs) lo' hi' := by
  -- the induction follows the loop: a file is passed over, widens the range, or is taken
  induction lo, hi, i, inputs using overlappingLoop.induct level files with
  | case1 lo hi i inputs hnone =>
    have hlen : files.length ≤ i := List.getElem?_eq_none_iff.mp hnone
    rw [overlappingLoop_none hnone]
    rw [List.take_of_length_le hlen] at hinputs
    exact ⟨lo, hi, le_rfl, le_rfl, hinputs, hclosed, fun _ => ⟨rfl, rfl⟩,
      fun k h1 h2 => .inl ⟨h1, h2⟩⟩
  | case2 lo hi i inputs f hf hlt ih =>
    rw [overlappingLoop_some hf, if_pos hlt]
    refine ih ?_ hclosed
    have hmiss : ¬ f.Overlaps lo hi := fun hover => absurd hover.1 hlt.not_ge
    rw [filter_take_succ hf, decide_eq_false hmiss, ← hinputs]
    simp
  | case3 lo hi i inputs f hf hge hlt ih =>
    rw [overlappingLoop_some hf, if_neg hge, if_pos hlt]
    refine ih ?_ hclosed
    have hmiss : ¬ f.Overlaps lo hi := fun hover => absurd hover.2 hlt.not_ge
    rw [filter_take_succ hf, decide_eq_false hmiss, ← hinputs]
    simp
  | case4 lo hi i inputs f hf hge hge' hwiden ih =>
    rw [overlappingLoop_some hf, if_neg hge, if_neg hge', if_pos hwiden]
    obtain ⟨lo', hi', h⟩ := ih rfl (by simp)
    have hover : f.Overlaps lo hi := ⟨not_lt.mp hge, not_lt.mp hge'⟩
    refine ⟨lo', hi', h.widen hwiden.1 (List.mem_of_getElem? hf) hover hwiden.2.le le_rfl ?_ ?_⟩
    · intro k hk hklo
      exact ⟨hk, hklo.le.trans hover.1⟩
    · intro k hk hk'
      exact absurd hk hk'.not_gt
  | case5 lo hi i inputs f hf hge hge' hnot hwiden ih =>
    rw [overlappingLoop_some hf, if_neg hge, if_neg hge', if_neg hnot, if_pos hwiden]
    obtain ⟨lo', hi', h⟩ := ih rfl (by simp)
    have hover : f.Overlaps lo hi := ⟨not_lt.mp hge, not_lt.mp hge'⟩
    refine ⟨lo', hi', h.widen hwiden.1 (List.mem_of_getElem? hf) hover le_rfl hwiden.2.le ?_ ?_⟩
    · intro k hk hk'
      exact absurd hk hk'.not_ge
    · intro k hk hk'
      exact ⟨hover.2.trans hk.le, hk'⟩
  | case6 lo hi i inputs f hf hge hge' hnot hnot' ih =>
    rw [overlappingLoop_some hf, if_neg hge, if_neg hge', if_neg hnot, if_neg hnot']
    have hover : f.Overlaps lo hi := ⟨not_lt.mp hge, not_lt.mp hge'⟩
    refine ih ?_ ?_
    · rw [filter_take_succ hf, decide_eq_true hover, ← hinputs]
      simp
    · intro hlevel g hg
      rcases List.mem_append.mp hg with hg | hg
      · exact hclosed hlevel g hg
      · rw [List.mem_singleton.mp hg]
        exact ⟨not_lt.mp fun h => hnot ⟨hlevel, h⟩, not_lt.mp fun h => hnot' ⟨hlevel, h⟩⟩

theorem getOverlappingInputs_spec (v : Version K V) (level : ℕ) (first last : InternalKey K) :
    ∃ lo' hi', Overlapping level (v level) first.userKey last.userKey
      (getOverlappingInputs v level first last) lo' hi' :=
  overlappingLoop_spec level (v level) _ _ 0 [] (by simp) (by simp)

end KfkClient.Engine
