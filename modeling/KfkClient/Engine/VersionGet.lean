import KfkClient.Engine.Version

/-!
# Reading a version (`Version::Get`)

The files that may hold a key are searched level by level, those of level 0 from the newest
on; the first that knows the key answers.

## Main definitions

- `Version.WellPlaced` — a file searched before another holds the newer entries
- `Version.get`, `Version.recordReadSample` — the search, with the file to charge when more than
  one is read, and the file to charge for an iterator

## Main results

- `Version.WellPlaced.get_answers` — the answer is the newest entry of all files
- `Version.get_seekFile`, `Version.recordReadSample_seekFile` — a file that is charged is not in
  the last level
-/

namespace KfkClient.Engine

open MultiVersion

variable {K V : Type} [LinearOrder K]

/-- The files of a level that `Version::Get` looks into, in this order, and
`ForEachOverlapping`. -/
def filesToSearch (level : ℕ) (files : List (FileMetaData K V)) (key : InternalKey K) :
    List (FileMetaData K V) :=
  if level = 0 then
    let overlapping := files.filter fun f =>
      decide (f.smallest.userKey ≤ key.userKey) && decide (key.userKey ≤ f.largest.userKey)
    -- `NewestFirst`
    overlapping.insertionSort fun a b => b.number ≤ a.number
  else
    match files[findFile files key]? with
    | none => []
    | some f => if key.userKey < f.smallest.userKey then [] else [f]

/-- `GetStats` while the files are searched: the last file read and the one to charge. -/
structure GetStats (K V : Type) [LinearOrder K] where
  lastFileRead : Option (ℕ × FileMetaData K V)
  seekFile : Option (ℕ × FileMetaData K V)

/-- The search through the files, given with their levels, until one knows the key. A second
file charges the first. -/
def searchFiles (k : K) (s : ℕ) : List (ℕ × FileMetaData K V) → GetStats K V →
    Option (Option V) × GetStats K V
  | [], stats => (none, stats)
  | (level, f) :: rest, stats =>
    let seekFile := match stats.seekFile with
      | some x => some x
      | none => stats.lastFileRead
    let stats : GetStats K V := ⟨some (level, f), seekFile⟩
    match lookup f.content k s with
    | some o => (some o, stats)
    | none => searchFiles k s rest stats

def allFilesToSearch (v : Version K V) (key : InternalKey K) : List (ℕ × FileMetaData K V) :=
  (List.range kNumLevels).flatMap fun level =>
    (filesToSearch level (v level) key).map fun f => (level, f)

/-- `Version::Get`: a value, a deletion, or nothing; and the file to charge for a seek. -/
def Version.get (v : Version K V) (k : K) (s : ℕ) :
    Option (Option V) × Option (ℕ × FileMetaData K V) :=
  let (result, stats) := searchFiles k s (allFilesToSearch v (lookupKey k s)) ⟨none, none⟩
  (result, stats.seekFile)

/-- `RecordReadSample`: an iterator that came to a key charges the first of two files. -/
def Version.recordReadSample (v : Version K V) (key : InternalKey K) :
    Option (ℕ × FileMetaData K V) :=
  match allFilesToSearch v key with
  | p :: _ :: _ => some p
  | _ => none

def Version.empty : Version K V := fun _ => []

/-- The entries of all files of a version. -/
def Version.entries (v : Version K V) : Set (Entry K V) :=
  {e | ∃ level, ∃ f ∈ v level, e ∈ f.entries}

/-- The files of a version are where they have to be for a search from level to level to find
the newest entry. -/
structure Version.WellPlaced (v : Version K V) : Prop where
  levels : ∀ level, kNumLevels ≤ level → v level = []
  apart : ∀ level, 0 < level → Apart (v level)
  nodup : (v 0).Nodup
  numbers : ∀ i j, ∀ f ∈ v i, ∀ g ∈ v j, f.number = g.number → i = j ∧ f = g
  newest : ∀ f ∈ v 0, ∀ g ∈ v 0, f.number < g.number → Above g.entries f.entries
  above : ∀ i j, i < j → ∀ f ∈ v i, ∀ g ∈ v j, Above f.entries g.entries

theorem Version.wellPlaced_empty : (Version.empty : Version K V).WellPlaced where
  levels := fun _ _ => rfl
  apart := fun _ _ => List.Pairwise.nil
  nodup := List.nodup_nil
  numbers := fun _ _ _ hf => absurd hf List.not_mem_nil
  newest := fun _ hf => absurd hf List.not_mem_nil
  above := fun _ _ _ _ hf => absurd hf List.not_mem_nil

@[simp] theorem Version.entries_empty : (Version.empty : Version K V).entries = ∅ := by
  ext e
  simp [Version.entries, Version.empty]

/-- The files that are not searched show nothing of the key. -/
theorem filesToSearch_rest {level : ℕ} {files : List (FileMetaData K V)}
    (hapart : 0 < level → Apart files) (k : K) (s : ℕ) {f : FileMetaData K V} (hf : f ∈ files)
    (hnot : f ∉ filesToSearch level files (lookupKey k s)) : Unseen f.entries s k := by
  intro e he hk
  rw [filesToSearch] at hnot
  split at hnot
  · -- in level 0 every file with the key in its range is searched
    exfalso
    apply hnot
    rw [List.mem_insertionSort, List.mem_filter]
    have hcov := FileMetaData.covers_of_mem he
    rw [hk] at hcov
    exact ⟨hf, by simp [lookupKey, hcov.1, hcov.2]⟩
  · rename_i hlevel
    have hap := hapart (Nat.pos_of_ne_zero hlevel)
    obtain ⟨before, after, rfl, hget, hbefore, hafter⟩ :=
      findFile_split hap.consecutive (lookupKey k s)
    rw [hget] at hnot
    rcases List.mem_append.mp hf with hf | hf
    · have hlt := (FileMetaData.le_largest he).trans_lt (hbefore f hf)
      by_contra hns
      exact absurd hlt (lookupKey_le.mpr (.inr ⟨hk.symm, by omega⟩)).not_gt
    · exfalso
      cases after with
      | nil => exact absurd hf List.not_mem_nil
      | cons g after =>
        have htail := (List.pairwise_append.mp hap).2.1
        have hkg : k ≤ g.largest.userKey :=
          InternalKey.userKey_le_of_le (hafter g List.mem_cons_self)
        have hkf : f.smallest.userKey ≤ k := hk ▸ FileMetaData.smallest_key_le he
        simp only [List.head?_cons] at hnot
        rcases List.mem_cons.mp hf with rfl | hf
        · have hin : ¬ (lookupKey k s).userKey < f.smallest.userKey := hkf.not_gt
          rw [if_neg hin] at hnot
          exact hnot (List.mem_singleton_self f)
        · exact absurd ((List.pairwise_cons.mp htail).1 f hf) (hkf.trans hkg).not_gt

theorem filesToSearch_subset {level : ℕ} {files : List (FileMetaData K V)} {key : InternalKey K}
    {f : FileMetaData K V} (hf : f ∈ filesToSearch level files key) : f ∈ files := by
  rw [filesToSearch] at hf
  split at hf
  · exact (List.mem_filter.mp ((List.mem_insertionSort _).mp hf)).1
  · split at hf
    · exact absurd hf List.not_mem_nil
    · rename_i g hg
      split at hf
      · exact absurd hf List.not_mem_nil
      · rw [List.mem_singleton.mp hf]
        exact List.mem_of_getElem? hg

/-- The files of a level are searched from the newest on. -/
theorem Version.WellPlaced.filesToSearch_above {v : Version K V} (hv : v.WellPlaced)
    (level : ℕ) (key : InternalKey K) :
    (filesToSearch level (v level) key).Pairwise fun f g => Above f.entries g.entries := by
  rw [filesToSearch]
  split
  · rename_i hlevel
    subst hlevel
    set found := (v 0).filter fun f => decide (f.smallest.userKey ≤ key.userKey) &&
      decide (key.userKey ≤ f.largest.userKey) with hfound
    have : Std.Total fun a b : FileMetaData K V => b.number ≤ a.number :=
      ⟨fun a b => le_total b.number a.number⟩
    have : IsTrans (FileMetaData K V) fun a b => b.number ≤ a.number :=
      ⟨fun _ _ _ hab hbc => hbc.trans hab⟩
    have hsorted : (found.insertionSort fun a b => b.number ≤ a.number).Pairwise
        fun a b => b.number ≤ a.number := List.pairwise_insertionSort _ _
    have hdistinct : (found.insertionSort fun a b => b.number ≤ a.number).Nodup :=
      (List.perm_insertionSort _ _).nodup_iff.mpr (hv.nodup.filter _)
    refine (List.Pairwise.and hsorted hdistinct).imp_of_mem ?_
    intro f g hf hg hfg
    have hf0 : f ∈ v 0 := (List.mem_filter.mp ((List.mem_insertionSort _).mp hf)).1
    have hg0 : g ∈ v 0 := (List.mem_filter.mp ((List.mem_insertionSort _).mp hg)).1
    have hle : g.number ≤ f.number := hfg.1
    have hne : g.number ≠ f.number := fun h => hfg.2 (hv.numbers 0 0 g hg0 f hf0 h).2.symm
    exact hv.newest g hg0 f hf0 (by omega)
  · split
    · exact List.Pairwise.nil
    · split
      · exact List.Pairwise.nil
      · exact List.pairwise_singleton _ _

theorem mem_allFilesToSearch {v : Version K V} {key : InternalKey K} {p : ℕ × FileMetaData K V} :
    p ∈ allFilesToSearch v key ↔
      p.1 < kNumLevels ∧ p.2 ∈ filesToSearch p.1 (v p.1) key := by
  simp only [allFilesToSearch, List.mem_flatMap, List.mem_range, List.mem_map]
  constructor
  · rintro ⟨level, hlevel, f, hf, rfl⟩
    exact ⟨hlevel, hf⟩
  · rintro ⟨hlevel, hf⟩
    exact ⟨p.1, hlevel, p.2, hf, rfl⟩

/-- What is searched later is older. -/
theorem Version.WellPlaced.allFilesToSearch_above {v : Version K V} (hv : v.WellPlaced)
    (key : InternalKey K) :
    (allFilesToSearch v key).Pairwise fun p q => Above p.2.entries q.2.entries := by
  rw [allFilesToSearch, List.pairwise_flatMap]
  constructor
  · intro level _
    rw [List.pairwise_map]
    exact hv.filesToSearch_above level key
  · refine List.pairwise_lt_range.imp ?_
    intro i j hij p hp q hq
    obtain ⟨f, hf, rfl⟩ := List.mem_map.mp hp
    obtain ⟨g, hg, rfl⟩ := List.mem_map.mp hq
    exact hv.above i j hij f (filesToSearch_subset hf) g (filesToSearch_subset hg)

/-- The entries of some files. -/
def entriesOf (files : List (ℕ × FileMetaData K V)) : Set (Entry K V) :=
  {e | ∃ p ∈ files, e ∈ p.2.entries}

theorem entriesOf_cons (p : ℕ × FileMetaData K V) (files : List (ℕ × FileMetaData K V)) :
    entriesOf (p :: files) = p.2.entries ∪ entriesOf files := by
  ext e
  simp [entriesOf]

theorem searchFiles_answers (k : K) (s : ℕ) {files : List (ℕ × FileMetaData K V)}
    (h : files.Pairwise fun p q => Above p.2.entries q.2.entries) (stats : GetStats K V) :
    Answers (entriesOf files) s k (searchFiles k s files stats).1 := by
  induction files generalizing stats with
  | nil =>
    rintro e ⟨p, hp, _⟩
    exact absurd hp List.not_mem_nil
  | cons p files ih =>
    obtain ⟨level, f⟩ := p
    obtain ⟨hfirst, hrest⟩ := List.pairwise_cons.mp h
    have habove : Above f.entries (entriesOf files) := by
      rintro a ha b ⟨q, hq, hb⟩
      exact hfirst q hq a ha b hb
    have hanswer := fun stats => (lookup_answers f.sorted k s).or (ih hrest stats) habove
    rw [entriesOf_cons, searchFiles]
    cases hlook : lookup f.content k s with
    | some o =>
      rw [hlook] at hanswer
      exact hanswer stats
    | none =>
      rw [hlook] at hanswer
      exact hanswer _

/-- `Version::Get` answers with the newest entry that the snapshot sees in any file. -/
theorem Version.WellPlaced.get_answers {v : Version K V} (hv : v.WellPlaced) (k : K) (s : ℕ) :
    Answers v.entries s k (v.get k s).1 := by
  have hsearch := searchFiles_answers k s (hv.allFilesToSearch_above (lookupKey k s)) ⟨none, none⟩
  refine hsearch.widen ?_ ?_
  · rintro e ⟨p, hp, he⟩
    exact ⟨p.1, p.2, filesToSearch_subset (mem_allFilesToSearch.mp hp).2, he⟩
  · rintro e ⟨level, f, hf, he⟩ hnot hk
    refine filesToSearch_rest (hv.apart level) k s hf (fun hmem => ?_) e he hk
    have hlevel : level < kNumLevels := by
      by_contra hge
      rw [hv.levels level (by omega)] at hf
      exact absurd hf List.not_mem_nil
    exact hnot ⟨(level, f), mem_allFilesToSearch.mpr ⟨hlevel, hmem⟩, he⟩

/-- The file charged for a seek is one of the version's, and not of the last level. -/
theorem searchFiles_seekFile (k : K) (s : ℕ) (P : ℕ × FileMetaData K V → Prop)
    {files : List (ℕ × FileMetaData K V)} {stats : GetStats K V}
    (hlast : ∀ p, stats.lastFileRead = some p → files ≠ [] → P p)
    (hseek : ∀ p, stats.seekFile = some p → P p)
    (hfiles : ∀ p q rest, p :: q :: rest <:+ files → P p) :
    ∀ p, (searchFiles k s files stats).2.seekFile = some p → P p := by
  induction files generalizing stats with
  | nil => exact hseek
  | cons q files ih =>
    obtain ⟨level, f⟩ := q
    have hnext : ∀ p, (match stats.seekFile with
        | some x => some x
        | none => stats.lastFileRead) = some p → P p := by
      intro p hp
      cases hs : stats.seekFile with
      | some x =>
        rw [hs] at hp
        exact hseek p (hs.trans hp)
      | none =>
        rw [hs] at hp
        exact hlast p hp (List.cons_ne_nil _ _)
    rw [searchFiles]
    cases lookup f.content k s with
    | some o => exact hnext
    | none =>
      refine ih ?_ hnext fun p q rest hsuf => hfiles p q rest (hsuf.trans (List.suffix_cons _ _))
      intro p hp hne
      obtain ⟨r, rest, rfl⟩ := List.exists_cons_of_ne_nil hne
      rw [← Option.some.inj hp]
      exact hfiles _ r rest List.suffix_rfl

theorem filesToSearch_one {level : ℕ} (hlevel : 0 < level) (files : List (FileMetaData K V))
    (key : InternalKey K) : (filesToSearch level files key).length ≤ 1 := by
  rw [filesToSearch, if_neg hlevel.ne']
  split
  · exact Nat.zero_le _
  · split
    · exact Nat.zero_le _
    · exact le_rfl

theorem allFilesToSearch_levels (v : Version K V) (key : InternalKey K) :
    (allFilesToSearch v key).Pairwise fun p q => p.1 < q.1 ∨ p.1 = 0 := by
  rw [allFilesToSearch, List.pairwise_flatMap]
  constructor
  · intro level _
    rw [List.pairwise_map]
    rcases Nat.eq_zero_or_pos level with rfl | hlevel
    · exact List.pairwise_of_forall fun _ _ => .inr rfl
    · have hone := filesToSearch_one hlevel (v level) key
      generalize filesToSearch level (v level) key = found at hone
      match found, hone with
      | [], _ => exact List.Pairwise.nil
      | [f], _ => exact List.pairwise_singleton _ f
  · refine List.pairwise_lt_range.imp ?_
    intro i j hij p hp q hq
    obtain ⟨f, _, rfl⟩ := List.mem_map.mp hp
    obtain ⟨g, _, rfl⟩ := List.mem_map.mp hq
    exact .inl hij

/-- A file with another to search after it has a level below it to be compacted into. -/
theorem allFilesToSearch_pair {v : Version K V} {key : InternalKey K} {p q : ℕ × FileMetaData K V}
    {rest : List (ℕ × FileMetaData K V)} (hsuf : p :: q :: rest <:+ allFilesToSearch v key) :
    p.2 ∈ v p.1 ∧ p.1 + 1 < kNumLevels := by
  have hp : p ∈ allFilesToSearch v key := hsuf.subset List.mem_cons_self
  have hq : q ∈ allFilesToSearch v key := hsuf.subset (List.mem_cons_of_mem _ List.mem_cons_self)
  have hpair := (allFilesToSearch_levels v key).sublist hsuf.sublist
  have hlevels := (List.pairwise_cons.mp hpair).1 q List.mem_cons_self
  have hqlevel := (mem_allFilesToSearch.mp hq).1
  have hseven : kNumLevels = 7 := rfl
  exact ⟨filesToSearch_subset (mem_allFilesToSearch.mp hp).2, by omega⟩

theorem Version.get_seekFile {v : Version K V} {k : K} {s : ℕ} {p : ℕ × FileMetaData K V}
    (h : (v.get k s).2 = some p) : p.2 ∈ v p.1 ∧ p.1 + 1 < kNumLevels := by
  refine searchFiles_seekFile k s (fun p => p.2 ∈ v p.1 ∧ p.1 + 1 < kNumLevels) ?_ ?_ ?_ p h
  · intro p hp
    cases hp
  · intro p hp
    cases hp
  · exact fun p q rest hsuf => allFilesToSearch_pair hsuf

theorem Version.recordReadSample_seekFile {v : Version K V} {key : InternalKey K}
    {p : ℕ × FileMetaData K V} (h : v.recordReadSample key = some p) :
    p.2 ∈ v p.1 ∧ p.1 + 1 < kNumLevels := by
  rw [Version.recordReadSample] at h
  split at h
  · next q rest hfound =>
    cases h
    have hsuf : p :: q :: rest <:+ allFilesToSearch v key := by rw [hfound]
    exact allFilesToSearch_pair hsuf
  · cases h

end KfkClient.Engine
