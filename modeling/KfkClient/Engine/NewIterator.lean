import KfkClient.Engine.DbIterMoves
import KfkClient.Engine.DbRefinement
import KfkClient.Engine.TwoLevelIterator

/-!
# The iterators of the engine (`NewInternalIterator`, `NewIterator`)

An iterator over the engine merges one iterator for each memtable, one for each file of
level 0, and one for each deeper level, whose files are read one after the other.

## Main results

- `LevelFileNumIterator.iterates` — the files of a level by their largest keys
- `Db.Inv.iterates` — the internal iterator is one over all entries of the engine
- the iterator of a user shows the map, whatever calls are made
-/

namespace KfkClient.Engine

open MultiVersion Cursors Transition

variable {K V : Type} [LinearOrder K]

structure LevelFileNumIterator (K V : Type) [LinearOrder K] where
  flist : List (FileMetaData K V)
  index : ℕ

namespace LevelFileNumIterator

/-- A new one is marked as invalid. -/
def new (flist : List (FileMetaData K V)) : LevelFileNumIterator K V := ⟨flist, flist.length⟩

/-- The largest key of a file and its number, for each file. -/
def names (flist : List (FileMetaData K V)) : List (InternalKey K × ℕ) :=
  flist.map fun f => (f.largest, f.number)

theorem lt_of_names {files : List (FileMetaData K V)} {i : ℕ} {b : InternalKey K × ℕ}
    (hb : (names files)[i]? = some b) : i < files.length := by
  have hlt := (List.getElem?_eq_some_iff.mp hb).1
  rwa [names, List.length_map] at hlt

def entry (it : LevelFileNumIterator K V) : Option (InternalKey K × ℕ) :=
  (names it.flist)[it.index]?

def prev (it : LevelFileNumIterator K V) : LevelFileNumIterator K V :=
  { it with index := if it.index = 0 then it.flist.length else it.index - 1 }

instance : Steps (LevelFileNumIterator K V) (InternalKey K × ℕ) (InternalKey K) where
  entry := entry
  seekToFirst it := { it with index := 0 }
  seekToLast it := { it with index := if it.flist.isEmpty then 0 else it.flist.length - 1 }
  seek target it := { it with index := findFile it.flist target }
  next it := { it with index := it.index + 1 }
  prev := prev
  ahead it := it.flist.length - it.index
  behind it := if it.index < it.flist.length then it.index + 1 else 0
  ahead_next := by
    intro it hsome
    obtain ⟨b, hb⟩ := Option.isSome_iff_exists.mp hsome
    have hlt := lt_of_names hb
    show it.flist.length - (it.index + 1) < it.flist.length - it.index
    omega
  behind_prev := by
    intro it hsome
    obtain ⟨b, hb⟩ := Option.isSome_iff_exists.mp hsome
    have hlt := lt_of_names hb
    rw [if_pos hlt, prev]
    dsimp only
    split <;> split <;> omega

theorem names_sorted {files : List (FileMetaData K V)} (h : Consecutive files) :
    (names files).Pairwise fun b b' => Keyed.key b < Keyed.key b' :=
  List.pairwise_map.mpr h.largest_lt

theorem mem_names {files : List (FileMetaData K V)} {b : InternalKey K × ℕ} :
    b ∈ names files ↔ ∃ f ∈ files, (f.largest, f.number) = b := List.mem_map

theorem names_lt {files : List (FileMetaData K V)} (h : Consecutive files) {i j : ℕ}
    {b b' : InternalKey K × ℕ} (hij : i < j) (hb : (names files)[i]? = some b)
    (hb' : (names files)[j]? = some b') : b.1 < b'.1 := by
  obtain ⟨hi, rfl⟩ := List.getElem?_eq_some_iff.mp hb
  obtain ⟨hj, rfl⟩ := List.getElem?_eq_some_iff.mp hb'
  exact List.pairwise_iff_getElem.mp (names_sorted h) i j hi hj hij

theorem names_le {files : List (FileMetaData K V)} (h : Consecutive files) {i j : ℕ}
    {b b' : InternalKey K × ℕ} (hij : i ≤ j) (hb : (names files)[i]? = some b)
    (hb' : (names files)[j]? = some b') : b.1 ≤ b'.1 := by
  rcases hij.eq_or_lt with rfl | hlt
  · cases hb.symm.trans hb'
    exact le_rfl
  · exact (names_lt h hlt hb hb').le

theorem le_of_names_eq_none {files : List (FileMetaData K V)} {i : ℕ}
    (h : (names files)[i]? = none) : files.length ≤ i := by
  have hlen := List.getElem?_eq_none_iff.mp h
  rwa [names, List.length_map] at hlen

/-- The search stops at the first file whose largest key is not before the target. -/
theorem findFile_least {files : List (FileMetaData K V)} (h : Consecutive files)
    (t : InternalKey K) :
    Least (atOrAfter {b | b ∈ names files} t) (names files)[findFile files t]? := by
  obtain ⟨front, back, hsplit, hget, hfront, hback⟩ := findFile_split h t
  have hentry : (names files)[findFile files t]? =
      back.head?.map fun f => (f.largest, f.number) := by
    rw [names, List.getElem?_map, hget]
  have hshort : ∀ b ∈ atOrAfter {b | b ∈ names files} t, b ∈ names back := by
    rintro b ⟨hb, hle⟩
    obtain ⟨f, hf, rfl⟩ := mem_names.mp hb
    rw [hsplit] at hf
    rcases List.mem_append.mp hf with hf | hf
    · exact absurd hle (not_le.mpr (hfront f hf))
    · exact mem_names.mpr ⟨f, hf, rfl⟩
  rw [hentry]
  have hsorted := names_sorted h
  rw [hsplit, names, List.map_append] at hsorted
  have hsortedBack := (List.pairwise_append.mp hsorted).2.1
  cases back with
  | nil => exact fun b hb => absurd (hshort b hb) List.not_mem_nil
  | cons f rest =>
    have hf : f ∈ files := by
      rw [hsplit]
      exact List.mem_append_right _ List.mem_cons_self
    refine ⟨⟨mem_names.mpr ⟨f, hf, rfl⟩, hback f List.mem_cons_self⟩, fun b hb => ?_⟩
    rcases List.mem_cons.mp (hshort b hb) with rfl | hb
    · exact le_rfl
    · exact ((List.pairwise_cons.mp hsortedBack).1 b hb).le

/-- The files of a level, found by their largest keys. -/
theorem iterates {files : List (FileMetaData K V)} (h : Consecutive files) :
    Iterates {b | b ∈ names files} fun it : LevelFileNumIterator K V => it.flist = files where
  mem := by
    rintro it b rfl hb
    exact List.mem_of_getElem? hb
  seekToFirst := by
    rintro it rfl
    refine ⟨rfl, (least_getElem (P := fun _ => True) (i := 0) (names_sorted h)
      (fun j hj => absurd hj (Nat.not_lt_zero j)) fun _ _ => trivial).congr fun b => ?_⟩
    exact and_iff_left trivial
  seekToLast := by
    rintro it rfl
    refine ⟨rfl, ?_⟩
    show Greatest _ (names it.flist)[if it.flist.isEmpty then 0 else it.flist.length - 1]?
    refine (greatest_getElem (P := fun _ => True) (names_sorted h) ?_ (fun _ _ => trivial)
      ?_).congr fun b => and_iff_left trivial
    · intro j hj b hb
      have hlt := lt_of_names hb
      split at hj
      · rename_i hempty
        rw [List.isEmpty_iff.mp hempty] at hlt
        exact absurd hlt (Nat.not_lt_zero j)
      · omega
    · intro hnone b hb
      have hlen := le_of_names_eq_none hnone
      obtain ⟨j, hj⟩ := List.mem_iff_getElem?.mp hb
      have hlt := lt_of_names hj
      split at hlen <;> omega
  seek := by
    rintro it t rfl
    exact ⟨rfl, findFile_least h t⟩
  next := by
    rintro it b rfl hb
    refine ⟨rfl, least_getElem (P := (b.1 < ·)) (i := it.index + 1) (names_sorted h) ?_ ?_⟩
    · exact fun j hj b' hb' => not_lt.mpr (names_le h (Nat.lt_succ_iff.mp hj) hb' hb)
    · exact fun b' hb' => names_lt h (Nat.lt_succ_self _) hb hb'
  prev := by
    rintro it b rfl hb
    refine ⟨rfl, ?_⟩
    show Greatest _ (names it.flist)[if it.index = 0 then it.flist.length else it.index - 1]?
    have hi := lt_of_names hb
    refine greatest_getElem (P := (· < b.1)) (names_sorted h) ?_ ?_ ?_
    · intro j hj b' hb'
      have hjlt := lt_of_names hb'
      refine not_lt.mpr (names_le h ?_ hb hb')
      split at hj <;> omega
    · intro b' hb'
      have hjlt := lt_of_names hb'
      refine names_lt h ?_ hb' hb
      split at hjlt
      · omega
      · rename_i hne
        rw [if_neg hne]
        omega
    · -- only the first file has none before it
      intro hnone b' hb'
      have hlen := le_of_names_eq_none hnone
      obtain ⟨j, hj⟩ := List.mem_iff_getElem?.mp hb'
      refine not_lt.mpr (names_le h ?_ hb hj)
      split at hlen <;> omega

end LevelFileNumIterator

def FileMetaData.cursor (f : FileMetaData K V) : Cursor (Entry K V) := .new f.content f.sorted

def MemTable.cursor (m : MemTable K V) : Cursor (Entry K V) := .new m.content m.sorted

/-- `GetFileIterator`: the table with a number, as the table cache finds it. -/
def openTable (files : List (FileMetaData K V)) (number : ℕ) : Cursor (Entry K V) :=
  match files.find? fun f => decide (f.number = number) with
  | some f => f.cursor
  | none => .new [] List.Pairwise.nil

abbrev LevelIterator (K V : Type) [LinearOrder K] :=
  TwoLevelIterator (LevelFileNumIterator K V) (Cursor (Entry K V)) ℕ

def newConcatenatingIterator (files : List (FileMetaData K V)) : LevelIterator K V :=
  .new (openTable files) (.new files)

/-- An iterator over a memtable or a file, or over a level. -/
abbrev Child (K V : Type) [LinearOrder K] := Cursor (Entry K V) ⊕ LevelIterator K V

def Version.addIterators (v : Version K V) : List (Child K V) :=
  (v 0).map (fun f => .inl f.cursor) ++
    ((List.range' 1 (kNumLevels - 1)).filter fun level => !(v level).isEmpty).map
      fun level => .inr (newConcatenatingIterator (v level))

def Db.childIterators (db : Db K V) : List (Child K V) :=
  .inl db.mem.cursor :: (db.imm.toList.map (fun m => .inl m.cursor) ++ db.files.addIterators)

def Db.newInternalIterator (db : Db K V) : MergingIterator (Child K V) ⊕ Child K V :=
  newMergingIterator db.childIterators

def Db.newIterator (db : Db K V) : DBIter (MergingIterator (Child K V) ⊕ Child K V) K V :=
  .new db.newInternalIterator db.lastSequence

/-! ### A level -/

def levelEntries (files : List (FileMetaData K V)) : Set (Entry K V) :=
  {x | ∃ f ∈ files, x ∈ f.entries}

/-- The files of a deeper level. -/
structure LevelFiles (files : List (FileMetaData K V)) : Prop where
  consecutive : Consecutive files
  numbers : ∀ f ∈ files, ∀ g ∈ files, f.number = g.number → f = g

theorem openTable_all {files : List (FileMetaData K V)} (h : LevelFiles files)
    {f : FileMetaData K V} (hf : f ∈ files) : (openTable files f.number).all = f.content := by
  rw [openTable]
  cases hfind : files.find? fun g => decide (g.number = f.number) with
  | none =>
    have hnone := List.find?_eq_none.mp hfind f hf
    simp at hnone
  | some g =>
    have hnumber : g.number = f.number := by simpa using List.find?_some hfind
    rw [h.numbers g (List.mem_of_find?_eq_some hfind) f hf hnumber]
    rfl

theorem level_blocks {files : List (FileMetaData K V)} (h : LevelFiles files) :
    TwoLevelIterator.Blocks {b | b ∈ LevelFileNumIterator.names files}
      fun n => {x | x ∈ (openTable files n).all} where
  injective := by
    intro b hb b' hb' heq
    obtain ⟨f, hf, rfl⟩ := LevelFileNumIterator.mem_names.mp hb
    obtain ⟨g, hg, rfl⟩ := LevelFileNumIterator.mem_names.mp hb'
    rcases h.consecutive.eq_or_lt hf hg with rfl | hlt | hlt
    · rfl
    · exact absurd heq (hlt.trans_le g.smallest_le_largest).ne
    · exact absurd heq (hlt.trans_le f.smallest_le_largest).ne'
  le := by
    intro b hb x hx
    obtain ⟨f, hf, rfl⟩ := LevelFileNumIterator.mem_names.mp hb
    rw [Set.mem_ofPred_eq, openTable_all h hf] at hx
    exact FileMetaData.le_largest hx
  lt := by
    intro b hb b' hb' hlt x hx
    obtain ⟨f, hf, rfl⟩ := LevelFileNumIterator.mem_names.mp hb
    obtain ⟨g, hg, rfl⟩ := LevelFileNumIterator.mem_names.mp hb'
    rw [Set.mem_ofPred_eq, openTable_all h hg] at hx
    have hlarge : f.largest < g.largest := hlt
    rcases h.consecutive.eq_or_lt hf hg with rfl | hsep | hsep
    · exact absurd hlarge (lt_irrefl _)
    · exact hsep.trans_le (FileMetaData.smallest_le hx)
    · exact absurd (hsep.trans_le f.smallest_le_largest) hlarge.not_gt

theorem level_shown {files : List (FileMetaData K V)} (h : LevelFiles files) :
    TwoLevelIterator.shown {b | b ∈ LevelFileNumIterator.names files}
      (fun n => {x | x ∈ (openTable files n).all}) = levelEntries files := by
  ext x
  constructor
  · rintro ⟨b, hb, hx⟩
    obtain ⟨f, hf, rfl⟩ := LevelFileNumIterator.mem_names.mp hb
    rw [Set.mem_ofPred_eq, openTable_all h hf] at hx
    exact ⟨f, hf, hx⟩
  · rintro ⟨f, hf, hx⟩
    refine ⟨(f.largest, f.number), LevelFileNumIterator.mem_names.mpr ⟨f, hf, rfl⟩, ?_⟩
    rw [Set.mem_ofPred_eq, openTable_all h hf]
    exact hx

/-- The invariant of an iterator over a level. -/
abbrev LevelOk (files : List (FileMetaData K V)) : LevelIterator K V → Prop :=
  TwoLevelIterator.Ok {b | b ∈ LevelFileNumIterator.names files} (fun it => it.flist = files)
    fun n c => c.all = (openTable files n).all

theorem level_iterates {files : List (FileMetaData K V)} (h : LevelFiles files) :
    Iterates (levelEntries files) (LevelOk files) := by
  rw [← level_shown h]
  exact TwoLevelIterator.iterates (level_blocks h) (LevelFileNumIterator.iterates h.consecutive)
    fun b _ => Cursor.iterates _

theorem level_sorted {files : List (FileMetaData K V)} (h : Consecutive files) :
    (files.flatMap fun f => f.content).Pairwise fun x y => Keyed.key x < Keyed.key y := by
  refine List.pairwise_flatMap.mpr ⟨fun f _ => f.sorted, h.imp ?_⟩
  intro f g hfg x hx y hy
  exact ((FileMetaData.le_largest hx).trans_lt hfg).trans_le (FileMetaData.smallest_le hy)

theorem concatenating_ok (files : List (FileMetaData K V)) :
    LevelOk files (newConcatenatingIterator files) :=
  TwoLevelIterator.new_ok rfl fun _ _ => rfl

/-- Whatever calls are made, the iterator over a level does what a cursor on the contents of its
files, one after the other, does. -/
theorem concatenating_iterator_reads_level (files : List (FileMetaData K V))
    (h : Consecutive files) (hnumbers : (files.map FileMetaData.number).Nodup)
    (moves : List (Move (InternalKey K))) :
    Option.Rel (fun it c => Iter.entry it = Iter.entry c)
      (run Iter.move (newConcatenatingIterator files) moves)
      (run Iter.move (Cursor.new (files.flatMap fun f => f.content) (level_sorted h)) moves) := by
  have hfiles : LevelFiles files := ⟨h, fun f hf g hg => List.inj_on_of_nodup_map hnumbers hf hg⟩
  have hset : levelEntries files = {x | x ∈ files.flatMap fun f => f.content} := by
    ext x
    exact List.mem_flatMap.symm
  have hlevel := level_iterates hfiles
  rw [hset] at hlevel
  exact rel_mono (fun _ _ hrel => hrel.2.2)
    (hlevel.presents.run_rel (Cursor.iterates _).presents (Cursor.injOn (.new _ (level_sorted h)))
      (concatenating_ok files) rfl rfl moves)

/-- Two files that share a user key, from the second back to the first and over its end again. -/
theorem concatenating_iterator_reads_level_two :
    let file : ℕ → ℕ → FileMetaData ℕ ℕ := fun number sequence =>
      { number := number, fileSize := 1, smallest := ⟨1, sequence, .value⟩,
        largest := ⟨1, sequence, .value⟩, content := [⟨1, sequence, some number⟩],
        sorted := List.pairwise_singleton _ _, head_eq := rfl, last_eq := rfl }
    ∃ it, run Iter.move (newConcatenatingIterator [file 4 7, file 3 5])
        [.seekToLast, .prev, .next] = some it ∧ Iter.entry it = some ⟨1, 5, some 3⟩ := by
  intro file
  obtain ⟨it, hit, hentry⟩ := exists_of_rel_some (rel_flip (concatenating_iterator_reads_level
    [file 4 7, file 3 5] (List.pairwise_pair.mpr (by decide)) (by decide)
    [.seekToLast, .prev, .next]))
  exact ⟨it, hit, hentry⟩

/-! ### The children -/

def childEntries : Child K V → Set (Entry K V)
  | .inl c => {x | x ∈ c.all}
  | .inr it => levelEntries it.index.flist

def ChildOk (S : Set (Entry K V)) : Child K V → Prop :=
  Sum.elim (fun c => ∃ xs, {x | x ∈ xs} = S ∧ c.all = xs)
    fun it => ∃ files, (LevelFiles files ∧ levelEntries files = S) ∧ LevelOk files it

theorem child_iterates (S : Set (Entry K V)) : Iterates S (ChildOk S) := by
  refine Iterates.sum (Iterates.exists ?_) (Iterates.exists ?_)
  · rintro xs rfl
    exact Cursor.iterates xs
  · rintro files ⟨hfiles, rfl⟩
    exact level_iterates hfiles

theorem level_ok {files : List (FileMetaData K V)} (h : LevelFiles files) :
    ChildOk (levelEntries files) (.inr (newConcatenatingIterator files)) :=
  ⟨files, ⟨h, rfl⟩, concatenating_ok files⟩

theorem Version.WellPlaced.levelFiles {v : Version K V} (h : v.WellPlaced) {level : ℕ}
    (hlevel : 0 < level) : LevelFiles (v level) :=
  ⟨(h.apart level hlevel).consecutive, fun f hf g hg hn => (h.numbers level level f hf g hg hn).2⟩

theorem mem_addIterators {v : Version K V} {c : Child K V} :
    c ∈ v.addIterators ↔ (∃ f ∈ v 0, c = .inl f.cursor) ∨
      ∃ level, 0 < level ∧ level < kNumLevels ∧ v level ≠ [] ∧
        c = .inr (newConcatenatingIterator (v level)) := by
  have hlevels : kNumLevels = 7 := rfl
  rw [Version.addIterators, List.mem_append, List.mem_map, List.mem_map, hlevels]
  refine or_congr ?_ ?_
  · exact ⟨fun ⟨f, hf, heq⟩ => ⟨f, hf, heq.symm⟩, fun ⟨f, hf, heq⟩ => ⟨f, hf, heq.symm⟩⟩
  · constructor
    · rintro ⟨level, hlevel, rfl⟩
      obtain ⟨hrange, hne⟩ := List.mem_filter.mp hlevel
      obtain ⟨hpos, hlt⟩ := List.mem_range'_1.mp hrange
      exact ⟨level, hpos, by omega, by simpa using hne, rfl⟩
    · rintro ⟨level, hpos, hlt, hne, rfl⟩
      refine ⟨level, List.mem_filter.mpr ⟨List.mem_range'_1.mpr ⟨hpos, by omega⟩, ?_⟩, rfl⟩
      simpa using hne

theorem mem_childIterators {db : Db K V} {c : Child K V} :
    c ∈ db.childIterators ↔ c = .inl db.mem.cursor ∨ (∃ m, db.imm = some m ∧ c = .inl m.cursor) ∨
      c ∈ db.files.addIterators := by
  rw [Db.childIterators, List.mem_cons, List.mem_append, List.mem_map]
  refine or_congr_right (or_congr_left ?_)
  cases db.imm with
  | none => simp
  | some m => simp [eq_comm]

/-- Every child is an iterator over its own entries. -/
theorem Layers.child_ok {db : Db K V} (h : Layers db.mem db.imm db.files) :
    ∀ c ∈ db.childIterators, ChildOk (childEntries c) c := by
  intro c hc
  rcases mem_childIterators.mp hc with rfl | ⟨m, _, rfl⟩ | hc
  · exact ⟨_, rfl, rfl⟩
  · exact ⟨_, rfl, rfl⟩
  · rcases mem_addIterators.mp hc with ⟨f, _, rfl⟩ | ⟨level, hpos, _, _, rfl⟩
    · exact ⟨_, rfl, rfl⟩
    · exact level_ok (h.placed.levelFiles hpos)

/-- What the children show is what the engine holds. -/
theorem Layers.child_entries {db : Db K V} (h : Layers db.mem db.imm db.files) {x : Entry K V} :
    (∃ c ∈ db.childIterators, x ∈ childEntries c) ↔ x ∈ db.contents := by
  constructor
  · rintro ⟨c, hc, hx⟩
    rcases mem_childIterators.mp hc with rfl | ⟨m, hm, rfl⟩ | hc
    · exact .inl hx
    · refine .inr (.inl ?_)
      rw [hm]
      exact hx
    · refine .inr (.inr ?_)
      rcases mem_addIterators.mp hc with ⟨f, hf, rfl⟩ | ⟨level, _, _, _, rfl⟩
      · exact ⟨0, f, hf, hx⟩
      · exact ⟨level, hx⟩
  · rintro (hx | hx | ⟨level, f, hf, hx⟩)
    · exact ⟨_, mem_childIterators.mpr (.inl rfl), hx⟩
    · cases himm : db.imm with
      | none =>
        rw [himm] at hx
        exact hx.elim
      | some m =>
        rw [himm] at hx
        exact ⟨_, mem_childIterators.mpr (.inr (.inl ⟨m, himm, rfl⟩)), hx⟩
    · rcases Nat.eq_zero_or_pos level with rfl | hpos
      · exact ⟨_, mem_childIterators.mpr (.inr (.inr (mem_addIterators.mpr
          (.inl ⟨f, hf, rfl⟩)))), hx⟩
      · have hlt : level < kNumLevels := by
          refine not_le.mp fun hle => ?_
          rw [h.placed.levels level hle] at hf
          exact List.not_mem_nil hf
        have hne : db.files level ≠ [] := List.ne_nil_of_mem hf
        exact ⟨_, mem_childIterators.mpr (.inr (.inr (mem_addIterators.mpr
          (.inr ⟨level, hpos, hlt, hne, rfl⟩)))), f, hf, hx⟩

omit [LinearOrder K] in
/-- The entries of two sources, one of which is newer, have different internal keys. -/
theorem ikey_ne_of_above {A B : Set (Entry K V)} (h : Above A B ∨ Above B A) {x y : Entry K V}
    (hx : x ∈ A) (hy : y ∈ B) : Entry.ikey x ≠ Entry.ikey y := by
  intro heq
  have hk : x.key = y.key := congrArg InternalKey.userKey heq
  have hs : x.seq = y.seq := congrArg InternalKey.sequence heq
  rcases h with h | h
  · have := h x hx y hy hk
    omega
  · have := h y hy x hx hk.symm
    omega

theorem addIterators_above {v : Version K V} (h : v.WellPlaced) :
    v.addIterators.Pairwise fun c c' =>
      Above (childEntries c) (childEntries c') ∨ Above (childEntries c') (childEntries c) := by
  refine List.pairwise_append.mpr ⟨List.pairwise_map.mpr ?_, List.pairwise_map.mpr ?_, ?_⟩
  · -- of two files of level 0 the one with the greater number is newer
    refine List.Pairwise.imp_of_mem ?_ h.nodup
    intro f g hf hg hne
    rcases Nat.lt_trichotomy f.number g.number with hlt | heq | hlt
    · exact .inr (h.newest f hf g hg hlt)
    · exact absurd (h.numbers 0 0 f hf g hg heq).2 hne
    · exact .inl (h.newest g hg f hf hlt)
  · refine List.Pairwise.imp ?_ (List.Pairwise.filter _ (List.pairwise_lt_range' (s := 1)))
    rintro i j hij
    refine .inl ?_
    rintro a ⟨f, hf, ha⟩ b ⟨g, hg, hb⟩
    exact h.above i j hij f hf g hg a ha b hb
  · intro c hc c' hc'
    obtain ⟨f, hf, rfl⟩ := List.mem_map.mp hc
    obtain ⟨level, hlevel, rfl⟩ := List.mem_map.mp hc'
    have hpos := (List.mem_range'_1.mp (List.mem_filter.mp hlevel).1).1
    refine .inl ?_
    rintro a ha b ⟨g, hg, hb⟩
    exact h.above 0 level hpos f hf g hg a ha b hb

theorem Layers.child_above {db : Db K V} (h : Layers db.mem db.imm db.files) :
    db.childIterators.Pairwise fun c c' =>
      Above (childEntries c) (childEntries c') ∨ Above (childEntries c') (childEntries c) := by
  have hfiles : ∀ c ∈ db.files.addIterators, childEntries c ⊆ db.files.entries := by
    intro c hc x hx
    rcases mem_addIterators.mp hc with ⟨f, hf, rfl⟩ | ⟨level, _, _, _, rfl⟩
    · exact ⟨0, f, hf, hx⟩
    · exact ⟨level, hx⟩
  have himm : ∀ c ∈ db.imm.toList.map (fun m => (.inl m.cursor : Child K V)),
      childEntries c ⊆ immEntries db.imm := by
    intro c hc x hx
    obtain ⟨m, hm, rfl⟩ := List.mem_map.mp hc
    rw [Option.mem_toList.mp hm]
    exact hx
  refine List.pairwise_cons.mpr ⟨fun c hc => .inl (above_of_newer ?_),
    List.pairwise_append.mpr ⟨?_, addIterators_above h.placed, fun c hc c' hc' =>
      .inl (above_of_newer ?_)⟩⟩
  · intro a ha b hb
    refine h.mem_newer a ha b ?_
    rcases List.mem_append.mp hc with hc | hc
    · exact .inl (himm c hc hb)
    · exact .inr (hfiles c hc hb)
  · cases db.imm with
    | none => exact List.Pairwise.nil
    | some m => exact List.pairwise_singleton _ _
  · intro a ha b hb
    exact h.imm_newer a (himm c hc ha) b (hfiles c' hc' hb)

theorem childEntries_finite (c : Child K V) : (childEntries c).Finite := by
  cases c with
  | inl c => exact c.all.finite_toSet
  | inr it =>
    have heq : levelEntries it.index.flist =
        ⋃ f ∈ {f | f ∈ it.index.flist}, f.entries := by
      ext x
      simp [levelEntries]
    show (levelEntries it.index.flist).Finite
    rw [heq]
    exact it.index.flist.finite_toSet.biUnion fun f _ => f.content.finite_toSet

theorem Layers.finite {db : Db K V} (h : Layers db.mem db.imm db.files) : db.contents.Finite := by
  have heq : db.contents = ⋃ c ∈ {c | c ∈ db.childIterators}, childEntries c := by
    ext x
    rw [← h.child_entries]
    simp
  rw [heq]
  exact db.childIterators.finite_toSet.biUnion fun c _ => childEntries_finite c

/-- The internal iterator of the engine is one over all of its entries. -/
theorem Layers.internal_iterates {db : Db K V} (h : Layers db.mem db.imm db.files) :
    ∃ Ok : MergingIterator (Child K V) ⊕ Child K V → Prop,
      Iterates db.contents Ok ∧ Ok db.newInternalIterator := by
  have hsets : {x | ∃ S ∈ db.childIterators.map childEntries, x ∈ S} = db.contents := by
    ext x
    rw [← h.child_entries]
    constructor
    · rintro ⟨S, hS, hx⟩
      obtain ⟨c, hc, rfl⟩ := List.mem_map.mp hS
      exact ⟨c, hc, hx⟩
    · rintro ⟨c, hc, hx⟩
      exact ⟨childEntries c, List.mem_map_of_mem hc, hx⟩
  rw [← hsets]
  refine newMergingIterator_iterates (fun S _ => child_iterates S) ?_ ?_
  · refine List.pairwise_map.mpr (h.child_above.imp ?_)
    exact fun habove x hx y hy => ikey_ne_of_above habove hx hy
  · exact List.forall₂_map_right_iff.mpr (List.forall₂_same.mpr h.child_ok)

omit [LinearOrder K] in
theorem visible_finite {S : Set (Entry K V)} (h : S.Finite) (s : ℕ) : (visible S s).Finite := by
  refine (h.image fun e => e.val.map fun v => (e.key, v)).preimage
    (f := some) (Set.injOn_of_injective (Option.some_injective _)) |>.subset ?_
  intro p hp
  obtain ⟨e, he, hval⟩ := mem_visible.mp hp
  refine ⟨e, he.mem, ?_⟩
  show e.val.map (fun v => (e.key, v)) = some p
  rw [hval, he.key]
  rfl

/-- In every state of every run a new iterator shows the bindings of the map in the order of
their keys, whatever calls are made on it: it does what a cursor on the sorted bindings
does. -/
theorem iterator_shows_map (opts : Options K V) (n : ℕ) (actions : List (Action K V))
    {db : Db K V} (h : run (Db.step opts) (Db.new n) actions = some db) :
    ∃ (bindings : List (K × V)) (sorted : bindings.Pairwise fun p q => Keyed.key p < Keyed.key q),
      (∀ k v, (k, v) ∈ bindings ↔ (actions.foldl Spec.step Spec.new).map k = some v) ∧
      ∃ enough, ∀ limit, enough ≤ limit → ∀ moves,
        Option.Rel (fun d c => d.entry = Iter.entry c)
          (run (DBIter.move limit) db.newIterator moves)
          (run Iter.move (Cursor.new bindings sorted) moves) := by
  have hinv := run_inv h
  have hshows := run_shows h
  have hfin := hinv.layers.finite
  have hinj := visible_injOn hinv.layers.distinct db.lastSequence
  obtain ⟨Ok, hiter, hok⟩ := hinv.layers.internal_iterates
  obtain ⟨bindings, sorted, hmem⟩ := exists_sorted (visible_finite hfin db.lastSequence) hinj
  refine ⟨bindings, sorted, fun k v => ?_, db.contents.ncard + 1, fun limit hlimit moves => ?_⟩
  · rw [hmem]
    constructor
    · exact fun hreads => (hshows.values k).unique hinv.layers.distinct hreads
    · intro hval
      have hreads := hshows.values k
      rw [hval] at hreads
      exact hreads
  · have hset : {p | p ∈ bindings} = visible db.contents db.lastSequence := Set.ext hmem
    have hbound : db.contents.ncard < limit := hlimit
    have hdb := DBIter.presents (s := db.lastSequence) hiter hinv.layers.distinct hfin hbound
    have hcursor := (Cursor.iterates bindings).presents
    rw [hset] at hcursor
    refine rel_mono (fun _ _ hrel => hrel.2.2) (hdb.run_rel hcursor hinj ?_ ?_ rfl moves)
    · exact ⟨hok, rfl, fun hvalid => by cases hvalid⟩
    · rfl

/-- After a compaction that drops a deleted key, the other key is shown and nothing else. -/
theorem iterator_shows_map_compacted :
    ∃ db, run (Db.step sampleOptions) (Db.new 2) (compactionRun ++ [.finishCompaction]) = some db ∧
      ∃ limit d d', run (DBIter.move limit) db.newIterator [.seekToFirst] = some d ∧
        d.entry = some (2, 7) ∧
        run (DBIter.move limit) db.newIterator [.seekToFirst, .next] = some d' ∧
        d'.entry = none := by
  have hends : (run (Db.step sampleOptions) (Db.new 2)
      (compactionRun ++ [.finishCompaction])).isSome = true := by
    decide +kernel
  obtain ⟨db, hdb⟩ := Option.isSome_iff_exists.mp hends
  obtain ⟨bindings, sorted, hmem, limit, hrel⟩ := iterator_shows_map sampleOptions 2 _ hdb
  have hmap : ((compactionRun ++ [Action.finishCompaction]).foldl Spec.step Spec.new).map =
      Function.update (fun _ => none) 2 (some 7) := by
    funext k
    show Function.update (Function.update (Function.update (fun _ => none) 1 (some 5)) 1 none) 2
      (some 7) k = _
    rw [Function.update_idem, Function.update_eq_self]
  have hone : bindings = [(2, 7)] := by
    have hnodup : bindings.Nodup := sorted.imp fun hlt heq => hlt.ne (congrArg Keyed.key heq)
    refine List.perm_singleton.mp
      ((List.perm_ext_iff_of_nodup hnodup (List.nodup_singleton _)).mpr ?_)
    rintro ⟨k, v⟩
    rw [hmem, hmap, List.mem_singleton, Function.update_apply]
    split
    · next hk => simp [hk, eq_comm]
    · next hk => simp [hk]
  subst hone
  obtain ⟨d, hd, hentry⟩ := exists_of_rel_some (rel_flip (hrel limit le_rfl [.seekToFirst]))
  obtain ⟨d', hd', hentry'⟩ :=
    exists_of_rel_some (rel_flip (hrel limit le_rfl [.seekToFirst, .next]))
  exact ⟨db, hdb, limit, d, d', hd, hentry, hd', hentry'⟩

end KfkClient.Engine
