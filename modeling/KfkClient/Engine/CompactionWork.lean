import KfkClient.Engine.PickCompaction
import KfkClient.Engine.Tables

/-!
# The work of a compaction (`DBImpl::DoCompactionWork`)

The entries of the inputs are taken in the order of their internal keys. An entry that a newer
one hides is dropped, and so is a deletion of a key that no deeper level has; what is left
goes to new files, which are closed when they are large enough or overlap too much of the level
after the next.

## Main definitions

- `isBaseLevelForKey`, `shouldStopBefore` — the two questions asked of a `Compaction`, which
  remember where they were
- `compactEntry` — one round of the loop
- `Worked` — what holds of the entries done and those written, after any number of rounds

## Main results

- `compactEntry_worked` — one round
- `Worked.compacted` — what is left out at the end no reader misses
-/

namespace KfkClient.Engine

open MultiVersion

variable {K V : Type} [LinearOrder K]

/-- What the engine is configured with: the size a file is closed at, how long a file of some
entries is while it is built, and when it is finished. -/
structure Options (K V : Type) where
  maxFileSize : ℕ
  builderSize : List (Entry K V) → ℕ
  fileSize : List (Entry K V) → ℕ

structure CompactionState (K V : Type) [LinearOrder K] where
  compaction : Compaction K V
  smallestSnapshot : ℕ
  outputs : List (FileMetaData K V)
  builder : Option (ℕ × TableBuilder K V)
  levelPtrs : ℕ → ℕ
  grandparentIndex : ℕ
  seenKey : Bool
  overlappedBytes : ℕ
  currentUserKey : Option K
  lastSequenceForKey : ℕ

/-! ## The questions -/

/-- The inner loop of `IsBaseLevelForKey`: where the pointer stops, and whether the file there
has the key in its range. -/
def baseScan (files : List (FileMetaData K V)) (k : K) (ptr : ℕ) : ℕ × Bool :=
  match _h : files[ptr]? with
  | none => (ptr, false)
  | some f =>
    if k ≤ f.largest.userKey then (ptr, decide (f.smallest.userKey ≤ k))
    else baseScan files k (ptr + 1)
termination_by files.length - ptr
decreasing_by
  have hlt := (List.getElem?_eq_some_iff.mp _h).1
  omega

def isBaseLoop (v : Version K V) (k : K) : List ℕ → (ℕ → ℕ) → Bool × (ℕ → ℕ)
  | [], ptrs => (true, ptrs)
  | level :: levels, ptrs =>
    let (ptr, hit) := baseScan (v level) k (ptrs level)
    let ptrs := Function.update ptrs level ptr
    if hit then (false, ptrs) else isBaseLoop v k levels ptrs

def isBaseLevelForKey (c : Compaction K V) (k : K) (ptrs : ℕ → ℕ) : Bool × (ℕ → ℕ) :=
  isBaseLoop c.inputVersion k (List.range' (c.level + 2) (kNumLevels - (c.level + 2))) ptrs

/-- The loop of `ShouldStopBefore` over the grandparents that end before the key. -/
def grandparentLoop (grandparents : List (FileMetaData K V)) (key : InternalKey K)
    (seenKey : Bool) (index overlappedBytes : ℕ) : ℕ × ℕ :=
  match _h : grandparents[index]? with
  | none => (index, overlappedBytes)
  | some f =>
    if f.largest < key then
      grandparentLoop grandparents key seenKey (index + 1)
        (if seenKey then overlappedBytes + f.fileSize else overlappedBytes)
    else (index, overlappedBytes)
termination_by grandparents.length - index
decreasing_by
  have hlt := (List.getElem?_eq_some_iff.mp _h).1
  omega

def shouldStopBefore (opts : Options K V) (st : CompactionState K V) (key : InternalKey K) :
    Bool × CompactionState K V :=
  let (index, bytes) := grandparentLoop st.compaction.grandparents key st.seenKey
    st.grandparentIndex st.overlappedBytes
  if maxGrandParentOverlapBytes opts.maxFileSize < bytes then
    (true, { st with grandparentIndex := index, seenKey := true, overlappedBytes := 0 })
  else (false, { st with grandparentIndex := index, seenKey := true, overlappedBytes := bytes })

/-! ## One round of the loop -/

/-- `FinishCompactionOutputFile` asserts that a file is open. -/
def finishOutput (opts : Options K V) (st : CompactionState K V) :
    Option (CompactionState K V) := do
  let (number, b) ← st.builder
  let f ← b.finish number (opts.fileSize b.content)
  some { st with outputs := st.outputs ++ [f], builder := none }

/-- `last_sequence_for_key` when an entry for the key comes: the first occurrence of a user key
sets it to the greatest number. -/
def CompactionState.lastSequence (st : CompactionState K V) (k : K) : ℕ :=
  if st.currentUserKey = some k then st.lastSequenceForKey else kMaxSequenceNumber

/-- Whether the entry is dropped. -/
def dropEntry (st : CompactionState K V) (e : Entry K V) : Bool × CompactionState K V :=
  if st.lastSequence e.key ≤ st.smallestSnapshot then
    (true, { st with currentUserKey := some e.key, lastSequenceForKey := e.seq })
  else if e.val = none ∧ e.seq ≤ st.smallestSnapshot then
    let (base, ptrs) := isBaseLevelForKey st.compaction e.key st.levelPtrs
    (base, { st with
      currentUserKey := some e.key, lastSequenceForKey := e.seq, levelPtrs := ptrs })
  else (false, { st with currentUserKey := some e.key, lastSequenceForKey := e.seq })

/-- The open file, or a new one with the next number (`OpenCompactionOutputFile`), and the
number after. -/
def openOutput (st : CompactionState K V) (nextFileNumber : ℕ) : ℕ × TableBuilder K V × ℕ :=
  match st.builder with
  | some (number, b) => (number, b, nextFileNumber)
  | none => (nextFileNumber, TableBuilder.empty, nextFileNumber + 1)

def addToOutput (opts : Options K V) (st : CompactionState K V) (nextFileNumber : ℕ)
    (e : Entry K V) : Option (CompactionState K V × ℕ) := do
  let (number, b, nextFileNumber) := openOutput st nextFileNumber
  let b ← b.add e
  let st := { st with builder := some (number, b) }
  let st ← if opts.maxFileSize ≤ opts.builderSize b.content then finishOutput opts st else some st
  some (st, nextFileNumber)

/-- The open file is closed before a key that `ShouldStopBefore` names. -/
def stopBefore (opts : Options K V) (st : CompactionState K V) (key : InternalKey K) :
    Option (CompactionState K V) :=
  let (stop, st) := shouldStopBefore opts st key
  if stop ∧ st.builder.isSome then finishOutput opts st else some st

/-- One round of the loop of `DoCompactionWork`, with the file numbers given out. -/
def compactEntry (opts : Options K V) (st : CompactionState K V) (nextFileNumber : ℕ)
    (e : Entry K V) : Option (CompactionState K V × ℕ) := do
  let st ← stopBefore opts st (Entry.ikey e)
  let (drop, st) := dropEntry st e
  if drop then some (st, nextFileNumber) else addToOutput opts st nextFileNumber e

/-! ## No deeper level has the key -/

/-- What a pointer of `IsBaseLevelForKey` has passed ends before the keys to come. -/
def Passed (files : List (FileMetaData K V)) (k : K) (ptr : ℕ) : Prop :=
  ∀ f ∈ files.take ptr, f.largest.userKey < k

theorem Passed.mono {files : List (FileMetaData K V)} {k k' : K} {ptr : ℕ}
    (h : Passed files k ptr) (hk : k ≤ k') : Passed files k' ptr := fun f hf =>
  (h f hf).trans_le hk

theorem baseScan_spec {files : List (FileMetaData K V)} (hapart : Apart files) {k : K} {ptr : ℕ}
    (h : Passed files k ptr) :
    Passed files k (baseScan files k ptr).1 ∧
      ((baseScan files k ptr).2 = false → ∀ f ∈ files, ¬ f.Covers k) := by
  induction ptr using baseScan.induct files k with
  | case1 ptr hnone =>
    have heq : baseScan files k ptr = (ptr, false) := by
      rw [baseScan]
      split
      · rfl
      · rename_i hf
        cases hnone.symm.trans hf
    rw [heq]
    refine ⟨h, fun _ f hf hcov => ?_⟩
    have hlen : files.length ≤ ptr := List.getElem?_eq_none_iff.mp hnone
    exact absurd (h f (by rwa [List.take_of_length_le hlen])) hcov.2.not_gt
  | case2 ptr g hg hle =>
    have heq : baseScan files k ptr = (ptr, decide (g.smallest.userKey ≤ k)) := by
      rw [baseScan]
      split
      · rename_i hnone
        cases hnone.symm.trans hg
      · rename_i f hf
        obtain rfl : f = g := Option.some.inj (hf.symm.trans hg)
        rw [if_pos hle]
    rw [heq]
    refine ⟨h, fun hmiss f hf hcov => ?_⟩
    have hlt : k < g.smallest.userKey := not_le.mp (of_decide_eq_false hmiss)
    obtain ⟨hptr, hgeq⟩ := List.getElem?_eq_some_iff.mp hg
    rw [← List.take_append_drop ptr files] at hf
    rcases List.mem_append.mp hf with hf | hf
    · exact absurd (h f hf) hcov.2.not_gt
    · rw [List.drop_eq_getElem_cons hptr, hgeq] at hf
      have hdrop : Apart (files.drop ptr) := hapart.sublist (List.drop_sublist ptr files)
      rw [List.drop_eq_getElem_cons hptr, hgeq] at hdrop
      rcases List.mem_cons.mp hf with rfl | hf
      · exact absurd hcov.1 hlt.not_ge
      · have hgf := (List.pairwise_cons.mp hdrop).1 f hf
        exact absurd hcov.1 (hlt.trans_le (g.range_le.trans hgf.le)).not_ge
  | case3 ptr g hg hgt ih =>
    have heq : baseScan files k ptr = baseScan files k (ptr + 1) := by
      rw [baseScan]
      split
      · rename_i hnone
        cases hnone.symm.trans hg
      · rename_i f hf
        obtain rfl : f = g := Option.some.inj (hf.symm.trans hg)
        rw [if_neg hgt]
    rw [heq]
    apply ih
    intro f hf
    rw [List.take_add_one, hg] at hf
    rcases List.mem_append.mp hf with hf | hf
    · exact h f hf
    · rw [List.mem_singleton.mp hf]
      exact not_le.mp hgt

theorem isBaseLoop_spec {v : Version K V} {k : K} {levels : List ℕ}
    (hapart : ∀ level ∈ levels, Apart (v level)) {ptrs : ℕ → ℕ}
    (h : ∀ level, Passed (v level) k (ptrs level)) :
    (∀ level, Passed (v level) k ((isBaseLoop v k levels ptrs).2 level)) ∧
      ((isBaseLoop v k levels ptrs).1 = true → ∀ level ∈ levels, ∀ f ∈ v level, ¬ f.Covers k) := by
  induction levels generalizing ptrs with
  | nil => exact ⟨h, fun _ level hlevel => absurd hlevel List.not_mem_nil⟩
  | cons level levels ih =>
    obtain ⟨hpassed, hmiss⟩ := baseScan_spec (hapart level List.mem_cons_self) (h level)
    have hnext : ∀ l, Passed (v l) k
        (Function.update ptrs level (baseScan (v level) k (ptrs level)).1 l) := by
      intro l
      by_cases hl : l = level
      · subst hl
        rw [Function.update_self]
        exact hpassed
      · rw [Function.update_of_ne hl]
        exact h l
    rw [isBaseLoop]
    dsimp only
    split
    · exact ⟨hnext, fun hfalse => by cases hfalse⟩
    · rename_i hhit
      obtain ⟨hrest, hbase⟩ := ih (fun l hl => hapart l (List.mem_cons_of_mem _ hl)) hnext
      refine ⟨hrest, fun htrue l hl => ?_⟩
      rcases List.mem_cons.mp hl with rfl | hl
      · exact hmiss (by simpa using hhit)
      · exact hbase htrue l hl

/-! ## What the rounds leave -/

namespace CompactionState

/-- The entries in the output files, the open one included. -/
def written (st : CompactionState K V) : List (Entry K V) :=
  st.outputs.flatMap FileMetaData.content ++
    match st.builder with
    | some (_, b) => b.content
    | none => []

/-- The numbers of the output files, the open one included. -/
def numbers (st : CompactionState K V) : List ℕ :=
  st.outputs.map FileMetaData.number ++ (st.builder.map Prod.fst).toList

end CompactionState

/-- The deletion is older than the snapshot, and no level below the outputs has the key. -/
def Obsolete (c : Compaction K V) (m : ℕ) (e : Entry K V) : Prop :=
  e.val = none ∧ e.seq ≤ m ∧
    ∀ level, c.level + 2 ≤ level → level < kNumLevels → ∀ f ∈ c.inputVersion level, ¬ f.Covers e.key

/-- The entries `done` have been through the loop. -/
structure Worked (st : CompactionState K V) (done : List (Entry K V)) : Prop where
  sublist : st.written.Sublist done
  dropped : ∀ e ∈ done, e ∉ st.written →
    Hidden (entries done) st.smallestSnapshot e ∨ Obsolete st.compaction st.smallestSnapshot e
  kept : ∀ e ∈ st.written, ¬ Hidden (entries done) st.smallestSnapshot e
  current : st.currentUserKey = done.getLast?.map Entry.key
  lastSequence : ∀ e ∈ done.getLast?, st.lastSequenceForKey = e.seq
  passed : ∀ k, (∀ e ∈ done, e.key ≤ k) →
    ∀ level, Passed (st.compaction.inputVersion level) k (st.levelPtrs level)
  building : ∀ number b, st.builder = some (number, b) → b.content ≠ []

theorem shouldStopBefore_spec (opts : Options K V) (st : CompactionState K V)
    (key : InternalKey K) : ∃ index bytes, (shouldStopBefore opts st key).2 =
      { st with grandparentIndex := index, seenKey := true, overlappedBytes := bytes } := by
  rw [shouldStopBefore]
  dsimp only
  split
  · exact ⟨_, _, rfl⟩
  · exact ⟨_, _, rfl⟩

theorem finishOutput_spec (opts : Options K V) {st : CompactionState K V} {number : ℕ}
    {b : TableBuilder K V} (hb : st.builder = some (number, b)) (hne : b.content ≠ []) :
    ∃ outputs, finishOutput opts st = some { st with outputs := outputs, builder := none } ∧
      outputs.flatMap FileMetaData.content = st.written ∧
      outputs.map FileMetaData.number = st.numbers := by
  obtain ⟨f, hf, hcontent, hnumber⟩ := b.finish_spec hne number (opts.fileSize b.content)
  refine ⟨st.outputs ++ [f], ?_, ?_, ?_⟩
  · rw [finishOutput, hb]
    show (do
      let f ← b.finish number (opts.fileSize b.content)
      _) = _
    rw [hf]
    rfl
  · rw [List.flatMap_append, CompactionState.written, hb, List.flatMap_singleton, hcontent]
  · rw [List.map_append, CompactionState.numbers, hb, List.map_singleton, hnumber]
    rfl

/-- Closing a file does not change what was written. -/
theorem Worked.finish (opts : Options K V) {st : CompactionState K V} {done : List (Entry K V)}
    (h : Worked st done) (hb : st.builder.isSome) :
    ∃ st', finishOutput opts st = some st' ∧ Worked st' done ∧ st'.builder = none ∧
      st'.written = st.written ∧ st'.numbers = st.numbers ∧ st'.compaction = st.compaction ∧
      st'.smallestSnapshot = st.smallestSnapshot := by
  obtain ⟨⟨number, b⟩, hnb⟩ := Option.isSome_iff_exists.mp hb
  obtain ⟨outputs, hfinish, hwritten, hnumbers⟩ :=
    finishOutput_spec opts hnb (h.building number b hnb)
  have hw : ({ st with outputs := outputs, builder := none } : CompactionState K V).written =
      st.written := by
    rw [← hwritten, CompactionState.written, List.append_nil]
  refine ⟨_, hfinish, ⟨?_, ?_, ?_, h.current, h.lastSequence, h.passed, ?_⟩, rfl, hw, ?_, rfl, rfl⟩
  · rw [hw]
    exact h.sublist
  · rw [hw]
    exact h.dropped
  · rw [hw]
    exact h.kept
  · intro n b' hnone
    cases hnone
  · rw [← hnumbers, CompactionState.numbers]
    exact List.append_nil _

section Round

variable {done : List (Entry K V)} {e : Entry K V} (hsorted : Sorted (done ++ [e]))
  (hdistinct : Distinct (entries (done ++ [e])))
include hsorted

theorem key_le_of_sorted {x : Entry K V} (hx : x ∈ done) : x.key ≤ e.key :=
  InternalKey.userKey_le_of_le
    ((List.pairwise_append.mp hsorted).2.2 x hx e (List.mem_singleton_self e)).le

/-- What was done before under the same key is not older. -/
theorem seq_le_of_sorted {x : Entry K V} (hx : x ∈ done) (hk : x.key = e.key) : e.seq ≤ x.seq :=
  seq_le_of_ikey_lt ((List.pairwise_append.mp hsorted).2.2 x hx e (List.mem_singleton_self e)) hk

/-- If the key was done before, the last entry done has it, and is the oldest of them. -/
theorem last_of_sorted {x : Entry K V} (hx : x ∈ done) (hk : x.key = e.key) :
    ∃ last, done.getLast? = some last ∧ last.key = e.key ∧ last.seq ≤ x.seq := by
  obtain ⟨last, hlast⟩ :=
    Option.isSome_iff_exists.mp (List.getLast?_isSome.mpr (List.ne_nil_of_mem hx))
  have hmem := List.mem_of_getLast? hlast
  obtain ⟨front, hfront⟩ := List.getLast?_eq_some_iff.mp hlast
  refine ⟨last, hlast, ?_, ?_⟩
  · rw [hfront] at hx hsorted
    rcases List.mem_append.mp hx with hx | hx
    · have hle : x.key ≤ last.key := InternalKey.userKey_le_of_le
        ((List.pairwise_append.mp (List.pairwise_append.mp hsorted).1).2.2 x hx last
          (List.mem_singleton_self _)).le
      have hle' : last.key ≤ e.key := InternalKey.userKey_le_of_le
        ((List.pairwise_append.mp hsorted).2.2 last (by simp) e (List.mem_singleton_self e)).le
      exact le_antisymm hle' (hk ▸ hle)
    · rw [← List.mem_singleton.mp hx, hk]
  · rw [hfront] at hx hsorted
    rcases List.mem_append.mp hx with hx | hx
    · have hlt := (List.pairwise_append.mp (List.pairwise_append.mp hsorted).1).2.2 x hx last
        (List.mem_singleton_self _)
      have hle : x.key ≤ last.key := InternalKey.userKey_le_of_le hlt.le
      have hle' : last.key ≤ e.key := InternalKey.userKey_le_of_le
        ((List.pairwise_append.mp hsorted).2.2 last (by simp) e (List.mem_singleton_self e)).le
      exact seq_le_of_ikey_lt hlt (le_antisymm hle (hk ▸ hle'))
    · rw [List.mem_singleton.mp hx]

include hdistinct

theorem seq_lt_of_sorted {x : Entry K V} (hx : x ∈ done) (hk : x.key = e.key) : e.seq < x.seq := by
  refine lt_of_le_of_ne (seq_le_of_sorted hsorted hx hk) fun heq => ?_
  have hsame := hdistinct x (List.mem_append_left _ hx) e
    (List.mem_append_right _ (List.mem_singleton_self e)) hk heq.symm
  have hlt := (List.pairwise_append.mp hsorted).2.2 x hx e (List.mem_singleton_self e)
  rw [hsame] at hlt
  exact lt_irrefl _ hlt

theorem hidden_iff_last (m : ℕ) :
    Hidden (entries (done ++ [e])) m e ↔
      ∃ last, done.getLast? = some last ∧ last.key = e.key ∧ last.seq ≤ m := by
  constructor
  · rintro ⟨x, hx, hk, hlt, hle⟩
    rcases List.mem_append.mp hx with hx | hx
    · obtain ⟨last, hlast, hkey, hseq⟩ := last_of_sorted hsorted hx hk
      exact ⟨last, hlast, hkey, hseq.trans hle⟩
    · rw [List.mem_singleton.mp hx] at hlt
      exact absurd hlt (lt_irrefl _)
  · rintro ⟨last, hlast, hkey, hle⟩
    have hmem := List.mem_of_getLast? hlast
    exact ⟨last, List.mem_append_left _ hmem, hkey,
      seq_lt_of_sorted hsorted hdistinct hmem hkey, hle⟩

variable {st : CompactionState K V} (h : Worked st done)
  (hsnapshot : st.smallestSnapshot < kMaxSequenceNumber)
include h hsnapshot

/-- The first rule drops exactly the entries that a newer one hides. -/
theorem lastSequence_le_iff : st.lastSequence e.key ≤ st.smallestSnapshot ↔
    Hidden (entries (done ++ [e])) st.smallestSnapshot e := by
  rw [hidden_iff_last hsorted hdistinct, CompactionState.lastSequence]
  cases hlast : done.getLast? with
  | none =>
    have hcur : st.currentUserKey ≠ some e.key := by
      rw [h.current, hlast]
      simp
    rw [if_neg hcur]
    simp only [reduceCtorEq, false_and, exists_false, iff_false, not_le]
    exact hsnapshot
  | some last =>
    have hcur : st.currentUserKey = some last.key := by
      rw [h.current, hlast]
      rfl
    simp only [Option.some.injEq, exists_eq_left', hcur]
    by_cases hk : last.key = e.key
    · rw [if_pos hk, h.lastSequence last hlast]
      simp only [hk, true_and]
    · rw [if_neg hk]
      simp only [hk, false_and, iff_false, not_le]
      exact hsnapshot

theorem dropEntry_spec (hapart : ∀ level, 0 < level → Apart (st.compaction.inputVersion level)) :
    ∃ ptrs, (dropEntry st e).2 =
        { st with currentUserKey := some e.key, lastSequenceForKey := e.seq, levelPtrs := ptrs } ∧
      (∀ level, Passed (st.compaction.inputVersion level) e.key (ptrs level)) ∧
      ((dropEntry st e).1 = true → Hidden (entries (done ++ [e])) st.smallestSnapshot e ∨
        Obsolete st.compaction st.smallestSnapshot e) ∧
      ((dropEntry st e).1 = false → ¬ Hidden (entries (done ++ [e])) st.smallestSnapshot e) := by
  have hlast := lastSequence_le_iff hsorted hdistinct h hsnapshot
  have hpassed := h.passed e.key fun x hx => key_le_of_sorted hsorted hx
  rw [dropEntry]
  dsimp only
  split
  · rename_i hle
    exact ⟨st.levelPtrs, rfl, hpassed, fun _ => .inl (hlast.mp hle), fun hf => by cases hf⟩
  · rename_i hgt
    have hnot := fun hhidden => hgt (hlast.mpr hhidden)
    split
    · rename_i hdel
      have hdeeper : ∀ level ∈ List.range' (st.compaction.level + 2)
          (kNumLevels - (st.compaction.level + 2)), Apart (st.compaction.inputVersion level) := by
        intro level hlevel
        have hle := (List.mem_range'_1.mp hlevel).1
        exact hapart level (by omega)
      obtain ⟨hnext, hbase⟩ := isBaseLoop_spec hdeeper hpassed
      refine ⟨_, rfl, hnext, fun htrue => .inr ⟨hdel.1, hdel.2, ?_⟩, fun _ => hnot⟩
      intro level hlevel hlt
      exact hbase htrue level (List.mem_range'_1.mpr ⟨hlevel, by omega⟩)
    · exact ⟨st.levelPtrs, rfl, hpassed, fun hf => (by cases hf), fun _ => hnot⟩

end Round

theorem openOutput_spec (st : CompactionState K V) (nextFileNumber : ℕ) :
    ∃ number b next, openOutput st nextFileNumber = (number, b, next) ∧
      st.outputs.flatMap FileMetaData.content ++ b.content = st.written ∧
      (st.outputs.map FileMetaData.number ++ [number] = st.numbers ∧ next = nextFileNumber ∨
        st.outputs.map FileMetaData.number ++ [number] = st.numbers ++ [nextFileNumber] ∧
          next = nextFileNumber + 1) := by
  rw [openOutput, CompactionState.written, CompactionState.numbers]
  cases st.builder with
  | none => exact ⟨_, _, _, rfl, rfl, .inr ⟨by simp, rfl⟩⟩
  | some p => exact ⟨_, _, _, rfl, rfl, .inl ⟨rfl, rfl⟩⟩

theorem addToOutput_spec (opts : Options K V) {st : CompactionState K V} {e : Entry K V}
    (nextFileNumber : ℕ) (hsorted : Sorted (st.written ++ [e])) :
    ∃ outputs builder next, addToOutput opts st nextFileNumber e =
        some ({ st with outputs := outputs, builder := builder }, next) ∧
      ({ st with outputs := outputs, builder := builder } : CompactionState K V).written =
        st.written ++ [e] ∧
      (({ st with outputs := outputs, builder := builder } : CompactionState K V).numbers =
          st.numbers ∧ next = nextFileNumber ∨
        ({ st with outputs := outputs, builder := builder } : CompactionState K V).numbers =
          st.numbers ++ [nextFileNumber] ∧ next = nextFileNumber + 1) ∧
      (∀ number b, builder = some (number, b) → b.content ≠ []) := by
  obtain ⟨number, b, next, hopen, hwritten, hnumbers⟩ := openOutput_spec st nextFileNumber
  have hlast : ∀ last ∈ b.content.getLast?, Entry.ikey last < Entry.ikey e := by
    intro last hlast
    have hmem : last ∈ st.written := by
      rw [← hwritten]
      exact List.mem_append_right _ (List.mem_of_getLast? hlast)
    exact (List.pairwise_append.mp hsorted).2.2 last hmem e (List.mem_singleton_self e)
  obtain ⟨b', hadd, hcontent⟩ : ∃ b', b.add e = some b' ∧ b'.content = b.content ++ [e] :=
    ⟨_, dif_pos hlast, rfl⟩
  have hne : b'.content ≠ [] := by simp [hcontent]
  set st' : CompactionState K V := { st with builder := some (number, b') } with hst'
  have hw' : st'.written = st.written ++ [e] := by
    rw [← hwritten, List.append_assoc, ← hcontent]
    rfl
  have hn' : st'.numbers = st.outputs.map FileMetaData.number ++ [number] := rfl
  have hb' : st'.builder = some (number, b') := rfl
  have hunfold : addToOutput opts st nextFileNumber e = (do
      let st ← if opts.maxFileSize ≤ opts.builderSize b'.content then finishOutput opts st'
        else some st'
      some (st, next)) := by
    rw [addToOutput, hopen]
    dsimp only
    rw [hadd]
    rfl
  rw [hunfold]
  by_cases hfull : opts.maxFileSize ≤ opts.builderSize b'.content
  · obtain ⟨outputs, hfinish, hflat, hmap⟩ := finishOutput_spec opts hb' hne
    refine ⟨outputs, none, next, ?_, ?_, ?_, fun _ _ hnone => by cases hnone⟩
    · rw [if_pos hfull, hfinish]
      rfl
    · rw [← hw', ← hflat, CompactionState.written, List.append_nil]
    · rw [CompactionState.numbers]
      dsimp only
      rw [hmap, hn', Option.map_none, Option.toList_none, List.append_nil]
      exact hnumbers
  · refine ⟨st.outputs, some (number, b'), next, ?_, hw', hnumbers, ?_⟩
    · rw [if_neg hfull]
      rfl
    · rintro n b'' heq
      cases heq
      exact hne

/-- After a round the entry is among those done, and was dropped for a reason or written. -/
theorem Worked.advance {st st' : CompactionState K V} {done : List (Entry K V)} {e : Entry K V}
    (h : Worked st done) (hsorted : Sorted (done ++ [e]))
    (hcompaction : st'.compaction = st.compaction)
    (hsnapshot : st'.smallestSnapshot = st.smallestSnapshot)
    (hcurrent : st'.currentUserKey = some e.key) (hseq : st'.lastSequenceForKey = e.seq)
    (hpassed : ∀ level, Passed (st.compaction.inputVersion level) e.key (st'.levelPtrs level))
    (hbuilding : ∀ number b, st'.builder = some (number, b) → b.content ≠ [])
    (hwritten : st'.written = st.written ∧
        (Hidden (entries (done ++ [e])) st.smallestSnapshot e ∨
          Obsolete st.compaction st.smallestSnapshot e) ∨
      st'.written = st.written ++ [e] ∧
        ¬ Hidden (entries (done ++ [e])) st.smallestSnapshot e) :
    Worked st' (done ++ [e]) := by
  have hlast : (done ++ [e]).getLast? = some e := List.getLast?_concat
  have hsub : ∀ x ∈ st.written, x ∈ st'.written := by
    intro x hx
    rcases hwritten with ⟨heq, _⟩ | ⟨heq, _⟩
    · rwa [heq]
    · rw [heq]
      exact List.mem_append_left _ hx
  refine ⟨?_, ?_, ?_, ?_, ?_, ?_, hbuilding⟩
  · rcases hwritten with ⟨heq, _⟩ | ⟨heq, _⟩
    · rw [heq]
      exact h.sublist.trans (List.sublist_append_left done [e])
    · rw [heq]
      exact h.sublist.append (List.Sublist.refl [e])
  · intro x hx hnot
    rw [hcompaction, hsnapshot]
    rcases List.mem_append.mp hx with hx | hx
    · have hdropped := h.dropped x hx fun hw => hnot (hsub x hw)
      exact hdropped.imp (fun hh => hh.mono fun y hy => List.mem_append_left _ hy) id
    · rw [List.mem_singleton.mp hx] at hnot ⊢
      rcases hwritten with ⟨_, hwhy⟩ | ⟨heq, _⟩
      · exact hwhy
      · rw [heq] at hnot
        exact absurd (List.mem_append_right _ (List.mem_singleton_self e)) hnot
  · -- the new entry is older than those done under its key, so it hides none of them
    have hold : ∀ x ∈ st.written, ¬ Hidden (entries (done ++ [e])) st.smallestSnapshot x := by
      rintro x hx ⟨y, hy, hk, hlt, hle⟩
      rcases List.mem_append.mp hy with hy | hy
      · exact h.kept x hx ⟨y, hy, hk, hlt, hle⟩
      · rw [List.mem_singleton.mp hy] at hk hlt
        have hge := seq_le_of_sorted hsorted (h.sublist.subset hx) hk.symm
        omega
    intro x hx
    rw [hsnapshot]
    rcases hwritten with ⟨heq, _⟩ | ⟨heq, hnot⟩
    · rw [heq] at hx
      exact hold x hx
    · rw [heq] at hx
      rcases List.mem_append.mp hx with hx | hx
      · exact hold x hx
      · rw [List.mem_singleton.mp hx]
        exact hnot
  · rw [hlast, hcurrent]
    rfl
  · intro x hx
    rw [hlast] at hx
    rw [← Option.some.inj hx, hseq]
  · intro k hk level
    rw [hcompaction]
    exact (hpassed level).mono (hk e (List.mem_append_right _ (List.mem_singleton_self e)))

theorem Worked.stop (opts : Options K V) {st : CompactionState K V} {done : List (Entry K V)}
    (h : Worked st done) (key : InternalKey K) :
    ∃ st', stopBefore opts st key = some st' ∧
      Worked st' done ∧ st'.numbers = st.numbers ∧ st'.compaction = st.compaction ∧
      st'.smallestSnapshot = st.smallestSnapshot := by
  obtain ⟨index, bytes, hstop⟩ := shouldStopBefore_spec opts st key
  have hworked : Worked (shouldStopBefore opts st key).2 done := by
    rw [hstop]
    exact ⟨h.sublist, h.dropped, h.kept, h.current, h.lastSequence, h.passed, h.building⟩
  have hnumbers : (shouldStopBefore opts st key).2.numbers = st.numbers := by
    rw [hstop]
    rfl
  have hcompaction : (shouldStopBefore opts st key).2.compaction = st.compaction := by rw [hstop]
  have hsnapshot : (shouldStopBefore opts st key).2.smallestSnapshot = st.smallestSnapshot := by
    rw [hstop]
  rw [stopBefore]
  dsimp only
  split
  · rename_i hfinish
    obtain ⟨st', heq, hworked', _, _, hn, hc, hm⟩ := hworked.finish opts hfinish.2
    exact ⟨st', heq, hworked', hn.trans hnumbers, hc.trans hcompaction, hm.trans hsnapshot⟩
  · exact ⟨_, rfl, hworked, hnumbers, hcompaction, hsnapshot⟩

/-- One round of the loop never fails an assertion and keeps what holds of those before. -/
theorem compactEntry_worked (opts : Options K V) {st : CompactionState K V}
    {done : List (Entry K V)} {e : Entry K V} (h : Worked st done) (hsorted : Sorted (done ++ [e]))
    (hdistinct : Distinct (entries (done ++ [e])))
    (hsnapshot : st.smallestSnapshot < kMaxSequenceNumber)
    (hapart : ∀ level, 0 < level → Apart (st.compaction.inputVersion level))
    (nextFileNumber : ℕ) :
    ∃ st' next, compactEntry opts st nextFileNumber e = some (st', next) ∧
      Worked st' (done ++ [e]) ∧ st'.compaction = st.compaction ∧
      st'.smallestSnapshot = st.smallestSnapshot ∧
      (st'.numbers = st.numbers ∧ next = nextFileNumber ∨
        st'.numbers = st.numbers ++ [nextFileNumber] ∧ next = nextFileNumber + 1) := by
  obtain ⟨st₁, hstop, hworked, hnumbers, hcompaction, hm⟩ := h.stop opts (Entry.ikey e)
  rw [← hm] at hsnapshot
  rw [← hcompaction] at hapart
  obtain ⟨ptrs, hst, hpassed, hdrop, hkeep⟩ :=
    dropEntry_spec hsorted hdistinct hworked hsnapshot hapart
  have hunfold : compactEntry opts st nextFileNumber e =
      if (dropEntry st₁ e).1 then some ((dropEntry st₁ e).2, nextFileNumber)
      else addToOutput opts (dropEntry st₁ e).2 nextFileNumber e := by
    rw [compactEntry, hstop]
    rfl
  rw [hunfold]
  cases hd : (dropEntry st₁ e).1 with
  | true =>
    refine ⟨_, _, rfl, ?_, ?_, ?_, .inl ⟨?_, rfl⟩⟩
    · rw [hst]
      exact hworked.advance hsorted rfl rfl rfl rfl hpassed hworked.building
        (.inl ⟨rfl, hdrop hd⟩)
    · rw [hst]
      exact hcompaction
    · rw [hst]
      exact hm
    · rw [hst]
      exact hnumbers
  | false =>
    have hw : (dropEntry st₁ e).2.written = st₁.written := by
      rw [hst]
      rfl
    have hadd : Sorted ((dropEntry st₁ e).2.written ++ [e]) := by
      rw [hw]
      exact hsorted.sublist (hworked.sublist.append (List.Sublist.refl [e]))
    obtain ⟨outputs, builder, next, heq, hwritten, hnum, hbuilding⟩ :=
      addToOutput_spec opts nextFileNumber hadd
    refine ⟨_, _, heq, ?_, ?_, ?_, ?_⟩
    · rw [hw] at hwritten
      refine hworked.advance hsorted ?_ ?_ ?_ ?_ ?_ hbuilding (.inr ⟨hwritten, hkeep hd⟩)
      · simp only [hst]
      · simp only [hst]
      · simp only [hst]
      · simp only [hst]
      · simpa only [hst] using hpassed
    · simpa only [hst] using hcompaction
    · simpa only [hst] using hm
    · have hn : (dropEntry st₁ e).2.numbers = st.numbers := by
        rw [hst]
        exact hnumbers
      rwa [hn] at hnum

/-! ## The whole loop -/

/-- A compaction before its first round. -/
def CompactionState.start (c : Compaction K V) (smallestSnapshot : ℕ) : CompactionState K V where
  compaction := c
  smallestSnapshot := smallestSnapshot
  outputs := []
  builder := none
  levelPtrs := fun _ => 0
  grandparentIndex := 0
  seenKey := false
  overlappedBytes := 0
  currentUserKey := none
  lastSequenceForKey := kMaxSequenceNumber

theorem worked_start (c : Compaction K V) (smallestSnapshot : ℕ) :
    Worked (CompactionState.start c smallestSnapshot) [] where
  sublist := List.Sublist.refl _
  dropped := fun _ he => absurd he List.not_mem_nil
  kept := fun _ he => absurd he List.not_mem_nil
  current := rfl
  lastSequence := fun _ he => by cases he
  passed := fun _ _ level f hf => absurd hf (by simp [CompactionState.start])
  building := fun _ _ hb => by cases hb

section Finished

variable {st : CompactionState K V} {done : List (Entry K V)} (h : Worked st done)
include h

/-- Where the other entries have nothing older for the deletions that were dropped, no
reader misses what was left out. -/
theorem Worked.compacted {R : Set (Entry K V)}
    (hR : ∀ e ∈ done, Obsolete st.compaction st.smallestSnapshot e →
      ∀ e' ∈ R, e'.key = e.key → e.seq < e'.seq) :
    Compacted R (entries done) (entries st.written) st.smallestSnapshot where
  sub := fun _ he => h.sublist.subset he
  dropped := fun e he hnot => (h.dropped e he hnot).imp id fun hobs =>
    ⟨hobs.1, hobs.2.1, hR e he hobs⟩
  kept := h.kept

/-- The outputs share no user key: of the entries for one key only the newest is written. -/
theorem Worked.outputs_apart (hclosed : st.builder = none) (hsorted : Sorted done)
    (hdistinct : Distinct (entries done)) (hold : ∀ e ∈ done, e.seq ≤ st.smallestSnapshot) :
    Apart st.outputs := by
  have hwritten : st.written = st.outputs.flatMap FileMetaData.content := by
    rw [CompactionState.written, hclosed, List.append_nil]
  have hkeys : st.written.Pairwise fun x y => x.key < y.key := by
    refine (hsorted.sublist h.sublist).imp_of_mem ?_
    intro x y hx hy hxy
    refine lt_of_le_of_ne (InternalKey.userKey_le_of_le hxy.le) fun hk => ?_
    have hxd := h.sublist.subset hx
    have hyd := h.sublist.subset hy
    refine h.kept y hy ⟨x, hxd, hk, lt_of_le_of_ne (seq_le_of_ikey_lt hxy hk) ?_, hold x hxd⟩
    intro hseq
    rw [hdistinct y hyd x hxd hk.symm hseq] at hxy
    exact lt_irrefl _ hxy
  rw [hwritten, List.pairwise_flatMap] at hkeys
  refine hkeys.2.imp ?_
  intro f g hfg
  obtain ⟨x, hx, hxk⟩ := f.largest_mem
  obtain ⟨y, hy, hyk⟩ := g.smallest_mem
  rw [← hxk, ← hyk]
  exact hfg x hx y hy

end Finished

end KfkClient.Engine
