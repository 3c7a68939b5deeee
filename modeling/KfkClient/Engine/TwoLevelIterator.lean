import KfkClient.Lib.Cursor

/-!
# The two-level iterator (`two_level_iterator.cc`)

The index is an iterator whose entries name blocks; the entries shown are those of the block
that the index stands at. Blocks are opened when they are reached, and blocks that have
nothing more to show are skipped.

## Main results

- `TwoLevelIterator.iterates` — it is an iterator over the entries of all blocks
-/

namespace KfkClient.Engine

open Cursors Cursors.Keyed

/-- `κ` is the index, whose entries are keys with the handle of a block; `ι` reads a block. -/
structure TwoLevelIterator (κ ι H : Type) where
  blockFunction : H → ι
  index : κ
  data : Option ι
  handle : Option H

namespace TwoLevelIterator

variable {κ ι H E T : Type}

def new (blockFunction : H → ι) (index : κ) : TwoLevelIterator κ ι H :=
  ⟨blockFunction, index, none, none⟩

variable [Steps κ (T × H) T]

/-- A data iterator that is open reads the block of its handle; the index may have moved on. -/
structure Open (I : Set (T × H)) (Okx : κ → Prop) (Okd : H → ι → Prop)
    (it : TwoLevelIterator κ ι H) : Prop where
  index : Okx it.index
  opens : ∀ b ∈ I, Okd b.2 (it.blockFunction b.2)
  data : ∀ d, it.data = some d → ∃ h, it.handle = some h ∧ Okd h d

/-- A data iterator is open only for the block that the index stands at. -/
structure Ok (I : Set (T × H)) (Okx : κ → Prop) (Okd : H → ι → Prop)
    (it : TwoLevelIterator κ ι H) : Prop where
  index : Okx it.index
  opens : ∀ b ∈ I, Okd b.2 (it.blockFunction b.2)
  data : ∀ d, it.data = some d →
    ∃ b, Iter.entry it.index = some b ∧ it.handle = some b.2 ∧ Okd b.2 d

variable {I : Set (T × H)} {Okx : κ → Prop} {Okd : H → ι → Prop}

theorem Ok.opened {it : TwoLevelIterator κ ι H} (h : Ok I Okx Okd it) {index : κ}
    (hindex : Okx index) : Open I Okx Okd { it with index := index } where
  index := hindex
  opens := h.opens
  data := by
    intro d hd
    obtain ⟨b, _, hb, hok⟩ := h.data d hd
    exact ⟨b.2, hb, hok⟩

theorem ok_load_none {it : TwoLevelIterator κ ι H} (h : Open I Okx Okd it) :
    Ok I Okx Okd { it with data := none } where
  index := h.index
  opens := h.opens
  data := fun _ hd => by cases hd

theorem ok_load_some {it : TwoLevelIterator κ ι H} (h : Open I Okx Okd it) {b : T × H} {d : ι}
    (hb : Iter.entry it.index = some b) (hd : Okd b.2 d) :
    Ok I Okx Okd { it with data := some d, handle := some b.2 } where
  index := h.index
  opens := h.opens
  data := by
    intro d' hd'
    cases hd'
    exact ⟨b, hb, rfl, hd⟩

theorem new_ok {index : κ} {blockFunction : H → ι} (hindex : Okx index)
    (hopens : ∀ b ∈ I, Okd b.2 (blockFunction b.2)) :
    Ok I Okx Okd (new blockFunction index) := ⟨hindex, hopens, fun _ hd => by cases hd⟩

/-- The data iterator, if there is one, makes a move. -/
def onData (f : ι → ι) (it : TwoLevelIterator κ ι H) : TwoLevelIterator κ ι H :=
  { it with data := it.data.map f }

/-- A data iterator makes a move within its block. -/
theorem ok_onData {it : TwoLevelIterator κ ι H} (hok : Ok I Okx Okd it) {b : T × H} {d : ι}
    (hb : Iter.entry it.index = some b) (hd : it.data = some d) {f : ι → ι}
    (hf : Okd b.2 (f d)) : Ok I Okx Okd (onData f it) where
  index := hok.index
  opens := hok.opens
  data := by
    intro d' hd'
    obtain ⟨b', hb', hhandle, _⟩ := hok.data d hd
    cases hb.symm.trans hb'
    refine ⟨b, hb, hhandle, ?_⟩
    rw [onData, hd] at hd'
    cases hd'
    exact hf

variable [Iter ι E T] [DecidableEq H]

/-- `key()` and `value()`, when valid. -/
def entry (it : TwoLevelIterator κ ι H) : Option E := it.data.bind Iter.entry

def initDataBlock (it : TwoLevelIterator κ ι H) : TwoLevelIterator κ ι H :=
  match Iter.entry it.index with
  | none => { it with data := none }
  | some (_, handle) =>
    -- the block may be open already
    if it.data.isSome ∧ it.handle = some handle then it
    else { it with data := some (it.blockFunction handle), handle := some handle }

@[simp] theorem initDataBlock_index (it : TwoLevelIterator κ ι H) :
    it.initDataBlock.index = it.index := by
  rw [initDataBlock]
  split
  · rfl
  · split <;> rfl

def skipEmptyDataBlocksForward (it : TwoLevelIterator κ ι H) : TwoLevelIterator κ ι H :=
  if it.entry.isSome then it
  else if _h : (Iter.entry it.index).isSome then
    skipEmptyDataBlocksForward
      (onData Iter.seekToFirst (initDataBlock { it with index := Iter.next it.index }))
  else { it with data := none }
termination_by Steps.ahead it.index
decreasing_by
  show Steps.ahead (initDataBlock _).index < _
  rw [initDataBlock_index]
  exact Steps.ahead_next it.index _h

def skipEmptyDataBlocksBackward (it : TwoLevelIterator κ ι H) : TwoLevelIterator κ ι H :=
  if it.entry.isSome then it
  else if _h : (Iter.entry it.index).isSome then
    skipEmptyDataBlocksBackward
      (onData Iter.seekToLast (initDataBlock { it with index := Iter.prev it.index }))
  else { it with data := none }
termination_by Steps.behind it.index
decreasing_by
  show Steps.behind (initDataBlock _).index < _
  rw [initDataBlock_index]
  exact Steps.behind_prev it.index _h

def seek (target : T) (it : TwoLevelIterator κ ι H) : TwoLevelIterator κ ι H :=
  skipEmptyDataBlocksForward
    (onData (Iter.seek target) (initDataBlock { it with index := Iter.seek target it.index }))

def seekToFirst (it : TwoLevelIterator κ ι H) : TwoLevelIterator κ ι H :=
  skipEmptyDataBlocksForward
    (onData Iter.seekToFirst (initDataBlock { it with index := Iter.seekToFirst it.index }))

def seekToLast (it : TwoLevelIterator κ ι H) : TwoLevelIterator κ ι H :=
  skipEmptyDataBlocksBackward
    (onData Iter.seekToLast (initDataBlock { it with index := Iter.seekToLast it.index }))

def next (it : TwoLevelIterator κ ι H) : TwoLevelIterator κ ι H :=
  skipEmptyDataBlocksForward (onData Iter.next it)

def prev (it : TwoLevelIterator κ ι H) : TwoLevelIterator κ ι H :=
  skipEmptyDataBlocksBackward (onData Iter.prev it)

instance : Iter (TwoLevelIterator κ ι H) E T where
  entry := entry
  seekToFirst := seekToFirst
  seekToLast := seekToLast
  seek := seek
  next := next
  prev := prev

section Blocks

variable [Keyed E T] [LinearOrder T]

/-- The blocks that an index names: a block's entries are not after its key, and those of later
blocks are. -/
structure Blocks (I : Set (T × H)) (block : H → Set E) : Prop where
  injective : Set.InjOn (key : T × H → T) I
  le : ∀ b ∈ I, ∀ x ∈ block b.2, key x ≤ b.1
  lt : ∀ b ∈ I, ∀ b' ∈ I, b.1 < b'.1 → ∀ x ∈ block b'.2, b.1 < key x

/-- The entries of all blocks. -/
def shown (I : Set (T × H)) (block : H → Set E) : Set E := {x | ∃ b ∈ I, x ∈ block b.2}

variable {block : H → Set E}

/-- Wherever the index was moved to, the block there is opened, or none is. -/
theorem load (hindex : Iterates I Okx) {it : TwoLevelIterator κ ι H} (h : Open I Okx Okd it)
    (f : ι → ι) :
    (Iter.entry it.index = none ∧ onData f it.initDataBlock = { it with data := none }) ∨
      ∃ b ∈ I, Iter.entry it.index = some b ∧ ∃ d, Okd b.2 d ∧
        onData f it.initDataBlock = { it with data := some (f d), handle := some b.2 } := by
  cases hb : Iter.entry it.index with
  | none =>
    refine .inl ⟨rfl, ?_⟩
    rw [initDataBlock, hb]
    rfl
  | some b =>
    have hmem := hindex.mem h.index hb
    refine .inr ⟨b, hmem, rfl, ?_⟩
    rw [initDataBlock, hb]
    dsimp only
    split
    · -- the block is open already
      rename_i hopen
      obtain ⟨d, hd⟩ := Option.isSome_iff_exists.mp hopen.1
      obtain ⟨b', hb', hok⟩ := h.data d hd
      cases hb'.symm.trans hopen.2
      refine ⟨d, hok, ?_⟩
      rw [onData, hd, hopen.2]
      rfl
    · exact ⟨it.blockFunction b.2, h.opens b hmem, rfl⟩

/-- Before blocks are skipped forward: the open block has its first entry that `P` allows at
hand, the blocks before it have none, and in the blocks after it `P` allows everything. -/
def Front (I : Set (T × H)) (block : H → Set E) (P : T → Prop) (it : TwoLevelIterator κ ι H) :
    Prop :=
  match Iter.entry it.index, it.data with
  | some b, some d => Least {y | y ∈ block b.2 ∧ P (key y)} (Iter.entry d) ∧
      (∀ a, b.1 < a → P a) ∧ ∀ b' ∈ I, b'.1 < b.1 → ∀ x ∈ block b'.2, ¬ P (key x)
  | none, none => ∀ x ∈ shown I block, ¬ P (key x)
  | _, _ => False

omit [DecidableEq H] in
theorem Front.open_block {P : T → Prop} {it : TwoLevelIterator κ ι H} {b : T × H}
    (h : Front I block P it) (hb : Iter.entry it.index = some b) :
    ∃ d, it.data = some d ∧ Least {y | y ∈ block b.2 ∧ P (key y)} (Iter.entry d) ∧
      (∀ a, b.1 < a → P a) ∧ ∀ b' ∈ I, b'.1 < b.1 → ∀ x ∈ block b'.2, ¬ P (key x) := by
  rw [Front, hb] at h
  cases hd : it.data with
  | none =>
    rw [hd] at h
    exact h.elim
  | some d =>
    rw [hd] at h
    exact ⟨d, rfl, h⟩

/-- The block after one that has nothing more to show. -/
theorem front_next (hblocks : Blocks I block) (hindex : Iterates I Okx)
    (hblock : ∀ b ∈ I, Iterates (block b.2) (Okd b.2)) {P : T → Prop}
    {it : TwoLevelIterator κ ι H} (hok : Ok I Okx Okd it) (hfront : Front I block P it)
    (hdone : ¬ it.entry.isSome = true) (hmore : (Iter.entry it.index).isSome = true) :
    let it' := onData Iter.seekToFirst (initDataBlock { it with index := Iter.next it.index })
    Ok I Okx Okd it' ∧ Front I block P it' := by
  obtain ⟨b, hb⟩ := Option.isSome_iff_exists.mp hmore
  have hbI := hindex.mem hok.index hb
  have hnext := hindex.next hok.index hb
  have hopen := hok.opened hnext.1
  obtain ⟨d, hd, hleast, hup, hbefore⟩ := hfront.open_block hb
  have hnone : Iter.entry d = none := by
    rw [entry, hd] at hdone
    simpa using hdone
  rw [hnone] at hleast
  -- the blocks up to this one show nothing
  have hupto : ∀ b' ∈ I, b'.1 ≤ b.1 → ∀ x ∈ block b'.2, ¬ P (key x) := by
    intro b' hb' hle x hx hP
    rcases hle.lt_or_eq with hlt | heq
    · exact hbefore b' hb' hlt x hx hP
    · cases hblocks.injective hb' hbI heq
      exact hleast x ⟨hx, hP⟩
  intro it'
  rcases load hindex hopen Iter.seekToFirst with ⟨hend, heq⟩ | ⟨b', hb'I, hb', d', hd', heq⟩
  · rw [show it' = _ from heq]
    refine ⟨ok_load_none hopen, ?_⟩
    rw [Front, hend]
    rintro x ⟨b', hb', hx⟩ hP
    have hlast : Least (after I b.1) none := hend ▸ hnext.2
    exact hupto b' hb' (not_lt.mp fun hlt => hlast b' ⟨hb', hlt⟩) x hx hP
  · have hfirst := (hblock b' hb'I).seekToFirst hd'
    have hlt : Least (after I b.1) (some b') := hb' ▸ hnext.2
    rw [show it' = _ from heq]
    refine ⟨ok_load_some hopen hb' hfirst.1, ?_⟩
    rw [Front, hb']
    refine ⟨hfirst.2.congr fun y => ?_, fun a ha => hup a (hlt.1.2.trans ha), ?_⟩
    · exact ⟨fun hy => ⟨hy, hup _ (hblocks.lt b hbI b' hb'I hlt.1.2 y hy)⟩, fun hy => hy.1⟩
    · intro b'' hb'' hless x hx
      refine hupto b'' hb'' (not_lt.mp fun hlt' => ?_) x hx
      exact absurd (hlt.2 b'' ⟨hb'', hlt'⟩) (not_le.mpr hless)

theorem skipForward_spec (hblocks : Blocks I block) (hindex : Iterates I Okx)
    (hblock : ∀ b ∈ I, Iterates (block b.2) (Okd b.2)) {P : T → Prop}
    {it : TwoLevelIterator κ ι H} (hok : Ok I Okx Okd it) (hfront : Front I block P it) :
    Ok I Okx Okd it.skipEmptyDataBlocksForward ∧
      Least {y | y ∈ shown I block ∧ P (key y)} it.skipEmptyDataBlocksForward.entry := by
  induction it using skipEmptyDataBlocksForward.induct with
  | case1 it hvalid =>
    rw [skipEmptyDataBlocksForward, if_pos hvalid]
    refine ⟨hok, ?_⟩
    obtain ⟨x, hx⟩ := Option.isSome_iff_exists.mp hvalid
    obtain ⟨d, hd, hxd⟩ := Option.bind_eq_some_iff.mp hx
    obtain ⟨b, hb, _, _⟩ := hok.data d hd
    have hbI := hindex.mem hok.index hb
    obtain ⟨d', hd', hleast, _, hbefore⟩ := hfront.open_block hb
    cases hd.symm.trans hd'
    rw [hxd] at hleast
    rw [hx]
    refine ⟨⟨⟨b, hbI, hleast.1.1⟩, hleast.1.2⟩, ?_⟩
    rintro y ⟨⟨b', hb', hy⟩, hP⟩
    rcases lt_trichotomy b'.1 b.1 with hlt | heq | hlt
    · exact absurd hP (hbefore b' hb' hlt y hy)
    · cases hblocks.injective hb' hbI heq
      exact hleast.2 y ⟨hy, hP⟩
    · exact (hblocks.le b hbI x hleast.1.1).trans (hblocks.lt b hbI b' hb' hlt y hy).le
  | case2 it hdone hmore ih =>
    rw [skipEmptyDataBlocksForward, if_neg hdone, dif_pos hmore]
    have h := front_next hblocks hindex hblock hok hfront hdone hmore
    exact ih h.1 h.2
  | case3 it hdone hend =>
    rw [skipEmptyDataBlocksForward, if_neg hdone, dif_neg hend]
    have hnone : Iter.entry it.index = none := by simpa using hend
    refine ⟨⟨hok.index, hok.opens, fun _ hd => by cases hd⟩, ?_⟩
    rw [Front, hnone] at hfront
    cases hd : it.data with
    | none =>
      rw [hd] at hfront
      exact fun y hy => hfront y hy.1 hy.2
    | some d =>
      rw [hd] at hfront
      exact hfront.elim

/-- Before blocks are skipped backward: the open block has its last entry that `P` allows at
hand, the blocks after it have none, and in the blocks before it `P` allows everything. -/
def Back (I : Set (T × H)) (block : H → Set E) (P : T → Prop) (it : TwoLevelIterator κ ι H) :
    Prop :=
  match Iter.entry it.index, it.data with
  | some b, some d => Greatest {y | y ∈ block b.2 ∧ P (key y)} (Iter.entry d) ∧
      (∀ b' ∈ I, b'.1 < b.1 → ∀ a, a ≤ b'.1 → P a) ∧
      ∀ b' ∈ I, b.1 < b'.1 → ∀ x ∈ block b'.2, ¬ P (key x)
  | none, none => ∀ x ∈ shown I block, ¬ P (key x)
  | _, _ => False

omit [DecidableEq H] in
theorem Back.open_block {P : T → Prop} {it : TwoLevelIterator κ ι H} {b : T × H}
    (h : Back I block P it) (hb : Iter.entry it.index = some b) :
    ∃ d, it.data = some d ∧ Greatest {y | y ∈ block b.2 ∧ P (key y)} (Iter.entry d) ∧
      (∀ b' ∈ I, b'.1 < b.1 → ∀ a, a ≤ b'.1 → P a) ∧
      ∀ b' ∈ I, b.1 < b'.1 → ∀ x ∈ block b'.2, ¬ P (key x) := by
  rw [Back, hb] at h
  cases hd : it.data with
  | none =>
    rw [hd] at h
    exact h.elim
  | some d =>
    rw [hd] at h
    exact ⟨d, rfl, h⟩

/-- The block before one that has nothing more to show. -/
theorem back_prev (hblocks : Blocks I block) (hindex : Iterates I Okx)
    (hblock : ∀ b ∈ I, Iterates (block b.2) (Okd b.2)) {P : T → Prop}
    {it : TwoLevelIterator κ ι H} (hok : Ok I Okx Okd it) (hback : Back I block P it)
    (hdone : ¬ it.entry.isSome = true) (hmore : (Iter.entry it.index).isSome = true) :
    let it' := onData Iter.seekToLast (initDataBlock { it with index := Iter.prev it.index })
    Ok I Okx Okd it' ∧ Back I block P it' := by
  obtain ⟨b, hb⟩ := Option.isSome_iff_exists.mp hmore
  have hbI := hindex.mem hok.index hb
  have hprev := hindex.prev hok.index hb
  have hopen := hok.opened hprev.1
  obtain ⟨d, hd, hgreatest, hdown, hafter⟩ := hback.open_block hb
  have hnone : Iter.entry d = none := by
    rw [entry, hd] at hdone
    simpa using hdone
  rw [hnone] at hgreatest
  -- the blocks from this one on show nothing
  have hfrom : ∀ b' ∈ I, b.1 ≤ b'.1 → ∀ x ∈ block b'.2, ¬ P (key x) := by
    intro b' hb' hle x hx hP
    rcases hle.lt_or_eq with hlt | heq
    · exact hafter b' hb' hlt x hx hP
    · cases hblocks.injective hbI hb' heq
      exact hgreatest x ⟨hx, hP⟩
  intro it'
  rcases load hindex hopen Iter.seekToLast with ⟨hend, heq⟩ | ⟨b', hb'I, hb', d', hd', heq⟩
  · rw [show it' = _ from heq]
    refine ⟨ok_load_none hopen, ?_⟩
    rw [Back, hend]
    rintro x ⟨b', hb', hx⟩ hP
    have hfirst : Greatest (before I b.1) none := hend ▸ hprev.2
    exact hfrom b' hb' (not_lt.mp fun hlt => hfirst b' ⟨hb', hlt⟩) x hx hP
  · have hlast := (hblock b' hb'I).seekToLast hd'
    have hlt : Greatest (before I b.1) (some b') := hb' ▸ hprev.2
    rw [show it' = _ from heq]
    refine ⟨ok_load_some hopen hb' hlast.1, ?_⟩
    rw [Back, hb']
    refine ⟨hlast.2.congr fun y => ?_, fun b'' hb'' hlt' => hdown b'' hb'' (hlt'.trans hlt.1.2),
      ?_⟩
    · exact ⟨fun hy => ⟨hy, hdown b' hb'I hlt.1.2 _ (hblocks.le b' hb'I y hy)⟩, fun hy => hy.1⟩
    · intro b'' hb'' hless x hx
      refine hfrom b'' hb'' (not_lt.mp fun hlt' => ?_) x hx
      exact absurd (hlt.2 b'' ⟨hb'', hlt'⟩) (not_le.mpr hless)

theorem skipBackward_spec (hblocks : Blocks I block) (hindex : Iterates I Okx)
    (hblock : ∀ b ∈ I, Iterates (block b.2) (Okd b.2)) {P : T → Prop}
    {it : TwoLevelIterator κ ι H} (hok : Ok I Okx Okd it) (hback : Back I block P it) :
    Ok I Okx Okd it.skipEmptyDataBlocksBackward ∧
      Greatest {y | y ∈ shown I block ∧ P (key y)} it.skipEmptyDataBlocksBackward.entry := by
  induction it using skipEmptyDataBlocksBackward.induct with
  | case1 it hvalid =>
    rw [skipEmptyDataBlocksBackward, if_pos hvalid]
    refine ⟨hok, ?_⟩
    obtain ⟨x, hx⟩ := Option.isSome_iff_exists.mp hvalid
    obtain ⟨d, hd, hxd⟩ := Option.bind_eq_some_iff.mp hx
    obtain ⟨b, hb, _, _⟩ := hok.data d hd
    have hbI := hindex.mem hok.index hb
    obtain ⟨d', hd', hgreatest, _, hafter⟩ := hback.open_block hb
    cases hd.symm.trans hd'
    rw [hxd] at hgreatest
    rw [hx]
    refine ⟨⟨⟨b, hbI, hgreatest.1.1⟩, hgreatest.1.2⟩, ?_⟩
    rintro y ⟨⟨b', hb', hy⟩, hP⟩
    rcases lt_trichotomy b'.1 b.1 with hlt | heq | hlt
    · exact (hblocks.le b' hb' y hy).trans (hblocks.lt b' hb' b hbI hlt x hgreatest.1.1).le
    · cases hblocks.injective hb' hbI heq
      exact hgreatest.2 y ⟨hy, hP⟩
    · exact absurd hP (hafter b' hb' hlt y hy)
  | case2 it hdone hmore ih =>
    rw [skipEmptyDataBlocksBackward, if_neg hdone, dif_pos hmore]
    have h := back_prev hblocks hindex hblock hok hback hdone hmore
    exact ih h.1 h.2
  | case3 it hdone hend =>
    rw [skipEmptyDataBlocksBackward, if_neg hdone, dif_neg hend]
    have hnone : Iter.entry it.index = none := by simpa using hend
    refine ⟨⟨hok.index, hok.opens, fun _ hd => by cases hd⟩, ?_⟩
    rw [Back, hnone] at hback
    cases hd : it.data with
    | none =>
      rw [hd] at hback
      exact fun y hy => hback y hy.1 hy.2
    | some d =>
      rw [hd] at hback
      exact hback.elim

/-- A two-level iterator is an iterator over the entries of all blocks. -/
theorem iterates (hblocks : Blocks I block) (hindex : Iterates I Okx)
    (hblock : ∀ b ∈ I, Iterates (block b.2) (Okd b.2)) :
    Iterates (shown I block) (Ok I Okx Okd : TwoLevelIterator κ ι H → Prop) where
  mem := by
    intro it x hok hx
    obtain ⟨d, hd, hxd⟩ := Option.bind_eq_some_iff.mp hx
    obtain ⟨b, hb, _, hokd⟩ := hok.data d hd
    have hbI := hindex.mem hok.index hb
    exact ⟨b, hbI, (hblock b hbI).mem hokd hxd⟩
  seekToFirst := by
    intro it hok
    have hmove := hindex.seekToFirst hok.index
    have hopen := hok.opened hmove.1
    have hready : Ok I Okx Okd (onData Iter.seekToFirst
        (initDataBlock { it with index := Iter.seekToFirst it.index })) ∧
        Front I block (fun _ => True) (onData Iter.seekToFirst
        (initDataBlock { it with index := Iter.seekToFirst it.index })) := by
      rcases load hindex hopen Iter.seekToFirst with ⟨hend, heq⟩ | ⟨b, hbI, hb, d, hd, heq⟩
      · rw [heq]
        refine ⟨ok_load_none hopen, ?_⟩
        rw [Front, hend]
        rintro x ⟨b, hb, _⟩
        have hnone : Least I none := hend ▸ hmove.2
        exact absurd hb (hnone b)
      · have hdata := (hblock b hbI).seekToFirst hd
        have hleast : Least I (some b) := hb ▸ hmove.2
        rw [heq]
        refine ⟨ok_load_some hopen hb hdata.1, ?_⟩
        rw [Front, hb]
        refine ⟨hdata.2.congr fun y => (and_iff_left trivial).symm, fun _ _ => trivial, ?_⟩
        exact fun b' hb' hlt => absurd (hleast.2 b' hb') (not_le.mpr hlt)
    have h := skipForward_spec hblocks hindex hblock hready.1 hready.2
    exact ⟨h.1, h.2.congr fun y => and_iff_left trivial⟩
  seekToLast := by
    intro it hok
    have hmove := hindex.seekToLast hok.index
    have hopen := hok.opened hmove.1
    have hready : Ok I Okx Okd (onData Iter.seekToLast
        (initDataBlock { it with index := Iter.seekToLast it.index })) ∧
        Back I block (fun _ => True) (onData Iter.seekToLast
        (initDataBlock { it with index := Iter.seekToLast it.index })) := by
      rcases load hindex hopen Iter.seekToLast with ⟨hend, heq⟩ | ⟨b, hbI, hb, d, hd, heq⟩
      · rw [heq]
        refine ⟨ok_load_none hopen, ?_⟩
        rw [Back, hend]
        rintro x ⟨b, hb, _⟩
        have hnone : Greatest I none := hend ▸ hmove.2
        exact absurd hb (hnone b)
      · have hdata := (hblock b hbI).seekToLast hd
        have hgreatest : Greatest I (some b) := hb ▸ hmove.2
        rw [heq]
        refine ⟨ok_load_some hopen hb hdata.1, ?_⟩
        rw [Back, hb]
        refine ⟨hdata.2.congr fun y => (and_iff_left trivial).symm,
          fun _ _ _ _ _ => trivial, ?_⟩
        exact fun b' hb' hlt => absurd (hgreatest.2 b' hb') (not_le.mpr hlt)
    have h := skipBackward_spec hblocks hindex hblock hready.1 hready.2
    exact ⟨h.1, h.2.congr fun y => and_iff_left trivial⟩
  seek := by
    intro it t hok
    have hmove := hindex.seek t hok.index
    have hopen := hok.opened hmove.1
    have hready : Ok I Okx Okd (onData (Iter.seek t)
        (initDataBlock { it with index := Iter.seek t it.index })) ∧
        Front I block (t ≤ ·) (onData (Iter.seek t)
        (initDataBlock { it with index := Iter.seek t it.index })) := by
      -- a block whose key is before the target has nothing from the target on
      have hshort : ∀ b ∈ I, b.1 < t → ∀ x ∈ block b.2, ¬ t ≤ key x := fun b hb hlt x hx =>
        not_le.mpr ((hblocks.le b hb x hx).trans_lt hlt)
      rcases load hindex hopen (Iter.seek t) with ⟨hend, heq⟩ | ⟨b, hbI, hb, d, hd, heq⟩
      · rw [heq]
        refine ⟨ok_load_none hopen, ?_⟩
        rw [Front, hend]
        rintro x ⟨b, hb, hx⟩
        have hnone : Least (atOrAfter I t) none := hend ▸ hmove.2
        exact hshort b hb (not_le.mp fun hle => hnone b ⟨hb, hle⟩) x hx
      · have hdata := (hblock b hbI).seek t hd
        have hleast : Least (atOrAfter I t) (some b) := hb ▸ hmove.2
        rw [heq]
        refine ⟨ok_load_some hopen hb hdata.1, ?_⟩
        rw [Front, hb]
        refine ⟨hdata.2, fun a ha => hleast.1.2.trans ha.le, fun b' hb' hlt => ?_⟩
        refine hshort b' hb' (not_le.mp fun hle => ?_)
        exact absurd (hleast.2 b' ⟨hb', hle⟩) (not_le.mpr hlt)
    exact skipForward_spec hblocks hindex hblock hready.1 hready.2
  next := by
    intro it x hok hx
    obtain ⟨d, hd, hxd⟩ := Option.bind_eq_some_iff.mp hx
    obtain ⟨b, hb, hhandle, hokd⟩ := hok.data d hd
    have hbI := hindex.mem hok.index hb
    have hdata := (hblock b hbI).next hokd hxd
    have hxb := (hblock b hbI).mem hokd hxd
    refine skipForward_spec hblocks hindex hblock (ok_onData hok hb hd hdata.1) ?_
    rw [Front, onData, hb, hd]
    refine ⟨hdata.2, fun a ha => (hblocks.le b hbI x hxb).trans_lt ha, fun b' hb' hlt y hy => ?_⟩
    exact not_lt.mpr ((hblocks.le b' hb' y hy).trans (hblocks.lt b' hb' b hbI hlt x hxb).le)
  prev := by
    intro it x hok hx
    obtain ⟨d, hd, hxd⟩ := Option.bind_eq_some_iff.mp hx
    obtain ⟨b, hb, hhandle, hokd⟩ := hok.data d hd
    have hbI := hindex.mem hok.index hb
    have hdata := (hblock b hbI).prev hokd hxd
    have hxb := (hblock b hbI).mem hokd hxd
    refine skipBackward_spec (P := (· < key x)) hblocks hindex hblock
      (ok_onData hok hb hd hdata.1) ?_
    rw [Back, onData, hb, hd]
    refine ⟨hdata.2, fun b' hb' hlt a ha => ha.trans_lt (hblocks.lt b' hb' b hbI hlt x hxb),
      fun b' hb' hlt y hy => ?_⟩
    exact not_lt.mpr ((hblocks.le b hbI x hxb).trans (hblocks.lt b hbI b' hb' hlt y hy).le)

end Blocks

end TwoLevelIterator

end KfkClient.Engine
