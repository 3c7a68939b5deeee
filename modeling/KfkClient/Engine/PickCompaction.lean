import KfkClient.Engine.VersionBuilder

/-!
# Choosing the files of a compaction (`VersionSet::PickCompaction`)

A compaction takes files of one level and the files of the next level that overlap them, and
writes what is left of their entries to the next level.

## Main definitions

- `getRange`, `setupOtherInputs`, `pickCompaction` — the choice, as the source makes it
- `Inputs` — what the rest of the engine relies on

## Main results

- `Connected.append_overlapping` — overlapping files leave no gap
- `pickCompaction_inputs` — every choice of inputs is good
-/

namespace KfkClient.Engine

open MultiVersion

variable {K V : Type} [LinearOrder K]

/-- One round of the loop of `GetRange`. -/
def widenRange (r : InternalKey K × InternalKey K) (f : FileMetaData K V) :
    InternalKey K × InternalKey K :=
  (if f.smallest < r.1 then f.smallest else r.1, if r.2 < f.largest then f.largest else r.2)

/-- `GetRange` asserts that there are inputs. -/
def getRange : List (FileMetaData K V) → Option (InternalKey K × InternalKey K)
  | [] => none
  | f :: files => some (files.foldl widenRange (f.smallest, f.largest))

def getRange2 (inputs1 inputs2 : List (FileMetaData K V)) :
    Option (InternalKey K × InternalKey K) := getRange (inputs1 ++ inputs2)

structure Compaction (K V : Type) [LinearOrder K] where
  level : ℕ
  inputs0 : List (FileMetaData K V)
  inputs1 : List (FileMetaData K V)
  grandparents : List (FileMetaData K V)
  inputVersion : Version K V

def expandedCompactionByteSizeLimit (maxFileSize : ℕ) : ℕ := 25 * maxFileSize

/-- The middle part of `SetupOtherInputs`: whether to take more files of the level, and the
largest key of those taken. -/
def expandInputs (maxFileSize : ℕ) (v : Version K V) (level : ℕ)
    (inputs0 inputs1 : List (FileMetaData K V)) (largest : InternalKey K) :
    Option (List (FileMetaData K V) × List (FileMetaData K V) × InternalKey K) :=
  if inputs1 = [] then some (inputs0, inputs1, largest)
  else do
    let (allStart, allLimit) ← getRange2 inputs0 inputs1
    let expanded0 := getOverlappingInputs v level allStart allLimit
    if inputs0.length < expanded0.length ∧ totalFileSize inputs1 + totalFileSize expanded0 <
        expandedCompactionByteSizeLimit maxFileSize then do
      let (newStart, newLimit) ← getRange expanded0
      let expanded1 := getOverlappingInputs v (level + 1) newStart newLimit
      if expanded1.length = inputs1.length then some (expanded0, expanded1, newLimit)
      else some (inputs0, inputs1, largest)
    else some (inputs0, inputs1, largest)

/-- `SetupOtherInputs`, with the new `compact_pointer_` of the level. -/
def setupOtherInputs (maxFileSize : ℕ) (v : Version K V) (level : ℕ)
    (inputs0 : List (FileMetaData K V)) : Option (Compaction K V × InternalKey K) := do
  let (smallest, largest) ← getRange inputs0
  let inputs1 := getOverlappingInputs v (level + 1) smallest largest
  let (inputs0, inputs1, largest) ← expandInputs maxFileSize v level inputs0 inputs1 largest
  let (allStart, allLimit) ← getRange2 inputs0 inputs1
  let grandparents :=
    if level + 2 < kNumLevels then getOverlappingInputs v (level + 2) allStart allLimit else []
  some (⟨level, inputs0, inputs1, grandparents, v⟩, largest)

/-- What makes `PickCompaction` choose: too much data in a level, or the file that seeks were
charged to. -/
inductive Trigger where
  | size (level : ℕ)
  | seek

/-- The file that `PickCompaction` starts from, with its level. -/
def pickFile (v : Version K V) (compactPointer : ℕ → Option (InternalKey K))
    (fileToCompact : Option (ℕ × FileMetaData K V)) : Trigger → Option (ℕ × FileMetaData K V)
  | .size level =>
    if level + 1 < kNumLevels then
      let next := (v level).find? fun f => match compactPointer level with
        | none => true
        | some pointer => decide (pointer < f.largest)
      -- wrap around to the beginning of the key space
      (next.or (v level).head?).map fun f => (level, f)
    else none
  | .seek => fileToCompact

def pickCompaction (maxFileSize : ℕ) (v : Version K V)
    (compactPointer : ℕ → Option (InternalKey K))
    (fileToCompact : Option (ℕ × FileMetaData K V)) (t : Trigger) :
    Option (Compaction K V × InternalKey K) := do
  let (level, f) ← pickFile v compactPointer fileToCompact t
  if level = 0 then do
    let (smallest, largest) ← getRange [f]
    let inputs0 := getOverlappingInputs v 0 smallest largest
    if inputs0 = [] then none else setupOtherInputs maxFileSize v level inputs0
  else setupOtherInputs maxFileSize v level [f]

def Compaction.isTrivialMove (c : Compaction K V) (maxFileSize : ℕ) : Bool :=
  decide (c.inputs0.length = 1 ∧ c.inputs1.length = 0 ∧
    totalFileSize c.grandparents ≤ maxGrandParentOverlapBytes maxFileSize)

/-! ## Ranges -/

/-- The least and the greatest user key of some files. -/
structure Hull (files : List (FileMetaData K V)) (lo hi : K) : Prop where
  lo_mem : ∃ f ∈ files, f.smallest.userKey = lo
  hi_mem : ∃ f ∈ files, f.largest.userKey = hi
  within : ∀ f ∈ files, lo ≤ f.smallest.userKey ∧ f.largest.userKey ≤ hi

theorem Hull.widen {files : List (FileMetaData K V)} {r : InternalKey K × InternalKey K}
    (h : Hull files r.1.userKey r.2.userKey) (f : FileMetaData K V) :
    Hull (files ++ [f]) (widenRange r f).1.userKey (widenRange r f).2.userKey := by
  have hlo : (widenRange r f).1.userKey ≤ r.1.userKey ∧
      (widenRange r f).1.userKey ≤ f.smallest.userKey ∧
      ((widenRange r f).1 = r.1 ∨ (widenRange r f).1 = f.smallest) := by
    rw [widenRange]
    dsimp only
    split
    · rename_i hlt
      exact ⟨InternalKey.userKey_le_of_le hlt.le, le_rfl, .inr rfl⟩
    · rename_i hge
      exact ⟨le_rfl, InternalKey.userKey_le_of_le (not_lt.mp hge), .inl rfl⟩
  have hhi : r.2.userKey ≤ (widenRange r f).2.userKey ∧
      f.largest.userKey ≤ (widenRange r f).2.userKey ∧
      ((widenRange r f).2 = r.2 ∨ (widenRange r f).2 = f.largest) := by
    rw [widenRange]
    dsimp only
    split
    · rename_i hlt
      exact ⟨InternalKey.userKey_le_of_le hlt.le, le_rfl, .inr rfl⟩
    · rename_i hge
      exact ⟨le_rfl, InternalKey.userKey_le_of_le (not_lt.mp hge), .inl rfl⟩
  refine ⟨?_, ?_, ?_⟩
  · rcases hlo.2.2 with heq | heq
    · obtain ⟨g, hg, hgk⟩ := h.lo_mem
      exact ⟨g, List.mem_append_left _ hg, by rw [hgk, heq]⟩
    · exact ⟨f, List.mem_append_right _ (List.mem_singleton_self f), by rw [heq]⟩
  · rcases hhi.2.2 with heq | heq
    · obtain ⟨g, hg, hgk⟩ := h.hi_mem
      exact ⟨g, List.mem_append_left _ hg, by rw [hgk, heq]⟩
    · exact ⟨f, List.mem_append_right _ (List.mem_singleton_self f), by rw [heq]⟩
  · intro g hg
    rcases List.mem_append.mp hg with hg | hg
    · exact ⟨hlo.1.trans (h.within g hg).1, (h.within g hg).2.trans hhi.1⟩
    · rw [List.mem_singleton.mp hg]
      exact ⟨hlo.2.1, hhi.2.1⟩

theorem Hull.foldl_widen {done : List (FileMetaData K V)} {r : InternalKey K × InternalKey K}
    (h : Hull done r.1.userKey r.2.userKey) (files : List (FileMetaData K V)) :
    Hull (done ++ files) (files.foldl widenRange r).1.userKey
      (files.foldl widenRange r).2.userKey := by
  induction files generalizing done r with
  | nil => simpa using h
  | cons f files ih =>
    have hnext := ih (h.widen f)
    rwa [List.append_assoc, List.singleton_append] at hnext

theorem getRange_spec {files : List (FileMetaData K V)} {r : InternalKey K × InternalKey K}
    (h : getRange files = some r) : Hull files r.1.userKey r.2.userKey := by
  cases files with
  | nil => cases h
  | cons f files =>
    rw [← Option.some.inj h]
    have hone : Hull [f] f.smallest.userKey f.largest.userKey := by
      refine ⟨⟨f, List.mem_singleton_self f, rfl⟩, ⟨f, List.mem_singleton_self f, rfl⟩, ?_⟩
      intro g hg
      rw [List.mem_singleton.mp hg]
      exact ⟨le_rfl, le_rfl⟩
    exact Hull.foldl_widen (r := (f.smallest, f.largest)) hone files

theorem getRange_isSome {files : List (FileMetaData K V)} (h : files ≠ []) :
    ∃ r, getRange files = some r := by
  cases files with
  | nil => exact absurd rfl h
  | cons f files => exact ⟨_, rfl⟩

theorem Hull.le {files : List (FileMetaData K V)} {lo hi : K} (h : Hull files lo hi) : lo ≤ hi := by
  obtain ⟨f, hf, rfl⟩ := h.lo_mem
  exact f.range_le.trans (h.within f hf).2

/-! ## Inputs without a gap -/

/-- Every user key between two keys of the files is in the range of one of them. -/
def Connected (files : List (FileMetaData K V)) : Prop :=
  ∀ f ∈ files, ∀ g ∈ files, ∀ k, f.smallest.userKey ≤ k → k ≤ g.largest.userKey → Covered files k

theorem connected_singleton (f : FileMetaData K V) : Connected [f] := by
  intro a ha b hb k hak hkb
  rw [List.mem_singleton.mp ha] at hak
  rw [List.mem_singleton.mp hb] at hkb
  exact ⟨f, List.mem_singleton_self f, hak, hkb⟩

theorem Connected.of_mem_iff {files files' : List (FileMetaData K V)} (h : Connected files)
    (hmem : ∀ f, f ∈ files ↔ f ∈ files') : Connected files' := by
  intro f hf g hg k hfk hkg
  obtain ⟨x, hx, hcov⟩ := h f ((hmem f).mpr hf) g ((hmem g).mpr hg) k hfk hkg
  exact ⟨x, (hmem x).mp hx, hcov⟩

theorem Connected.hull {files : List (FileMetaData K V)} (h : Connected files) {lo hi : K}
    (hhull : Hull files lo hi) {k : K} (hlo : lo ≤ k) (hhi : k ≤ hi) : Covered files k := by
  obtain ⟨f, hf, rfl⟩ := hhull.lo_mem
  obtain ⟨g, hg, rfl⟩ := hhull.hi_mem
  exact h f hf g hg k hlo hhi

/-- Files that overlap the range of connected ones can be added to them. -/
theorem Connected.append {files more : List (FileMetaData K V)} (h : Connected files) {lo hi : K}
    (hhull : Hull files lo hi) (hmore : ∀ f ∈ more, f.Overlaps lo hi) :
    Connected (files ++ more) := by
  intro f hf g hg k hfk hkg
  by_cases hklo : k < lo
  · -- only an added file begins before the range, and it reaches into it
    rcases List.mem_append.mp hf with hf' | hf'
    · exact absurd hklo ((hhull.within f hf').1.trans hfk).not_gt
    · exact ⟨f, hf, hfk, hklo.le.trans (hmore f hf').1⟩
  · by_cases hkhi : hi < k
    · rcases List.mem_append.mp hg with hg' | hg'
      · exact absurd hkhi (hkg.trans (hhull.within g hg').2).not_gt
      · exact ⟨g, hg, (hmore g hg').2.trans hkhi.le, hkg⟩
    · obtain ⟨x, hx, hcov⟩ := h.hull hhull (not_lt.mp hklo) (not_lt.mp hkhi)
      exact ⟨x, List.mem_append_left _ hx, hcov⟩

theorem Connected.append_overlapping {files more result : List (FileMetaData K V)} {level : ℕ}
    (h : Connected files) {lo hi lo' hi' : K} (hhull : Hull files lo hi)
    (hover : Overlapping level more lo hi result lo' hi') : Connected (files ++ result) := by
  by_cases hlevel : level = 0
  · intro f hf g hg k hfk hkg
    have hwithin : ∀ x ∈ files ++ result, lo' ≤ x.smallest.userKey ∧ x.largest.userKey ≤ hi' := by
      intro x hx
      rcases List.mem_append.mp hx with hx | hx
      · exact ⟨hover.lo_le.trans (hhull.within x hx).1, (hhull.within x hx).2.trans hover.le_hi⟩
      · exact hover.closed hlevel x hx
    rcases hover.covered k ((hwithin f hf).1.trans hfk) (hkg.trans (hwithin g hg).2) with
      hin | ⟨x, hx, hcov⟩
    · obtain ⟨x, hx, hcov⟩ := h.hull hhull hin.1 hin.2
      exact ⟨x, List.mem_append_left _ hx, hcov⟩
    · exact ⟨x, List.mem_append_right _ hx, hcov⟩
  · obtain ⟨rfl, rfl⟩ := hover.same hlevel
    refine h.append hhull fun f hf => ?_
    rw [hover.eq_filter] at hf
    exact of_decide_eq_true (List.mem_filter.mp hf).2

theorem Overlapping.mem_of_overlaps {level : ℕ} {files result : List (FileMetaData K V)}
    {lo hi lo' hi' : K} (h : Overlapping level files lo hi result lo' hi') {f : FileMetaData K V}
    (hf : f ∈ files) (hover : f.Overlaps lo hi) : f ∈ result := by
  rw [h.eq_filter, List.mem_filter]
  exact ⟨hf, decide_eq_true ⟨h.lo_le.trans hover.1, hover.2.trans h.le_hi⟩⟩

theorem Overlapping.sublist {level : ℕ} {files result : List (FileMetaData K V)}
    {lo hi lo' hi' : K} (h : Overlapping level files lo hi result lo' hi') :
    result.Sublist files := by
  rw [h.eq_filter]
  exact List.filter_sublist

theorem Hull.overlaps {files : List (FileMetaData K V)} {lo hi : K} (h : Hull files lo hi)
    {f : FileMetaData K V} (hf : f ∈ files) : f.Overlaps lo hi :=
  ⟨(h.within f hf).1.trans f.range_le, f.range_le.trans (h.within f hf).2⟩

/-- A file that does not overlap a range is apart from the files within it. -/
theorem separate_of_not_overlaps {f g : FileMetaData K V} {lo hi : K} (h : ¬ g.Overlaps lo hi)
    (hlo : lo ≤ f.smallest.userKey) (hhi : f.largest.userKey ≤ hi) : Separate f g := by
  by_contra hsep
  apply h
  rw [Separate, not_or, not_lt, not_lt] at hsep
  exact ⟨hlo.trans hsep.2, hsep.1.trans hhi⟩

/-! ## What is chosen -/

/-- The inputs of a compaction: files of a level and of the next one, without a gap, such that
no other file of the next level overlaps them, and in level 0 no other file of that level. -/
structure Inputs (v : Version K V) (level : ℕ) (inputs0 inputs1 : List (FileMetaData K V)) :
    Prop where
  nonempty : inputs0 ≠ []
  sub0 : inputs0.Sublist (v level)
  sub1 : inputs1.Sublist (v (level + 1))
  closed0 : level = 0 → ∀ g ∈ v 0, g ∉ inputs0 → ∀ f ∈ inputs0, Separate f g
  closed1 : ∀ g ∈ v (level + 1), g ∉ inputs1 → ∀ f ∈ inputs0, Separate f g
  connected : Connected (inputs0 ++ inputs1)

/-- The files of the next level that overlap the inputs complete them. -/
theorem Inputs.of_overlapping {v : Version K V} {level : ℕ}
    {inputs0 inputs1 : List (FileMetaData K V)} {lo hi lo' hi' : K} (hne : inputs0 ≠ [])
    (hsub : inputs0.Sublist (v level))
    (hclosed : level = 0 → ∀ g ∈ v 0, g ∉ inputs0 → ∀ f ∈ inputs0, Separate f g)
    (hhull : Hull inputs0 lo hi)
    (hover : Overlapping (level + 1) (v (level + 1)) lo hi inputs1 lo' hi')
    (hconn : Connected (inputs0 ++ inputs1)) : Inputs v level inputs0 inputs1 := by
  refine ⟨hne, hsub, hover.sublist, hclosed, ?_, hconn⟩
  intro g hg hnot f hf
  have hmiss : ¬ g.Overlaps lo hi := fun h => hnot (hover.mem_of_overlaps hg h)
  exact separate_of_not_overlaps hmiss (hhull.within f hf).1 (hhull.within f hf).2

/-- The files that `GetOverlappingInputs` finds in level 0 are overlapped by no others. -/
theorem Overlapping.closed0 {files result : List (FileMetaData K V)} {lo hi lo' hi' : K}
    (h : Overlapping 0 files lo hi result lo' hi') {g : FileMetaData K V} (hg : g ∈ files)
    (hnot : g ∉ result) {f : FileMetaData K V} (hf : f ∈ result) : Separate f g := by
  have hmiss : ¬ g.Overlaps lo' hi' := by
    intro hov
    apply hnot
    rw [h.eq_filter, List.mem_filter]
    exact ⟨hg, decide_eq_true hov⟩
  exact separate_of_not_overlaps hmiss (h.closed rfl f hf).1 (h.closed rfl f hf).2

/-- The files of the level that a compaction is set up from. -/
structure Seed (v : Version K V) (level : ℕ) (inputs0 : List (FileMetaData K V)) : Prop where
  nonempty : inputs0 ≠ []
  sub0 : inputs0.Sublist (v level)
  closed0 : level = 0 → ∀ g ∈ v 0, g ∉ inputs0 → ∀ f ∈ inputs0, Separate f g
  connected : Connected inputs0

theorem Hull.mono {files files' : List (FileMetaData K V)} {lo hi lo' hi' : K}
    (h : Hull files lo hi) (h' : Hull files' lo' hi') (hsub : ∀ f ∈ files, f ∈ files') :
    lo' ≤ lo ∧ hi ≤ hi' := by
  obtain ⟨f, hf, rfl⟩ := h.lo_mem
  obtain ⟨g, hg, rfl⟩ := h.hi_mem
  exact ⟨(h'.within f (hsub f hf)).1, (h'.within g (hsub g hg)).2⟩

section Expand

variable {v : Version K V} {level : ℕ} {inputs0 inputs1 : List (FileMetaData K V)}
  {lo hi lo' hi' : K}

theorem Seed.inputs (h : Seed v level inputs0) (hhull : Hull inputs0 lo hi)
    (hover : Overlapping (level + 1) (v (level + 1)) lo hi inputs1 lo' hi') :
    Inputs v level inputs0 inputs1 :=
  Inputs.of_overlapping h.nonempty h.sub0 h.closed0 hhull hover
    (h.connected.append_overlapping hhull hover)

/-- Growing the inputs of the level to all that overlap the range of the inputs of both
levels. -/
theorem Inputs.expand (h : Inputs v level inputs0 inputs1) (hhull0 : Hull inputs0 lo hi)
    (hover1 : ∀ f ∈ inputs1, f.Overlaps lo hi) {all new : InternalKey K × InternalKey K}
    (hall : Hull (inputs0 ++ inputs1) all.1.userKey all.2.userKey)
    (hnew : Hull (getOverlappingInputs v level all.1 all.2) new.1.userKey new.2.userKey) :
    Inputs v level (getOverlappingInputs v level all.1 all.2)
      (getOverlappingInputs v (level + 1) new.1 new.2) := by
  obtain ⟨lo0, hi0, hover0⟩ := getOverlappingInputs_spec v level all.1 all.2
  obtain ⟨lo1, hi1, hoverNew⟩ := getOverlappingInputs_spec v (level + 1) new.1 new.2
  set expanded0 := getOverlappingInputs v level all.1 all.2
  set expanded1 := getOverlappingInputs v (level + 1) new.1 new.2
  have hgrow0 : ∀ f ∈ inputs0, f ∈ expanded0 := fun f hf =>
    hover0.mem_of_overlaps (h.sub0.subset hf) (hall.overlaps (List.mem_append_left _ hf))
  have hgrow1 : ∀ f ∈ inputs1, f ∈ expanded1 := by
    intro f hf
    obtain ⟨hle, hle'⟩ := hhull0.mono hnew hgrow0
    exact hoverNew.mem_of_overlaps (h.sub1.subset hf)
      ⟨hle.trans (hover1 f hf).1, (hover1 f hf).2.trans hle'⟩
  have hne : expanded0 ≠ [] := by
    obtain ⟨f, hf⟩ := List.exists_mem_of_ne_nil inputs0 h.nonempty
    exact List.ne_nil_of_mem (hgrow0 f hf)
  have hconn : Connected (expanded0 ++ expanded1) := by
    have hboth := h.connected.append_overlapping hall hover0
    have hne' : inputs0 ++ inputs1 ++ expanded0 ≠ [] := by simp [hne]
    obtain ⟨r, hr⟩ := getRange_isSome hne'
    have hhull := getRange_spec hr
    obtain ⟨hle, hle'⟩ := hnew.mono hhull fun f hf => List.mem_append_right _ hf
    have hadd : ∀ f ∈ expanded1, f.Overlaps r.1.userKey r.2.userKey := by
      intro f hf
      rw [hoverNew.eq_filter, (hoverNew.same (by omega)).1, (hoverNew.same (by omega)).2] at hf
      have hov : f.Overlaps new.1.userKey new.2.userKey :=
        of_decide_eq_true (List.mem_filter.mp hf).2
      exact ⟨hle.trans hov.1, hov.2.trans hle'⟩
    refine (hboth.append hhull hadd).of_mem_iff fun f => ?_
    simp only [List.mem_append]
    constructor
    · rintro (((hf | hf) | hf) | hf)
      · exact .inl (hgrow0 f hf)
      · exact .inr (hgrow1 f hf)
      · exact .inl hf
      · exact .inr hf
    · rintro (hf | hf)
      · exact .inl (.inr hf)
      · exact .inr hf
  refine Inputs.of_overlapping hne hover0.sublist ?_ hnew hoverNew hconn
  rintro hlevel g hg hnot f hf
  subst hlevel
  exact hover0.closed0 hg hnot hf

theorem expandInputs_spec (maxFileSize : ℕ) (h : Inputs v level inputs0 inputs1)
    (hhull0 : Hull inputs0 lo hi) (hover1 : ∀ f ∈ inputs1, f.Overlaps lo hi)
    (largest : InternalKey K) :
    ∃ r, expandInputs maxFileSize v level inputs0 inputs1 largest = some r ∧
      Inputs v level r.1 r.2.1 := by
  have hkeep : ∃ r, some (inputs0, inputs1, largest) = some r ∧ Inputs v level r.1 r.2.1 :=
    ⟨_, rfl, h⟩
  rw [expandInputs]
  split
  · exact hkeep
  · have hne : inputs0 ++ inputs1 ≠ [] := by simp [h.nonempty]
    obtain ⟨all, hall⟩ := getRange_isSome hne
    rw [getRange2, hall]
    show ∃ r, (if inputs0.length < (getOverlappingInputs v level all.1 all.2).length ∧ _ then _
      else _) = some r ∧ _
    split
    · rename_i hgrow
      have hne : getOverlappingInputs v level all.1 all.2 ≠ [] := by
        intro hnil
        rw [hnil] at hgrow
        exact absurd hgrow.1 (Nat.not_lt_zero _)
      obtain ⟨new, hnew⟩ := getRange_isSome hne
      rw [hnew]
      show ∃ r, (if (getOverlappingInputs v (level + 1) new.1 new.2).length = _ then _ else _) =
        some r ∧ _
      split
      · exact ⟨_, rfl, h.expand hhull0 hover1 (getRange_spec hall) (getRange_spec hnew)⟩
      · exact hkeep
    · exact hkeep

end Expand

theorem setupOtherInputs_spec (maxFileSize : ℕ) {v : Version K V} {level : ℕ}
    {inputs0 : List (FileMetaData K V)} (h : Seed v level inputs0) :
    ∃ c largest, setupOtherInputs maxFileSize v level inputs0 = some (c, largest) ∧
      c.level = level ∧ c.inputVersion = v ∧ Inputs v level c.inputs0 c.inputs1 := by
  obtain ⟨range, hrange⟩ := getRange_isSome h.nonempty
  have hhull := getRange_spec hrange
  obtain ⟨lo', hi', hover⟩ := getOverlappingInputs_spec v (level + 1) range.1 range.2
  have hover1 : ∀ f ∈ getOverlappingInputs v (level + 1) range.1 range.2,
      f.Overlaps range.1.userKey range.2.userKey := by
    intro f hf
    rw [hover.eq_filter, (hover.same (by omega)).1, (hover.same (by omega)).2] at hf
    exact of_decide_eq_true (List.mem_filter.mp hf).2
  obtain ⟨r, hr, hinputs⟩ :=
    expandInputs_spec maxFileSize (h.inputs hhull hover) hhull hover1 range.2
  have hne : r.1 ++ r.2.1 ≠ [] := by simp [hinputs.nonempty]
  obtain ⟨all, hall⟩ := getRange_isSome hne
  let grandparents :=
    if level + 2 < kNumLevels then getOverlappingInputs v (level + 2) all.1 all.2 else []
  refine ⟨⟨level, r.1, r.2.1, grandparents, v⟩, r.2.2, ?_, rfl, rfl, hinputs⟩
  rw [setupOtherInputs, hrange]
  show (do
    let (inputs0, inputs1, largest) ← expandInputs maxFileSize v level inputs0
      (getOverlappingInputs v (level + 1) range.1 range.2) range.2
    _) = _
  rw [hr]
  show (do
    let (allStart, allLimit) ← getRange2 r.1 r.2.1
    _) = _
  rw [getRange2, hall]
  rfl

theorem pickFile_spec {v : Version K V} {compactPointer : ℕ → Option (InternalKey K)}
    {fileToCompact : Option (ℕ × FileMetaData K V)} {t : Trigger} {level : ℕ}
    {f : FileMetaData K V}
    (hseek : ∀ p, fileToCompact = some p → p.2 ∈ v p.1 ∧ p.1 + 1 < kNumLevels)
    (h : pickFile v compactPointer fileToCompact t = some (level, f)) :
    f ∈ v level ∧ level + 1 < kNumLevels := by
  cases t with
  | seek => exact hseek (level, f) h
  | size l =>
    rw [pickFile] at h
    split at h
    · rename_i hl
      obtain ⟨g, hg, hpair⟩ := Option.map_eq_some_iff.mp h
      obtain ⟨rfl, rfl⟩ := Prod.mk.inj hpair
      refine ⟨?_, hl⟩
      rcases Option.or_eq_some_iff.mp hg with hg | ⟨_, hg⟩
      · exact List.mem_of_find?_eq_some hg
      · exact List.mem_of_head? hg
    · cases h

theorem seed_singleton {v : Version K V} {level : ℕ} (hlevel : level ≠ 0) {f : FileMetaData K V}
    (hf : f ∈ v level) : Seed v level [f] where
  nonempty := List.cons_ne_nil _ _
  sub0 := List.singleton_sublist.mpr hf
  closed0 := fun h => absurd h hlevel
  connected := connected_singleton f

theorem seed_level0 {v : Version K V} {f : FileMetaData K V} (hf : f ∈ v 0) :
    Seed v 0 (getOverlappingInputs v 0 f.smallest f.largest) := by
  obtain ⟨lo', hi', hover⟩ := getOverlappingInputs_spec v 0 f.smallest f.largest
  have hmem : f ∈ getOverlappingInputs v 0 f.smallest f.largest :=
    hover.mem_of_overlaps hf ⟨f.range_le, f.range_le⟩
  refine ⟨List.ne_nil_of_mem hmem, hover.sublist,
    fun _ g hg hnot x hx => hover.closed0 hg hnot hx, ?_⟩
  -- the picked file fills the range the search started from
  have hhull : Hull [f] f.smallest.userKey f.largest.userKey :=
    getRange_spec (r := (f.smallest, f.largest)) rfl
  refine ((connected_singleton f).append_overlapping hhull hover).of_mem_iff fun g => ?_
  simp only [List.singleton_append, List.mem_cons, or_iff_right_iff_imp]
  rintro rfl
  exact hmem

/-- Whatever triggers it, the inputs of a compaction are as its work relies on. -/
theorem pickCompaction_inputs (maxFileSize : ℕ) {v : Version K V}
    {compactPointer : ℕ → Option (InternalKey K)} {fileToCompact : Option (ℕ × FileMetaData K V)}
    {t : Trigger} (hseek : ∀ p, fileToCompact = some p → p.2 ∈ v p.1 ∧ p.1 + 1 < kNumLevels)
    {level : ℕ} {f : FileMetaData K V}
    (h : pickFile v compactPointer fileToCompact t = some (level, f)) :
    ∃ c largest, pickCompaction maxFileSize v compactPointer fileToCompact t = some (c, largest) ∧
      c.level + 1 < kNumLevels ∧ c.inputVersion = v ∧ Inputs v c.level c.inputs0 c.inputs1 := by
  obtain ⟨hf, hlevel⟩ := pickFile_spec hseek h
  have hpick : ∃ inputs0, pickCompaction maxFileSize v compactPointer fileToCompact t =
      setupOtherInputs maxFileSize v level inputs0 ∧ Seed v level inputs0 := by
    rw [pickCompaction, h]
    by_cases hzero : level = 0
    · subst hzero
      have hseed := seed_level0 hf
      refine ⟨_, ?_, hseed⟩
      show (if getOverlappingInputs v 0 f.smallest f.largest = [] then none else
        setupOtherInputs maxFileSize v 0 (getOverlappingInputs v 0 f.smallest f.largest)) = _
      rw [if_neg hseed.nonempty]
    · refine ⟨[f], ?_, seed_singleton hzero hf⟩
      show (if level = 0 then _ else setupOtherInputs maxFileSize v level [f]) = _
      rw [if_neg hzero]
  obtain ⟨inputs0, heq, hseed⟩ := hpick
  obtain ⟨c, largest, hsetup, rfl, hversion, hinputs⟩ := setupOtherInputs_spec maxFileSize hseed
  exact ⟨c, largest, heq.trans hsetup, hlevel, hversion, hinputs⟩

end KfkClient.Engine
