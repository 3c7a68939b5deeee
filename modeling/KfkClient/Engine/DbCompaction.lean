import KfkClient.Engine.DbInvariant

/-!
# The background work keeps the invariant

A memtable is written out, a file is moved to the next level, a compaction is started, goes
through its rounds and is installed. None of it changes what a reader sees.

## Main results

- `Db.Inv.install` — a new version that shows readers the same
- `Db.Inv.compactMemTable`, `Db.Inv.startCompaction`, `Db.Inv.compactNext`,
  `Db.Inv.finishCompaction` — the actions
-/

namespace KfkClient.Engine

open MultiVersion

variable {K V : Type} [LinearOrder K]

theorem ReaderOk.keepFiles {mem : MemTable K V} {files files' : Version K V} {last : ℕ}
    {r : Reader K V} (h : ReaderOk mem files last r) : ReaderOk mem files' last r.keepFiles :=
  ⟨h.layers, h.old, h.snapshot_le, h.mem_eq, fun hshared => by cases hshared⟩

/-- The state with another version, and what goes with it. -/
def Db.install (db : Db K V) (imm : Option (MemTable K V)) (files : Version K V)
    (nextFileNumber : ℕ) (compactPointer : ℕ → Option (InternalKey K))
    (compaction : Option (CompactionState K V × List (Entry K V))) : Db K V :=
  { db with
    imm := imm
    files := files
    nextFileNumber := nextFileNumber
    compactPointer := compactPointer
    fileToCompact := none
    compaction := compaction
    readers := db.readers.map Reader.keepFiles }

theorem Db.Inv.install {db : Db K V} (h : db.Inv) (imm : Option (MemTable K V))
    (files : Version K V) (next : ℕ) (pointer : ℕ → Option (InternalKey K))
    (compaction : Option (CompactionState K V × List (Entry K V)))
    (hlayers : Layers db.mem imm files)
    (hsub : immEntries imm ∪ files.entries ⊆ immEntries db.imm ∪ db.files.entries)
    (hnumbers : ∀ level, ∀ f ∈ files level, f.number < next)
    (hjob : ∀ st rest, compaction = some (st, rest) → Job files db.lastSequence next st rest)
    (hreads : ∀ s k o, db.lastSequence ≤ s → Reads db.contents s k o →
      Reads (Engine.contents db.mem imm files) s k o) :
    (db.install imm files next pointer compaction).Inv ∧
      ∀ s, db.Shows s → (db.install imm files next pointer compaction).Shows s := by
  refine ⟨⟨hlayers, fun e he => h.old e (hsub he), h.mem_old, h.small, h.writing, hnumbers, ?_,
    hjob, ?_⟩, fun s hs => ⟨?_, ?_, ?_⟩⟩
  · intro p hp
    cases hp
  · intro r hr
    obtain ⟨r₀, hr₀, rfl⟩ := List.mem_map.mp hr
    exact (h.readers r₀ hr₀).keepFiles
  · intro k
    exact hreads db.lastSequence k _ le_rfl (hs.values k)
  · intro w hw
    obtain ⟨done, hbatch, hdone⟩ := hs.batch w hw
    have hlt := (h.writing w hw).1
    exact ⟨done, hbatch, fun k => hreads _ k _ (by omega) (hdone k)⟩
  · exact List.forall₂_map_left_iff.mpr (hs.reads.imp fun r p hrp => hrp)

theorem logAndApply_spec (db : Db K V) {ds : List (ℕ × ℕ)} {level : ℕ}
    {news : List (FileMetaData K V)} (hv : db.files.WellPlaced)
    (h : Installable db.files ds level news) :
    ∃ files, db.logAndApply (levelEdit ds level news) = some { db with
        files := files, fileToCompact := none, readers := db.readers.map Reader.keepFiles } ∧
      files.WellPlaced ∧
      ∀ l f, f ∈ files l ↔ f ∈ db.files l ∧ (l, f.number) ∉ ds ∨ l = level ∧ f ∈ news := by
  obtain ⟨files, hbuild, hplaced, hmem⟩ := install_spec hv h
  refine ⟨files, ?_, hplaced, hmem⟩
  rw [Db.logAndApply, hbuild]
  rfl

/-! ## A memtable is written out -/

section Flush

variable {db : Db K V} (h : db.Inv) {imm : MemTable K V} (himm : db.imm = some imm)
include h himm

theorem imm_newer_than_files {f : FileMetaData K V} (hcontent : f.content = imm.content)
    {level : ℕ} {g : FileMetaData K V} (hg : g ∈ db.files level) :
    ∀ x ∈ f.entries, ∀ y ∈ g.entries, y.seq < x.seq := by
  intro x hx y hy
  have hx' : x ∈ immEntries db.imm := by
    rw [himm]
    show x ∈ imm.content
    rw [← hcontent]
    exact hx
  exact h.layers.imm_newer x hx' y ⟨level, g, hg, hy⟩

/-- The level picked for the table of the memtable is one it may be added to. -/
theorem installable_flush (maxFileSize : ℕ) {f : FileMetaData K V}
    (hcontent : f.content = imm.content) (hnumber : f.number = db.nextFileNumber) :
    Installable db.files []
      (pickLevelForMemTableOutput maxFileSize db.files f.smallest.userKey f.largest.userKey)
      [f] := by
  obtain ⟨hle, hmiss⟩ := pickLevelForMemTableOutput_spec h.layers.placed h.largest_le maxFileSize
    f.smallest.userKey f.largest.userKey
  set level := pickLevelForMemTableOutput maxFileSize db.files f.smallest.userKey
    f.largest.userKey
  have hsep : 0 < level → ∀ i ≤ level, ∀ g ∈ db.files i, Separate f g := fun hpos i hi g hg =>
    separate_of_not_overlaps (hmiss hpos i hi g hg) le_rfl le_rfl
  have hnew : ∀ i, ∀ g ∈ db.files i, g.number ≠ f.number := by
    intro i g hg
    have hlt := h.numbers i g hg
    omega
  have habove : ∀ i, ∀ g ∈ db.files i, Above f.entries g.entries := fun i g hg =>
    above_of_newer (imm_newer_than_files h himm hcontent hg)
  have hlevels : kMaxMemCompactLevel < kNumLevels := by decide
  refine ⟨by omega, List.pairwise_singleton _ _, ?_, ?_, ?_, ?_, ?_, ?_, ?_, ?_⟩
  · intro x hx
    rw [List.mem_singleton.mp hx]
    exact hnew level
  · intro x hx i g hg _
    rw [List.mem_singleton.mp hx]
    exact hnew i g hg
  · intro hpos x hx g hg _
    rw [List.mem_singleton.mp hx]
    exact hsep hpos level le_rfl g hg
  · intro _ x hx y hy hne
    exact absurd ((List.mem_singleton.mp hx).trans (List.mem_singleton.mp hy).symm) hne
  · intro x hx i hi g hg _
    rw [List.mem_singleton.mp hx]
    exact (hsep (by omega) i hi.le g hg).symm.above
  · intro x hx i _ g hg _
    rw [List.mem_singleton.mp hx]
    exact habove i g hg
  · intro _ x hx g hg _
    rw [List.mem_singleton.mp hx]
    exact ⟨hnumber ▸ h.numbers 0 g hg, habove 0 g hg⟩
  · intro _ x hx y hy
    rw [List.mem_singleton.mp hx, List.mem_singleton.mp hy]

/-- A compaction under way is not disturbed by a memtable that is written out. -/
theorem Job.flush {maxFileSize : ℕ} {files : Version K V} {f : FileMetaData K V}
    (hcontent : f.content = imm.content) (hnumber : f.number = db.nextFileNumber)
    (hmem : ∀ l g, g ∈ files l ↔ g ∈ db.files l ∨
      l = pickLevelForMemTableOutput maxFileSize db.files f.smallest.userKey f.largest.userKey ∧
        g = f)
    {st : CompactionState K V} {rest : List (Entry K V)}
    (hjob : Job db.files db.lastSequence db.nextFileNumber st rest) :
    Job files db.lastSequence (db.nextFileNumber + 1) st rest := by
  obtain ⟨_, hmiss⟩ := pickLevelForMemTableOutput_spec h.layers.placed h.largest_le maxFileSize
    f.smallest.userKey f.largest.userKey
  have habove : ∀ x ∈ st.compaction.inputs0 ++ st.compaction.inputs1,
      Above f.entries x.entries := by
    intro x hx
    rcases List.mem_append.mp hx with hx | hx
    · exact above_of_newer (imm_newer_than_files h himm hcontent (hjob.sub0 x hx))
    · exact above_of_newer (imm_newer_than_files h himm hcontent (hjob.sub1 x hx))
  refine { hjob with
    sub0 := fun x hx => (hmem _ x).mpr (.inl (hjob.sub0 x hx))
    sub1 := fun x hx => (hmem _ x).mpr (.inl (hjob.sub1 x hx))
    beside := ?_
    separate := ?_
    deeper := ?_
    numbers_lt := fun n hn => (hjob.numbers_lt n hn).trans (Nat.lt_succ_self _)
    numbers_new := ?_ }
  · intro g hg hnot x hx
    rcases (hmem _ g).mp hg with hg | ⟨_, rfl⟩
    · exact hjob.beside g hg hnot x hx
    · exact habove x (List.mem_append_left _ hx)
  · -- the table goes to the level of the outputs only past both levels of the inputs
    intro g hg hnot x hx
    rcases (hmem _ g).mp hg with hg | ⟨hlevel, rfl⟩
    · exact hjob.separate g hg hnot x hx
    · have hover : ¬ x.Overlaps g.smallest.userKey g.largest.userKey := by
        rcases List.mem_append.mp hx with hx | hx
        · exact hmiss (by omega) _ (by omega) x (hjob.sub0 x hx)
        · exact hmiss (by omega) _ (by omega) x (hjob.sub1 x hx)
      exact (separate_of_not_overlaps hover le_rfl le_rfl).symm
  · intro i hi g hg hnot x hx
    rcases (hmem _ g).mp hg with hg | ⟨_, rfl⟩
    · exact hjob.deeper i hi g hg hnot x hx
    · exact habove x hx
  · intro n hn i g hg
    rcases (hmem _ g).mp hg with hg | ⟨_, rfl⟩
    · exact hjob.numbers_new n hn i g hg
    · have hlt := hjob.numbers_lt n hn
      omega

omit h in
theorem entries_flush {level : ℕ} {files : Version K V} {f : FileMetaData K V}
    (hcontent : f.content = imm.content)
    (hmem : ∀ l g, g ∈ files l ↔ g ∈ db.files l ∨ l = level ∧ g = f) :
    files.entries = immEntries db.imm ∪ db.files.entries := by
  have himm' : immEntries db.imm = f.entries := by
    rw [himm]
    show entries imm.content = entries f.content
    rw [hcontent]
  rw [himm']
  ext e
  constructor
  · rintro ⟨l, g, hg, he⟩
    rcases (hmem l g).mp hg with hg | ⟨_, rfl⟩
    · exact .inr ⟨l, g, hg, he⟩
    · exact .inl he
  · rintro (he | ⟨l, g, hg, he⟩)
    · exact ⟨level, f, (hmem level f).mpr (.inr ⟨rfl, rfl⟩), he⟩
    · exact ⟨l, g, (hmem l g).mpr (.inl hg), he⟩

end Flush

/-- Where the memtable set aside and the files together are the new files. -/
theorem Layers.flush {mem : MemTable K V} {imm : Option (MemTable K V)} {files files' : Version K V}
    (h : Layers mem imm files) (hplaced : files'.WellPlaced)
    (hentries : files'.entries = immEntries imm ∪ files.entries) : Layers mem none files' where
  placed := hplaced
  distinct := by
    rw [contents, hentries]
    refine h.distinct.mono ?_
    simp [contents, immEntries]
  mem_newer := by
    intro x hx y hy
    rw [hentries] at hy
    exact h.mem_newer x hx y (hy.resolve_left fun hnone => absurd hnone (Set.notMem_empty y))
  imm_newer := fun x hx => absurd hx (Set.notMem_empty x)

theorem contents_flush (mem : MemTable K V) {imm : Option (MemTable K V)}
    {files files' : Version K V} (hentries : files'.entries = immEntries imm ∪ files.entries) :
    contents mem none files' = contents mem imm files := by
  rw [contents, contents, hentries, immEntries, Set.empty_union]

/-- A compaction asks of the files only which they are. -/
theorem Job.of_mem_iff {files files' : Version K V} {last next : ℕ} {st : CompactionState K V}
    {rest : List (Entry K V)} (h : Job files last next st rest)
    (hmem : ∀ l f, f ∈ files' l ↔ f ∈ files l) : Job files' last next st rest :=
  { h with
    sub0 := fun f hf => (hmem _ f).mpr (h.sub0 f hf)
    sub1 := fun f hf => (hmem _ f).mpr (h.sub1 f hf)
    beside := fun g hg => h.beside g ((hmem _ g).mp hg)
    separate := fun g hg => h.separate g ((hmem _ g).mp hg)
    deeper := fun i hi g hg => h.deeper i hi g ((hmem _ g).mp hg)
    numbers_new := fun n hn i f hf => h.numbers_new n hn i f ((hmem _ f).mp hf) }

theorem installable_nil (v : Version K V) : Installable v [] 0 ([] : List (FileMetaData K V)) where
  level_lt := by decide
  numbers := .nil
  fresh := by simp
  unique := by simp
  separate := by simp
  separate_new := by simp
  above := by simp
  below := by simp
  newest := by simp
  one := by simp

/-- Once the files hold what the memtable set aside held, it can go. -/
theorem Db.Inv.flushed {db : Db K V} (h : db.Inv) {opts : Options K V} (files : Version K V)
    (hact : db.act opts .compactMemTable = some
      (db.install none files (db.nextFileNumber + 1) db.compactPointer db.compaction))
    (hplaced : files.WellPlaced)
    (hentries : files.entries = immEntries db.imm ∪ db.files.entries)
    (hnumbers : ∀ level, ∀ f ∈ files level, f.number < db.nextFileNumber + 1)
    (hjob : ∀ st rest, db.compaction = some (st, rest) →
      Job files db.lastSequence (db.nextFileNumber + 1) st rest) :
    db.Safe opts .compactMemTable := by
  refine ⟨_, hact, h.install none files _ _ _ (h.layers.flush hplaced hentries) ?_ hnumbers hjob ?_⟩
  · rw [hentries, immEntries, Set.empty_union]
  · intro s k o _ hreads
    rwa [contents_flush db.mem hentries]

theorem Db.Inv.compactMemTable {db : Db K V} (h : db.Inv) (opts : Options K V)
    (hready : db.ready .compactMemTable = true) : db.Safe opts .compactMemTable := by
  obtain ⟨imm, himm⟩ := Option.isSome_iff_exists.mp hready
  have hact : db.act opts .compactMemTable = db.compactMemTable opts imm := by
    rw [Db.act, himm]
    rfl
  have hold : ∀ level, ∀ f ∈ db.files level, f.number < db.nextFileNumber + 1 :=
    fun level f hf => (h.numbers level f hf).trans (Nat.lt_succ_self _)
  rcases buildTable_spec opts.fileSize imm db.nextFileNumber with
    ⟨hempty, hbuild⟩ | ⟨f, hbuild, hcontent, hnumber⟩
  · -- nothing was written, and no file is added
    obtain ⟨files, hlog, hplaced, hmem⟩ :=
      logAndApply_spec db h.layers.placed (installable_nil db.files)
    have hmem' : ∀ l g, g ∈ files l ↔ g ∈ db.files l := by
      intro l g
      rw [hmem]
      simp
    refine h.flushed files ?_ hplaced ?_ ?_ ?_
    · rw [hact, Db.compactMemTable]
      dsimp only
      rw [hbuild]
      show (db.logAndApply (levelEdit [] 0 [])).bind _ = _
      rw [hlog]
      rfl
    · have himm' : immEntries db.imm = ∅ := by
        rw [himm]
        show entries imm.content = ∅
        rw [hempty]
        simp [entries]
      rw [himm', Set.empty_union]
      ext e
      simp only [Version.entries, Set.mem_ofPred_eq, hmem']
    · intro level g hg
      exact hold level g ((hmem' level g).mp hg)
    · intro st rest hjob
      exact ((h.job st rest hjob).mono le_rfl (Nat.le_succ _)).of_mem_iff hmem'
  · obtain ⟨files, hlog, hplaced, hmem⟩ := logAndApply_spec db h.layers.placed
      (installable_flush h himm opts.maxFileSize hcontent hnumber)
    have hmem' : ∀ l g, g ∈ files l ↔ g ∈ db.files l ∨
        l = pickLevelForMemTableOutput opts.maxFileSize db.files f.smallest.userKey
          f.largest.userKey ∧ g = f := by
      intro l g
      rw [hmem, List.mem_singleton]
      simp
    refine h.flushed files ?_ hplaced (entries_flush himm hcontent hmem') ?_ ?_
    · rw [hact, Db.compactMemTable]
      dsimp only
      rw [hbuild]
      show (db.logAndApply (levelEdit [] (pickLevelForMemTableOutput opts.maxFileSize db.files
        f.smallest.userKey f.largest.userKey) [f])).bind _ = _
      rw [hlog]
      rfl
    · intro level g hg
      rcases (hmem' level g).mp hg with hg | ⟨_, rfl⟩
      · exact hold level g hg
      · omega
    · intro st rest hjob
      exact Job.flush h himm hcontent hnumber hmem' (h.job st rest hjob)

/-! ## A compaction begins -/

/-- Files beside the inputs are newer than they, or share no key with them. -/
theorem Inputs.beside {v : Version K V} {level : ℕ} {inputs0 inputs1 : List (FileMetaData K V)}
    (hv : v.WellPlaced) (h : Inputs v level inputs0 inputs1) {g : FileMetaData K V}
    (hg : g ∈ v level) (hnot : g ∉ inputs0) {f : FileMetaData K V} (hf : f ∈ inputs0) :
    Separate f g := by
  rcases Nat.eq_zero_or_pos level with rfl | hpos
  · exact h.closed0 rfl g hg hnot f hf
  · refine (hv.apart level hpos).separate (h.sub0.subset hf) hg ?_
    rintro rfl
    exact hnot hf

theorem Inputs.separate {v : Version K V} {level : ℕ} {inputs0 inputs1 : List (FileMetaData K V)}
    (hv : v.WellPlaced) (h : Inputs v level inputs0 inputs1) {g : FileMetaData K V}
    (hg : g ∈ v (level + 1)) (hnot : g ∉ inputs1) {f : FileMetaData K V}
    (hf : f ∈ inputs0 ++ inputs1) : Separate f g := by
  rcases List.mem_append.mp hf with hf | hf
  · exact h.closed1 g hg hnot f hf
  · refine (hv.apart (level + 1) (Nat.succ_pos _)).separate (h.sub1.subset hf) hg ?_
    rintro rfl
    exact hnot hf

/-- A file that overlaps nothing in the next level can be moved there. -/
theorem installable_move {v : Version K V} {level : ℕ} {f : FileMetaData K V}
    (hv : v.WellPlaced) (h : Inputs v level [f] []) (hlevel : level + 1 < kNumLevels) :
    Installable v [(level, f.number)] (level + 1) [f] := by
  have hf : f ∈ v level := h.sub0.subset (List.mem_singleton_self f)
  have hstays : ∀ i, ∀ g ∈ v i, (i, g.number) ∉ [(level, f.number)] → i ≠ level ∨ g ≠ f := by
    intro i g _ hdel
    by_contra hboth
    rw [not_or, not_not, not_not] at hboth
    obtain ⟨rfl, rfl⟩ := hboth
    exact hdel (List.mem_singleton_self _)
  refine ⟨hlevel, List.pairwise_singleton _ _, ?_, ?_, ?_, ?_, ?_, ?_, ?_, ?_⟩
  · intro x hx g hg hnum
    rw [List.mem_singleton.mp hx] at hnum
    exact absurd (hv.numbers (level + 1) level g hg f hf hnum).1 (Nat.succ_ne_self _)
  · intro x hx i g hg hdel hnum
    rw [List.mem_singleton.mp hx] at hnum
    obtain ⟨rfl, rfl⟩ := hv.numbers i level g hg f hf hnum
    exact hdel (List.mem_singleton_self _)
  · intro _ x hx g hg _
    rw [List.mem_singleton.mp hx]
    exact h.closed1 g hg List.not_mem_nil f (List.mem_singleton_self f)
  · intro _ x hx y hy hne
    exact absurd ((List.mem_singleton.mp hx).trans (List.mem_singleton.mp hy).symm) hne
  · intro x hx i hi g hg hdel
    rw [List.mem_singleton.mp hx]
    rcases (Nat.lt_succ_iff.mp hi).eq_or_lt with rfl | hlt
    · have hne := (hstays i g hg hdel).resolve_left fun hii => hii rfl
      have hnot : g ∉ [f] := fun hmem => hne (List.mem_singleton.mp hmem)
      exact (h.beside hv hg hnot (List.mem_singleton_self f)).symm.above
    · exact hv.above i level hlt g hg f hf
  · intro x hx i hi g hg _
    rw [List.mem_singleton.mp hx]
    exact hv.above level i (by omega) f hf g hg
  · intro hzero
    exact absurd hzero (Nat.succ_ne_zero _)
  · intro hzero
    exact absurd hzero (Nat.succ_ne_zero _)

theorem entries_move {v v' : Version K V} {level : ℕ} {f : FileMetaData K V}
    (hv : v.WellPlaced) (hf : f ∈ v level)
    (hmem : ∀ l g, g ∈ v' l ↔ g ∈ v l ∧ (l, g.number) ∉ [(level, f.number)] ∨
      l = level + 1 ∧ g ∈ [f]) : v'.entries = v.entries := by
  ext e
  constructor
  · rintro ⟨l, g, hg, he⟩
    rcases (hmem l g).mp hg with ⟨hg, _⟩ | ⟨_, hg⟩
    · exact ⟨l, g, hg, he⟩
    · rw [List.mem_singleton.mp hg] at he
      exact ⟨level, f, hf, he⟩
  · rintro ⟨l, g, hg, he⟩
    by_cases hdel : (l, g.number) ∈ [(level, f.number)]
    · obtain ⟨rfl, hnum⟩ := Prod.mk.inj (List.mem_singleton.mp hdel)
      obtain ⟨_, rfl⟩ := hv.numbers l l g hg f hf hnum
      exact ⟨l + 1, g, (hmem _ _).mpr (.inr ⟨rfl, List.mem_singleton_self g⟩), he⟩
    · exact ⟨l, g, (hmem _ _).mpr (.inl ⟨hg, hdel⟩), he⟩

/-- No entry is in two files. -/
theorem Version.WellPlaced.disjoint {v : Version K V} (hv : v.WellPlaced) {i j : ℕ}
    {f g : FileMetaData K V} (hf : f ∈ v i) (hg : g ∈ v j) {e : Entry K V} (hef : e ∈ f.entries)
    (heg : e ∈ g.entries) : f = g := by
  have hself : ∀ {a b : FileMetaData K V}, e ∈ a.entries → e ∈ b.entries →
      ¬ Above a.entries b.entries := fun ha hb habove => lt_irrefl _ (habove e ha e hb rfl)
  rcases Nat.lt_trichotomy i j with hlt | rfl | hlt
  · exact absurd (hv.above i j hlt f hf g hg) (hself hef heg)
  · by_contra hne
    rcases Nat.eq_zero_or_pos i with rfl | hpos
    · rcases Nat.lt_trichotomy f.number g.number with hnum | hnum | hnum
      · exact hself heg hef (hv.newest f hf g hg hnum)
      · exact hne (hv.numbers 0 0 f hf g hg hnum).2
      · exact hself hef heg (hv.newest g hg f hf hnum)
    · exact hself hef heg ((hv.apart i hpos).separate hf hg hne).above
  · exact absurd (hv.above j i hlt g hg f hf) (hself heg hef)

theorem mem_input {c : Compaction K V} {e : Entry K V} :
    e ∈ c.input ↔ ∃ f ∈ c.inputs0 ++ c.inputs1, e ∈ f.entries := by
  rw [Compaction.input, List.mem_insertionSort, List.mem_flatMap]
  rfl

/-- The merging iterator gives the entries of the inputs in strictly ascending order. -/
theorem sorted_input {v : Version K V} (hv : v.WellPlaced) (hdistinct : Distinct v.entries)
    {c : Compaction K V} (h : Inputs v c.level c.inputs0 c.inputs1) : Sorted c.input := by
  have hlevel : ∀ f ∈ c.inputs0 ++ c.inputs1, ∃ i, f ∈ v i := by
    intro f hf
    rcases List.mem_append.mp hf with hf | hf
    · exact ⟨_, h.sub0.subset hf⟩
    · exact ⟨_, h.sub1.subset hf⟩
  have hnodup : (c.inputs0 ++ c.inputs1).Nodup := by
    have h0 : (v c.level).Nodup := by
      rcases Nat.eq_zero_or_pos c.level with hzero | hpos
      · rw [hzero]
        exact hv.nodup
      · exact (hv.apart _ hpos).nodup
    have h1 : (v (c.level + 1)).Nodup := (hv.apart _ (Nat.succ_pos _)).nodup
    refine (h.sub0.nodup h0).append (h.sub1.nodup h1) ?_
    intro f hf hf'
    exact absurd (hv.numbers _ _ f (h.sub0.subset hf) f (h.sub1.subset hf') rfl).1
      (Nat.succ_ne_self _).symm
  have hkeys : ((c.inputs0 ++ c.inputs1).flatMap FileMetaData.content).Pairwise
      fun a b => Entry.ikey a ≠ Entry.ikey b := by
    rw [List.pairwise_flatMap]
    refine ⟨fun f _ => f.sorted.imp fun hlt => hlt.ne, hnodup.imp_of_mem ?_⟩
    intro f g hf hg hne x hx y hy heq
    obtain ⟨i, hfi⟩ := hlevel f hf
    obtain ⟨j, hgj⟩ := hlevel g hg
    have hxy : x = y := hdistinct x ⟨i, f, hfi, hx⟩ y ⟨j, g, hgj, hy⟩
      (congrArg InternalKey.userKey heq) (congrArg InternalKey.sequence heq)
    subst hxy
    exact hne (hv.disjoint hfi hgj hx hy)
  have : Std.Total fun a b : Entry K V => Entry.ikey a ≤ Entry.ikey b := ⟨fun _ _ => le_total _ _⟩
  have : IsTrans (Entry K V) fun a b => Entry.ikey a ≤ Entry.ikey b := ⟨fun _ _ _ => le_trans⟩
  have hle : c.input.Pairwise fun a b => Entry.ikey a ≤ Entry.ikey b :=
    List.pairwise_insertionSort _ _
  have hne : c.input.Pairwise fun a b => Entry.ikey a ≠ Entry.ikey b :=
    ((List.perm_insertionSort _ _).pairwise_iff fun hab => hab.symm).mpr hkeys
  refine (List.Pairwise.and hle hne).imp ?_
  intro a b hab
  exact lt_of_le_of_ne hab.1 hab.2

section Start

variable {db : Db K V} (h : db.Inv) {c : Compaction K V}
  (hinputs : Inputs db.files c.level c.inputs0 c.inputs1) (hlevel : c.level + 1 < kNumLevels)
include h hinputs hlevel

/-- A compaction that has just been picked. -/
theorem job_start (hversion : c.inputVersion = db.files) :
    Job db.files db.lastSequence db.nextFileNumber (.start c db.lastSequence) c.input where
  level_lt := hlevel
  progress := by
    have hdistinct : Distinct db.files.entries :=
      h.layers.distinct.mono fun e he => .inr (.inr he)
    exact ⟨[], worked_start c db.lastSequence, sorted_input h.layers.placed hdistinct hinputs,
      fun e => mem_input⟩
  sub0 := fun _ hf => hinputs.sub0.subset hf
  sub1 := fun _ hf => hinputs.sub1.subset hf
  connected := hinputs.connected
  beside := fun _ hg hnot _ hf => (hinputs.beside h.layers.placed hg hnot hf).symm.above
  separate := fun _ hg hnot _ hf => hinputs.separate h.layers.placed hg hnot hf
  deeper := by
    intro i _ g hg hnot
    exact absurd (hversion ▸ hg) hnot
  version_apart := by
    intro i hi
    show Apart (c.inputVersion i)
    rw [hversion]
    exact h.layers.placed.apart i hi
  snapshot_le := le_rfl
  old := by
    intro f hf e he
    rcases List.mem_append.mp hf with hf | hf
    · exact h.old e (.inr ⟨_, f, hinputs.sub0.subset hf, he⟩)
    · exact h.old e (.inr ⟨_, f, hinputs.sub1.subset hf, he⟩)
  nodup := List.nodup_nil
  numbers_lt := fun _ hn => absurd hn List.not_mem_nil
  numbers_new := fun _ hn => absurd hn List.not_mem_nil

/-- A trivial move changes where the file is, and nothing else. -/
theorem move_spec (hnone : db.compaction = none) (pointer : ℕ → Option (InternalKey K))
    {maxFileSize : ℕ} (hmove : c.isTrivialMove maxFileSize = true) :
    ∃ db', ({ db with compactPointer := pointer } : Db K V).logAndApply
        (levelEdit (c.inputs0.map fun f => (c.level, f.number)) (c.level + 1) c.inputs0) =
          some db' ∧ db'.Inv ∧ ∀ s, db.Shows s → db'.Shows s := by
  simp only [Compaction.isTrivialMove, decide_eq_true_eq] at hmove
  obtain ⟨f, hf⟩ := List.length_eq_one_iff.mp hmove.1
  have hnil : c.inputs1 = [] := List.length_eq_zero_iff.mp hmove.2.1
  rw [hf, hnil] at hinputs
  rw [hf]
  have hfmem : f ∈ db.files c.level := hinputs.sub0.subset (List.mem_singleton_self f)
  obtain ⟨files, hlog, hplaced, hmem⟩ := logAndApply_spec
    { db with compactPointer := pointer } h.layers.placed
    (installable_move h.layers.placed hinputs hlevel)
  have hentries : files.entries = db.files.entries := entries_move h.layers.placed hfmem hmem
  have hcontents : contents db.mem db.imm files = db.contents := by
    rw [contents, hentries]
    rfl
  refine ⟨_, hlog, ?_⟩
  have hinstall := h.install db.imm files db.nextFileNumber pointer none
    ⟨hplaced, hcontents ▸ h.layers.distinct, hentries ▸ h.layers.mem_newer,
      hentries ▸ h.layers.imm_newer⟩ (by rw [hentries]) ?_ (fun _ _ hjob => by cases hjob) ?_
  · rw [Db.install, ← hnone] at hinstall
    exact hinstall
  · intro l g hg
    rcases (hmem l g).mp hg with ⟨hg, _⟩ | ⟨_, hg⟩
    · exact h.numbers l g hg
    · rw [List.mem_singleton.mp hg]
      exact h.numbers _ f hfmem
  · intro s k o _ hreads
    rwa [hcontents]

end Start

theorem Db.Inv.startCompaction {db : Db K V} (h : db.Inv) (opts : Options K V) {t : Trigger}
    (hready : db.ready (.startCompaction t) = true) : db.Safe opts (.startCompaction t) := by
  simp only [Db.ready, Bool.and_eq_true, Option.isNone_iff_eq_none] at hready
  obtain ⟨⟨hnone, _⟩, hfile⟩ := hready
  obtain ⟨⟨level, f⟩, hpick⟩ := Option.isSome_iff_exists.mp hfile
  obtain ⟨c, largest, hc, hlevel, hversion, hinputs⟩ := pickCompaction_inputs
    opts.maxFileSize h.seek hpick
  have hact : db.act opts (.startCompaction t) =
      if c.isTrivialMove opts.maxFileSize then
        ({ db with compactPointer := Function.update db.compactPointer c.level (some largest) } :
          Db K V).logAndApply
          (levelEdit (c.inputs0.map fun f => (c.level, f.number)) (c.level + 1) c.inputs0)
      else some { db with
        compactPointer := Function.update db.compactPointer c.level (some largest)
        compaction := some (.start c db.lastSequence, c.input) } := by
    rw [Db.act, Db.startCompaction, hc]
    rfl
  rw [Db.Safe, hact]
  split
  · rename_i hmove
    exact move_spec h hinputs hlevel hnone _ hmove
  · refine ⟨_, rfl, ⟨h.layers, h.old, h.mem_old, h.small, h.writing, h.numbers, h.seek, ?_,
      h.readers⟩, fun s hs => ⟨hs.values, hs.batch, hs.reads⟩⟩
    intro st rest hjob
    obtain ⟨rfl, rfl⟩ := Prod.mk.inj (Option.some.inj hjob)
    exact job_start h hinputs hlevel hversion

/-! ## A round of a compaction -/

/-- What the rounds of a compaction change. -/
theorem Job.update {files : Version K V} {last next next' : ℕ} {st st' : CompactionState K V}
    {rest rest' : List (Entry K V)} (h : Job files last next st rest)
    (hold : ∀ level, ∀ f ∈ files level, f.number < next)
    (hcompaction : st'.compaction = st.compaction)
    (hsnapshot : st'.smallestSnapshot = st.smallestSnapshot)
    (hprogress : ∃ done, Worked st' done ∧ Sorted (done ++ rest') ∧ ∀ e, e ∈ done ++ rest' ↔
      ∃ f ∈ st'.compaction.inputs0 ++ st'.compaction.inputs1, e ∈ f.entries)
    (hnumbers : st'.numbers = st.numbers ∧ next' = next ∨
      st'.numbers = st.numbers ++ [next] ∧ next' = next + 1) :
    Job files last next' st' rest' := by
  have hbound : ∀ n ∈ st'.numbers, n ∈ st.numbers ∨ n = next := by
    intro n hn
    rcases hnumbers with ⟨heq, _⟩ | ⟨heq, _⟩
    · exact .inl (heq ▸ hn)
    · rw [heq] at hn
      exact (List.mem_append.mp hn).imp id List.mem_singleton.mp
  have hle : next ≤ next' := by
    rcases hnumbers with ⟨_, heq⟩ | ⟨_, heq⟩ <;> omega
  refine ⟨?_, hprogress, ?_, ?_, ?_, ?_, ?_, ?_, ?_, ?_, ?_, ?_, ?_, ?_⟩
  · rw [hcompaction]
    exact h.level_lt
  · rw [hcompaction]
    exact h.sub0
  · rw [hcompaction]
    exact h.sub1
  · rw [hcompaction]
    exact h.connected
  · rw [hcompaction]
    exact h.beside
  · rw [hcompaction]
    exact h.separate
  · rw [hcompaction]
    exact h.deeper
  · rw [hcompaction]
    exact h.version_apart
  · rw [hsnapshot]
    exact h.snapshot_le
  · rw [hcompaction, hsnapshot]
    exact h.old
  · rcases hnumbers with ⟨heq, _⟩ | ⟨heq, _⟩
    · rw [heq]
      exact h.nodup
    · rw [heq]
      refine h.nodup.append (List.nodup_singleton next) ?_
      intro n hn hn'
      have hlt := h.numbers_lt n hn
      rw [List.mem_singleton.mp hn'] at hlt
      exact lt_irrefl _ hlt
  · intro n hn
    rcases hbound n hn with hn | rfl
    · exact (h.numbers_lt n hn).trans_le hle
    · rcases hnumbers with ⟨heq, _⟩ | ⟨_, heq⟩
      · rw [heq] at hn
        exact absurd (h.numbers_lt n hn) (lt_irrefl n)
      · omega
  · intro n hn i f hf
    rcases hbound n hn with hn | rfl
    · exact h.numbers_new n hn i f hf
    · exact (hold i f hf).ne

theorem Db.Inv.compactNext {db : Db K V} (h : db.Inv) (opts : Options K V)
    (hready : db.ready .compactNext = true) : db.Safe opts .compactNext := by
  simp only [Db.ready] at hready
  split at hready
  swap
  · cases hready
  rename_i st rest hcomp
  obtain ⟨e, rest, rfl⟩ := List.exists_cons_of_ne_nil
    (fun hnil : rest = [] => by rw [hnil] at hready; cases hready)
  have hjob := h.job st (e :: rest) hcomp
  obtain ⟨done, hworked, hsorted, hmem⟩ := hjob.progress
  have hsplit : done ++ e :: rest = done ++ [e] ++ rest := by simp
  have hsorted' : Sorted (done ++ [e]) :=
    hsorted.sublist (hsplit ▸ List.sublist_append_left (done ++ [e]) rest)
  have hdistinct : Distinct (entries (done ++ [e])) := by
    refine h.layers.distinct.mono fun x hx => ?_
    have hx' : x ∈ done ++ e :: rest := by
      rw [hsplit]
      exact List.mem_append_left _ hx
    obtain ⟨f, hf, hxf⟩ := (hmem x).mp hx'
    rcases List.mem_append.mp hf with hf | hf
    · exact .inr (.inr ⟨_, f, hjob.sub0 f hf, hxf⟩)
    · exact .inr (.inr ⟨_, f, hjob.sub1 f hf, hxf⟩)
  obtain ⟨st', next, hround, hworked', hcompaction, hsnapshot, hnumbers⟩ :=
    compactEntry_worked opts hworked hsorted' hdistinct
      (hjob.snapshot_le.trans_lt h.small) hjob.version_apart db.nextFileNumber
  have hact : db.act opts .compactNext =
      some { db with compaction := some (st', rest), nextFileNumber := next } := by
    rw [Db.act, hcomp]
    show (compactEntry opts st db.nextFileNumber e).bind _ = _
    rw [hround]
    rfl
  have hle : db.nextFileNumber ≤ next := by
    rcases hnumbers with ⟨_, heq⟩ | ⟨_, heq⟩ <;> omega
  refine ⟨_, hact, ⟨h.layers, h.old, h.mem_old, h.small, h.writing,
    fun level f hf => (h.numbers level f hf).trans_le hle, h.seek, ?_, h.readers⟩,
    fun s hs => ⟨hs.values, hs.batch, hs.reads⟩⟩
  intro st₁ rest₁ heq
  obtain ⟨rfl, rfl⟩ := Prod.mk.inj (Option.some.inj heq)
  refine hjob.update h.numbers hcompaction hsnapshot ⟨done ++ [e], hworked', ?_, ?_⟩ hnumbers
  · rwa [← hsplit]
  · rwa [← hsplit, hcompaction]

theorem Db.Inv.abandonCompaction {db : Db K V} (h : db.Inv) (opts : Options K V) :
    db.Safe opts .abandonCompaction :=
  ⟨_, rfl, ⟨h.layers, h.old, h.mem_old, h.small, h.writing, h.numbers, h.seek,
    fun _ _ hjob => (by cases hjob), h.readers⟩, fun _ hs => ⟨hs.values, hs.batch, hs.reads⟩⟩

/-! ## A compaction is installed -/

section Finish

variable {db : Db K V} (h : db.Inv) {st : CompactionState K V} {done : List (Entry K V)}
  (hjob : Job db.files db.lastSequence db.nextFileNumber st [])
  (hmem : ∀ e, e ∈ done ↔
    ∃ f ∈ st.compaction.inputs0 ++ st.compaction.inputs1, e ∈ f.entries)

/-- The inputs of the compaction, as files of a level. -/
def Compaction.IsInput (c : Compaction K V) (i : ℕ) (g : FileMetaData K V) : Prop :=
  i = c.level ∧ g ∈ c.inputs0 ∨ i = c.level + 1 ∧ g ∈ c.inputs1

include h hjob

theorem deleted_iff {i : ℕ} {g : FileMetaData K V} (hg : g ∈ db.files i) :
    (i, g.number) ∈ st.compaction.inputDeletions ↔ st.compaction.IsInput i g := by
  simp only [Compaction.inputDeletions, List.mem_append, List.mem_map, Prod.mk.injEq,
    Compaction.IsInput]
  constructor
  · rintro (⟨f, hf, rfl, hnum⟩ | ⟨f, hf, rfl, hnum⟩)
    · obtain ⟨_, rfl⟩ := h.layers.placed.numbers _ _ f (hjob.sub0 f hf) g hg hnum
      exact .inl ⟨rfl, hf⟩
    · obtain ⟨_, rfl⟩ := h.layers.placed.numbers _ _ f (hjob.sub1 f hf) g hg hnum
      exact .inr ⟨rfl, hf⟩
  · rintro (⟨rfl, hf⟩ | ⟨rfl, hf⟩)
    · exact .inl ⟨g, hf, rfl, rfl⟩
    · exact .inr ⟨g, hf, rfl, rfl⟩

/-- What stays in the levels down to the inputs' is newer than the inputs. -/
theorem above_inputs {i : ℕ} (hi : i ≤ st.compaction.level) {g : FileMetaData K V}
    (hg : g ∈ db.files i) (hnot : ¬ st.compaction.IsInput i g) {f : FileMetaData K V}
    (hf : f ∈ st.compaction.inputs0 ++ st.compaction.inputs1) : Above g.entries f.entries := by
  rcases List.mem_append.mp hf with hf | hf
  · rcases hi.eq_or_lt with rfl | hlt
    · exact hjob.beside g hg (fun hin => hnot (.inl ⟨rfl, hin⟩)) f hf
    · exact h.layers.placed.above i _ hlt g hg f (hjob.sub0 f hf)
  · exact h.layers.placed.above i _ (Nat.lt_succ_of_le hi) g hg f (hjob.sub1 f hf)

/-- The inputs are newer than what is in the levels after theirs. -/
theorem inputs_above {i : ℕ} (hi : st.compaction.level + 1 < i) {g : FileMetaData K V}
    (hg : g ∈ db.files i) {f : FileMetaData K V}
    (hf : f ∈ st.compaction.inputs0 ++ st.compaction.inputs1) : Above f.entries g.entries := by
  rcases List.mem_append.mp hf with hf | hf
  · exact h.layers.placed.above _ i (by omega) f (hjob.sub0 f hf) g hg
  · exact h.layers.placed.above _ i hi f (hjob.sub1 f hf) g hg

omit h in
/-- A file between the inputs would overlap one of them. -/
theorem separate_of_within {g o f₁ f₂ : FileMetaData K V}
    (hg : g ∈ db.files (st.compaction.level + 1)) (hnot : g ∉ st.compaction.inputs1)
    (hf₁ : f₁ ∈ st.compaction.inputs0 ++ st.compaction.inputs1)
    (hf₂ : f₂ ∈ st.compaction.inputs0 ++ st.compaction.inputs1)
    (hlo : f₁.smallest.userKey ≤ o.smallest.userKey)
    (hhi : o.largest.userKey ≤ f₂.largest.userKey) : Separate o g := by
  by_contra hover
  rw [Separate, not_or, not_lt, not_lt] at hover
  set k := max o.smallest.userKey g.smallest.userKey with hk
  have hko : k ≤ o.largest.userKey := max_le o.range_le hover.1
  have hkg : k ≤ g.largest.userKey := max_le hover.2 g.range_le
  obtain ⟨f, hf, hcov⟩ := hjob.connected f₁ hf₁ f₂ hf₂ k (hlo.trans (le_max_left _ _))
    (hko.trans hhi)
  rcases hjob.separate g hg hnot f hf with hlt | hlt
  · exact absurd hlt ((le_max_right _ _).trans hcov.2).not_gt
  · exact absurd hlt (hcov.1.trans hkg).not_gt

include hmem

omit h hjob in
theorem output_origin (hworked : Worked st done) {o : FileMetaData K V} (ho : o ∈ st.outputs)
    {x : Entry K V} (hx : x ∈ o.entries) :
    ∃ f ∈ st.compaction.inputs0 ++ st.compaction.inputs1, x ∈ f.entries := by
  refine (hmem x).mp (hworked.sublist.subset ?_)
  rw [CompactionState.written]
  exact List.mem_append_left _ (List.mem_flatMap.mpr ⟨o, ho, hx⟩)

/-- The outputs can take the place of the inputs. -/
theorem installable_outputs (hworked : Worked st done) (hclosed : st.builder = none)
    (hsorted : Sorted done) :
    Installable db.files st.compaction.inputDeletions (st.compaction.level + 1) st.outputs := by
  have horigin : ∀ o ∈ st.outputs, ∀ x ∈ o.entries, ∃ f ∈ st.compaction.inputs0 ++
      st.compaction.inputs1, x ∈ f.entries := fun o ho x hx => output_origin hmem hworked ho hx
  have hnumbers : st.outputs.map FileMetaData.number = st.numbers := by
    rw [CompactionState.numbers, hclosed]
    exact (List.append_nil _).symm
  have hnew : ∀ o ∈ st.outputs, ∀ i, ∀ g ∈ db.files i, g.number ≠ o.number := by
    intro o ho i g hg
    exact hjob.numbers_new o.number (hnumbers ▸ List.mem_map_of_mem ho) i g hg
  have hdistinct : Distinct (entries done) := by
    refine h.layers.distinct.mono fun x hx => ?_
    obtain ⟨f, hf, hxf⟩ := (hmem x).mp hx
    rcases List.mem_append.mp hf with hf | hf
    · exact .inr (.inr ⟨_, f, hjob.sub0 f hf, hxf⟩)
    · exact .inr (.inr ⟨_, f, hjob.sub1 f hf, hxf⟩)
  have hold : ∀ e ∈ done, e.seq ≤ st.smallestSnapshot := by
    intro e he
    obtain ⟨f, hf, hef⟩ := (hmem e).mp he
    exact hjob.old f hf e hef
  have hapart := hworked.outputs_apart hclosed hsorted hdistinct hold
  refine ⟨hjob.level_lt, ?_, fun o ho => hnew o ho _, fun o ho i g hg _ => hnew o ho i g hg, ?_,
    ?_, ?_, ?_, fun hzero => absurd hzero (Nat.succ_ne_zero _),
    fun hzero => absurd hzero (Nat.succ_ne_zero _)⟩
  · have hnodup := hjob.nodup
    rw [← hnumbers] at hnodup
    exact List.pairwise_map.mp hnodup
  · intro _ o ho g hg hdel
    have hnot : g ∉ st.compaction.inputs1 := fun hin =>
      hdel ((deleted_iff h hjob hg).mpr (.inr ⟨rfl, hin⟩))
    obtain ⟨x, hx, hxk⟩ := o.smallest_mem
    obtain ⟨y, hy, hyk⟩ := o.largest_mem
    obtain ⟨f₁, hf₁, hxf⟩ := horigin o ho x hx
    obtain ⟨f₂, hf₂, hyf⟩ := horigin o ho y hy
    refine separate_of_within hjob hg hnot hf₁ hf₂ ?_ ?_
    · rw [← hxk]
      exact FileMetaData.smallest_key_le hxf
    · rw [← hyk]
      exact FileMetaData.key_le_largest hyf
  · intro _ f hf g hg hne
    exact hapart.separate hf hg hne
  · intro o ho i hi g hg hdel a ha b hb hk
    obtain ⟨f, hf, hbf⟩ := horigin o ho b hb
    have hnot := fun hin => hdel ((deleted_iff h hjob hg).mpr hin)
    exact above_inputs h hjob (Nat.lt_succ_iff.mp hi) hg hnot hf a ha b hbf hk
  · intro o ho i hi g hg _ a ha b hb hk
    obtain ⟨f, hf, haf⟩ := horigin o ho a ha
    exact inputs_above h hjob hi hg hf a haf b hb hk

omit h hjob hmem in
/-- The entries that a compaction leaves alone. -/
def Db.others (db : Db K V) (c : Compaction K V) : Set (Entry K V) :=
  db.mem.entries ∪ (immEntries db.imm ∪
    {e | ∃ i, ∃ g ∈ db.files i, ¬ c.IsInput i g ∧ e ∈ g.entries})

omit h in
theorem contents_eq_others : db.contents = db.others st.compaction ∪ entries done := by
  ext e
  constructor
  · rintro (he | he | ⟨i, g, hg, he⟩)
    · exact .inl (.inl he)
    · exact .inl (.inr (.inl he))
    · by_cases hin : st.compaction.IsInput i g
      · refine .inr ((hmem e).mpr ⟨g, ?_, he⟩)
        rcases hin with ⟨_, hg0⟩ | ⟨_, hg1⟩
        · exact List.mem_append_left _ hg0
        · exact List.mem_append_right _ hg1
      · exact .inl (.inr (.inr ⟨i, g, hg, hin, he⟩))
  · rintro ((he | he | ⟨i, g, hg, _, he⟩) | he)
    · exact .inl he
    · exact .inr (.inl he)
    · exact .inr (.inr ⟨i, g, hg, he⟩)
    · obtain ⟨f, hf, hef⟩ := (hmem e).mp he
      rcases List.mem_append.mp hf with hf | hf
      · exact .inr (.inr ⟨_, f, hjob.sub0 f hf, hef⟩)
      · exact .inr (.inr ⟨_, f, hjob.sub1 f hf, hef⟩)

omit hmem in
theorem contents_installed (hclosed : st.builder = none) {files : Version K V}
    (hfiles : ∀ l f, f ∈ files l ↔
      f ∈ db.files l ∧ (l, f.number) ∉ st.compaction.inputDeletions ∨
        l = st.compaction.level + 1 ∧ f ∈ st.outputs) :
    contents db.mem db.imm files = db.others st.compaction ∪ entries st.written := by
  have hwritten : st.written = st.outputs.flatMap FileMetaData.content := by
    rw [CompactionState.written, hclosed, List.append_nil]
  ext e
  constructor
  · rintro (he | he | ⟨i, g, hg, he⟩)
    · exact .inl (.inl he)
    · exact .inl (.inr (.inl he))
    · rcases (hfiles i g).mp hg with ⟨hg, hdel⟩ | ⟨_, hg⟩
      · exact .inl (.inr (.inr ⟨i, g, hg, fun hin => hdel ((deleted_iff h hjob hg).mpr hin), he⟩))
      · refine .inr ?_
        show e ∈ st.written
        rw [hwritten]
        exact List.mem_flatMap.mpr ⟨g, hg, he⟩
  · rintro ((he | he | ⟨i, g, hg, hin, he⟩) | he)
    · exact .inl he
    · exact .inr (.inl he)
    · exact .inr (.inr ⟨i, g, (hfiles i g).mpr (.inl ⟨hg, fun hdel =>
        hin ((deleted_iff h hjob hg).mp hdel)⟩), he⟩)
    · have he' : e ∈ st.written := he
      rw [hwritten] at he'
      obtain ⟨o, ho, heo⟩ := List.mem_flatMap.mp he'
      exact .inr (.inr ⟨_, o, (hfiles _ o).mpr (.inr ⟨rfl, ho⟩), heo⟩)

/-- Nothing that is left alone is older than a deletion that was dropped. -/
theorem others_newer {e : Entry K V} (he : e ∈ done)
    (hobs : Obsolete st.compaction st.smallestSnapshot e) {e' : Entry K V}
    (he' : e' ∈ db.others st.compaction) (hk : e'.key = e.key) : e.seq < e'.seq := by
  obtain ⟨f, hf, hef⟩ := (hmem e).mp he
  have hfile : ∃ i, f ∈ db.files i := by
    rcases List.mem_append.mp hf with hf | hf
    · exact ⟨_, hjob.sub0 f hf⟩
    · exact ⟨_, hjob.sub1 f hf⟩
  obtain ⟨j, hfj⟩ := hfile
  rcases he' with he' | he' | ⟨i, g, hg, hin, he'⟩
  · exact h.layers.mem_newer e' he' e (.inr ⟨j, f, hfj, hef⟩)
  · exact h.layers.imm_newer e' he' e ⟨j, f, hfj, hef⟩
  · rcases Nat.lt_trichotomy i (st.compaction.level + 1) with hlt | rfl | hgt
    · exact above_inputs h hjob (Nat.lt_succ_iff.mp hlt) hg hin hf e' he' e hef hk
    · have hnot : g ∉ st.compaction.inputs1 := fun hg1 => hin (.inr ⟨rfl, hg1⟩)
      exact (hjob.separate g hg hnot f hf).symm.above e' he' e hef hk
    · -- a deeper file of the input version would have kept the deletion
      by_cases hold : g ∈ st.compaction.inputVersion i
      · have hlt : i < kNumLevels := by
          by_contra hge
          rw [h.layers.placed.levels i (by omega)] at hg
          exact absurd hg List.not_mem_nil
        refine absurd ?_ (hobs.2.2 i hgt hlt g hold)
        rw [← hk]
        exact FileMetaData.covers_of_mem he'
      · exact hjob.deeper i hgt g hg hold f hf e' he' e hef hk

/-- Installing the outputs of a compaction shows no reader a difference. -/
theorem finish_spec (hworked : Worked st done) (hclosed : st.builder = none)
    (hsorted : Sorted done) :
    ∃ files, db.logAndApply (levelEdit st.compaction.inputDeletions (st.compaction.level + 1)
        st.outputs) = some { db with
          files := files, fileToCompact := none, readers := db.readers.map Reader.keepFiles } ∧
      (db.install db.imm files db.nextFileNumber db.compactPointer none).Inv ∧
      ∀ s, db.Shows s →
        (db.install db.imm files db.nextFileNumber db.compactPointer none).Shows s := by
  obtain ⟨files, hlog, hplaced, hfiles⟩ := logAndApply_spec db h.layers.placed
    (installable_outputs h hjob hmem hworked hclosed hsorted)
  have hcompacted := hworked.compacted fun e he hobs e' he' hk =>
    others_newer h hjob hmem he hobs he' hk
  have hbefore := contents_eq_others hjob hmem
  have hafter := contents_installed h hjob hclosed hfiles
  have hsub : files.entries ⊆ db.files.entries := by
    rintro e ⟨i, g, hg, he⟩
    rcases (hfiles i g).mp hg with ⟨hg, _⟩ | ⟨_, hg⟩
    · exact ⟨i, g, hg, he⟩
    · obtain ⟨f, hf, hef⟩ := output_origin hmem hworked hg he
      rcases List.mem_append.mp hf with hf | hf
      · exact ⟨_, f, hjob.sub0 f hf, hef⟩
      · exact ⟨_, f, hjob.sub1 f hf, hef⟩
  have hsub' : immEntries db.imm ∪ files.entries ⊆ immEntries db.imm ∪ db.files.entries :=
    Set.union_subset_union_right _ hsub
  refine ⟨files, hlog, h.install db.imm files db.nextFileNumber db.compactPointer none ?_ hsub' ?_
    (fun _ _ hnone => by cases hnone) ?_⟩
  · refine ⟨hplaced, h.layers.distinct.mono (Set.union_subset_union_right _ hsub'), ?_, ?_⟩
    · exact fun x hx y hy => h.layers.mem_newer x hx y (hsub' hy)
    · exact fun x hx y hy => h.layers.imm_newer x hx y (hsub hy)
  · intro i g hg
    rcases (hfiles i g).mp hg with ⟨hg, _⟩ | ⟨_, hg⟩
    · exact h.numbers i g hg
    · refine hjob.numbers_lt g.number ?_
      rw [CompactionState.numbers]
      exact List.mem_append_left _ (List.mem_map_of_mem hg)
  · intro s k o hs hreads
    rw [hafter]
    rw [hbefore] at hreads
    refine hcompacted.reads ?_ (hjob.snapshot_le.trans hs) hreads
    rw [← hbefore]
    exact h.layers.distinct

end Finish

theorem Db.Inv.finishCompaction {db : Db K V} (h : db.Inv) (opts : Options K V)
    (hready : db.ready .finishCompaction = true) : db.Safe opts .finishCompaction := by
  simp only [Db.ready] at hready
  split at hready
  swap
  · cases hready
  rename_i st rest hcomp
  obtain rfl : rest = [] := List.isEmpty_iff.mp hready
  have hjob := h.job st [] hcomp
  obtain ⟨done, hworked, hsorted, hmem⟩ := hjob.progress
  rw [List.append_nil] at hsorted hmem
  -- the file that is still open is closed first
  have hclose : ∃ st', (if st.builder.isSome then finishOutput opts st else some st) = some st' ∧
      Worked st' done ∧ st'.builder = none ∧ st'.numbers = st.numbers ∧
      st'.compaction = st.compaction ∧ st'.smallestSnapshot = st.smallestSnapshot := by
    by_cases hopen : st.builder.isSome = true
    · rw [if_pos hopen]
      obtain ⟨st', hfinish, hw, hb, _, hn, hc, hs⟩ := hworked.finish opts hopen
      exact ⟨st', hfinish, hw, hb, hn, hc, hs⟩
    · rw [if_neg hopen]
      exact ⟨st, rfl, hworked, Option.not_isSome_iff_eq_none.mp hopen, rfl, rfl, rfl⟩
  obtain ⟨st', hclosing, hworked', hclosed, hnumbers, hcompaction, hsnapshot⟩ := hclose
  rw [← hcompaction] at hmem
  have hjob' : Job db.files db.lastSequence db.nextFileNumber st' [] :=
    hjob.update h.numbers hcompaction hsnapshot
      ⟨done, hworked', by rwa [List.append_nil], by rwa [List.append_nil]⟩ (.inl ⟨hnumbers, rfl⟩)
  obtain ⟨files, hlog, hinv, hshows⟩ := finish_spec h hjob' hmem hworked' hclosed hsorted
  refine ⟨_, ?_, hinv, hshows⟩
  rw [Db.act, hcomp]
  show db.finishCompaction opts st = _
  rw [Db.finishCompaction, hclosing]
  show (db.logAndApply (levelEdit st'.compaction.inputDeletions (st'.compaction.level + 1)
    st'.outputs)).bind _ = _
  rw [hlog]
  rfl

/-! ## Every action -/

theorem Db.Inv.safe {db : Db K V} (h : db.Inv) (opts : Options K V) {a : Action K V}
    (hready : db.ready a = true) : db.Safe opts a := by
  cases a with
  | beginWrite updates => exact h.beginWrite opts hready
  | insertNext => exact h.insertNext opts hready
  | endWrite => exact h.endWrite opts hready
  | switchMemTable => exact h.switchMemTable opts hready
  | compactMemTable => exact h.compactMemTable opts hready
  | beginRead k => exact h.beginRead opts k
  | endRead i spent => exact h.endRead opts hready
  | readSample key spent => exact h.readSample opts key spent
  | startCompaction t => exact h.startCompaction opts hready
  | compactNext => exact h.compactNext opts hready
  | finishCompaction => exact h.finishCompaction opts hready
  | abandonCompaction => exact h.abandonCompaction opts

end KfkClient.Engine
