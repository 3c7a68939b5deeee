import KfkClient.Engine.Db

/-!
# What holds in every state of the engine

The invariant says where the entries are: what is searched first is newer. A compaction
under way keeps that for the time when its outputs replace its inputs, while memtables go on
being written out around it.

## Main definitions

- `Layers` — memtable, immutable memtable and files, each newer than the next
- `Job` — a compaction under way
- `Db.Inv` — the invariant of the engine
- `Db.Shows` — the engine shows what the `Spec` says

## Main results

- `Layers.search` — a search of the layers finds the newest visible entry
- `Db.Inv.…` — one lemma for each action but the compaction's
-/

namespace KfkClient.Engine

open MultiVersion Lists

variable {K V : Type} [LinearOrder K]

def immEntries (imm : Option (MemTable K V)) : Set (Entry K V) :=
  match imm with
  | some m => m.entries
  | none => ∅

/-- All entries of the two memtables and the files. -/
def contents (mem : MemTable K V) (imm : Option (MemTable K V)) (files : Version K V) :
    Set (Entry K V) := mem.entries ∪ (immEntries imm ∪ files.entries)

structure Layers (mem : MemTable K V) (imm : Option (MemTable K V)) (files : Version K V) :
    Prop where
  placed : files.WellPlaced
  distinct : Distinct (contents mem imm files)
  mem_newer : ∀ x ∈ mem.entries, ∀ y ∈ immEntries imm ∪ files.entries, y.seq < x.seq
  imm_newer : ∀ x ∈ immEntries imm, ∀ y ∈ files.entries, y.seq < x.seq

def Reader.contents (r : Reader K V) : Set (Entry K V) := Engine.contents r.mem r.imm r.files

def Db.contents (db : Db K V) : Set (Entry K V) := Engine.contents db.mem db.imm db.files

/-- The layers are searched from the newest on. -/
theorem Layers.search {r : Reader K V} (h : Layers r.mem r.imm r.files) :
    Answers r.contents r.snapshot r.key r.search.1 := by
  have himm : Answers (immEntries r.imm) r.snapshot r.key
      (r.imm.bind fun m => m.get r.key r.snapshot) := by
    cases r.imm with
    | none => exact fun e he => absurd he (Set.notMem_empty e)
    | some m => exact m.get_answers r.key r.snapshot
  have hrest := himm.or (h.placed.get_answers r.key r.snapshot) (above_of_newer h.imm_newer)
  have hall := (r.mem.get_answers r.key r.snapshot).or hrest (above_of_newer h.mem_newer)
  have heq : r.search.1 = (r.mem.get r.key r.snapshot).or
      ((r.imm.bind fun m => m.get r.key r.snapshot).or (r.files.get r.key r.snapshot).1) := by
    rw [Reader.search]
    cases r.mem.get r.key r.snapshot with
    | some o => rfl
    | none =>
      cases r.imm.bind fun m => m.get r.key r.snapshot with
      | some o => rfl
      | none => rfl
  rw [heq]
  exact hall

theorem Layers.reads {r : Reader K V} (h : Layers r.mem r.imm r.files) :
    Reads r.contents r.snapshot r.key r.result := h.search.reads

/-! ## The invariant -/

/-- A compaction under way: its rounds so far, and how the current files stand to its
inputs. -/
structure Job (files : Version K V) (lastSequence nextFileNumber : ℕ)
    (st : CompactionState K V) (rest : List (Entry K V)) : Prop where
  level_lt : st.compaction.level + 1 < kNumLevels
  progress : ∃ done, Worked st done ∧ Sorted (done ++ rest) ∧
    ∀ e, e ∈ done ++ rest ↔ ∃ f ∈ st.compaction.inputs0 ++ st.compaction.inputs1, e ∈ f.entries
  sub0 : ∀ f ∈ st.compaction.inputs0, f ∈ files st.compaction.level
  sub1 : ∀ f ∈ st.compaction.inputs1, f ∈ files (st.compaction.level + 1)
  connected : Connected (st.compaction.inputs0 ++ st.compaction.inputs1)
  beside : ∀ g ∈ files st.compaction.level, g ∉ st.compaction.inputs0 →
    ∀ f ∈ st.compaction.inputs0, Above g.entries f.entries
  separate : ∀ g ∈ files (st.compaction.level + 1), g ∉ st.compaction.inputs1 →
    ∀ f ∈ st.compaction.inputs0 ++ st.compaction.inputs1, Separate f g
  deeper : ∀ i, st.compaction.level + 2 ≤ i → ∀ g ∈ files i, g ∉ st.compaction.inputVersion i →
    ∀ f ∈ st.compaction.inputs0 ++ st.compaction.inputs1, Above g.entries f.entries
  version_apart : ∀ i, 0 < i → Apart (st.compaction.inputVersion i)
  snapshot_le : st.smallestSnapshot ≤ lastSequence
  old : ∀ f ∈ st.compaction.inputs0 ++ st.compaction.inputs1, ∀ e ∈ f.entries,
    e.seq ≤ st.smallestSnapshot
  nodup : st.numbers.Nodup
  numbers_lt : ∀ n ∈ st.numbers, n < nextFileNumber
  numbers_new : ∀ n ∈ st.numbers, ∀ i, ∀ f ∈ files i, f.number ≠ n

/-- A read under way sees the layers of the state it began in, but for newer entries. -/
structure ReaderOk (mem : MemTable K V) (files : Version K V) (lastSequence : ℕ)
    (r : Reader K V) : Prop where
  layers : Layers r.mem r.imm r.files
  old : ∀ e ∈ immEntries r.imm ∪ r.files.entries, e.seq ≤ r.snapshot
  snapshot_le : r.snapshot ≤ lastSequence
  mem_eq : r.memShared = true → r.mem = mem
  files_eq : r.filesShared = true → r.files = files

/-- The number the next update gets. -/
def Db.nextSequence (db : Db K V) : ℕ :=
  match db.writing with
  | some w => w.sequence
  | none => db.lastSequence + 1

structure Db.Inv (db : Db K V) : Prop where
  layers : Layers db.mem db.imm db.files
  old : ∀ e ∈ immEntries db.imm ∪ db.files.entries, e.seq ≤ db.lastSequence
  mem_old : ∀ e ∈ db.mem.entries, e.seq < db.nextSequence
  small : db.lastSequence < kMaxSequenceNumber
  writing : ∀ w, db.writing = some w → db.lastSequence < w.sequence ∧
    w.sequence + w.rest.length = w.lastSequence + 1 ∧ w.lastSequence < kMaxSequenceNumber
  numbers : ∀ level, ∀ f ∈ db.files level, f.number < db.nextFileNumber
  seek : ∀ p, db.fileToCompact = some p → p.2 ∈ db.files p.1 ∧ p.1 + 1 < kNumLevels
  job : ∀ st rest, db.compaction = some (st, rest) →
    Job db.files db.lastSequence db.nextFileNumber st rest
  readers : ∀ r ∈ db.readers, ReaderOk db.mem db.files db.lastSequence r

/-- What the engine shows is the map; the part of a batch that is in the memtable shows
only to later snapshots. -/
structure Db.Shows (db : Db K V) (s : Spec K V) : Prop where
  values : ∀ k, Reads db.contents db.lastSequence k (s.map k)
  batch : ∀ w, db.writing = some w → ∃ done, s.batch = done ++ w.rest ∧
    ∀ k, Reads db.contents (w.sequence - 1) k (applyUpdates s.map done k)
  reads : List.Forall₂ (fun r p => r.key = p.1 ∧ Reads r.contents r.snapshot r.key p.2)
    db.readers s.reads

/-- The action can be taken, no assertion fails in it, and afterwards all is well again. -/
def Db.Safe (opts : Options K V) (db : Db K V) (a : Action K V) : Prop :=
  ∃ db', db.act opts a = some db' ∧ db'.Inv ∧ ∀ s, db.Shows s → db'.Shows (s.step a)

/-! ## Moving along -/

theorem Job.mono {files : Version K V} {last last' next next' : ℕ} {st : CompactionState K V}
    {rest : List (Entry K V)} (h : Job files last next st rest) (hlast : last ≤ last')
    (hnext : next ≤ next') : Job files last' next' st rest :=
  { h with
    snapshot_le := h.snapshot_le.trans hlast
    numbers_lt := fun n hn => (h.numbers_lt n hn).trans_le hnext }

theorem ReaderOk.mono {mem : MemTable K V} {files : Version K V} {last last' : ℕ}
    {r : Reader K V} (h : ReaderOk mem files last r) (hlast : last ≤ last') :
    ReaderOk mem files last' r :=
  { h with snapshot_le := h.snapshot_le.trans hlast }

theorem Separate.above {f g : FileMetaData K V} (h : Separate f g) :
    Above f.entries g.entries := by
  intro x hx y hy hk
  exfalso
  have hf := FileMetaData.covers_of_mem hx
  have hg := FileMetaData.covers_of_mem hy
  rw [← hk] at hg
  rcases h with hlt | hlt
  · exact absurd hlt (hg.1.trans hf.2).not_gt
  · exact absurd hlt (hf.1.trans hg.2).not_gt

namespace Db.Inv

variable {db : Db K V} (h : db.Inv)
include h

theorem seq_lt_next {e : Entry K V} (he : e ∈ db.contents) : e.seq < db.nextSequence := by
  rcases he with he | he
  · exact h.mem_old e he
  · have hle := h.old e he
    rw [Db.nextSequence]
    split
    · rename_i w hw
      have hlt := (h.writing w hw).1
      omega
    · omega

theorem largest_le (level : ℕ) (f : FileMetaData K V) (hf : f ∈ db.files level) :
    f.largest.sequence ≤ kMaxSequenceNumber := by
  obtain ⟨e, he, hk⟩ := f.largest_mem
  have hle := h.old e (.inr ⟨level, f, hf, he⟩)
  have hsmall := h.small
  rw [← hk]
  show e.seq ≤ kMaxSequenceNumber
  omega

/-! ## Writes -/

theorem beginWrite (opts : Options K V) {updates : List (K × Option V)}
    (hready : db.ready (.beginWrite updates) = true) : db.Safe opts (.beginWrite updates) := by
  simp only [Db.ready, Bool.and_eq_true, Option.isNone_iff_eq_none, decide_eq_true_eq] at hready
  obtain ⟨hnone, hsmall⟩ := hready
  refine ⟨_, rfl, ⟨h.layers, h.old, ?_, h.small, ?_, h.numbers, h.seek, h.job, h.readers⟩, ?_⟩
  · intro e he
    have hlt := h.mem_old e he
    rwa [Db.nextSequence, hnone] at hlt
  · intro w hw
    cases hw
    exact ⟨Nat.lt_succ_self _, by simp only; omega, hsmall⟩
  · intro s hs
    refine ⟨hs.values, ?_, hs.reads⟩
    intro w hw
    cases hw
    exact ⟨[], rfl, hs.values⟩

theorem endWrite (opts : Options K V) (hready : db.ready .endWrite = true) :
    db.Safe opts .endWrite := by
  simp only [Db.ready] at hready
  split at hready
  · rename_i w hw
    have hrest : w.rest = [] := List.isEmpty_iff.mp hready
    obtain ⟨hlt, hlen, hsmall⟩ := h.writing w hw
    rw [hrest, List.length_nil, Nat.add_zero] at hlen
    have hact : db.act opts .endWrite =
        some { db with lastSequence := w.lastSequence, writing := none } := by
      rw [Db.act, hw]
      rfl
    have hle : db.lastSequence ≤ w.lastSequence := by omega
    refine ⟨_, hact, ⟨h.layers, fun e he => (h.old e he).trans hle, ?_, hsmall, ?_, h.numbers,
      h.seek, fun st rest hjob => (h.job st rest hjob).mono hle le_rfl,
      fun r hr => (h.readers r hr).mono hle⟩, ?_⟩
    · intro e he
      have hmem := h.mem_old e he
      rw [Db.nextSequence, hw] at hmem
      show e.seq < w.lastSequence + 1
      simp only at hmem
      omega
    · intro w' hw'
      cases hw'
    · intro s hs
      obtain ⟨done, hbatch, hreads⟩ := hs.batch w hw
      rw [hrest, List.append_nil] at hbatch
      refine ⟨?_, fun w' hw' => (by cases hw'), hs.reads⟩
      intro k
      have hk := hreads k
      have hseq : w.sequence - 1 = w.lastSequence := by omega
      rw [hseq, ← hbatch] at hk
      exact hk
  · cases hready

end Db.Inv

/-! ## The memtable grows -/

theorem contents_insert {mem mem' : MemTable K V} {e : Entry K V}
    (hmem : mem'.entries = insert e mem.entries) (imm : Option (MemTable K V))
    (files : Version K V) : contents mem' imm files = insert e (contents mem imm files) := by
  rw [contents, contents, hmem, Set.insert_union]

/-- An entry that is newer than all others goes to the memtable. -/
theorem Layers.insert {mem mem' : MemTable K V} {imm : Option (MemTable K V)}
    {files : Version K V} (h : Layers mem imm files) {e : Entry K V}
    (hmem : mem'.entries = insert e mem.entries)
    (hnew : ∀ x ∈ contents mem imm files, x.seq < e.seq) : Layers mem' imm files where
  placed := h.placed
  distinct := by
    rw [contents_insert hmem]
    rintro x (rfl | hx) y (rfl | hy) hk hseq
    · rfl
    · exact absurd (hnew y hy) hseq.not_gt
    · exact absurd (hnew x hx) hseq.symm.not_gt
    · exact h.distinct x hx y hy hk hseq
  mem_newer := by
    rw [hmem]
    rintro x (rfl | hx) y hy
    · exact hnew y (.inr hy)
    · exact h.mem_newer x hx y hy
  imm_newer := h.imm_newer

theorem ReaderOk.follow {mem mem' : MemTable K V} {files : Version K V} {last : ℕ}
    {r : Reader K V} (h : ReaderOk mem files last r) {e : Entry K V}
    (hmem : mem'.entries = insert e mem.entries) (hnew : ∀ x ∈ mem.entries, x.seq < e.seq)
    (hlast : last < e.seq) : ReaderOk mem' files last (r.follow mem') := by
  rw [Reader.follow]
  by_cases hshared : r.memShared = true
  · rw [if_pos hshared]
    have hrmem : mem'.entries = insert e r.mem.entries := by rw [h.mem_eq hshared, hmem]
    refine ⟨h.layers.insert hrmem ?_, h.old, h.snapshot_le, fun _ => rfl, h.files_eq⟩
    rintro x (hx | hx)
    · rw [h.mem_eq hshared] at hx
      exact hnew x hx
    · have hle := h.old x hx
      have hsnap := h.snapshot_le
      omega
  · rw [if_neg hshared]
    exact ⟨h.layers, h.old, h.snapshot_le, fun hsh => absurd hsh hshared, h.files_eq⟩

/-- What a read under way will return does not change when its memtable grows. -/
theorem ReaderOk.follow_reads {mem mem' : MemTable K V} {files : Version K V} {last : ℕ}
    {r : Reader K V} (h : ReaderOk mem files last r) {e : Entry K V}
    (hmem : mem'.entries = insert e mem.entries) (hlast : last < e.seq) {o : Option V}
    (hreads : Reads r.contents r.snapshot r.key o) :
    Reads (r.follow mem').contents (r.follow mem').snapshot (r.follow mem').key o := by
  rw [Reader.follow]
  by_cases hshared : r.memShared = true
  · rw [if_pos hshared]
    have hrmem : mem'.entries = insert e r.mem.entries := by rw [h.mem_eq hshared, hmem]
    have hcontents : contents mem' r.imm r.files = insert e r.contents :=
      contents_insert hrmem r.imm r.files
    show Reads (contents mem' r.imm r.files) r.snapshot r.key o
    rw [hcontents]
    exact hreads.insert_later (h.snapshot_le.trans_lt hlast)
  · rwa [if_neg hshared]

theorem follow_key (mem : MemTable K V) (r : Reader K V) : (r.follow mem).key = r.key := by
  rw [Reader.follow]
  split
  · rfl
  · rfl

theorem applyUpdates_snoc (m : K → Option V) (done : List (K × Option V)) (k : K) (v : Option V) :
    applyUpdates m (done ++ [(k, v)]) = Function.update (applyUpdates m done) k v := by
  rw [applyUpdates, List.foldl_append]
  rfl

/-- The next snapshot sees the new entry on top of what the one before it saw. -/
theorem reads_insert_next {E : Set (Entry K V)} {seq : ℕ} {m : K → Option V} {k : K}
    {v : Option V} (hseq : 0 < seq) (hnew : ∀ x ∈ E, x.seq < seq)
    (h : ∀ k, Reads E (seq - 1) k (m k)) (k' : K) :
    Reads (insert ⟨k, seq, v⟩ E) seq k' (Function.update m k v k') := by
  by_cases hk : k' = k
  · subst hk
    rw [Function.update_self]
    exact Reads.insert_self (fun x hx _ => hnew x hx) le_rfl
  · rw [Function.update_of_ne hk]
    refine Reads.insert_ne ?_ fun heq => hk heq.symm
    refine (h k').later (Nat.sub_le _ _) fun x hx _ => .inl ?_
    have hlt := hnew x hx
    omega

theorem Db.Inv.insertNext {db : Db K V} (h : db.Inv) (opts : Options K V)
    (hready : db.ready .insertNext = true) : db.Safe opts .insertNext := by
  simp only [Db.ready] at hready
  split at hready
  swap
  · cases hready
  rename_i w hw
  obtain ⟨⟨k, v⟩, rest, hrest⟩ := List.exists_cons_of_ne_nil
    (fun hnil : w.rest = [] => by rw [hnil] at hready; cases hready)
  obtain ⟨hlt, hlen, hsmall⟩ := h.writing w hw
  rw [hrest, List.length_cons] at hlen
  have hnext : db.nextSequence = w.sequence := by rw [Db.nextSequence, hw]
  have hnew : ∀ x ∈ db.contents, x.seq < w.sequence := fun x hx => hnext ▸ h.seq_lt_next hx
  obtain ⟨mem, hadd, hmem⟩ := MemTable.add_spec (m := db.mem) (e := ⟨k, w.sequence, v⟩)
    fun x hx => (hnew x (.inl hx)).ne
  have hact : db.act opts .insertNext = some { db with
      mem := mem
      writing := some ⟨w.sequence + 1, rest, w.lastSequence⟩
      readers := db.readers.map (Reader.follow mem) } := by
    rw [Db.act, hw]
    show db.insertNext w = _
    rw [Db.insertNext, hrest]
    dsimp only
    rw [hadd]
    rfl
  refine ⟨_, hact, ⟨h.layers.insert hmem hnew, h.old, ?_, h.small, ?_, h.numbers, h.seek, h.job,
    ?_⟩, fun s hs => ⟨?_, ?_, ?_⟩⟩
  · intro e he
    show e.seq < w.sequence + 1
    have he' : e ∈ insert (⟨k, w.sequence, v⟩ : Entry K V) db.mem.entries := hmem ▸ he
    rcases he' with rfl | he'
    · exact Nat.lt_succ_self _
    · exact (hnew e (.inl he')).trans (Nat.lt_succ_self _)
  · intro w' hw'
    cases hw'
    exact ⟨hlt.trans (Nat.lt_succ_self _), by dsimp only; omega, hsmall⟩
  · intro r hr
    obtain ⟨r₀, hr₀, rfl⟩ := List.mem_map.mp hr
    exact (h.readers r₀ hr₀).follow hmem (fun x hx => hnew x (.inl hx)) hlt
  · intro k'
    show Reads (Engine.contents mem db.imm db.files) db.lastSequence k' _
    rw [contents_insert hmem]
    exact (hs.values k').insert_later hlt
  · intro w' hw'
    cases hw'
    obtain ⟨done, hbatch, hreads⟩ := hs.batch w hw
    refine ⟨done ++ [(k, v)], ?_, fun k' => ?_⟩
    · show s.batch = _
      rw [hbatch, hrest, List.append_assoc, List.singleton_append]
    · show Reads (Engine.contents mem db.imm db.files) w.sequence k' _
      rw [contents_insert hmem, applyUpdates_snoc]
      exact reads_insert_next (by omega) hnew hreads k'
  · show List.Forall₂ _ (db.readers.map (Reader.follow mem)) s.reads
    refine List.forall₂_map_left_iff.mpr ?_
    refine ((List.forall₂_and_left _ _).mpr ⟨h.readers, hs.reads⟩).imp ?_
    rintro r p ⟨hok, hkey, hreads⟩
    exact ⟨(follow_key mem r).trans hkey, hok.follow_reads hmem hlt hreads⟩

/-! ## The memtable is set aside -/

theorem Layers.switch {mem : MemTable K V} {files : Version K V} (h : Layers mem none files) :
    Layers MemTable.empty (some mem) files where
  placed := h.placed
  distinct := by
    refine h.distinct.mono ?_
    rintro x (hx | hx | hx)
    · rw [MemTable.entries_empty] at hx
      exact absurd hx (Set.notMem_empty x)
    · exact .inl hx
    · exact .inr (.inr hx)
  mem_newer := by
    intro x hx
    rw [MemTable.entries_empty] at hx
    exact absurd hx (Set.notMem_empty x)
  imm_newer := fun x hx y hy => h.mem_newer x hx y (.inr hy)

theorem contents_switch (mem : MemTable K V) (files : Version K V) :
    contents MemTable.empty (some mem) files = contents mem none files := by
  simp [contents, immEntries]

theorem Db.Inv.switchMemTable {db : Db K V} (h : db.Inv) (opts : Options K V)
    (hready : db.ready .switchMemTable = true) : db.Safe opts .switchMemTable := by
  simp only [Db.ready, Bool.and_eq_true, Option.isNone_iff_eq_none] at hready
  obtain ⟨hnone, himm⟩ := hready
  have hlayers : Layers db.mem none db.files := himm ▸ h.layers
  have hcontents : Engine.contents MemTable.empty (some db.mem) db.files = db.contents := by
    rw [contents_switch, Db.contents, himm]
  refine ⟨_, rfl, ⟨hlayers.switch, ?_, ?_, h.small, ?_, ?_, h.seek, ?_, ?_⟩,
    fun s hs => ⟨?_, ?_, ?_⟩⟩
  · rintro e (he | he)
    · have hlt := h.mem_old e he
      rw [Db.nextSequence, hnone] at hlt
      exact Nat.lt_succ_iff.mp hlt
    · exact h.old e (.inr he)
  · intro e he
    have he' : e ∈ (MemTable.empty : MemTable K V).entries := he
    rw [MemTable.entries_empty] at he'
    exact absurd he' (Set.notMem_empty e)
  · intro w hw
    exact h.writing w hw
  · intro level f hf
    exact (h.numbers level f hf).trans (Nat.lt_succ_self _)
  · intro st rest hjob
    exact (h.job st rest hjob).mono le_rfl (Nat.le_succ _)
  · intro r hr
    obtain ⟨r₀, hr₀, rfl⟩ := List.mem_map.mp hr
    have hok := h.readers r₀ hr₀
    exact ⟨hok.layers, hok.old, hok.snapshot_le, fun hsh => (by cases hsh), hok.files_eq⟩
  · intro k
    show Reads (Engine.contents MemTable.empty (some db.mem) db.files) _ _ _
    rw [hcontents]
    exact hs.values k
  · intro w hw
    cases hnone.symm.trans hw
  · exact List.forall₂_map_left_iff.mpr (hs.reads.imp fun r p hrp => hrp)

/-! ## Reads -/

theorem Db.Inv.readerOk {db : Db K V} (h : db.Inv) (k : K) :
    ReaderOk db.mem db.files db.lastSequence (db.reader k) :=
  ⟨h.layers, h.old, le_rfl, fun _ => rfl, fun _ => rfl⟩

theorem Db.Inv.beginRead {db : Db K V} (h : db.Inv) (opts : Options K V) (k : K) :
    db.Safe opts (.beginRead k) := by
  refine ⟨_, rfl, ⟨h.layers, h.old, h.mem_old, h.small, h.writing, h.numbers, h.seek, h.job, ?_⟩,
    fun s hs => ⟨hs.values, hs.batch, ?_⟩⟩
  · intro r hr
    rcases List.mem_append.mp hr with hr | hr
    · exact h.readers r hr
    · rw [List.mem_singleton.mp hr]
      exact h.readerOk k
  · exact List.rel_append hs.reads (.cons ⟨rfl, hs.values k⟩ .nil)

/-- A file that a read charges is in the version it searched. -/
theorem search_seekFile {r : Reader K V} {p : ℕ × FileMetaData K V} (h : r.search.2 = some p) :
    p.2 ∈ r.files p.1 ∧ p.1 + 1 < kNumLevels := by
  rw [Reader.search] at h
  cases hmem : r.mem.get r.key r.snapshot with
  | some o =>
    rw [hmem] at h
    cases h
  | none =>
    rw [hmem] at h
    cases himm : r.imm.bind fun m => m.get r.key r.snapshot with
    | some o =>
      simp only [himm] at h
      cases h
    | none =>
      simp only [himm] at h
      exact Version.get_seekFile h

theorem updateStats_eq (db : Db K V) (seekFile : Option (ℕ × FileMetaData K V)) (spent : Bool) :
    ∃ fileToCompact, db.updateStats seekFile spent = { db with fileToCompact := fileToCompact } ∧
      (fileToCompact = db.fileToCompact ∨ fileToCompact = seekFile) := by
  cases seekFile with
  | none => exact ⟨_, rfl, .inl rfl⟩
  | some p =>
    rw [Db.updateStats]
    split
    · exact ⟨_, rfl, .inr rfl⟩
    · exact ⟨_, rfl, .inl rfl⟩

/-- Charging a file of the version leaves all as it was. -/
theorem Db.Inv.updateStats {db : Db K V} (h : db.Inv)
    {seekFile : Option (ℕ × FileMetaData K V)}
    (hseek : ∀ p, seekFile = some p → p.2 ∈ db.files p.1 ∧ p.1 + 1 < kNumLevels) (spent : Bool) :
    (db.updateStats seekFile spent).Inv ∧
      ∀ s, db.Shows s → (db.updateStats seekFile spent).Shows s := by
  obtain ⟨fileToCompact, heq, hfile⟩ := updateStats_eq db seekFile spent
  rw [heq]
  refine ⟨⟨h.layers, h.old, h.mem_old, h.small, h.writing, h.numbers, ?_, h.job, h.readers⟩,
    fun s hs => ⟨hs.values, hs.batch, hs.reads⟩⟩
  intro p hp
  rcases hfile with hsame | hcharged
  · exact h.seek p (hsame ▸ hp)
  · exact hseek p (hcharged ▸ hp)

theorem Db.Inv.readSample {db : Db K V} (h : db.Inv) (opts : Options K V) (key : InternalKey K)
    (spent : Bool) : db.Safe opts (.readSample key spent) :=
  ⟨_, rfl, h.updateStats (fun _ hp => Version.recordReadSample_seekFile hp) spent⟩

/-- A read that is done is forgotten. -/
theorem Db.Inv.eraseReader {db : Db K V} (h : db.Inv) (i : ℕ) :
    ({ db with readers := db.readers.eraseIdx i } : Db K V).Inv ∧
      ∀ s, db.Shows s → ({ db with readers := db.readers.eraseIdx i } : Db K V).Shows
        { s with reads := s.reads.eraseIdx i } := by
  refine ⟨⟨h.layers, h.old, h.mem_old, h.small, h.writing, h.numbers, h.seek, h.job, ?_⟩,
    fun s hs => ⟨hs.values, hs.batch, forall₂_eraseIdx hs.reads i⟩⟩
  intro r hr
  exact h.readers r (List.mem_of_mem_eraseIdx hr)

theorem Db.Inv.endRead {db : Db K V} (h : db.Inv) (opts : Options K V) {i : ℕ} {spent : Bool}
    (hready : db.ready (.endRead i spent) = true) : db.Safe opts (.endRead i spent) := by
  simp only [Db.ready, decide_eq_true_eq] at hready
  have hok := h.readers _ (List.getElem_mem hready)
  set charged : Db K V := if db.readers[i].filesShared then
    db.updateStats db.readers[i].search.2 spent else db with hcharged
  have hact : db.act opts (.endRead i spent) =
      some { charged with readers := charged.readers.eraseIdx i } := by
    rw [Db.act, List.getElem?_eq_getElem hready]
    rfl
  have hsame : charged.Inv ∧ ∀ s, db.Shows s → charged.Shows s := by
    rw [hcharged]
    split
    · next hshared =>
      refine h.updateStats (fun p hp => ?_) spent
      rw [← hok.files_eq hshared]
      exact search_seekFile hp
    · exact ⟨h, fun _ hs => hs⟩
  obtain ⟨hinv, hshows⟩ := hsame.1.eraseReader i
  exact ⟨_, hact, hinv, fun s hs => hshows s (hsame.2 s hs)⟩

end KfkClient.Engine
