import KfkClient.Engine.DbCompaction

/-!
# The engine is a map

Over every run of the engine, whatever its threads do in whatever order: a read returns what
the map held when it began, a batch shows as a whole, and no assertion fails.
-/

namespace KfkClient.Engine

open MultiVersion Transition

variable {K V : Type} [LinearOrder K]

theorem contents_empty :
    contents MemTable.empty none Version.empty = (∅ : Set (Entry K V)) := by
  simp [contents, immEntries]

theorem Db.new_inv (nextFileNumber : ℕ) : (Db.new nextFileNumber : Db K V).Inv where
  layers := by
    refine ⟨Version.wellPlaced_empty, ?_, ?_, fun x hx => absurd hx (Set.notMem_empty x)⟩
    · show Distinct (Engine.contents MemTable.empty none Version.empty : Set (Entry K V))
      rw [contents_empty]
      exact fun e he => absurd he (Set.notMem_empty e)
    · show ∀ x ∈ (MemTable.empty : MemTable K V).entries, _
      simp
  old := by
    show ∀ e ∈ immEntries none ∪ (Version.empty : Version K V).entries, _
    simp [immEntries]
  mem_old := by
    show ∀ e ∈ (MemTable.empty : MemTable K V).entries, _
    simp
  small := by
    show 0 < kMaxSequenceNumber
    decide
  writing := fun _ hw => by cases hw
  numbers := fun _ _ hf => absurd hf List.not_mem_nil
  seek := fun _ hp => by cases hp
  job := fun _ _ hjob => by cases hjob
  readers := fun _ hr => absurd hr List.not_mem_nil

theorem Db.new_shows (nextFileNumber : ℕ) : (Db.new nextFileNumber : Db K V).Shows Spec.new where
  values := by
    intro k
    show Reads (Engine.contents MemTable.empty none Version.empty) 0 k none
    rw [contents_empty]
    exact reads_empty
  batch := fun _ hw => by cases hw
  reads := .nil

/-- One step of any thread. -/
theorem Db.Inv.step {opts : Options K V} {db db' : Db K V} {a : Action K V} (h : db.Inv)
    (hstep : db.step opts a = some db') :
    db'.Inv ∧ ∀ s, db.Shows s → db'.Shows (s.step a) := by
  rw [Db.step] at hstep
  split at hstep
  · rename_i hready
    obtain ⟨db₁, hact, hinv, hshows⟩ := h.safe opts hready
    obtain rfl : db₁ = db' := Option.some.inj (hact.symm.trans hstep)
    exact ⟨hinv, hshows⟩
  · cases hstep

theorem run_inv {opts : Options K V} {n : ℕ} {actions : List (Action K V)} {db : Db K V}
    (h : run (Db.step opts) (Db.new n) actions = some db) : db.Inv :=
  run_invariant (fun _ _ _ hinv hstep => (hinv.step hstep).1) (Db.new_inv n) h

theorem run_shows {opts : Options K V} {n : ℕ} {actions : List (Action K V)} {db : Db K V}
    (h : run (Db.step opts) (Db.new n) actions = some db) :
    db.Shows (actions.foldl Spec.step Spec.new) := by
  have hrel : db.Inv ∧ db.Shows (actions.foldl Spec.step Spec.new) :=
    Along.simulates (P := fun _ _ => True) (R := fun db s => db.Inv ∧ db.Shows s)
      (fun _ s _ _ hrel _ hstep => ⟨(hrel.1.step hstep).1, (hrel.1.step hstep).2 s hrel.2⟩)
      (along_of_forall (fun _ _ => trivial) _) ⟨Db.new_inv n, Db.new_shows n⟩ h
  exact hrel.2

/-- What a read returns is what its contents show. -/
theorem ReaderOk.result_eq {mem : MemTable K V} {files : Version K V} {last : ℕ} {r : Reader K V}
    (h : ReaderOk mem files last r) {o : Option V} (hreads : Reads r.contents r.snapshot r.key o) :
    r.result = o := h.layers.reads.unique h.layers.distinct hreads

/-- In every state of every run, a `Get` finds what the map has, and the reads under way return
what it had when they began. -/
theorem engine_refines_map (opts : Options K V) (n : ℕ) (actions : List (Action K V))
    {db : Db K V} (h : run (Db.step opts) (Db.new n) actions = some db) :
    (∀ k, db.get k = (actions.foldl Spec.step Spec.new).map k) ∧
      db.readers.map (fun r => (r.key, r.result)) = (actions.foldl Spec.step Spec.new).reads := by
  have hinv := run_inv h
  have hshows := run_shows h
  refine ⟨fun k => (hinv.readerOk k).result_eq (hshows.values k), ?_⟩
  have hboth := (List.forall₂_and_left _ _).mpr ⟨hinv.readers, hshows.reads⟩
  refine List.forall₂_eq_eq_eq ▸ List.forall₂_map_left_iff.mpr (hboth.imp ?_)
  rintro r ⟨k, v⟩ ⟨hok, hkey, hreads⟩
  exact Prod.ext hkey (hok.result_eq hreads)

/-- A batch of two updates, a read that begins before it ends, and the read of its key after. -/
theorem engine_refines_map_batch :
    let opts : Options ℕ ℕ := ⟨100, List.length, List.length⟩
    ∃ db, run (Db.step opts) (Db.new 2)
        [.beginWrite [(1, some 5), (1, some 6)], .insertNext, .insertNext, .beginRead 1,
          .endWrite, .switchMemTable] = some db ∧
      db.get 1 = some 6 ∧ db.readers.map (fun r => (r.key, r.result)) = [(1, none)] := by
  intro opts
  refine ⟨_, rfl, ?_, ?_⟩
  · exact (engine_refines_map opts 2
      [.beginWrite [(1, some 5), (1, some 6)], .insertNext, .insertNext, .beginRead 1,
        .endWrite, .switchMemTable] rfl).1 1
  · exact (engine_refines_map opts 2
      [.beginWrite [(1, some 5), (1, some 6)], .insertNext, .insertNext, .beginRead 1,
        .endWrite, .switchMemTable] rfl).2

/-- In no state of any run does an action that can happen fail an assertion. -/
theorem engine_asserts_hold (opts : Options K V) (n : ℕ) (actions : List (Action K V))
    {db : Db K V} (h : run (Db.step opts) (Db.new n) actions = some db) (a : Action K V)
    (hready : db.ready a = true) : (db.act opts a).isSome = true := by
  obtain ⟨db', hact, _⟩ := (run_inv h).safe opts hready
  rw [hact]
  rfl

def sampleOptions : Options ℕ ℕ := ⟨100, List.length, List.length⟩

/-- A key goes to a table of level 2. A table of level 1 deletes it and has another key. A
compaction of the two comes to the end of its inputs. -/
def compactionRun : List (Action ℕ ℕ) :=
  [.beginWrite [(1, some 5)], .insertNext, .endWrite, .switchMemTable, .compactMemTable,
    .beginWrite [(1, none), (2, some 7)], .insertNext, .insertNext, .endWrite, .switchMemTable,
    .compactMemTable, .startCompaction (.size 1), .compactNext, .compactNext, .compactNext]

theorem engine_asserts_hold_compaction :
    ∃ db, run (Db.step sampleOptions) (Db.new 2) compactionRun = some db ∧
      (db.files 1).length = 1 ∧ (db.files 2).length = 1 ∧
      (db.act sampleOptions .finishCompaction).isSome = true := by
  have hends : (run (Db.step sampleOptions) (Db.new 2) compactionRun).any (fun db =>
      db.ready .finishCompaction ∧ (db.files 1).length = 1 ∧ (db.files 2).length = 1) = true := by
    decide +kernel
  obtain ⟨db, hdb, hcheck⟩ := (Option.any_eq_true _ _).mp hends
  obtain ⟨hready, hone, htwo⟩ := of_decide_eq_true hcheck
  have hact := engine_asserts_hold sampleOptions 2 compactionRun hdb .finishCompaction hready
  exact ⟨db, hdb, hone, htwo, hact⟩

end KfkClient.Engine
