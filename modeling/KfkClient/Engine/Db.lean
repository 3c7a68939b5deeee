import KfkClient.Engine.CompactionWork
import KfkClient.Engine.Install
import KfkClient.Lib.Transition

/-!
# The engine as a state machine (`DBImpl`)

Writes go to the memtable under new sequence numbers and become visible together when the
last sequence number is set. A full memtable is set aside and written to a table by the
background thread, which also compacts tables; reads take a snapshot and references to the
memtables and the version, and then go on without the lock.

An action is what one thread does between two points where another can come in. What installs
a version (`CompactMemTable`, a trivial move, the end of a compaction) gives up the lock while
it builds a table or writes the manifest, and is one action nevertheless. It is the background
thread's, the only one that installs versions or lets go of `imm_`, and while `imm_` is there no
memtable is set aside. So what other threads do meanwhile (write to the memtable, begin and end
reads, charge a file of the version that is about to go) has the same effect before it.

The engine was opened on a new directory. Nothing of `GetSnapshot` and `CompactRange`, which the
client does not call, is here: no snapshot is held, and no compaction is a manual one.

## Main definitions

- `Db`, `Reader`, `Action` — the state, a read under way, and what can happen
- `Db.ready`, `Db.act`, `Db.step` — when an action can happen, what it does, where `none` is an
  assertion that fails, and both together
- `Spec` — what the engine is for: a map, written batch by batch
-/

namespace KfkClient.Engine

open MultiVersion

variable {K V : Type} [LinearOrder K]

/-- A batch on its way into the memtable: the number of the next update, the updates to come,
and what the last sequence number will be. -/
structure Writing (K V : Type) where
  sequence : ℕ
  rest : List (K × Option V)
  lastSequence : ℕ

/-- A `Get` between its two locked parts, with its references. The memtable it refers to
changes as long as it is the engine's. -/
structure Reader (K V : Type) [LinearOrder K] where
  key : K
  snapshot : ℕ
  mem : MemTable K V
  memShared : Bool
  imm : Option (MemTable K V)
  files : Version K V
  filesShared : Bool

structure Db (K V : Type) [LinearOrder K] where
  mem : MemTable K V
  imm : Option (MemTable K V)
  files : Version K V
  lastSequence : ℕ
  nextFileNumber : ℕ
  compactPointer : ℕ → Option (InternalKey K)
  fileToCompact : Option (ℕ × FileMetaData K V)
  writing : Option (Writing K V)
  compaction : Option (CompactionState K V × List (Entry K V))
  readers : List (Reader K V)

/-- An engine opened on a new directory. -/
def Db.new (nextFileNumber : ℕ) : Db K V where
  mem := MemTable.empty
  imm := none
  files := Version.empty
  lastSequence := 0
  nextFileNumber := nextFileNumber
  compactPointer := fun _ => none
  fileToCompact := none
  writing := none
  compaction := none
  readers := []

/-! ## Reads -/

/-- The unlocked part of `Get`: the memtables first, then the version. The second part is the
file to charge, when the version was searched. -/
def Reader.search (r : Reader K V) : Option (Option V) × Option (ℕ × FileMetaData K V) :=
  match r.mem.get r.key r.snapshot with
  | some o => (some o, none)
  | none =>
    match r.imm.bind fun m => m.get r.key r.snapshot with
    | some o => (some o, none)
    | none => r.files.get r.key r.snapshot

/-- What `Get` returns; `none` is `NotFound`. -/
def Reader.result (r : Reader K V) : Option V := r.search.1.join

-- what the other threads do to the references of a read under way: its memtable grows while
-- it is the engine's; the engine goes on with another memtable, or another version

def Reader.follow (mem : MemTable K V) (r : Reader K V) : Reader K V :=
  if r.memShared then { r with mem := mem } else r

def Reader.keepMem (r : Reader K V) : Reader K V := { r with memShared := false }

def Reader.keepFiles (r : Reader K V) : Reader K V := { r with filesShared := false }

def Db.reader (db : Db K V) (k : K) : Reader K V where
  key := k
  snapshot := db.lastSequence
  mem := db.mem
  memShared := true
  imm := db.imm
  files := db.files
  filesShared := true

/-- A `Get` that nothing interrupts. -/
def Db.get (db : Db K V) (k : K) : Option V := (db.reader k).result

/-! ## The actions -/

inductive Action (K V : Type) where
  /-- `Write` takes its numbers for the updates of a group of batches. -/
  | beginWrite (updates : List (K × Option V))
  /-- The inserter adds the next update to the memtable. -/
  | insertNext
  /-- `SetLastSequence` -/
  | endWrite
  /-- `MakeRoomForWrite` sets the memtable aside. -/
  | switchMemTable
  | compactMemTable
  /-- `Get` takes its snapshot and its references. -/
  | beginRead (k : K)
  /-- `Get` returns; `spent` says that the charged file has no seeks left. -/
  | endRead (i : ℕ) (spent : Bool)
  /-- An iterator under way calls `RecordReadSample` at a key. -/
  | readSample (key : InternalKey K) (spent : Bool)
  /-- `BackgroundCompaction` picks a compaction. -/
  | startCompaction (t : Trigger)
  /-- One round of the loop of `DoCompactionWork`. -/
  | compactNext
  | finishCompaction
  /-- The compaction ends with an error, or because the engine shuts down. -/
  | abandonCompaction

/-- When an action can happen. The sequence numbers of the writes considered stay below the
greatest one, so there are fewer than 2^56 of them. -/
def Db.ready (db : Db K V) : Action K V → Bool
  | .beginWrite updates =>
    db.writing.isNone && decide (db.lastSequence + updates.length < kMaxSequenceNumber)
  | .insertNext => match db.writing with
    | some w => !w.rest.isEmpty
    | none => false
  | .endWrite => match db.writing with
    | some w => w.rest.isEmpty
    | none => false
  | .switchMemTable => db.writing.isNone && db.imm.isNone
  | .compactMemTable => db.imm.isSome
  | .beginRead _ => true
  | .endRead i _ => decide (i < db.readers.length)
  | .readSample _ _ => true
  | .startCompaction t =>
    db.compaction.isNone && db.imm.isNone &&
      (pickFile db.files db.compactPointer db.fileToCompact t).isSome
  | .compactNext => match db.compaction with
    | some (_, rest) => !rest.isEmpty
    | none => false
  | .finishCompaction => match db.compaction with
    | some (_, rest) => rest.isEmpty
    | none => false
  | .abandonCompaction => db.compaction.isSome

/-- `LogAndApply`: the new version has no file charged, and the reads under way keep the old
one. -/
def Db.logAndApply (db : Db K V) (edit : VersionEdit K V) : Option (Db K V) := do
  let files ← build db.files edit
  some { db with
    files := files
    fileToCompact := none
    readers := db.readers.map Reader.keepFiles }

def Db.insertNext (db : Db K V) (w : Writing K V) : Option (Db K V) :=
  match w.rest with
  | [] => none
  | (k, v) :: rest => do
    let mem ← db.mem.add ⟨k, w.sequence, v⟩
    some { db with
      mem := mem
      writing := some ⟨w.sequence + 1, rest, w.lastSequence⟩
      readers := db.readers.map (Reader.follow mem) }

/-- `CompactMemTable`, which writes the level-0 table and installs it. -/
def Db.compactMemTable (opts : Options K V) (db : Db K V) (imm : MemTable K V) :
    Option (Db K V) := do
  let number := db.nextFileNumber
  let table ← buildTable opts.fileSize imm number
  let edit := match table with
    | none => levelEdit [] 0 []
    | some f => levelEdit [] (pickLevelForMemTableOutput opts.maxFileSize db.files
        f.smallest.userKey f.largest.userKey) [f]
  let db ← db.logAndApply edit
  some { db with imm := none, nextFileNumber := number + 1 }

/-- `UpdateStats`: a charged file that has no seeks left becomes the one to compact, unless the
version has one. -/
def Db.updateStats (db : Db K V) (seekFile : Option (ℕ × FileMetaData K V)) (spent : Bool) :
    Db K V :=
  match seekFile with
  | some p => if spent ∧ db.fileToCompact.isNone then { db with fileToCompact := some p } else db
  | none => db

/-- The inputs of a compaction in the order of the merging iterator. -/
def Compaction.input (c : Compaction K V) : List (Entry K V) :=
  ((c.inputs0 ++ c.inputs1).flatMap FileMetaData.content).insertionSort
    fun a b => Entry.ikey a ≤ Entry.ikey b

/-- `BackgroundCompaction` where there is no manual compaction. No snapshot is held, so the
smallest one is the last sequence number. -/
def Db.startCompaction (opts : Options K V) (db : Db K V) (t : Trigger) : Option (Db K V) := do
  let (c, largest) ← pickCompaction opts.maxFileSize db.files db.compactPointer db.fileToCompact t
  let db := { db with compactPointer := Function.update db.compactPointer c.level (some largest) }
  if c.isTrivialMove opts.maxFileSize then
    db.logAndApply (levelEdit (c.inputs0.map fun f => (c.level, f.number)) (c.level + 1) c.inputs0)
  else some { db with compaction := some (.start c db.lastSequence, c.input) }

/-- `AddInputDeletions` -/
def Compaction.inputDeletions (c : Compaction K V) : List (ℕ × ℕ) :=
  (c.inputs0.map fun f => (c.level, f.number)) ++ c.inputs1.map fun f => (c.level + 1, f.number)

/-- The end of `DoCompactionWork`. -/
def Db.finishCompaction (opts : Options K V) (db : Db K V) (st : CompactionState K V) :
    Option (Db K V) := do
  let st ← (if st.builder.isSome then finishOutput opts st else some st)
  let db ← db.logAndApply
    (levelEdit st.compaction.inputDeletions (st.compaction.level + 1) st.outputs)
  some { db with compaction := none }

/-- What an action does where it is `ready`; `none` is an assertion that fails. -/
def Db.act (opts : Options K V) (db : Db K V) : Action K V → Option (Db K V)
  | .beginWrite updates =>
    let w := ⟨db.lastSequence + 1, updates, db.lastSequence + updates.length⟩
    some { db with writing := some w }
  | .insertNext => do
    let w ← db.writing
    db.insertNext w
  | .endWrite => do
    let w ← db.writing
    some { db with lastSequence := w.lastSequence, writing := none }
  | .switchMemTable =>
    some { db with
      mem := MemTable.empty
      imm := some db.mem
      nextFileNumber := db.nextFileNumber + 1
      readers := db.readers.map Reader.keepMem }
  | .compactMemTable => do
    let imm ← db.imm
    db.compactMemTable opts imm
  | .beginRead k => some { db with readers := db.readers ++ [db.reader k] }
  | .endRead i spent => do
    let r ← db.readers[i]?
    -- what is charged to a version that was replaced has no effect
    let db := if r.filesShared then db.updateStats r.search.2 spent else db
    some { db with readers := db.readers.eraseIdx i }
  | .readSample key spent => some (db.updateStats (db.files.recordReadSample key) spent)
  | .startCompaction t => db.startCompaction opts t
  | .compactNext => do
    let (st, rest) ← db.compaction
    match rest with
    | [] => none
    | e :: rest => do
      let (st, next) ← compactEntry opts st db.nextFileNumber e
      some { db with compaction := some (st, rest), nextFileNumber := next }
  | .finishCompaction => do
    let (st, _) ← db.compaction
    db.finishCompaction opts st
  | .abandonCompaction => some { db with compaction := none }

def Db.step (opts : Options K V) (db : Db K V) (a : Action K V) : Option (Db K V) :=
  if db.ready a then db.act opts a else none

/-! ## What it is for -/

/-- A map, the batch that is being written, and what the reads under way will return. -/
structure Spec (K V : Type) where
  map : K → Option V
  batch : List (K × Option V)
  reads : List (K × Option V)

def Spec.new : Spec K V := ⟨fun _ => none, [], []⟩

def applyUpdates (m : K → Option V) (updates : List (K × Option V)) : K → Option V :=
  updates.foldl (fun m u => Function.update m u.1 u.2) m

/-- A batch shows as a whole when its write ends; a read sees the map as it begins. Nothing
else shows. -/
def Spec.step (s : Spec K V) : Action K V → Spec K V
  | .beginWrite updates => { s with batch := updates }
  | .endWrite => { s with map := applyUpdates s.map s.batch, batch := [] }
  | .beginRead k => { s with reads := s.reads ++ [(k, s.map k)] }
  | .endRead i _ => { s with reads := s.reads.eraseIdx i }
  | _ => s

end KfkClient.Engine
