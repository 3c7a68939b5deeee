import KfkClient.Lib.Decimal

/-!
# The logger

`z_hglog.cpp`. Any thread puts entries into `m_Queue`; the thread of `Run` swaps the two
queues and takes the entries of `m_QueueOut` to the console or to a file. What an
iteration of its inner loop asks of the outside (the clock, whether a file can be opened)
is a `LogTick`. Everything that leaves the process is recorded in `io`.

## Main definitions

- `LogThread` — the members of `db_CLogThread` and the place where `Run` is
- `drainOnce` — an iteration of the inner loop of `Run`
- `LogEvent`, `logStep` — the calls of any threads and the steps of `Run`
-/

namespace KfkClient

open CLib

/-! ### Entries and clock -/

/-- The object that `_PutLog` makes of an entry. -/
structure LogData where
  -- how many entries were put before it
  serial : ℕ
  nLevel : ℤ
  strLog : CString
  deriving DecidableEq

/-- What `localtime` gives of a time. The year is that of `tm_year`. -/
structure Tm where
  year : ℕ
  mon : Fin 12
  mday : Fin 32
  hour : Fin 24
  min : Fin 60
  sec : Fin 61
  deriving DecidableEq

/-- What the outside answers in one iteration. -/
structure LogTick where
  -- `system_clock::now()`, then the readings of `time(NULL)`
  clock : ℤ
  now : ℤ
  monthClock : ℤ
  retryClock : ℤ
  -- whether `m_fp.open` succeeds, and `errno` if it does not
  opens : Bool
  errno : ℤ

inductive LogIo where
  | console (ld : LogData) (text : Bytes)
  | opened (file : Bytes) (ok : Bool)
  | wrote (file : Bytes) (ld : LogData) (text : Bytes)
  deriving DecidableEq

/-- Where the thread of `Run` is: not started or gone, at the test of the outer loop, at
the test of the inner loop. -/
inductive LogPc where
  | off
  | head
  | drain
  deriving DecidableEq

structure LogThread where
  queue : List LogData
  queueOut : List LogData
  stop : Bool
  maxLogFileSize : ℤ
  logFilrPrefix : CString
  log2File : Bool
  dirCreated : Bool
  logRootDir : Bytes
  logDir : Bytes
  -- the file that `m_fp` has open
  fp : Option Bytes
  date : ℕ
  month : ℕ
  logFileSize : ℤ
  logLevel : ℤ
  pc : LogPc
  -- every entry that `_PutLog` took, in the order in which it took them
  accepted : List LogData
  io : List LogIo

/-- The object `g_log` before it is started. -/
def LogThread.new : LogThread :=
  ⟨[], [], true, 0, ⟨[], by decide⟩, false, false, [], [], none, 0, 0, 0, 1, .off, [], []⟩

/-- `%Y-%m-%d %H.%M.%S`. -/
def putTime (t : Tm) : Bytes :=
  fmtLL 1 (t.year + 1900 : ℕ) ++ [45] ++ fmtLL 2 (t.mon + 1 : ℕ) ++ [45] ++ fmtLL 2 (t.mday : ℕ) ++
    [32] ++ fmtLL 2 (t.hour : ℕ) ++ [46] ++ fmtLL 2 (t.min : ℕ) ++ [46] ++ fmtLL 2 (t.sec : ℕ)

/-- `[DEBUG]`, `[INFO]`, `[WARN]`, `[ERROR]`, `[TRACE]` or `[OTHER]`. -/
def levelTag (nLevel : ℤ) : Bytes :=
  if nLevel = 0 then [91, 68, 69, 66, 85, 71, 93]
  else if nLevel = 1 then [91, 73, 78, 70, 79, 93]
  else if nLevel = 2 then [91, 87, 65, 82, 78, 93]
  else if nLevel = 3 then [91, 69, 82, 82, 79, 82, 93]
  else if nLevel = 4 then [91, 84, 82, 65, 67, 69, 93]
  else [91, 79, 84, 72, 69, 82, 93]

/-- The text `ss` of an entry. -/
def logText (t : Tm) (ld : LogData) : Bytes := putTime t ++ levelTag ld.nLevel ++ ld.strLog.bytes

/-- `%s%d-%d/`. -/
def monthDirName (root : Bytes) (t : Tm) : Bytes :=
  root ++ fmtLL 1 (t.year + 1900 : ℕ) ++ [45] ++ fmtLL 1 (t.mon + 1 : ℕ) ++ [47]

/-- `%s%s_%02d-%02d-%02d-%02d%02d%02d.log`. -/
def logFileName (dir pre : Bytes) (t : Tm) : Bytes :=
  dir ++ pre ++ [95] ++ fmtLL 2 (t.year + 1900 : ℕ) ++ [45] ++ fmtLL 2 (t.mon + 1 : ℕ) ++ [45] ++
    fmtLL 2 (t.mday : ℕ) ++ [45] ++ fmtLL 2 (t.hour : ℕ) ++ fmtLL 2 (t.min : ℕ) ++
    fmtLL 2 (t.sec : ℕ) ++ [46, 108, 111, 103]

/-! ### The calls of any thread -/

/-- `_PutLog`. -/
def putLog (level : ℤ) (str : CString) (s : LogThread) : LogThread :=
  let ld : LogData := ⟨s.accepted.length, level, str⟩
  let queue := if 20000 < s.queue.length then s.queue.tail else s.queue
  { s with queue := queue ++ [ld], accepted := s.accepted ++ [ld] }

def writeLog (level : ℤ) (str : CString) (s : LogThread) : LogThread :=
  if s.stop then s
  else if s.logLevel ≤ level then putLog level str s else s

def setLogLevel (level : ℤ) (s : LogThread) : LogThread := { s with logLevel := level }

/-- `_StopLog`. It closes the file; the logger goes on. -/
def destroyLogger (s : LogThread) : LogThread := if s.stop then s else { s with fp := none }

section Client

variable (localtime : ℤ → Tm)

/-- The results of `mkdir` are not looked at. -/
def createMonthDir (clock : ℤ) : Exec LogThread Unit := do
  let t := localtime clock
  modify fun s => { s with dirCreated := false }
  let s ← get
  let subDir ← sprintfInto (zeros 255) (monthDirName s.logRootDir t)
  modify fun s => { s with logDir := cstr subDir, dirCreated := true, month := t.mon }

/-- `_StartLog`. -/
def startLog (pre : CString) (log2file : Bool) (filesize clock : ℤ) : Exec LogThread Unit := do
  let s ← get
  if s.stop then do
    let kib ← intArith (filesize * 1024)
    let max ← intArith (kib * 1024)
    modify fun s =>
      { s with
        log2File := log2file
        logFilrPrefix := pre
        maxLogFileSize := max
        logFileSize := 0
        -- `./rdlog/`
        logRootDir := [46, 47, 114, 100, 108, 111, 103, 47] }
    createMonthDir localtime clock
    modify fun s => { s with stop := false, pc := .head }
  else pure ()

def initLogger (pre : CString) (log2file : Bool) (level filesize clock : ℤ) :
    Exec LogThread Unit := do
  let s ← get
  if s.stop then do
    modify (setLogLevel level)
    startLog localtime pre log2file filesize clock
  else pure ()

/-! ### The thread of `Run` -/

/-- Whether the month has changed; its directory is then created. -/
def monthCheck (tick : LogTick) : Exec LogThread Bool := do
  let s ← get
  if ((localtime tick.now).mon : ℕ) ≠ s.month then do
    createMonthDir localtime tick.monthClock
    pure true
  else pure false

/-- The condition for a new file. The size is added up only when nothing else calls for
one. -/
def needsFile (t : Tm) (bMonthChange : Bool) (size : ℕ) : Exec LogThread Bool := do
  let s ← get
  if s.fp = none ∨ s.date ≠ t.mday ∨ bMonthChange = true then pure true
  else do
    let sum ← intArith (s.logFileSize + toInt size)
    pure (decide (sum > s.maxLogFileSize))

/-- A new file takes the place of the open one. The result is whether it could be opened. -/
def newFile (tick : LogTick) : Exec LogThread Bool := do
  let t := localtime tick.now
  modify fun s => { s with fp := none }
  let s ← get
  let file ← sprintfInto (zeros 255) (logFileName s.logDir s.logFilrPrefix.bytes t)
  if tick.opens then do
    modify fun s =>
      { s with
        fp := some (cstr file)
        date := t.mday
        logFileSize := 0
        io := s.io ++ [.opened (cstr file) true] }
    pure true
  else do
    modify fun s => { s with io := s.io ++ [.opened (cstr file) false] }
    -- `ENOENT` and `EACCES`
    (if tick.errno = 2 ∨ tick.errno = 13 then createMonthDir localtime tick.retryClock else pure ())
    pure false

/-- A line of the file and the end of its entry. The counter takes the text without the
newline; it is added up as a `size_t` and kept as an `int`. -/
def writeEntry (ld : LogData) (text : Bytes) : Exec LogThread Unit :=
  modify fun s =>
    { s with
      io := s.io ++ s.fp.toList.map fun file => .wrote file ld text
      logFileSize := toInt (s.logFileSize + text.length)
      queueOut := s.queueOut.tail }

/-- An iteration in file mode; it is false when it leaves the loop. An entry whose file
cannot be opened stays where it is. -/
def fileEntry (tick : LogTick) (ld : LogData) (text : Bytes) : Exec LogThread Bool := do
  let bMonthChange ← monthCheck localtime tick
  let s ← get
  if s.dirCreated then do
    let needs ← needsFile (localtime tick.now) bMonthChange text.length
    let isOpen ← (if needs then newFile localtime tick else pure true)
    (if isOpen then writeEntry ld text else pure ())
    pure true
  else do
    modify fun s => { s with stop := true }
    pure false

/-- An iteration of the inner loop of `Run`. On the console the entry is printed and stays
where it is. -/
def drainOnce (tick : LogTick) : Exec LogThread Bool := do
  let s ← get
  match s.queueOut with
  | [] => throw .outOfBounds
  | ld :: _ =>
    let text := logText (localtime tick.clock) ld
    if s.log2File then fileEntry localtime tick ld text
    else do
      modify fun s => { s with io := s.io ++ [.console ld text] }
      pure true

/-- A step of `Run`: the test of a loop and what comes before the next test. -/
def runStep (tick : LogTick) : Exec LogThread Unit := do
  let s ← get
  match s.pc with
  | .off => pure ()
  | .head =>
    if s.stop then modify fun s => { s with pc := .off }
    else
      modify fun s =>
        { s with
          queue := s.queueOut
          queueOut := s.queue
          -- an empty queue is waited for
          pc := if s.queue.isEmpty then .head else .drain }
  | .drain =>
    if s.queueOut.isEmpty then modify fun s => { s with pc := .head }
    else do
      let goes ← drainOnce localtime tick
      if goes then pure () else modify fun s => { s with pc := .head }

end Client

inductive LogEvent where
  | initLogger (pre : CString) (log2file : Bool) (level filesize clock : ℤ)
  | destroyLogger
  | setLogLevel (level : ℤ)
  | writeLog (level : ℤ) (str : CString)
  | putLog (level : ℤ) (str : CString)
  | run (tick : LogTick)

def logStep (localtime : ℤ → Tm) (s : LogThread) : LogEvent → Option LogThread
  | .initLogger pre log2file level filesize clock =>
    (returned (initLogger localtime pre log2file level filesize clock) s).map Prod.snd
  | .destroyLogger => some (destroyLogger s)
  | .setLogLevel level => some (setLogLevel level s)
  | .writeLog level str => some (writeLog level str s)
  | .putLog level str => some (putLog level str s)
  | .run tick => (returned (runStep localtime tick) s).map Prod.snd

end KfkClient
