import KfkClient.Logger.Steps

/-!
# Calls of the logger that return

How long the texts and names are, and when `InitLogger` and an iteration in file mode
return. A run that writes two entries to one file is built from them.
-/

namespace KfkClient

open CLib

section Returns

variable {localtime : ℤ → Tm} {tick : LogTick} {s s' : LogThread}

theorem length_monthDirName_le (root : Bytes) {t : Tm} (h : t.year < 2 ^ 32) :
    (monthDirName root t).length ≤ root.length + 42 := by
  have hy := length_fmtLL_le 1 (v := (t.year + 1900 : ℕ)) (by simp only [llBound]; omega)
    (by simp only [llBound]; omega)
  have hm := length_fmtLL_le 1 (v := (t.mon + 1 : ℕ)) (by simp only [llBound]; omega)
    (by simp only [llBound]; omega)
  simp only [monthDirName, List.length_append, List.length_singleton]
  omega

theorem length_fmtLL_two {n : ℕ} (h : n < 100) : (fmtLL 2 n).length = 2 := length_fmtLL_of_lt h

theorem length_logFileName_le (dir pre : Bytes) {t : Tm} (h : t.year < 2 ^ 32) :
    (logFileName dir pre t).length ≤ dir.length + pre.length + 38 := by
  have hy := length_fmtLL_le 2 (v := (t.year + 1900 : ℕ)) (by simp only [llBound]; omega)
    (by simp only [llBound]; omega)
  have hmon := length_fmtLL_two (n := t.mon + 1) (by omega)
  have hday := length_fmtLL_two (n := t.mday) (by omega)
  have hhour := length_fmtLL_two (n := t.hour) (by omega)
  have hmin := length_fmtLL_two (n := t.min) (by omega)
  have hsec := length_fmtLL_two (n := t.sec) (by omega)
  simp only [logFileName, List.length_append, List.length_cons, List.length_nil]
  omega

/-- A text is that of the entry behind 19 characters of time and the level. -/
theorem length_logText {t : Tm} (h : t.year < 8100) (ld : LogData) :
    (logText t ld).length = 19 + (levelTag ld.nLevel).length + ld.strLog.bytes.length := by
  have hy : (fmtLL 1 (t.year + 1900 : ℕ)).length = 4 := by
    have h4 : (Nat.digits 10 (t.year + 1900)).length = 4 := by
      apply le_antisymm
      · exact (Nat.digits_length_le_iff (by decide) _).mpr (by omega)
      · exact (Nat.lt_digits_length_iff (by decide) _).mpr (by omega)
    rw [fmtLL, List.length_append, length_decPad, Int.natAbs_natCast, h4,
      if_neg (by omega)]
    rfl
  simp only [logText, putTime, List.length_append, hy, List.length_singleton]
  rw [length_fmtLL_two (by omega), length_fmtLL_two (by omega), length_fmtLL_two (by omega),
    length_fmtLL_two (by omega), length_fmtLL_two (by omega)]

/-- A size of at most 2047 MiB fits an `int`. -/
theorem initLogger_ok (pre : CString) (log2file : Bool) (level : ℤ) {filesize clock : ℤ}
    (h0 : 0 ≤ filesize) (h : filesize < 2048) (hyear : (localtime clock).year < 2 ^ 32) :
    (initLogger localtime pre log2file level filesize clock).run LogThread.new =
      .ok () (LogThread.new.started localtime pre log2file level filesize clock) := by
  have hdir : (monthDirName [46, 47, 114, 100, 108, 111, 103, 47] (localtime clock)).length ≤ 254 :=
    (length_monthDirName_le _ hyear).trans (by decide)
  exact (initLogger_stopped_iff rfl).mpr ⟨by omega, hdir, rfl⟩

theorem logStep_swap (hpc : s.pc = .head) (hstop : s.stop = false) :
    logStep localtime s (.run tick) = some { s with
      queue := s.queueOut
      queueOut := s.queue
      pc := if s.queue.isEmpty then .head else .drain } := by
  have hrun : (runStep localtime tick).run s = .ok () { s with
      queue := s.queueOut
      queueOut := s.queue
      pc := if s.queue.isEmpty then .head else .drain } := by
    rw [runStep, run_bind_ok (run_get s), hpc]
    simp only
    rw [if_neg (by simp [hstop]), run_modify]
  rw [logStep, returned_eq_some.mpr hrun, Option.map_some]

theorem logStep_drain (hpc : s.pc = .drain) (hne : s.queueOut ≠ [])
    (h : (drainOnce localtime tick).run s = .ok true s') :
    logStep localtime s (.run tick) = some s' := by
  have hrun : (runStep localtime tick).run s = .ok () s' := by
    rw [runStep, run_bind_ok (run_get s), hpc]
    simp only
    rw [if_neg (by simpa using hne), run_bind_ok h]
    rfl
  rw [logStep, returned_eq_some.mpr hrun, Option.map_some]

section Write

variable {ld : LogData} {rest : List LogData} (front : s.queueOut = ld :: rest)
  (mode : s.log2File = true) (dir : s.dirCreated = true)
  (month : ((localtime tick.now).mon : ℕ) = s.month)
include front mode dir month

theorem drainOnce_opens (closed : s.fp = none) (opens : tick.opens = true)
    (name : (s.newName localtime tick).length ≤ 254) :
    (drainOnce localtime tick).run s =
      .ok true ((s.withFile localtime tick).written ld (logText (localtime tick.clock) ld)) := by
  have hsame : s.inMonth localtime tick = s := if_neg (not_not_intro month)
  have hrolls : Rolls localtime tick s := .inl closed
  rw [drainOnce_file_iff front mode, LogThread.filed, hsame, if_pos dir, if_pos (.inl hrolls),
    if_pos opens]
  refine ⟨⟨fun h => absurd month h, fun _ h => absurd hrolls h, ?_, ?_⟩, rfl⟩
  · rw [hsame]
    exact fun _ _ => name
  · intro _ _ hclosed
    rw [opens] at hclosed
    cases hclosed

theorem drainOnce_appends (date : ((localtime tick.now).mday : ℕ) = s.date) (was : s.fp ≠ none)
    (range : -2 ^ 31 ≤ s.logFileSize + toInt (logText (localtime tick.clock) ld).length ∧
      s.logFileSize + toInt (logText (localtime tick.clock) ld).length < 2 ^ 31)
    (fits : s.logFileSize + toInt (logText (localtime tick.clock) ld).length ≤
      s.maxLogFileSize) :
    (drainOnce localtime tick).run s =
      .ok true (s.written ld (logText (localtime tick.clock) ld)) := by
  have hsame : s.inMonth localtime tick = s := if_neg (not_not_intro month)
  have hneeds : ¬ NeedsFile localtime tick s (logText (localtime tick.clock) ld).length := by
    rintro ((hnone | hdate | hmonth) | hfull)
    · exact was hnone
    · exact hdate date.symm
    · exact hmonth month
    · exact absurd fits (not_le.mpr hfull)
  rw [drainOnce_file_iff front mode, LogThread.filed, hsame, if_pos dir, if_neg hneeds]
  exact ⟨⟨fun h => absurd month h, fun _ _ => range, fun _ h => absurd h hneeds,
    fun _ h => absurd h hneeds⟩, rfl⟩

end Write

end Returns

/-! ### A run with two entries -/

/-- A clock that stands at the first second of 1970. -/
def stillClock : ℤ → Tm := fun _ => ⟨70, 0, 1, 0, 0, 0⟩

/-- A round of the outside in which the file can be opened. -/
def LogTick.sample : LogTick := ⟨0, 0, 0, 0, true, 0⟩

/-- The first entry of a run, on the level of `[INFO]`. -/
def LogData.sample : LogData := ⟨0, 1, ⟨[101], by decide⟩⟩

/-- A logger started with a limit of 1 MiB. -/
def LogThread.sample (log2file : Bool) : LogThread :=
  LogThread.new.started stillClock LogThread.new.logFilrPrefix log2file 0 1 0

theorem initLogger_sample (log2file : Bool) :
    (initLogger stillClock LogThread.new.logFilrPrefix log2file 0 1 0).run LogThread.new =
      .ok () (.sample log2file) :=
  initLogger_ok _ _ _ (by decide) (by decide) (by decide)

def initSample (log2file : Bool) : LogEvent :=
  .initLogger LogThread.new.logFilrPrefix log2file 0 1 0

theorem logStep_initSample (log2file : Bool) :
    logStep stillClock LogThread.new (initSample log2file) = some (.sample log2file) := by
  rw [initSample, logStep, returned_eq_some.mpr (initLogger_sample log2file), Option.map_some]

/-- The file that is opened on such a clock. -/
def sampleFile : Bytes :=
  cstr (logFileName (LogThread.sample true).logDir LogThread.new.logFilrPrefix.bytes (stillClock 0))

/-- Two entries are put, `Run` takes them over and writes them. -/
def twoEntries (str : CString) : List LogEvent :=
  [.putLog 1 LogData.sample.strLog, .putLog 1 str, .run .sample, .run .sample, .run .sample]

/-- `Run` has taken both entries over. -/
def takenTwo (str : CString) : LogThread :=
  { LogThread.sample true with
    queueOut := [.sample, ⟨1, 1, str⟩]
    pc := .drain
    accepted := [.sample, ⟨1, 1, str⟩] }

def wroteOne (str : CString) : LogThread :=
  { takenTwo str with
    queueOut := [⟨1, 1, str⟩]
    fp := some sampleFile
    date := 1
    logFileSize := 26
    io := [.opened sampleFile true, .wrote sampleFile .sample (logText (stillClock 0) .sample)] }

/-- Both entries are in one file. -/
def wroteTwo (str : CString) : LogThread :=
  { wroteOne str with
    queueOut := []
    logFileSize := 51 + str.bytes.length
    io := [.opened sampleFile true, .wrote sampleFile .sample (logText (stillClock 0) .sample),
      .wrote sampleFile ⟨1, 1, str⟩ (logText (stillClock 0) ⟨1, 1, str⟩)] }

theorem length_logText_sample (n : ℕ) (str : CString) :
    (logText (stillClock 0) ⟨n, 1, str⟩).length = 25 + str.bytes.length :=
  length_logText (by decide) _

theorem drainOnce_takenTwo (str : CString) :
    (drainOnce stillClock .sample).run (takenTwo str) = .ok true (wroteOne str) := by
  have hname : ((takenTwo str).newName stillClock .sample).length ≤ 254 := by
    have hdir : (takenTwo str).logDir.length ≤ 50 :=
      (length_cstr_le _).trans (length_monthDirName_le _ (by decide))
    have hpre : (takenTwo str).logFilrPrefix.bytes.length = 0 := rfl
    have hle := length_logFileName_le (takenTwo str).logDir (takenTwo str).logFilrPrefix.bytes
      (t := stillClock LogTick.sample.now) (by decide)
    rw [LogThread.newName]
    omega
  have hsize : toInt (0 + (logText (stillClock LogTick.sample.clock) .sample).length) = 26 := by
    have hlen : (logText (stillClock LogTick.sample.clock) .sample).length = 26 :=
      length_logText_sample 0 _
    rw [hlen, zero_add, toInt_of_lt (by decide)]
    rfl
  rw [drainOnce_opens (s := takenTwo str) rfl rfl rfl rfl rfl rfl hname, LogThread.written,
    LogThread.withFile_logFileSize, hsize]
  rfl

/-- The second entry goes to the file of the first if the counter stays within the limit. -/
theorem drainOnce_wroteOne {str : CString} (h : str.bytes.length ≤ 1048525) :
    (drainOnce stillClock .sample).run (wroteOne str) = .ok true (wroteTwo str) := by
  have hlen : (logText (stillClock LogTick.sample.clock) ⟨1, 1, str⟩).length =
      25 + str.bytes.length := length_logText_sample 1 str
  have hint : toInt (logText (stillClock LogTick.sample.clock) ⟨1, 1, str⟩).length =
      25 + str.bytes.length := by
    rw [hlen, toInt_of_lt (by omega)]
    push_cast
    rfl
  have hwas : (wroteOne str).logFileSize = 26 := rfl
  have hmax : (wroteOne str).maxLogFileSize = 1048576 := rfl
  have hsize : toInt ((wroteOne str).logFileSize +
      (logText (stillClock LogTick.sample.clock) ⟨1, 1, str⟩).length) = 51 + str.bytes.length := by
    have hsum : (26 : ℤ) + (25 + str.bytes.length : ℕ) = (51 + str.bytes.length : ℕ) := by omega
    rw [hwas, hlen, hsum, toInt_of_lt (by omega)]
    push_cast
    rfl
  rw [drainOnce_appends (s := wroteOne str) rfl rfl rfl rfl rfl (Option.some_ne_none _)
    (by rw [hwas, hint]; omega) (by rw [hwas, hint, hmax]; omega), LogThread.written, hsize]
  rfl

theorem run_twoEntries {str : CString} (h : str.bytes.length ≤ 1048525) :
    Transition.run (logStep stillClock) (.sample true) (twoEntries str) = some (wroteTwo str) := by
  have hput : ∀ s str, logStep stillClock s (.putLog 1 str) = some (putLog 1 str s) :=
    fun _ _ => rfl
  have hswap : logStep stillClock (putLog 1 str (putLog 1 LogData.sample.strLog (.sample true)))
      (.run .sample) = some (takenTwo str) := logStep_swap rfl rfl
  have hfirst := logStep_drain (s := takenTwo str) rfl (List.cons_ne_nil _ _)
    (drainOnce_takenTwo str)
  have hsecond := logStep_drain (s := wroteOne str) rfl (List.cons_ne_nil _ _)
    (drainOnce_wroteOne h)
  rw [twoEntries, Transition.run_cons_some (hput _ _), Transition.run_cons_some (hput _ _),
    Transition.run_cons_some hswap, Transition.run_cons_some hfirst,
    Transition.run_cons_some hsecond, Transition.run_nil]

end KfkClient
