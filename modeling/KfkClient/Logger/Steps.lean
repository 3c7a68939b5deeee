import KfkClient.Logger.Iteration
import KfkClient.Lib.Transition

/-!
# What the steps of the logger do

## Main results

- `drainOnce_iterates` — `Iterates` says all that an iteration can do
- `logStep_moves`, `reached_moves` — `Moves` says what an event does to the entries of a
  logger that is running, or that may not have been started
-/

namespace KfkClient

open CLib

/-! ### What an iteration does -/

/-- What an iteration that goes on leaves alone. -/
structure LogFrame (s s' : LogThread) : Prop where
  queue : s'.queue = s.queue
  accepted : s'.accepted = s.accepted
  stop : s'.stop = s.stop
  log2File : s'.log2File = s.log2File
  maxLogFileSize : s'.maxLogFileSize = s.maxLogFileSize
  pc : s'.pc = s.pc

theorem LogFrame.refl (s : LogThread) : LogFrame s s := ⟨rfl, rfl, rfl, rfl, rfl, rfl⟩

theorem LogFrame.trans {s m s' : LogThread} (h : LogFrame s m) (h' : LogFrame m s') :
    LogFrame s s' :=
  ⟨h'.queue.trans h.queue, h'.accepted.trans h.accepted, h'.stop.trans h.stop,
    h'.log2File.trans h.log2File, h'.maxLogFileSize.trans h.maxLogFileSize, h'.pc.trans h.pc⟩

section Spec

variable {localtime : ℤ → Tm} {tick : LogTick} {s s' : LogThread}

/-- The five ways through an iteration. The flag is false when it leaves the loop. -/
inductive Iterates (localtime : ℤ → Tm) (tick : LogTick) (s : LogThread) :
    Bool → LogThread → Prop where
  | prints {ld : LogData} {rest : List LogData} (front : s.queueOut = ld :: rest)
      (mode : s.log2File = false) :
      Iterates localtime tick s true
        { s with io := s.io ++ [.console ld (logText (localtime tick.clock) ld)] }
  | stops (mode : s.log2File = true) (dir : (s.inMonth localtime tick).dirCreated = false) :
      Iterates localtime tick s false { s with stop := true }
  | fails {ld : LogData} {rest : List LogData} {file : Bytes} {s' : LogThread}
      (front : s.queueOut = ld :: rest) (mode : s.log2File = true)
      (made : (s.inMonth localtime tick).dirCreated = true)
      (needs : NeedsFile localtime tick s (logText (localtime tick.clock) ld).length)
      (closed : tick.opens = false) (frame : LogFrame s s') (dir : s'.dirCreated = true)
      (queueOut : s'.queueOut = s.queueOut) (fp : s'.fp = none)
      (io : s'.io = s.io ++ [.opened file false]) :
      Iterates localtime tick s true s'
  | opens {ld : LogData} {rest : List LogData} {file : Bytes} {s' : LogThread}
      (front : s.queueOut = ld :: rest) (mode : s.log2File = true)
      (made : (s.inMonth localtime tick).dirCreated = true)
      (needs : NeedsFile localtime tick s (logText (localtime tick.clock) ld).length)
      (name : file = cstr ((s.inMonth localtime tick).newName localtime tick))
      (opened : tick.opens = true) (frame : LogFrame s s') (dir : s'.dirCreated = true)
      (queueOut : s'.queueOut = rest) (fp : s'.fp = some file)
      (size : s'.logFileSize = toInt (logText (localtime tick.clock) ld).length)
      (io : s'.io = s.io ++
        [.opened file true, .wrote file ld (logText (localtime tick.clock) ld)]) :
      Iterates localtime tick s true s'
  | appends {ld : LogData} {rest : List LogData} {file : Bytes} {s' : LogThread}
      (front : s.queueOut = ld :: rest) (mode : s.log2File = true)
      (made : (s.inMonth localtime tick).dirCreated = true)
      (keeps : ¬ NeedsFile localtime tick s (logText (localtime tick.clock) ld).length)
      (frame : LogFrame s s') (dir : s'.dirCreated = true) (queueOut : s'.queueOut = rest)
      (was : s.fp = some file) (fp : s'.fp = some file)
      (range : -2 ^ 31 ≤ s.logFileSize + toInt (logText (localtime tick.clock) ld).length ∧
        s.logFileSize + toInt (logText (localtime tick.clock) ld).length < 2 ^ 31)
      (size : s'.logFileSize =
        toInt (s.logFileSize + (logText (localtime tick.clock) ld).length))
      (io : s'.io = s.io ++ [.wrote file ld (logText (localtime tick.clock) ld)]) :
      Iterates localtime tick s true s'

theorem LogThread.inMonth_frame : LogFrame s (s.inMonth localtime tick) := by
  rw [LogThread.inMonth]
  split
  · exact ⟨rfl, rfl, rfl, rfl, rfl, rfl⟩
  · exact .refl s

/-- An iteration that leaves the loop has not changed the month. -/
theorem LogThread.inMonth_of_not_created (h : (s.inMonth localtime tick).dirCreated = false) :
    s.inMonth localtime tick = s := by
  rw [LogThread.inMonth] at h ⊢
  split at h
  · cases h
  · next hsame => rw [if_neg hsame]

theorem LogThread.withoutFile_spec (localtime : ℤ → Tm) (tick : LogTick)
    (h : s.dirCreated = true) :
    LogFrame s (s.withoutFile localtime tick) ∧
      (s.withoutFile localtime tick).dirCreated = true ∧
      (s.withoutFile localtime tick).queueOut = s.queueOut ∧
      (s.withoutFile localtime tick).fp = none ∧
      (s.withoutFile localtime tick).io =
        s.io ++ [.opened (cstr (s.newName localtime tick)) false] := by
  rw [LogThread.withoutFile]
  split
  · exact ⟨⟨rfl, rfl, rfl, rfl, rfl, rfl⟩, rfl, rfl, rfl, rfl⟩
  · exact ⟨⟨rfl, rfl, rfl, rfl, rfl, rfl⟩, h, rfl, rfl, rfl⟩

theorem filed_iterates {ld : LogData} {rest : List LogData} {b : Bool}
    (front : s.queueOut = ld :: rest) (mode : s.log2File = true)
    (hdef : Defined localtime tick s (logText (localtime tick.clock) ld).length)
    (h : (b, s') = s.filed localtime tick ld (logText (localtime tick.clock) ld)) :
    Iterates localtime tick s b s' := by
  have hframe : LogFrame s (s.inMonth localtime tick) := LogThread.inMonth_frame
  rw [LogThread.filed] at h
  cases hdir : (s.inMonth localtime tick).dirCreated with
  | false =>
    rw [if_neg (by simp [hdir]), LogThread.inMonth_of_not_created hdir] at h
    cases h
    exact .stops mode hdir
  | true =>
    rw [if_pos hdir] at h
    by_cases hfile : NeedsFile localtime tick s (logText (localtime tick.clock) ld).length
    · rw [if_pos hfile] at h
      cases hopens : tick.opens with
      | true =>
        rw [hopens, if_pos rfl] at h
        cases h
        refine .opens front mode hdir hfile rfl hopens
          (hframe.trans ⟨rfl, rfl, rfl, rfl, rfl, rfl⟩) hdir ?_ rfl ?_ ?_
        · show (s.inMonth localtime tick).queueOut.tail = rest
          rw [LogThread.inMonth_queueOut, front, List.tail_cons]
        · rw [LogThread.written_logFileSize, LogThread.withFile_logFileSize, zero_add]
        · show (s.inMonth localtime tick).io ++ [_] ++ [_] = _
          rw [LogThread.inMonth_io, List.append_assoc]
          rfl
      | false =>
        rw [hopens, if_neg Bool.false_ne_true] at h
        cases h
        obtain ⟨hsame, hdir', hout, hfp, hio⟩ := LogThread.withoutFile_spec localtime tick hdir
        rw [LogThread.inMonth_queueOut] at hout
        rw [LogThread.inMonth_io] at hio
        exact .fails front mode hdir hfile hopens (hframe.trans hsame) hdir' hout hfp hio
    · rw [if_neg hfile] at h
      cases h
      have hrolls : ¬ Rolls localtime tick s := fun hr => hfile (.inl hr)
      obtain ⟨file, hfp⟩ : ∃ file, s.fp = some file :=
        Option.ne_none_iff_exists'.mp fun hnone => hrolls (.inl hnone)
      refine .appends front mode hdir hfile (hframe.trans ⟨rfl, rfl, rfl, rfl, rfl, rfl⟩) hdir ?_
        hfp ?_ (hdef.sum hdir hrolls) ?_ ?_
      · show (s.inMonth localtime tick).queueOut.tail = rest
        rw [LogThread.inMonth_queueOut, front, List.tail_cons]
      · show (s.inMonth localtime tick).fp = some file
        rw [LogThread.inMonth_fp, hfp]
      · rw [LogThread.written_logFileSize, LogThread.inMonth_logFileSize]
      · show (s.inMonth localtime tick).io ++ (s.inMonth localtime tick).fp.toList.map _ = _
        rw [LogThread.inMonth_io, LogThread.inMonth_fp, hfp]
        rfl

theorem drainOnce_iterates {b : Bool} (h : (drainOnce localtime tick).run s = .ok b s') :
    Iterates localtime tick s b s' := by
  cases front : s.queueOut with
  | nil =>
    rw [drainOnce, run_bind_ok (run_get s), front] at h
    cases h
  | cons ld rest =>
    cases mode : s.log2File with
    | true =>
      obtain ⟨hdef, hfiled⟩ := (drainOnce_file_iff front mode).mp h
      exact filed_iterates front mode hdef hfiled
    | false =>
      rw [drainOnce_console front mode] at h
      cases h
      exact .prints front mode

/-! ### What an event does -/

theorem runStep_eq_ok {u : Unit} (h : (runStep localtime tick).run s = .ok u s') :
    s' = { s with pc := s'.pc } ∧ (s'.pc = .head → s.pc = .drain ∧ s.queueOut = []) ∨
      s.pc = .head ∧ s.stop = false ∧ s' = { s with
        queue := s.queueOut
        queueOut := s.queue
        pc := if s.queue.isEmpty then .head else .drain } ∨
      s.pc = .drain ∧ ∃ goes m, Iterates localtime tick s goes m ∧
        s' = if goes then m else { m with pc := .head } := by
  rw [runStep, run_bind_ok (run_get s)] at h
  cases hpc : s.pc with
  | off =>
    rw [hpc] at h
    cases h
    exact .inl ⟨rfl, fun hhead => by rw [hpc] at hhead; cases hhead⟩
  | head =>
    rw [hpc] at h
    simp only at h
    split at h
    · cases h
      exact .inl ⟨rfl, fun hhead => by cases hhead⟩
    · next hstop =>
        cases h
        exact .inr (.inl ⟨rfl, by simpa using hstop, rfl⟩)
  | drain =>
    rw [hpc] at h
    simp only at h
    split at h
    · next hempty =>
        cases h
        exact .inl ⟨rfl, fun _ => ⟨rfl, by simpa using hempty⟩⟩
    · obtain ⟨goes, m, hdrain, hend⟩ := run_bind_eq_ok h
      refine .inr (.inr ⟨rfl, goes, m, drainOnce_iterates hdrain, ?_⟩)
      cases goes with
      | true =>
        cases hend
        rfl
      | false =>
        cases hend
        rfl

/-- A logger that was started. Between two rounds of the outer loop it has nothing in
`m_QueueOut`, and no directory failure ever stops it. -/
structure Running (s : LogThread) : Prop where
  stop : s.stop = false
  dir : s.dirCreated = true
  idle : s.pc = .head → s.queueOut = []

/-- What an event calls `_PutLog` with, if it does. -/
def LogEvent.puts (s : LogThread) : LogEvent → Option (ℤ × CString)
  | .putLog level str => some (level, str)
  | .writeLog level str => if s.stop = false ∧ s.logLevel ≤ level then some (level, str) else none
  | _ => none

/-- The four things an event can do. -/
inductive Moves (localtime : ℤ → Tm) (s : LogThread) : LogEvent → LogThread → Prop where
  | quiet {e : LogEvent} {s' : LogThread} (no : e.puts s = none) (queue : s'.queue = s.queue)
      (queueOut : s'.queueOut = s.queueOut) (accepted : s'.accepted = s.accepted)
      (io : s'.io = s.io)
      (fp : s'.fp = s.fp ∧ s'.logFileSize = s.logFileSize ∨ s'.fp = none) :
      Moves localtime s e s'
  | puts {e : LogEvent} {level : ℤ} {str : CString} (put : e.puts s = some (level, str)) :
      Moves localtime s e (putLog level str s)
  | swaps {tick : LogTick} {pc : LogPc} (empty : s.queueOut = []) :
      Moves localtime s (.run tick) { s with queue := [], queueOut := s.queue, pc := pc }
  | iterates {tick : LogTick} {s' : LogThread} (h : Iterates localtime tick s true s') :
      Moves localtime s (.run tick) s'

theorem initLogger_running {pre : CString} {log2file : Bool} {level filesize clock : ℤ} {u : Unit}
    (h : s.stop = false) (hr : (initLogger localtime pre log2file level filesize clock).run s =
      .ok u s') : s' = s := by
  rw [initLogger, run_bind_ok (run_get s), if_neg (by simp [h])] at hr
  cases hr
  rfl

theorem Iterates.running {goes : Bool} (h : Iterates localtime tick s goes s') (hs : Running s)
    (hpc : s.pc = .drain) : goes = true ∧ Running s' := by
  have hidle : ∀ r : LogThread, r.pc = s.pc → r.pc = .head → r.queueOut = [] := by
    intro r hr hhead
    rw [hr, hpc] at hhead
    cases hhead
  cases h with
  | prints front mode => exact ⟨rfl, hs.stop, hs.dir, hidle _ rfl⟩
  | stops mode dir =>
    rw [LogThread.inMonth_of_not_created dir, hs.dir] at dir
    cases dir
  | fails front mode made needs closed frame dir queueOut fp io =>
    exact ⟨rfl, frame.stop.trans hs.stop, dir, hidle _ frame.pc⟩
  | opens front mode made needs name opened frame dir queueOut fp size io =>
    exact ⟨rfl, frame.stop.trans hs.stop, dir, hidle _ frame.pc⟩
  | appends front mode made keeps frame dir queueOut was fp range size io =>
    exact ⟨rfl, frame.stop.trans hs.stop, dir, hidle _ frame.pc⟩

theorem Iterates.limit {goes : Bool} (h : Iterates localtime tick s goes s') :
    s'.maxLogFileSize = s.maxLogFileSize := by
  cases h with
  | prints front mode => rfl
  | stops mode dir => rfl
  | fails front mode made needs closed frame => exact frame.maxLogFileSize
  | opens front mode made needs name opened frame => exact frame.maxLogFileSize
  | appends front mode made keeps frame => exact frame.maxLogFileSize

theorem moves_same {e : LogEvent} (h : e.puts s = none) : Moves localtime s e s :=
  .quiet h rfl rfl rfl rfl (.inl ⟨rfl, rfl⟩)

theorem Running.put (hs : Running s) (level : ℤ) (str : CString) :
    Running (putLog level str s) := ⟨hs.stop, hs.dir, hs.idle⟩

/-- The limit of a running logger stays what it is. -/
theorem logStep_moves (hs : Running s) {e : LogEvent} (h : logStep localtime s e = some s') :
    Running s' ∧ s'.maxLogFileSize = s.maxLogFileSize ∧ Moves localtime s e s' := by
  cases e with
  | initLogger pre log2file level filesize clock =>
    rw [logStep, Option.map_eq_some_iff] at h
    obtain ⟨⟨u, r⟩, hr, rfl⟩ := h
    rw [initLogger_running hs.stop (returned_eq_some.mp hr)]
    exact ⟨hs, rfl, moves_same rfl⟩
  | destroyLogger =>
    cases h
    rw [destroyLogger, if_neg (by simp [hs.stop])]
    exact ⟨⟨hs.stop, hs.dir, hs.idle⟩, rfl, .quiet rfl rfl rfl rfl rfl (.inr rfl)⟩
  | setLogLevel level =>
    cases h
    exact ⟨⟨hs.stop, hs.dir, hs.idle⟩, rfl, .quiet rfl rfl rfl rfl rfl (.inl ⟨rfl, rfl⟩)⟩
  | writeLog level str =>
    cases h
    rw [writeLog, if_neg (by simp [hs.stop])]
    split
    · next hlevel => exact ⟨hs.put level str, rfl, .puts (if_pos ⟨hs.stop, hlevel⟩)⟩
    · next hlevel => exact ⟨hs, rfl, moves_same (if_neg fun h => hlevel h.2)⟩
  | putLog level str =>
    cases h
    exact ⟨hs.put level str, rfl, .puts rfl⟩
  | run tick =>
    rw [logStep, Option.map_eq_some_iff] at h
    obtain ⟨⟨u, r⟩, hr, rfl⟩ := h
    change Running r ∧ r.maxLogFileSize = s.maxLogFileSize ∧ Moves localtime s (.run tick) r
    rcases runStep_eq_ok (returned_eq_some.mp hr) with ⟨hsame, hhead⟩ |
      ⟨hhead, -, hswap⟩ | ⟨hdrain, goes, m, hiter, hend⟩
    · rw [hsame]
      exact ⟨⟨hs.stop, hs.dir, fun hpc => (hhead hpc).2⟩, rfl,
        .quiet rfl rfl rfl rfl rfl (.inl ⟨rfl, rfl⟩)⟩
    · have hempty := hs.idle hhead
      rw [hempty] at hswap
      rw [hswap]
      refine ⟨⟨hs.stop, hs.dir, ?_⟩, rfl, .swaps hempty⟩
      intro hpc
      simp only at hpc ⊢
      split at hpc
      · next hq => exact List.isEmpty_iff.mp hq
      · cases hpc
    · obtain ⟨rfl, hrun⟩ := hiter.running hs hdrain
      rw [if_pos rfl] at hend
      rw [hend]
      exact ⟨hrun, hiter.limit, .iterates hiter⟩

/-! ### Before `InitLogger` -/

/-- A logger that was not started. Entries may be in its queue. -/
structure Fresh (s : LogThread) : Prop where
  stop : s.stop = true
  pc : s.pc = .off
  queueOut : s.queueOut = []
  fp : s.fp = none
  io : s.io = []

theorem fresh_new : Fresh LogThread.new := ⟨rfl, rfl, rfl, rfl, rfl⟩

/-- The logger that `InitLogger` starts. -/
def LogThread.started (s : LogThread) (localtime : ℤ → Tm) (pre : CString) (log2file : Bool)
    (level filesize clock : ℤ) : LogThread :=
  { s with
    logLevel := level
    log2File := log2file
    logFilrPrefix := pre
    maxLogFileSize := filesize * 1024 * 1024
    logFileSize := 0
    logRootDir := [46, 47, 114, 100, 108, 111, 103, 47]
    logDir := cstr (monthDirName [46, 47, 114, 100, 108, 111, 103, 47] (localtime clock))
    dirCreated := true
    month := (localtime clock).mon
    stop := false
    pc := .head }

/-- `InitLogger` starts a logger unless the limit overflows or the name of the directory does
not fit. -/
theorem initLogger_stopped_iff {pre : CString} {log2file : Bool} {level filesize clock : ℤ}
    {u : Unit} (hstop : s.stop = true) :
    (initLogger localtime pre log2file level filesize clock).run s = .ok u s' ↔
      (-2 ^ 31 ≤ filesize * 1024 * 1024 ∧ filesize * 1024 * 1024 < 2 ^ 31) ∧
      (monthDirName [46, 47, 114, 100, 108, 111, 103, 47] (localtime clock)).length ≤ 254 ∧
      s' = s.started localtime pre log2file level filesize clock := by
  have hstop' : (setLogLevel level s).stop = true := hstop
  have hreturns : ReturnsWhen (initLogger localtime pre log2file level filesize clock) s
      ((-2 ^ 31 ≤ filesize * 1024 ∧ filesize * 1024 < 2 ^ 31) ∧
        (-2 ^ 31 ≤ filesize * 1024 * 1024 ∧ filesize * 1024 * 1024 < 2 ^ 31) ∧
        (monthDirName [46, 47, 114, 100, 108, 111, 103, 47] (localtime clock)).length ≤ 254) ()
      (s.started localtime pre log2file level filesize clock) := by
    refine .after (run_get s) ?_
    rw [if_pos hstop]
    refine .after (run_modify _ s) (.after (run_get _) ?_)
    rw [if_pos hstop']
    refine (intArith_returns _ _).bind ((intArith_returns _ _).bind (.after (run_modify _ _) ?_))
    exact (createMonthDir_returns clock _).andThen rfl
  rw [hreturns u s']
  constructor
  · rintro ⟨⟨-, hrange, hname⟩, -, hs'⟩
    exact ⟨hrange, hname, hs'⟩
  · rintro ⟨hrange, hname, hs'⟩
    exact ⟨⟨by omega, hrange, hname⟩, rfl, hs'⟩

theorem Fresh.init {pre : CString} {log2file : Bool} {level filesize clock : ℤ} {u : Unit}
    (hs : Fresh s)
    (h : (initLogger localtime pre log2file level filesize clock).run s = .ok u s') :
    Running s' ∧ s'.maxLogFileSize = filesize * 1024 * 1024 ∧ s'.fp = none ∧ s'.io = [] := by
  obtain ⟨-, -, rfl⟩ := (initLogger_stopped_iff hs.stop).mp h
  exact ⟨⟨rfl, rfl, fun _ => hs.queueOut⟩, rfl, hs.fp, hs.io⟩

theorem Fresh.moves (hs : Fresh s) {e : LogEvent} (h : logStep localtime s e = some s') :
    (Fresh s' ∨ Running s') ∧ Moves localtime s e s' := by
  cases e with
  | initLogger pre log2file level filesize clock =>
    rw [logStep, Option.map_eq_some_iff] at h
    obtain ⟨⟨u, r⟩, hr, rfl⟩ := h
    have hinit := returned_eq_some.mp hr
    obtain ⟨hrun, -, hfp, -⟩ := hs.init hinit
    obtain ⟨-, -, rfl⟩ := (initLogger_stopped_iff hs.stop).mp hinit
    exact ⟨.inr hrun, .quiet rfl rfl rfl rfl rfl (.inr hfp)⟩
  | destroyLogger =>
    cases h
    rw [destroyLogger, if_pos hs.stop]
    exact ⟨.inl hs, moves_same rfl⟩
  | setLogLevel level =>
    cases h
    exact ⟨.inl ⟨hs.stop, hs.pc, hs.queueOut, hs.fp, hs.io⟩,
      .quiet rfl rfl rfl rfl rfl (.inl ⟨rfl, rfl⟩)⟩
  | writeLog level str =>
    cases h
    rw [writeLog, if_pos hs.stop]
    refine ⟨.inl hs, moves_same (if_neg fun h => ?_)⟩
    exact absurd (h.1.symm.trans hs.stop) Bool.false_ne_true
  | putLog level str =>
    cases h
    exact ⟨.inl ⟨hs.stop, hs.pc, hs.queueOut, hs.fp, hs.io⟩, .puts rfl⟩
  | run tick =>
    rw [logStep, Option.map_eq_some_iff] at h
    obtain ⟨⟨u, r⟩, hr, rfl⟩ := h
    have hrun := returned_eq_some.mp hr
    rw [runStep, run_bind_ok (run_get s), hs.pc] at hrun
    cases hrun
    exact ⟨.inl hs, moves_same rfl⟩

/-- Whether it was started or not, an event does one of four things to a logger. -/
theorem reached_moves (hs : Fresh s ∨ Running s) {e : LogEvent}
    (h : logStep localtime s e = some s') : (Fresh s' ∨ Running s') ∧ Moves localtime s e s' := by
  rcases hs with hfresh | hrun
  · exact hfresh.moves h
  · obtain ⟨hrun', -, hmoves⟩ := logStep_moves hrun h
    exact ⟨.inr hrun', hmoves⟩

/-- What has stopped was never started. -/
theorem fresh_of_stop {es : List LogEvent}
    (h : Transition.run (logStep localtime) LogThread.new es = some s) (hstop : s.stop = true) :
    Fresh s := by
  have hreached : Fresh s ∨ Running s :=
    Transition.run_invariant (fun _ _ _ hs he => (reached_moves hs he).1) (.inl fresh_new) h
  rcases hreached with hfresh | hrun
  · exact hfresh
  · rw [hrun.stop] at hstop
    cases hstop

end Spec

end KfkClient
