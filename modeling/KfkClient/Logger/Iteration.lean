import KfkClient.Logger.Machine

/-!
# An iteration of the inner loop

What an iteration decides can be read off the logger before it and the tick: whether the
month changes, whether the entry goes to a new file and under which name. `Defined` says
when nothing on its way is undefined, and `LogThread.filed` what it then leaves behind.

## Main results

- `drainOnce_file_iff`, `drainOnce_console` — an iteration returns exactly when it is
  defined, and does what `filed` says, or prints its entry
-/

namespace KfkClient

open CLib

section Decides

variable (localtime : ℤ → Tm) (tick : LogTick) (s : LogThread)

/-- The logger with the directory that `CreateMonthDir` makes. -/
def LogThread.inDir (clock : ℤ) : LogThread :=
  { s with
    logDir := cstr (monthDirName s.logRootDir (localtime clock))
    dirCreated := true
    month := (localtime clock).mon }

/-- The month is no longer that of the directory. -/
def ChangesMonth : Prop := ((localtime tick.now).mon : ℕ) ≠ s.month

instance : Decidable (ChangesMonth localtime tick s) := inferInstanceAs (Decidable (_ ≠ _))

/-- The logger behind the month check. -/
def LogThread.inMonth : LogThread :=
  if ChangesMonth localtime tick s then s.inDir localtime tick.monthClock else s

/-- The entry goes to a new file whatever its size. -/
def Rolls : Prop :=
  s.fp = none ∨ s.date ≠ (localtime tick.now).mday ∨ ChangesMonth localtime tick s

instance : Decidable (Rolls localtime tick s) := inferInstanceAs (Decidable (_ ∨ _ ∨ _))

/-- An entry of this size goes to a new file. -/
def NeedsFile (size : ℕ) : Prop :=
  Rolls localtime tick s ∨ s.maxLogFileSize < s.logFileSize + toInt size

instance (size : ℕ) : Decidable (NeedsFile localtime tick s size) :=
  inferInstanceAs (Decidable (_ ∨ _))

/-- The name of a file that is opened now. -/
def LogThread.newName : Bytes := logFileName s.logDir s.logFilrPrefix.bytes (localtime tick.now)

/-- An iteration in file mode has no undefined behaviour: the names fit into `char[255]`, and
the sum of the size test, where the test comes to it, is an `int`. -/
structure Defined (size : ℕ) : Prop where
  monthDir : ChangesMonth localtime tick s →
    (monthDirName s.logRootDir (localtime tick.monthClock)).length ≤ 254
  sum : (s.inMonth localtime tick).dirCreated = true → ¬ Rolls localtime tick s →
    -2 ^ 31 ≤ s.logFileSize + toInt size ∧ s.logFileSize + toInt size < 2 ^ 31
  name : (s.inMonth localtime tick).dirCreated = true → NeedsFile localtime tick s size →
    ((s.inMonth localtime tick).newName localtime tick).length ≤ 254
  retryDir : (s.inMonth localtime tick).dirCreated = true → NeedsFile localtime tick s size →
    tick.opens = false → tick.errno = 2 ∨ tick.errno = 13 →
      (monthDirName s.logRootDir (localtime tick.retryClock)).length ≤ 254

/-- A new file is open. -/
def LogThread.withFile : LogThread :=
  { s with
    fp := some (cstr (s.newName localtime tick))
    date := (localtime tick.now).mday
    logFileSize := 0
    io := s.io ++ [.opened (cstr (s.newName localtime tick)) true] }

/-- The old file is closed, and the new one could not be opened. -/
def LogThread.refused : LogThread :=
  { s with
    fp := none
    io := s.io ++ [.opened (cstr (s.newName localtime tick)) false] }

def LogThread.withoutFile : LogThread :=
  if tick.errno = 2 ∨ tick.errno = 13 then
    (s.refused localtime tick).inDir localtime tick.retryClock
  else s.refused localtime tick

/-- The entry is in the open file. -/
def LogThread.written (ld : LogData) (text : Bytes) : LogThread :=
  { s with
    io := s.io ++ s.fp.toList.map fun file => .wrote file ld text
    logFileSize := toInt (s.logFileSize + text.length)
    queueOut := s.queueOut.tail }

/-- What an iteration in file mode returns and leaves behind. -/
def LogThread.filed (ld : LogData) (text : Bytes) : Bool × LogThread :=
  let m := s.inMonth localtime tick
  if m.dirCreated then
    if NeedsFile localtime tick s text.length then
      if tick.opens then (true, (m.withFile localtime tick).written ld text)
      else (true, m.withoutFile localtime tick)
    else (true, m.written ld text)
  else (false, { m with stop := true })

end Decides

section Decided

variable {localtime : ℤ → Tm} {tick : LogTick} {s s' : LogThread}

theorem sprintfInto_name (name : Bytes) (s : LogThread) :
    ReturnsWhen (sprintfInto (zeros 255) name) s (name.length ≤ 254)
      (name ++ 0 :: (zeros 255).drop (name.length + 1)) s :=
  (sprintfInto_returns _ name s).congr (by rw [length_zeros, Nat.add_le_add_iff_right])

theorem createMonthDir_returns (clock : ℤ) (s : LogThread) :
    ReturnsWhen (createMonthDir localtime clock) s
      ((monthDirName s.logRootDir (localtime clock)).length ≤ 254) ()
      (s.inDir localtime clock) := by
  refine .after (run_modify _ s) (.after (run_get _) (.andThen (sprintfInto_name _ _) ?_))
  rw [run_modify, cstr_append_zero]
  rfl

theorem monthCheck_returns :
    ReturnsWhen (monthCheck localtime tick) s
      (ChangesMonth localtime tick s →
        (monthDirName s.logRootDir (localtime tick.monthClock)).length ≤ 254)
      (decide (ChangesMonth localtime tick s)) (s.inMonth localtime tick) := by
  refine .after (run_get s) ?_
  rw [LogThread.inMonth]
  change ReturnsWhen (if ChangesMonth localtime tick s then _ else _) _ _ _ _
  by_cases hmonth : ChangesMonth localtime tick s
  · rw [if_pos hmonth, if_pos hmonth, decide_eq_true hmonth]
    exact .of_pos hmonth ((createMonthDir_returns _ s).andThen rfl)
  · rw [if_neg hmonth, if_neg hmonth, decide_eq_false hmonth]
    exact .of_neg hmonth rfl

theorem needsFile_returns (t : Tm) (change : Bool) (size : ℕ) (s : LogThread) :
    ReturnsWhen (needsFile t change size) s
      (¬ (s.fp = none ∨ s.date ≠ t.mday ∨ change = true) →
        -2 ^ 31 ≤ s.logFileSize + toInt size ∧ s.logFileSize + toInt size < 2 ^ 31)
      (decide ((s.fp = none ∨ s.date ≠ t.mday ∨ change = true) ∨
        s.maxLogFileSize < s.logFileSize + toInt size)) s := by
  refine .after (run_get s) ?_
  by_cases hrolls : s.fp = none ∨ s.date ≠ t.mday ∨ change = true
  · rw [if_pos hrolls, decide_eq_true (.inl hrolls)]
    exact .of_neg (not_not.mpr hrolls) rfl
  · rw [if_neg hrolls, decide_eq_decide.mpr (or_iff_right hrolls)]
    exact .of_pos hrolls ((intArith_returns _ s).andThen rfl)

/-- What comes of an open that failed. -/
theorem retry_returns :
    ReturnsWhen (if tick.errno = 2 ∨ tick.errno = 13 then createMonthDir localtime tick.retryClock
        else pure ()) (s.refused localtime tick)
      (tick.errno = 2 ∨ tick.errno = 13 →
        (monthDirName s.logRootDir (localtime tick.retryClock)).length ≤ 254)
      () (s.withoutFile localtime tick) := by
  rw [LogThread.withoutFile]
  by_cases herr : tick.errno = 2 ∨ tick.errno = 13
  · rw [if_pos herr, if_pos herr]
    exact .of_pos herr (createMonthDir_returns _ _)
  · rw [if_neg herr, if_neg herr]
    exact .of_neg herr rfl

theorem newFile_returns :
    ReturnsWhen (newFile localtime tick) s
      ((s.newName localtime tick).length ≤ 254 ∧
        (tick.opens = false → tick.errno = 2 ∨ tick.errno = 13 →
          (monthDirName s.logRootDir (localtime tick.retryClock)).length ≤ 254))
      tick.opens
      (if tick.opens then s.withFile localtime tick else s.withoutFile localtime tick) := by
  refine .after (run_modify _ s) (.after (run_get _) (.bind (sprintfInto_name _ _) ?_))
  rw [cstr_append_zero]
  cases tick.opens with
  | true => exact .of_neg Bool.noConfusion rfl
  | false => exact .of_pos rfl (.after (run_modify _ _) (retry_returns.andThen rfl))

@[simp] theorem LogThread.withFile_logFileSize :
    (s.withFile localtime tick).logFileSize = 0 := rfl

@[simp] theorem LogThread.written_logFileSize (ld : LogData) (text : Bytes) :
    (s.written ld text).logFileSize = toInt (s.logFileSize + text.length) := rfl

/-! The month check changes the directory and nothing else. -/

@[simp] theorem LogThread.inMonth_fp : (s.inMonth localtime tick).fp = s.fp := by
  rw [LogThread.inMonth]
  split <;> rfl

@[simp] theorem LogThread.inMonth_date : (s.inMonth localtime tick).date = s.date := by
  rw [LogThread.inMonth]
  split <;> rfl

@[simp] theorem LogThread.inMonth_logFileSize :
    (s.inMonth localtime tick).logFileSize = s.logFileSize := by
  rw [LogThread.inMonth]
  split <;> rfl

@[simp] theorem LogThread.inMonth_maxLogFileSize :
    (s.inMonth localtime tick).maxLogFileSize = s.maxLogFileSize := by
  rw [LogThread.inMonth]
  split <;> rfl

@[simp] theorem LogThread.inMonth_io : (s.inMonth localtime tick).io = s.io := by
  rw [LogThread.inMonth]
  split <;> rfl

@[simp] theorem LogThread.inMonth_queueOut :
    (s.inMonth localtime tick).queueOut = s.queueOut := by
  rw [LogThread.inMonth]
  split <;> rfl

@[simp] theorem LogThread.inMonth_logRootDir :
    (s.inMonth localtime tick).logRootDir = s.logRootDir := by
  rw [LogThread.inMonth]
  split <;> rfl

theorem needsFile_inMonth (size : ℕ) :
    ReturnsWhen
      (needsFile (localtime tick.now) (decide (ChangesMonth localtime tick s)) size)
      (s.inMonth localtime tick)
      (¬ Rolls localtime tick s →
        -2 ^ 31 ≤ s.logFileSize + toInt size ∧ s.logFileSize + toInt size < 2 ^ 31)
      (decide (NeedsFile localtime tick s size)) (s.inMonth localtime tick) := by
  have h := needsFile_returns (localtime tick.now) (decide (ChangesMonth localtime tick s)) size
    (s.inMonth localtime tick)
  simp only [LogThread.inMonth_fp, LogThread.inMonth_date, LogThread.inMonth_logFileSize,
    LogThread.inMonth_maxLogFileSize, decide_eq_true_eq] at h
  exact h

theorem LogThread.filed_of_dir {ld : LogData} {text : Bytes}
    (hdir : (s.inMonth localtime tick).dirCreated = true) :
    s.filed localtime tick ld text =
      (true, if NeedsFile localtime tick s text.length then
          if tick.opens then ((s.inMonth localtime tick).withFile localtime tick).written ld text
          else (s.inMonth localtime tick).withoutFile localtime tick
        else (s.inMonth localtime tick).written ld text) := by
  rw [LogThread.filed, if_pos hdir]
  split_ifs <;> rfl

theorem LogThread.filed_of_no_dir {ld : LogData} {text : Bytes}
    (hdir : ¬ (s.inMonth localtime tick).dirCreated = true) :
    s.filed localtime tick ld text = (false, { s.inMonth localtime tick with stop := true }) := by
  rw [LogThread.filed, if_neg hdir]

/-- The entry goes to the open file or to a new one. -/
theorem placeEntry_returns (ld : LogData) (text : Bytes) (size : ℕ) (m : LogThread) :
    ReturnsWhen
      ((if decide (NeedsFile localtime tick s size) = true then newFile localtime tick
        else pure true) >>= fun isOpen => do
          (if isOpen = true then writeEntry ld text else pure ())
          pure true) m
      (NeedsFile localtime tick s size → (m.newName localtime tick).length ≤ 254 ∧
        (tick.opens = false → tick.errno = 2 ∨ tick.errno = 13 →
          (monthDirName m.logRootDir (localtime tick.retryClock)).length ≤ 254))
      true
      (if NeedsFile localtime tick s size then
        if tick.opens then (m.withFile localtime tick).written ld text
        else m.withoutFile localtime tick
      else m.written ld text) := by
  by_cases hfile : NeedsFile localtime tick s size
  · rw [decide_eq_true hfile, if_pos rfl, if_pos hfile]
    refine .of_pos hfile (newFile_returns.andThen ?_)
    cases tick.opens with
    | true => rfl
    | false => rfl
  · rw [decide_eq_false hfile, if_neg hfile]
    exact .of_neg hfile rfl

theorem defined_iff_of_dir (hdir : (s.inMonth localtime tick).dirCreated = true) (size : ℕ) :
    Defined localtime tick s size ↔
      (ChangesMonth localtime tick s →
        (monthDirName s.logRootDir (localtime tick.monthClock)).length ≤ 254) ∧
      (¬ Rolls localtime tick s →
        -2 ^ 31 ≤ s.logFileSize + toInt size ∧ s.logFileSize + toInt size < 2 ^ 31) ∧
      (NeedsFile localtime tick s size →
        ((s.inMonth localtime tick).newName localtime tick).length ≤ 254 ∧
          (tick.opens = false → tick.errno = 2 ∨ tick.errno = 13 →
            (monthDirName (s.inMonth localtime tick).logRootDir
              (localtime tick.retryClock)).length ≤ 254)) := by
  rw [LogThread.inMonth_logRootDir]
  constructor
  · intro h
    exact ⟨h.monthDir, h.sum hdir, fun hnew => ⟨h.name hdir hnew, h.retryDir hdir hnew⟩⟩
  · rintro ⟨hmonth, hsum, hnew⟩
    exact ⟨hmonth, fun _ => hsum, fun _ h => (hnew h).1, fun _ h => (hnew h).2⟩

/-- An iteration in file mode returns exactly when it is defined, and then it does what
`filed` says. -/
theorem fileEntry_returns (ld : LogData) (text : Bytes) :
    ReturnsWhen (fileEntry localtime tick ld text) s (Defined localtime tick s text.length)
      (s.filed localtime tick ld text).1 (s.filed localtime tick ld text).2 := by
  by_cases hdir : (s.inMonth localtime tick).dirCreated = true
  · rw [LogThread.filed_of_dir hdir]
    refine ReturnsWhen.congr ?_ (defined_iff_of_dir hdir _).symm
    refine monthCheck_returns.bind (.after (run_get _) ?_)
    rw [if_pos hdir]
    refine (needsFile_inMonth _).bind ?_
    exact placeEntry_returns ld text _ _
  · rw [LogThread.filed_of_no_dir hdir]
    refine (monthCheck_returns.andThen ?_).congr
      ⟨fun hmonth => ⟨hmonth, fun h => absurd h hdir, fun h => absurd h hdir,
        fun h => absurd h hdir⟩, Defined.monthDir⟩
    rw [run_bind_ok (run_get _), if_neg hdir]
    rfl

theorem drainOnce_file_iff {ld : LogData} {rest : List LogData} (front : s.queueOut = ld :: rest)
    (mode : s.log2File = true) {b : Bool} :
    (drainOnce localtime tick).run s = .ok b s' ↔
      Defined localtime tick s (logText (localtime tick.clock) ld).length ∧
        (b, s') = s.filed localtime tick ld (logText (localtime tick.clock) ld) := by
  rw [drainOnce, run_bind_ok (run_get s), front]
  simp only
  rw [if_pos mode, fileEntry_returns ld _ b s', Prod.ext_iff]

theorem drainOnce_console {ld : LogData} {rest : List LogData} (front : s.queueOut = ld :: rest)
    (mode : s.log2File = false) :
    (drainOnce localtime tick).run s =
      .ok true { s with io := s.io ++ [.console ld (logText (localtime tick.clock) ld)] } := by
  rw [drainOnce, run_bind_ok (run_get s), front]
  simp only
  rw [if_neg (by simp [mode]), run_bind_ok (run_modify _ s), ← front]
  rfl

end Decided

end KfkClient
