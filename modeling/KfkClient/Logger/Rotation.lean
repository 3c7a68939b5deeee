import KfkClient.Logger.Returns

/-!
# The size of a log file

`m_nLogFileSize` adds up the texts of the entries and starts again at 0 with every open. The
line feed behind each text is not counted, and neither is what a file of the same name
already holds when it is opened to be appended to. `tally` keeps these bytes apart from
those that are counted, and `Sound` says before each step when they do not matter.

## Main results

- `Tallied.step` — the counter is the sum of the texts since the open, as long as each of
  them is shorter than 2 GiB
- `step_within_iff` — what a step needs to be defined and to keep every file within the limit
-/

namespace KfkClient

open CLib Transition

def LogIo.line (file : Bytes) : LogIo → Option Bytes
  | .wrote f _ text => if f = file then some text else none
  | _ => none

/-- The texts that went to a file. -/
def lines (file : Bytes) (io : List LogIo) : List Bytes := io.filterMap (LogIo.line file)

/-- The bytes of texts, each with the line feed behind it. -/
def lineBytes (texts : List Bytes) : ℕ := (texts.map fun text => text.length + 1).sum

def fileBytes (file : Bytes) (io : List LogIo) : ℕ := lineBytes (lines file io)

/-- No file of more than one entry is larger than the limit. -/
def WithinLimit (limit : ℤ) (io : List LogIo) : Prop :=
  ∀ file, (lines file io).length ≤ 1 ∨ (fileBytes file io : ℤ) ≤ limit

/-- The bytes that a file held when it was opened last, and the texts written since. -/
structure Tally where
  found : ℕ
  since : List Bytes

def Tally.bytes (t : Tally) : ℕ := t.found + lineBytes t.since

def Tally.note (file : Bytes) (t : Tally) : LogIo → Tally
  | .opened f true => if f = file then ⟨t.bytes, []⟩ else t
  | .wrote f _ text => if f = file then ⟨t.found, t.since ++ [text]⟩ else t
  | _ => t

def tally (file : Bytes) (io : List LogIo) : Tally := io.foldl (Tally.note file) ⟨0, []⟩

/-- Before the iteration: the bytes that `m_nLogFileSize` leaves out do not take the file of
the entry above the limit. -/
structure Roomy (localtime : ℤ → Tm) (limit : ℤ) (tick : LogTick) (s : LogThread) (text : Bytes) :
    Prop where
  -- appended to the open file
  appended : ∀ file, ¬ NeedsFile localtime tick s text.length → s.fp = some file →
    (∀ t ∈ text :: (tally file s.io).since, t.length < 2 ^ 31) ∧
      s.logFileSize + text.length + (tally file s.io).found + (tally file s.io).since.length + 1 ≤
        limit
  -- written to a file that was there before
  opened : ∀ file, NeedsFile localtime tick s text.length → tick.opens = true →
    file = cstr ((s.inMonth localtime tick).newName localtime tick) → lines file s.io ≠ [] →
      (fileBytes file s.io : ℤ) + text.length + 1 ≤ limit

/-- Before the step: nothing on its way is undefined, and an entry that goes to a file has
room there. -/
def Sound (localtime : ℤ → Tm) (limit : ℤ) (s : LogThread) : LogEvent → Prop
  | .initLogger _ _ _ filesize clock => s.stop = true →
    (-2 ^ 31 ≤ filesize * 1024 * 1024 ∧ filesize * 1024 * 1024 < 2 ^ 31) ∧
      (monthDirName [46, 47, 114, 100, 108, 111, 103, 47] (localtime clock)).length ≤ 254
  | .run tick => ∀ ld rest, s.pc = .drain → s.log2File = true → s.queueOut = ld :: rest →
    Defined localtime tick s (logText (localtime tick.clock) ld).length ∧
      Roomy localtime limit tick s (logText (localtime tick.clock) ld)
  | _ => True

/-! ### Files -/

theorem lineBytes_append (texts texts' : List Bytes) :
    lineBytes (texts ++ texts') = lineBytes texts + lineBytes texts' := by
  rw [lineBytes, List.map_append, List.sum_append]
  rfl

theorem lineBytes_singleton (text : Bytes) : lineBytes [text] = text.length + 1 := by
  simp [lineBytes]

theorem lineBytes_eq (texts : List Bytes) :
    lineBytes texts = (texts.map List.length).sum + texts.length := by
  induction texts with
  | nil => rfl
  | cons text rest ih =>
    rw [lineBytes] at ih
    simp only [lineBytes, List.map_cons, List.sum_cons, List.length_cons, ih]
    omega

theorem length_lt_lineBytes {texts : List Bytes} {text : Bytes} (h : text ∈ texts) :
    text.length < lineBytes texts :=
  Nat.lt_of_succ_le (List.single_le_sum (fun _ _ => Nat.zero_le _) _
    (List.mem_map.mpr ⟨text, h, rfl⟩))

theorem lines_append (file : Bytes) (io io' : List LogIo) :
    lines file (io ++ io') = lines file io ++ lines file io' := List.filterMap_append

theorem lines_wrote (file : Bytes) (ld : LogData) (text : Bytes) :
    lines file [.wrote file ld text] = [text] := by
  simp [lines, LogIo.line]

theorem lines_wrote_ne {file other : Bytes} (h : file ≠ other) (ld : LogData) (text : Bytes) :
    lines other [.wrote file ld text] = [] := by
  simp [lines, LogIo.line, h]

theorem lines_opened (file other : Bytes) (ok : Bool) (io : List LogIo) :
    lines file (.opened other ok :: io) = lines file io := rfl

theorem WithinLimit.of_append {limit : ℤ} {io io' : List LogIo}
    (h : WithinLimit limit (io ++ io')) : WithinLimit limit io := by
  intro file
  have hfile := h file
  rw [fileBytes, lines_append, List.length_append, lineBytes_append] at hfile
  rw [fileBytes]
  omega

/-- A text that is written keeps the files within the limit exactly when it is the first of
its file or fits into it. -/
theorem WithinLimit.write_iff {limit : ℤ} {io io' : List LogIo} (h : WithinLimit limit io)
    {file text : Bytes} (hlines : lines file io' = lines file io ++ [text])
    (hother : ∀ other, file ≠ other → lines other io' = lines other io) :
    WithinLimit limit io' ↔
      (lines file io ≠ [] → (fileBytes file io : ℤ) + text.length + 1 ≤ limit) := by
  have hlen : (lines file io').length = (lines file io).length + 1 := by
    rw [hlines, List.length_append, List.length_singleton]
  have hbytes : fileBytes file io' = fileBytes file io + text.length + 1 := by
    rw [fileBytes, hlines, lineBytes_append, lineBytes_singleton, fileBytes]
    omega
  constructor
  · intro hw hne
    have hpos : 0 < (lines file io).length := List.length_pos_iff.mpr hne
    have hfile := hw file
    omega
  · intro hroom other
    by_cases heq : file = other
    · rw [← heq, hbytes]
      by_cases hempty : lines file io = []
      · rw [hempty] at hlen
        exact .inl hlen.le
      · have hfits := hroom hempty
        exact .inr (by push_cast; omega)
    · rw [fileBytes, hother other heq]
      exact h other

/-! ### The tally of a file -/

section Tally

variable {file : Bytes} {io : List LogIo}

theorem tally_append (io' : List LogIo) :
    tally file (io ++ io') = io'.foldl (Tally.note file) (tally file io) := List.foldl_append

/-- The tally accounts for every byte of the file. -/
theorem tally_bytes (file : Bytes) (io : List LogIo) :
    (tally file io).bytes = fileBytes file io := by
  have hnote : ∀ (t : Tally) (x : LogIo), (t.note file x).bytes = t.bytes + fileBytes file [x] := by
    rintro t (⟨ld, text⟩ | ⟨f, ok⟩ | ⟨f, ld, text⟩)
    · rfl
    · cases ok with
      | false => rfl
      | true =>
        by_cases hf : f = file
        · rw [Tally.note, if_pos hf]
          rfl
        · rw [Tally.note, if_neg hf]
          rfl
    · by_cases hf : f = file
      · subst hf
        rw [Tally.note, if_pos rfl, fileBytes, lines_wrote, Tally.bytes, Tally.bytes,
          lineBytes_append, Nat.add_assoc]
      · rw [Tally.note, if_neg hf, fileBytes, lines_wrote_ne hf]
        rfl
  have hfold : ∀ t : Tally,
      (io.foldl (Tally.note file) t).bytes = t.bytes + fileBytes file io := by
    induction io with
    | nil => exact fun t => rfl
    | cons x io ih =>
      intro t
      rw [List.foldl_cons, ih, hnote, Nat.add_assoc]
      congr 1
      rw [fileBytes, fileBytes, ← lineBytes_append, ← lines_append]
      rfl
  rw [tally, hfold]
  exact Nat.zero_add _

/-- What was written since the open is in the file. -/
theorem lines_ne_nil_of_since (h : (tally file io).since ≠ []) : lines file io ≠ [] := by
  intro hempty
  have hbytes := tally_bytes file io
  rw [fileBytes, hempty, Tally.bytes, lineBytes_eq] at hbytes
  have hpos := List.length_pos_iff.mpr h
  change _ + (_ + _) = 0 at hbytes
  omega

theorem tally_opened (ld : LogData) (text : Bytes) :
    tally file (io ++ [.opened file true, .wrote file ld text]) =
      ⟨fileBytes file io, [text]⟩ := by
  rw [tally_append, ← tally_bytes]
  simp [Tally.note]

theorem tally_wrote (ld : LogData) (text : Bytes) :
    tally file (io ++ [.wrote file ld text]) =
      ⟨(tally file io).found, (tally file io).since ++ [text]⟩ := by
  rw [tally_append]
  simp [Tally.note]

end Tally

/-! ### What the counter counts -/

variable {localtime : ℤ → Tm} {s s' : LogThread} {e : LogEvent}

/-- The counter is what the texts written since the open add up to, unless one of them is
longer than an `int` can say. -/
def Tallied (s : LogThread) : Prop :=
  ∀ file, s.fp = some file → (tally file s.io).since ≠ [] ∧
    ((∀ t ∈ (tally file s.io).since, t.length < 2 ^ 31) →
      s.logFileSize = (((tally file s.io).since.map List.length).sum : ℕ))

theorem Tallied.same (h : Tallied s) (hio : s'.io = s.io)
    (hfp : s'.fp = s.fp ∧ s'.logFileSize = s.logFileSize ∨ s'.fp = none) : Tallied s' := by
  intro file hfile
  rcases hfp with ⟨hfp, hsize⟩ | hnone
  · rw [hio, hsize]
    exact h file (hfp ▸ hfile)
  · rw [hnone] at hfile
    cases hfile

theorem Tallied.iterate {tick : LogTick} (h : Tallied s)
    (hiter : Iterates localtime tick s true s') : Tallied s' := by
  cases hiter with
  | prints front mode =>
    intro file hfile
    have htally : ∀ ld text, tally file (s.io ++ [.console ld text]) = tally file s.io :=
      fun ld text => tally_append _
    rw [htally]
    exact h file hfile
  | fails front mode made needs closed frame dir queueOut fp io =>
    intro file hfile
    rw [fp] at hfile
    cases hfile
  | @opens ld rest f _ front mode made needs name opened frame dir queueOut fp size io =>
    intro file hfile
    rw [fp] at hfile
    cases hfile
    rw [io, tally_opened]
    refine ⟨List.cons_ne_nil _ _, fun hshort => ?_⟩
    rw [size, toInt_of_lt (hshort _ List.mem_cons_self), List.map_singleton,
      List.sum_singleton]
  | @appends ld rest f _ front mode made keeps frame dir queueOut was fp range size io =>
    intro file hfile
    rw [fp] at hfile
    cases hfile
    rw [io, tally_wrote]
    refine ⟨by simp, fun hshort => ?_⟩
    have hlast := hshort _ (List.mem_append_right _ List.mem_cons_self)
    have hcount := (h f was).2 fun t ht => hshort t (List.mem_append_left _ ht)
    rw [hcount, toInt_of_lt hlast] at range
    rw [size, hcount, ← Nat.cast_add, toInt_of_lt (by omega), List.map_append, List.sum_append,
      List.map_singleton, List.sum_singleton]

/-- What every run keeps. -/
structure Rotates (max : ℤ) (s : LogThread) : Prop where
  running : Running s
  limit : s.maxLogFileSize = max
  tallied : Tallied s

theorem Rotates.step {max : ℤ} (h : Rotates max s) (hs : logStep localtime s e = some s') :
    Rotates max s' ∧ ∃ io, s'.io = s.io ++ io := by
  obtain ⟨hrun, hmax, hmoves⟩ := logStep_moves h.running hs
  have hlimit := hmax.trans h.limit
  cases hmoves with
  | quiet no queue queueOut accepted io fp =>
    exact ⟨⟨hrun, hlimit, h.tallied.same io fp⟩, [], by rw [io, List.append_nil]⟩
  | puts put =>
    exact ⟨⟨hrun, hlimit, h.tallied.same rfl (.inl ⟨rfl, rfl⟩)⟩, [], (List.append_nil _).symm⟩
  | swaps empty =>
    exact ⟨⟨hrun, hlimit, h.tallied.same rfl (.inl ⟨rfl, rfl⟩)⟩, [], (List.append_nil _).symm⟩
  | iterates hiter =>
    refine ⟨⟨hrun, hlimit, h.tallied.iterate hiter⟩, ?_⟩
    cases hiter with
    | prints front mode => exact ⟨_, rfl⟩
    | fails front mode made needs closed frame dir queueOut fp io => exact ⟨_, io⟩
    | opens front mode made needs name opened frame dir queueOut fp size io => exact ⟨_, io⟩
    | appends front mode made keeps frame dir queueOut was fp range size io => exact ⟨_, io⟩

/-! ### What a step needs -/

section Step

variable {max : ℤ} {tick : LogTick} {ld : LogData} {rest : List LogData}

/-- Below 2 GiB, what a file has room for can be said with the counter. -/
theorem Tallied.fits_iff (h : Tallied s) (hmax : max < 2 ^ 31) {file text : Bytes}
    (hfp : s.fp = some file) :
    (fileBytes file s.io : ℤ) + text.length + 1 ≤ max ↔
      (∀ t ∈ text :: (tally file s.io).since, t.length < 2 ^ 31) ∧
        s.logFileSize + text.length + (tally file s.io).found +
          (tally file s.io).since.length + 1 ≤ max := by
  obtain ⟨-, hcount⟩ := h file hfp
  rw [← tally_bytes, Tally.bytes]
  have hbytes := lineBytes_eq (tally file s.io).since
  constructor
  · intro hfits
    have hshort : ∀ t ∈ (tally file s.io).since, t.length < 2 ^ 31 := by
      intro t ht
      have hlt := length_lt_lineBytes ht
      omega
    rw [hcount hshort]
    refine ⟨?_, by omega⟩
    rw [List.forall_mem_cons]
    exact ⟨by omega, hshort⟩
  · rintro ⟨hshort, hroom⟩
    rw [hcount (List.forall_mem_cons.mp hshort).2] at hroom
    omega

theorem Iterates.within_iff (h : Iterates localtime tick s true s') (hs : Tallied s)
    (hmax : max < 2 ^ 31) (hw : WithinLimit max s.io) (hmode : s.log2File = true)
    (hfront : s.queueOut = ld :: rest) :
    WithinLimit max s'.io ↔ Roomy localtime max tick s (logText (localtime tick.clock) ld) := by
  cases h with
  | prints front mode =>
    rw [hmode] at mode
    cases mode
  | fails front mode made needs closed frame dir queueOut fp io =>
    cases front.symm.trans hfront
    refine iff_of_true ?_ ⟨fun file keeps => absurd needs keeps, fun file _ opened => ?_⟩
    · intro file
      rw [io, fileBytes, lines_append, lines_opened]
      exact (List.append_nil (lines file s.io)).symm ▸ hw file
    · rw [closed] at opened
      cases opened
  | @opens _ _ file _ front mode made needs name opened frame dir queueOut fp size io =>
    cases front.symm.trans hfront
    have hlines : lines file s'.io = lines file s.io ++ [logText (localtime tick.clock) ld] := by
      rw [io, lines_append, lines_opened, lines_wrote]
    have hother : ∀ other, file ≠ other → lines other s'.io = lines other s.io := by
      intro other hne
      rw [io, lines_append, lines_opened, lines_wrote_ne hne, List.append_nil]
    rw [hw.write_iff hlines hother]
    constructor
    · intro hroom
      exact ⟨fun _ keeps => absurd needs keeps, fun _ _ _ heq => heq.trans name.symm ▸ hroom⟩
    · exact fun hroom => hroom.opened file needs opened name
  | @appends _ _ file _ front mode made keeps frame dir queueOut was fp range size io =>
    cases front.symm.trans hfront
    have hlines : lines file s'.io = lines file s.io ++ [logText (localtime tick.clock) ld] := by
      rw [io, lines_append, lines_wrote]
    have hother : ∀ other, file ≠ other → lines other s'.io = lines other s.io := by
      intro other hne
      rw [io, lines_append, lines_wrote_ne hne, List.append_nil]
    rw [hw.write_iff hlines hother, forall_prop_of_true (lines_ne_nil_of_since (hs file was).1),
      hs.fits_iff hmax was]
    constructor
    · intro hroom
      refine ⟨fun other _ hfp => ?_, fun _ needs => absurd needs keeps⟩
      cases was.symm.trans hfp
      exact hroom
    · exact fun hroom => hroom.appended file keeps was

/-- A step of the thread that takes up an entry is an iteration. -/
theorem logStep_iteration_iff (hs : Running s) (hpc : s.pc = .drain)
    (hfront : s.queueOut = ld :: rest) :
    logStep localtime s (.run tick) = some s' ↔
      (drainOnce localtime tick).run s = .ok true s' := by
  have hne : s.queueOut ≠ [] := by simp [hfront]
  refine ⟨fun h => ?_, logStep_drain hpc hne⟩
  rw [logStep, Option.map_eq_some_iff] at h
  obtain ⟨⟨u, r⟩, hr, rfl⟩ := h
  have hrun := returned_eq_some.mp hr
  rw [runStep, run_bind_ok (run_get s), hpc] at hrun
  simp only at hrun
  rw [if_neg (by simpa using hne)] at hrun
  obtain ⟨goes, m, hdrain, hend⟩ := run_bind_eq_ok hrun
  obtain ⟨rfl, -⟩ := (drainOnce_iterates hdrain).running hs hpc
  cases hend
  exact hdrain

/-- A step of the thread that takes up no entry returns and writes nothing. -/
theorem logStep_idle (localtime : ℤ → Tm) (tick : LogTick)
    (h : ¬ (s.pc = .drain ∧ s.queueOut ≠ [])) :
    ∃ s', logStep localtime s (.run tick) = some s' ∧ s'.io = s.io := by
  suffices hrun : ∃ s', (runStep localtime tick).run s = .ok () s' ∧ s'.io = s.io by
    obtain ⟨s', hs', hio⟩ := hrun
    exact ⟨s', by rw [logStep, returned_eq_some.mpr hs', Option.map_some], hio⟩
  rw [runStep, run_bind_ok (run_get s)]
  cases hpc : s.pc with
  | off => exact ⟨s, rfl, rfl⟩
  | head =>
    simp only
    split
    · exact ⟨_, rfl, rfl⟩
    · exact ⟨_, rfl, rfl⟩
  | drain =>
    have hempty : s.queueOut = [] := not_not.mp fun hne => h ⟨hpc, hne⟩
    simp only
    rw [if_pos (by simp [hempty])]
    exact ⟨_, rfl, rfl⟩

theorem run_within_iff (hs : Rotates max s) (hmax : max < 2 ^ 31) (hw : WithinLimit max s.io) :
    (∃ s', logStep localtime s (.run tick) = some s' ∧ WithinLimit max s'.io) ↔
      Sound localtime max s (.run tick) := by
  by_cases hbusy : s.pc = .drain ∧ s.queueOut ≠ []
  · obtain ⟨hpc, hne⟩ := hbusy
    obtain ⟨ld, rest, hfront⟩ := List.exists_cons_of_ne_nil hne
    simp only [logStep_iteration_iff hs.running hpc hfront]
    constructor
    · rintro ⟨s', hrun, hw'⟩ ld' rest' - hmode hfront'
      cases hfront.symm.trans hfront'
      have hdef := ((drainOnce_file_iff hfront hmode).mp hrun).1
      exact ⟨hdef, ((drainOnce_iterates hrun).within_iff hs.tallied hmax hw hmode hfront).mp hw'⟩
    · intro hsound
      cases hmode : s.log2File with
      | false =>
        refine ⟨_, drainOnce_console hfront hmode, fun file => ?_⟩
        rw [fileBytes, lines_append]
        exact (List.append_nil (lines file s.io)).symm ▸ hw file
      | true =>
        obtain ⟨hdef, hroom⟩ := hsound ld rest hpc hmode hfront
        have hrun := (drainOnce_file_iff hfront hmode).mpr ⟨hdef, Prod.mk.eta⟩
        have hiter := drainOnce_iterates hrun
        obtain ⟨hgoes, -⟩ := hiter.running hs.running hpc
        rw [hgoes] at hrun hiter
        exact ⟨_, hrun, (hiter.within_iff hs.tallied hmax hw hmode hfront).mpr hroom⟩
  · obtain ⟨s', hstep, hio⟩ := logStep_idle localtime tick hbusy
    refine iff_of_true ⟨s', hstep, hio ▸ hw⟩ fun ld rest hpc _ hfront => ?_
    exact absurd ⟨hpc, by simp [hfront]⟩ hbusy

/-- A step of a running logger is defined and keeps the files within the limit exactly when
it is sound. -/
theorem step_within_iff (hs : Rotates max s) (hmax : max < 2 ^ 31) (hw : WithinLimit max s.io) :
    (∃ s', logStep localtime s e = some s' ∧ WithinLimit max s'.io) ↔ Sound localtime max s e := by
  cases e with
  | initLogger pre log2file level filesize clock =>
    have hstep : logStep localtime s (.initLogger pre log2file level filesize clock) = some s := by
      rw [logStep, Option.map_eq_some_iff]
      refine ⟨((), s), returned_eq_some.mpr ?_, rfl⟩
      rw [initLogger, run_bind_ok (run_get s), if_neg (by simp [hs.running.stop])]
      rfl
    refine iff_of_true ⟨s, hstep, hw⟩ fun hstop => ?_
    rw [hs.running.stop] at hstop
    cases hstop
  | destroyLogger =>
    refine iff_of_true ⟨_, rfl, ?_⟩ trivial
    rw [destroyLogger, if_neg (by simp [hs.running.stop])]
    exact hw
  | setLogLevel level => exact iff_of_true ⟨_, rfl, hw⟩ trivial
  | writeLog level str =>
    refine iff_of_true ⟨_, rfl, ?_⟩ trivial
    rw [writeLog, if_neg (by simp [hs.running.stop])]
    split
    · exact hw
    · exact hw
  | putLog level str => exact iff_of_true ⟨_, rfl, hw⟩ trivial
  | run tick => exact run_within_iff hs hmax hw

end Step

theorem logStep_init_iff {pre : CString} {log2file : Bool} {level filesize clock : ℤ}
    (hstop : s.stop = true) :
    logStep localtime s (.initLogger pre log2file level filesize clock) = some s' ↔
      Sound localtime (filesize * 1024 * 1024) s
          (.initLogger pre log2file level filesize clock) ∧
        s' = s.started localtime pre log2file level filesize clock := by
  rw [logStep, Option.map_eq_some_iff, Sound, forall_prop_of_true hstop, and_assoc]
  constructor
  · rintro ⟨⟨u, r⟩, hr, rfl⟩
    exact (initLogger_stopped_iff hstop).mp (returned_eq_some.mp hr)
  · intro h
    exact ⟨((), s'), returned_eq_some.mpr ((initLogger_stopped_iff hstop).mpr h), rfl⟩

/-- After `InitLogger`, the steps that can be taken and keep the limit are the sound ones. -/
theorem Fresh.within_iff (hs : Fresh s) (pre : CString) (log2file : Bool) (level clock : ℤ)
    {filesize : ℤ} (hmax : filesize * 1024 * 1024 < 2 ^ 31) (es : List LogEvent) :
    (∃ s', Transition.run (logStep localtime)
        (s.started localtime pre log2file level filesize clock) es = some s' ∧
      WithinLimit (filesize * 1024 * 1024) s'.io) ↔
      Along (logStep localtime) (Sound localtime (filesize * 1024 * 1024))
        (s.started localtime pre log2file level filesize clock) es := by
  refine Along.iff_returns (I := Rotates (filesize * 1024 * 1024))
    (Q := fun r => WithinLimit (filesize * 1024 * 1024) r.io)
    (fun r e r' hr h => (hr.step h).1) ?_ (fun r e hr hw => step_within_iff hr hmax hw) ?_ ?_
  · intro r e r' hr h hw
    obtain ⟨io, hadded⟩ := (hr.step h).2
    rw [hadded] at hw
    exact hw.of_append
  · refine ⟨⟨rfl, rfl, fun _ => hs.queueOut⟩, rfl, fun file hfile => ?_⟩
    cases hs.fp.symm.trans hfile
  · have hio : (s.started localtime pre log2file level filesize clock).io = [] := hs.io
    intro file
    rw [hio]
    exact .inl (Nat.zero_le 1)

theorem lines_wroteTwo (str : CString) :
    lines sampleFile (wroteTwo str).io =
      [logText (stillClock 0) .sample, logText (stillClock 0) ⟨1, 1, str⟩] := by
  simp [lines, List.filterMap_cons, LogIo.line, wroteTwo]

theorem lines_wroteTwo_ne {other : Bytes} (h : sampleFile ≠ other) (str : CString) :
    lines other (wroteTwo str).io = [] := by
  simp [lines, LogIo.line, wroteTwo, h]

theorem fileBytes_wroteTwo (str : CString) :
    fileBytes sampleFile (wroteTwo str).io = 53 + str.bytes.length := by
  have hfirst : (logText (stillClock 0) .sample).length = 26 := length_logText_sample 0 _
  rw [fileBytes, lines_wroteTwo, lineBytes]
  simp only [List.map_cons, List.map_nil, List.sum_cons, List.sum_nil]
  rw [hfirst, length_logText_sample]
  omega

end KfkClient
