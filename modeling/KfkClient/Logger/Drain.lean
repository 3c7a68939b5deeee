import KfkClient.Logger.Returns

/-!
# The inner loop of `Run`

An iteration takes its entry out of `m_QueueOut` only when it wrote it to a file. On the
console, and when the file cannot be opened, the entry is still there for the next
iteration.
-/

namespace KfkClient

open CLib Transition

def LogIo.emitted : LogIo → Option LogData
  | .console ld _ => some ld
  | .wrote _ ld _ => some ld
  | .opened _ _ => none

/-- The loop test and an iteration. The flag is false once an iteration has left the loop. -/
def drainStep (localtime : ℤ → Tm) (p : Bool × LogThread) (tick : LogTick) :
    Option (Bool × LogThread) :=
  if p.1 = true ∧ p.2.queueOut ≠ [] then returned (drainOnce localtime tick) p.2 else none

/-- The loop after `n` iterations, if there are so many. -/
def drained (localtime : ℤ → Tm) (s : LogThread) (ticks : ℕ → LogTick) (n : ℕ) :
    Option (Bool × LogThread) :=
  Transition.run (drainStep localtime) (true, s) ((List.range n).map ticks)

/-- The loop makes progress: it ends, and no entry comes out twice. -/
structure Drains (localtime : ℤ → Tm) (s : LogThread) (ticks : ℕ → LogTick) : Prop where
  -- an iteration removes an entry or stops the logger
  progress : ∀ n m, drained localtime s ticks n = some (true, m) → m.queueOut ≠ [] →
    ∃ goes m', (drainOnce localtime (ticks n)).run m = .ok goes m' ∧
      (m'.queueOut = m.queueOut.tail ∨ goes = false ∧ m'.stop = true)
  ends : ∃ n ≤ s.queueOut.length, ∃ goes m, drained localtime s ticks n = some (goes, m) ∧
    (goes = false ∨ m.queueOut = [])
  once : ∀ n goes m, drained localtime s ticks n = some (goes, m) →
    ∃ l, l <+: s.queueOut ∧
      m.io.filterMap LogIo.emitted = s.io.filterMap LogIo.emitted ++ l

section Drain

variable {localtime : ℤ → Tm} {tick : LogTick} {s s' : LogThread} {ticks : ℕ → LogTick}

theorem drained_succ (n : ℕ) :
    drained localtime s ticks (n + 1) =
      (drained localtime s ticks n).bind fun p => drainStep localtime p (ticks n) := by
  rw [drained, List.range_succ, List.map_append, run_append]
  simp [drained, Transition.run]

theorem drainStep_eq_some {p : Bool × LogThread} {goes : Bool}
    (h : drainStep localtime p tick = some (goes, s')) :
    p.1 = true ∧ p.2.queueOut ≠ [] ∧ (drainOnce localtime tick).run p.2 = .ok goes s' := by
  rw [drainStep] at h
  split at h
  · next hin => exact ⟨hin.1, hin.2, returned_eq_some.mp h⟩
  · cases h

/-- An iteration makes progress exactly when it is one in file mode whose open, if it needs
one, succeeds. -/
theorem Iterates.progress_iff {goes : Bool} (h : Iterates localtime tick s goes s')
    {ld : LogData} {rest : List LogData} (hfront : s.queueOut = ld :: rest) :
    (s'.queueOut = s.queueOut.tail ∨ goes = false ∧ s'.stop = true) ↔
      s.log2File = true ∧ ((s.inMonth localtime tick).dirCreated = true →
        NeedsFile localtime tick s (logText (localtime tick.clock) ld).length →
          tick.opens = true) := by
  -- a list with an entry is not its own tail
  have hstuck : s.queueOut ≠ s.queueOut.tail := by
    intro heq
    have hlen := congrArg List.length heq
    rw [hfront, List.tail_cons, List.length_cons] at hlen
    omega
  cases h with
  | prints front mode => simp [hstuck, mode]
  | stops mode dir => simp [mode, dir]
  | fails front mode made needs closed frame dir queueOut fp io =>
    cases front.symm.trans hfront
    simp [queueOut, hstuck, made, needs, closed]
  | opens front mode made needs name opened frame dir queueOut fp size io =>
    simp [queueOut, front, mode, opened]
  | appends front mode made keeps frame dir queueOut was fp range size io =>
    cases front.symm.trans hfront
    simp [queueOut, front, mode, keeps]

/-- Before the iteration: in file mode nothing on its way is undefined, and a file that the
entry needs can be opened. -/
structure Writable (localtime : ℤ → Tm) (tick : LogTick) (s : LogThread) (ld : LogData) :
    Prop where
  mode : s.log2File = true
  defined : Defined localtime tick s (logText (localtime tick.clock) ld).length
  opens : (s.inMonth localtime tick).dirCreated = true →
    NeedsFile localtime tick s (logText (localtime tick.clock) ld).length → tick.opens = true

/-- An iteration returns and makes progress exactly when its entry is writable. -/
theorem drainOnce_progress_iff {ld : LogData} {rest : List LogData}
    (front : s.queueOut = ld :: rest) :
    (∃ goes s', (drainOnce localtime tick).run s = .ok goes s' ∧
      (s'.queueOut = s.queueOut.tail ∨ goes = false ∧ s'.stop = true)) ↔
      Writable localtime tick s ld := by
  constructor
  · rintro ⟨goes, s', hrun, hmoves⟩
    obtain ⟨mode, hopens⟩ := ((drainOnce_iterates hrun).progress_iff front).mp hmoves
    exact ⟨mode, ((drainOnce_file_iff front mode).mp hrun).1, hopens⟩
  · rintro ⟨mode, hdef, hopens⟩
    have hrun := (drainOnce_file_iff front mode).mpr ⟨hdef, Prod.mk.eta⟩
    exact ⟨_, _, hrun, ((drainOnce_iterates hrun).progress_iff front).mpr ⟨mode, hopens⟩⟩

/-- What comes out of an iteration in file mode is what it removes. -/
theorem Iterates.emitted_eq {goes : Bool} (h : Iterates localtime tick s goes s')
    (hmode : s.log2File = true) :
    ∃ l, s.queueOut = l ++ s'.queueOut ∧
      s'.io.filterMap LogIo.emitted = s.io.filterMap LogIo.emitted ++ l := by
  cases h with
  | prints front mode =>
    rw [hmode] at mode
    cases mode
  | stops mode dir => exact ⟨[], rfl, (List.append_nil _).symm⟩
  | fails front mode made needs closed frame dir queueOut fp io =>
    exact ⟨[], queueOut.symm, by rw [io, List.filterMap_append]; rfl⟩
  | @opens ld rest file _ front mode made needs name opened frame dir queueOut fp size io =>
    refine ⟨[ld], ?_, by rw [io, List.filterMap_append]; rfl⟩
    rw [front, queueOut]
    rfl
  | @appends ld rest file _ front mode made keeps frame dir queueOut was fp range size io =>
    refine ⟨[ld], ?_, by rw [io, List.filterMap_append]; rfl⟩
    rw [front, queueOut]
    rfl

/-- In the iterations that the loop comes to, the entry is writable. -/
def Writes (localtime : ℤ → Tm) (s : LogThread) (ticks : ℕ → LogTick) : Prop :=
  ∀ n m ld rest, drained localtime s ticks n = some (true, m) → m.queueOut = ld :: rest →
    Writable localtime (ticks n) m ld

/-- What the loop has done after `n` iterations: what came out is what is no longer there,
and every iteration that went on has removed an entry. -/
theorem Writes.after (hw : Writes localtime s ticks) {n : ℕ} {goes : Bool} {m : LogThread}
    (h : drained localtime s ticks n = some (goes, m)) :
    (goes = true → m.queueOut.length + n = s.queueOut.length) ∧
      ∃ l, s.queueOut = l ++ m.queueOut ∧
        m.io.filterMap LogIo.emitted = s.io.filterMap LogIo.emitted ++ l := by
  induction n generalizing goes m with
  | zero =>
    cases h
    exact ⟨fun _ => rfl, [], rfl, (List.append_nil _).symm⟩
  | succ n ih =>
    rw [drained_succ] at h
    obtain ⟨⟨b, r⟩, hr, hstep⟩ := Option.bind_eq_some_iff.mp h
    obtain ⟨rfl, hne, hrun⟩ := drainStep_eq_some hstep
    obtain ⟨hlen, l, hl, hio⟩ := ih hr
    obtain ⟨ld, rest, front⟩ := List.exists_cons_of_ne_nil hne
    have hwrite := hw n r ld rest hr front
    have hiter := drainOnce_iterates hrun
    obtain ⟨l', hl', hio'⟩ := hiter.emitted_eq hwrite.mode
    refine ⟨?_, l ++ l', by rw [hl, hl', List.append_assoc],
      by rw [hio', hio, List.append_assoc]⟩
    rintro rfl
    rcases (hiter.progress_iff front).mpr ⟨hwrite.mode, hwrite.opens⟩ with htail | ⟨hleft, -⟩
    · have hold := hlen rfl
      rw [front, List.length_cons] at hold
      rw [htail, front, List.tail_cons]
      omega
    · cases hleft

/-- Either there are `n` iterations, or the loop ended before. -/
theorem Writes.reaches (hw : Writes localtime s ticks) (n : ℕ) :
    (∃ p, drained localtime s ticks n = some p) ∨
      ∃ i < n, ∃ goes m, drained localtime s ticks i = some (goes, m) ∧
        (goes = false ∨ m.queueOut = []) := by
  induction n with
  | zero => exact .inl ⟨_, rfl⟩
  | succ n ih =>
    rcases ih with ⟨⟨goes, m⟩, hm⟩ | ⟨i, hi, hended⟩
    · by_cases hin : goes = true ∧ m.queueOut ≠ []
      · obtain ⟨rfl, hne⟩ := hin
        obtain ⟨ld, rest, front⟩ := List.exists_cons_of_ne_nil hne
        obtain ⟨goes', m', hrun, -⟩ := (drainOnce_progress_iff front).mpr (hw n m ld rest hm front)
        refine .inl ⟨(goes', m'), ?_⟩
        rw [drained_succ, hm, Option.bind_some, drainStep, if_pos ⟨rfl, hne⟩]
        exact returned_eq_some.mpr hrun
      · refine .inr ⟨n, Nat.lt_succ_self n, goes, m, hm, ?_⟩
        cases goes with
        | false => exact .inl rfl
        | true => exact .inr (by simpa using hin)
    · exact .inr ⟨i, hi.trans (Nat.lt_succ_self n), hended⟩

theorem Writes.drains (hw : Writes localtime s ticks) : Drains localtime s ticks where
  progress n m hm hne := by
    obtain ⟨ld, rest, front⟩ := List.exists_cons_of_ne_nil hne
    exact (drainOnce_progress_iff front).mpr (hw n m ld rest hm front)
  ends := by
    rcases hw.reaches s.queueOut.length with ⟨⟨goes, m⟩, hm⟩ | ⟨i, hi, hended⟩
    · refine ⟨s.queueOut.length, le_rfl, goes, m, hm, ?_⟩
      cases goes with
      | false => exact .inl rfl
      | true =>
        have hlen := (hw.after hm).1 rfl
        exact .inr (List.length_eq_zero_iff.mp (by omega))
    · exact ⟨i, hi.le, hended⟩
  once n goes m hm := by
    obtain ⟨-, l, hl, hio⟩ := hw.after hm
    exact ⟨l, ⟨m.queueOut, hl.symm⟩, hio⟩

/-- Whatever the clock reads and whichever opens succeed, the loop drains `m_QueueOut`
exactly when every iteration that it comes to finds its entry writable: the logger writes to
files, the names fit their buffers, the sum of the size test is an `int`, and the open
succeeds if one is needed. -/
theorem drain_progress_iff (localtime : ℤ → Tm) (s : LogThread) (ticks : ℕ → LogTick) :
    Drains localtime s ticks ↔ Writes localtime s ticks := by
  constructor
  · intro hdrains n m ld rest hm front
    exact (drainOnce_progress_iff front).mp (hdrains.progress n m hm (by simp [front]))
  · exact Writes.drains

/-! ### The console -/

/-- On the console the loop prints its first entry again and again. -/
theorem drained_console {ld : LogData} {rest : List LogData} (front : s.queueOut = ld :: rest)
    (mode : s.log2File = false) (n : ℕ) :
    ∃ m, drained localtime s ticks n = some (true, m) ∧ m.queueOut = s.queueOut ∧
      m.log2File = false ∧
      m.io.filterMap LogIo.emitted = s.io.filterMap LogIo.emitted ++ List.replicate n ld := by
  induction n with
  | zero => exact ⟨s, rfl, rfl, mode, (List.append_nil _).symm⟩
  | succ n ih =>
    obtain ⟨m, hm, hout, hmode, hio⟩ := ih
    have hfront : m.queueOut = ld :: rest := hout.trans front
    have hne : m.queueOut ≠ [] := by simp [hfront]
    refine ⟨{ m with io := m.io ++ [.console ld (logText (localtime (ticks n).clock) ld)] }, ?_,
      hout, hmode, ?_⟩
    · rw [drained_succ, hm, Option.bind_some, drainStep, if_pos ⟨rfl, hne⟩]
      exact returned_eq_some.mpr (drainOnce_console hfront hmode)
    · rw [List.filterMap_append, hio, List.append_assoc, List.replicate_succ']
      rfl

end Drain

/-- A logger that prints to the console and has taken over its first entry. -/
def consoleDraining : LogThread :=
  { LogThread.sample false with
    queueOut := [.sample]
    pc := .drain
    accepted := [.sample] }

/-- The loop of such a logger is still at that entry after every number of iterations, and
has printed it as often. -/
theorem console_loop_spins :
    Transition.run (logStep stillClock) LogThread.new
        [initSample false, .putLog 1 LogData.sample.strLog, .run .sample] =
        some consoleDraining ∧
      (∀ n, ∃ m, drained stillClock consoleDraining (fun _ => .sample) n = some (true, m) ∧
        m.queueOut = [.sample] ∧ m.io.filterMap LogIo.emitted = List.replicate n .sample) ∧
      ¬ Drains stillClock consoleDraining fun _ => .sample := by
  have hput : logStep stillClock (.sample false) (.putLog 1 LogData.sample.strLog) =
      some (putLog 1 LogData.sample.strLog (.sample false)) := rfl
  have hswap : logStep stillClock (putLog 1 LogData.sample.strLog (.sample false)) (.run .sample) =
      some consoleDraining := logStep_swap rfl rfl
  have hspins : ∀ n, ∃ m,
      drained stillClock consoleDraining (fun _ => .sample) n = some (true, m) ∧
        m.queueOut = [.sample] ∧ m.log2File = false ∧
        m.io.filterMap LogIo.emitted = List.replicate n .sample := drained_console rfl rfl
  refine ⟨?_, ?_, ?_⟩
  · rw [run_cons_some (logStep_initSample false), run_cons_some hput, run_cons_some hswap, run_nil]
  · intro n
    obtain ⟨m, hm, hout, -, hio⟩ := hspins n
    exact ⟨m, hm, hout, hio⟩
  · intro hdrains
    obtain ⟨n, -, goes, m, hm, hended⟩ := hdrains.ends
    obtain ⟨m', hm', hout, -⟩ := hspins n
    cases hm'.symm.trans hm
    rcases hended with hleft | hempty
    · cases hleft
    · rw [hempty] at hout
      cases hout

end KfkClient
