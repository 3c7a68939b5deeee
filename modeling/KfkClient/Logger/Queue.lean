import KfkClient.Logger.Returns

/-!
# The entries of the logger

An entry waits in `m_Queue`, then in `m_QueueOut`, and goes from there to a file. `held`
lists them in the order in which they leave. Only `_PutLog` on a full queue takes one out
of that order.
-/

namespace KfkClient

open CLib Transition

def LogIo.written : LogIo → Option LogData
  | .wrote _ ld _ => some ld
  | _ => none

/-- The entries in the files and in the two queues. -/
def held (s : LogThread) : List LogData := s.io.filterMap LogIo.written ++ s.queueOut ++ s.queue

variable {localtime : ℤ → Tm} {tick : LogTick} {s s' : LogThread} {e : LogEvent}

theorem held_append {io : List LogIo} (hio : s'.io = s.io ++ io)
    (hout : s.queueOut = io.filterMap LogIo.written ++ s'.queueOut) (hq : s'.queue = s.queue) :
    held s' = held s := by
  rw [held, held, hio, hout, hq, List.filterMap_append]
  simp only [List.append_assoc]

theorem Iterates.held_eq {goes : Bool} (h : Iterates localtime tick s goes s') :
    held s' = held s ∧ s'.accepted = s.accepted ∧ s'.queue = s.queue := by
  cases h with
  | prints front mode => exact ⟨held_append rfl rfl rfl, rfl, rfl⟩
  | stops mode dir => exact ⟨rfl, rfl, rfl⟩
  | fails front mode made needs closed frame dir queueOut fp io =>
    exact ⟨held_append io queueOut.symm frame.queue, frame.accepted, frame.queue⟩
  | opens front mode made needs name opened frame dir queueOut fp size io =>
    refine ⟨held_append io ?_ frame.queue, frame.accepted, frame.queue⟩
    rw [front, queueOut]
    rfl
  | appends front mode made keeps frame dir queueOut was fp range size io =>
    refine ⟨held_append io ?_ frame.queue, frame.accepted, frame.queue⟩
    rw [front, queueOut]
    rfl

/-- Every event but a put leaves the entries and their order alone. -/
theorem Moves.held_cases (h : Moves localtime s e s') :
    held s' = held s ∧ s'.accepted = s.accepted ∧ s'.queue.length ≤ s.queue.length ∨
      ∃ level str, s' = putLog level str s := by
  cases h with
  | quiet no queue queueOut accepted io fp =>
    exact .inl ⟨by rw [held, held, io, queueOut, queue], accepted, by rw [queue]⟩
  | puts put => exact .inr ⟨_, _, rfl⟩
  | swaps empty =>
    refine .inl ⟨?_, rfl, Nat.zero_le _⟩
    rw [held, held, empty]
    simp
  | iterates h =>
    obtain ⟨hheld, hacc, hq⟩ := h.held_eq
    exact .inl ⟨hheld, hacc, by rw [hq]⟩

/-! ### Puts -/

/-- What `_PutLog` was given for an entry. -/
def LogData.given (ld : LogData) : ℤ × CString := (ld.nLevel, ld.strLog)

/-- An event that calls `_PutLog` makes an entry of what it gives, and no other event makes
one. -/
theorem Moves.accepted_given (h : Moves localtime s e s') :
    s'.accepted.map LogData.given = s.accepted.map LogData.given ++ (e.puts s).toList := by
  cases h with
  | quiet no queue queueOut accepted io fp => rw [accepted, no, Option.toList_none, List.append_nil]
  | puts put => rw [putLog, List.map_append, put, Option.toList_some, List.map_singleton,
      LogData.given]
  | swaps empty => exact (List.append_nil _).symm
  | iterates h =>
    rw [h.held_eq.2.1]
    exact (List.append_nil _).symm

theorem held_putLog (level : ℤ) (str : CString) (s : LogThread) :
    held (putLog level str s) = s.io.filterMap LogIo.written ++ s.queueOut ++
      (if 20000 < s.queue.length then s.queue.tail else s.queue) ++
        [⟨s.accepted.length, level, str⟩] := by
  rw [held, putLog, List.append_assoc, List.append_assoc, List.append_assoc]

/-- An entry that a put takes out was the first of a full queue. -/
theorem held_putLog_of_mem {level : ℤ} {str : CString} {ld : LogData} (h : ld ∈ held s)
    (hout : ld ∉ held (putLog level str s)) :
    s.queue.head? = some ld ∧ 20000 < s.queue.length := by
  rw [held_putLog] at hout
  simp only [List.mem_append, not_or] at hout
  obtain ⟨⟨⟨hw, ho⟩, hq⟩, -⟩ := hout
  have hmem : ld ∈ s.queue := by
    simp only [held, List.mem_append] at h
    tauto
  split at hq
  swap
  · exact absurd hmem hq
  next hfull =>
    refine ⟨?_, hfull⟩
    cases hqueue : s.queue with
    | nil =>
      rw [hqueue] at hmem
      cases hmem
    | cons first rest =>
      rw [hqueue] at hmem hq
      rcases List.mem_cons.mp hmem with rfl | hrest
      · rfl
      · exact absurd hrest hq

/-! ### Every run -/

/-- The entries are those accepted, in their order, without the dropped ones. -/
structure InOrder (s : LogThread) : Prop where
  reached : Fresh s ∨ Running s
  sublist : (held s).Sublist s.accepted
  serial : s.accepted.map LogData.serial = List.range s.accepted.length
  bounded : s.queue.length ≤ 20001

theorem inOrder_new : InOrder LogThread.new :=
  ⟨.inl fresh_new, List.nil_sublist _, rfl, Nat.zero_le _⟩

/-- No entry is made twice: its number is the place at which it was put. -/
theorem InOrder.nodup (h : InOrder s) : s.accepted.Nodup := by
  refine List.Nodup.of_map LogData.serial ?_
  rw [h.serial]
  exact List.nodup_range

theorem InOrder.put (h : InOrder s) {level : ℤ} {str : CString}
    (hr : Fresh (putLog level str s) ∨ Running (putLog level str s)) :
    InOrder (putLog level str s) := by
  have hsub : (if 20000 < s.queue.length then s.queue.tail else s.queue).Sublist s.queue := by
    split
    · exact List.tail_sublist _
    · exact List.Sublist.refl _
  have hlen : (if 20000 < s.queue.length then s.queue.tail else s.queue).length ≤ 20000 := by
    have := h.bounded
    split
    · rw [List.length_tail]
      omega
    · omega
  refine ⟨hr, ?_, ?_, ?_⟩
  · rw [held_putLog]
    exact (((List.Sublist.refl _).append hsub).trans h.sublist).append (.refl _)
  · rw [putLog, List.map_append, h.serial, List.length_append, List.length_singleton,
      List.range_succ, List.map_singleton]
  · rw [putLog, List.length_append, List.length_singleton]
    omega

theorem logStep_inOrder (h : InOrder s) (hs : logStep localtime s e = some s') : InOrder s' := by
  obtain ⟨hr, hmoves⟩ := reached_moves h.reached hs
  rcases hmoves.held_cases with ⟨hheld, hacc, hlen⟩ | ⟨level, str, rfl⟩
  · exact ⟨hr, by rw [hheld, hacc]; exact h.sublist, by rw [hacc]; exact h.serial,
      hlen.trans h.bounded⟩
  · exact h.put hr

theorem run_inOrder {es : List LogEvent}
    (hrun : Transition.run (logStep localtime) LogThread.new es = some s) : InOrder s :=
  run_invariant (fun _ _ _ hI hs => logStep_inOrder hI hs) inOrder_new hrun

/-- The accepted entries are those of the calls of `_PutLog` in the run, in the order of the
calls. -/
theorem run_accepted {es : List LogEvent}
    (hrun : Transition.run (logStep localtime) LogThread.new es = some s) :
    s.accepted.map LogData.given =
        outputs (logStep localtime) (fun s e => e.puts s) LogThread.new es ∧
      s.accepted.map LogData.serial = List.range s.accepted.length := by
  refine ⟨?_, (run_inOrder hrun).serial⟩
  exact run_outputs (I := InOrder) (f := fun s => s.accepted.map LogData.given)
    (fun _ _ _ hI hs => logStep_inOrder hI hs)
    (fun _ _ _ hI hs => (reached_moves hI.reached hs).2.accepted_given) inOrder_new hrun

/-- After every run of the logger, whatever threads put and whichever way the steps of `Run`
fall between their calls, the files and the two queues hold the accepted entries in the
order of their acceptance, each at most once. An accepted entry that is not there was the
first of an `m_Queue` of more than 20000 entries when a later one was put. -/
theorem log_queue_keeps_order (localtime : ℤ → Tm) (s : LogThread) (es : List LogEvent)
    (hrun : Transition.run (logStep localtime) LogThread.new es = some s) :
    (s.io.filterMap LogIo.written ++ s.queueOut ++ s.queue).Sublist s.accepted ∧
      (s.io.filterMap LogIo.written ++ s.queueOut ++ s.queue).Nodup ∧ s.queue.length ≤ 20001 ∧
      ∀ ld ∈ s.accepted, ld ∉ s.io.filterMap LogIo.written ++ s.queueOut ++ s.queue →
        ∃ es₁ e es₂ m m' later, es = es₁ ++ e :: es₂ ∧
          Transition.run (logStep localtime) LogThread.new es₁ = some m ∧
          logStep localtime m e = some m' ∧ m.queue.head? = some ld ∧ 20000 < m.queue.length ∧
          m'.accepted = m.accepted ++ [later] := by
  have hs := run_inOrder hrun
  refine ⟨hs.sublist, hs.nodup.sublist hs.sublist, hs.bounded, ?_⟩
  intro ld hacc hmissing
  -- the step after which the entry is missing
  have hnew : ¬ (ld ∈ LogThread.new.accepted ∧ ld ∉ held LogThread.new) := by
    rintro ⟨hld, -⟩
    cases hld
  obtain ⟨es₁, e, es₂, m, m', rfl, hpre, hstep, hno, hacc', hmissing'⟩ :=
    exists_changing_step (R := fun r => ld ∈ r.accepted ∧ ld ∉ held r) hrun hnew ⟨hacc, hmissing⟩
  have hm := run_inOrder hpre
  rcases (reached_moves hm.reached hstep).2.held_cases with ⟨hheld, hsame, -⟩ | ⟨level, str, rfl⟩
  · rw [hheld] at hmissing'
    rw [hsame] at hacc'
    exact absurd ⟨hacc', hmissing'⟩ hno
  · have hold : ld ∈ m.accepted := by
      rcases List.mem_append.mp hacc' with hold | hlast
      · exact hold
      · -- the entry that was put is there
        refine absurd ?_ hmissing'
        rw [held_putLog]
        exact List.mem_append_right _ hlast
    have hthere : ld ∈ held m := by
      by_contra hgone
      exact hno ⟨hold, hgone⟩
    obtain ⟨hfirst, hfull⟩ := held_putLog_of_mem hthere hmissing'
    exact ⟨es₁, e, es₂, m, _, _, rfl, hpre, hstep, hfirst, hfull, rfl⟩

theorem two_entries_in_order :
    Transition.run (logStep stillClock) LogThread.new
        (initSample true :: twoEntries LogData.sample.strLog) =
        some (wroteTwo LogData.sample.strLog) ∧
      ((wroteTwo LogData.sample.strLog).io.filterMap LogIo.written ++
        (wroteTwo LogData.sample.strLog).queueOut ++
        (wroteTwo LogData.sample.strLog).queue).Sublist
          [.sample, ⟨1, 1, LogData.sample.strLog⟩] := by
  have htwo : Transition.run (logStep stillClock) (.sample true)
      (twoEntries LogData.sample.strLog) = some (wroteTwo LogData.sample.strLog) :=
    run_twoEntries (by decide)
  have hrun := (run_cons_some (logStep_initSample true) _).trans htwo
  exact ⟨hrun, (log_queue_keeps_order stillClock _ _ hrun).1⟩

end KfkClient
