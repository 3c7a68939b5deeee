import KfkClient.Client.World
import KfkClient.Lib.Transition

/-!
# Receipts served before a call returns

`Producer::send_msg` ends with `rd_kafka_poll`, and `send_msg_with_cache` with
`rd_kafka_flush`, which polls once without waiting. Either runs `message_receipt_cbk` for
messages that librdkafka has a report on, the one just produced among them.
`producerSendMsgPolling` and `sendMsgWithCachePolling` are the two functions to their end,
for any receipts that these polls serve.

## Main results

- `sendMsgPolling_is_run`, `sendMsgWithCachePolling_is_run` — such a call does what the
  call of `World` and receipts behind it do, one event after the other
- `serve_eq_ok` — what a receipt that was served has done
-/

namespace KfkClient

open CLib OrderedMap

/-- A receipt that librdkafka has ready: the place of its message among those in flight,
whether the delivery failed, and whether the store will fail the delete of the callback. -/
structure Receipt where
  place : ℕ
  err : Bool
  delFails : Bool

section Polling

-- `foretell` tells a store that can fail the outcome of its next operation
variable {σ : Type} (B : Opdb σ) (foretell : Bool → σ → σ) (accepts : ℕ → Bool)

/-- The world in which the callback of a receipt runs. -/
def World.reporting (w : World σ) (r : Receipt) (wire : Wire) : World σ :=
  let w' := { w with inflight := w.inflight.eraseIdx r.place }
  if r.err then w' else w'.setDb wire.topic (foretell r.delFails (w'.db B wire.topic))

def serve (r : Receipt) : Exec (World σ) Unit := fun w =>
  match w.inflight[r.place]? with
  | some wire => (messageReceiptCbk B wire r.err).run (w.reporting B foretell r wire)
  -- there is no such message, so there is nothing to report
  | none => .ok () w

/-- `rd_kafka_poll`, which serves receipts in the order in which they came. -/
def rdKafkaPoll : List Receipt → Exec (World σ) Unit
  | [] => pure ()
  | r :: rest => do
    serve B foretell r
    rdKafkaPoll rest

/-- `Producer::send_msg` with the poll at its end. -/
def producerSendMsgPolling (polled : List Receipt) (message topic : Bytes) (nkey : ℤ) :
    Exec (World σ) ℤ := do
  let w ← get
  if topic ∉ w.topics then pure (-1)
  else if message.length = 0 then pure 0
  else
    let msgPayload ← strcpy (zeros (message.length + 1)) message
    let f ← rdKafkaProduce accepts ⟨topic, msgPayload.take message.length, keystr nkey⟩
    rdKafkaPoll B foretell polled
    pure f

def sendMsgPolling (polled : List Receipt) (msg topic : CString) : Exec (World σ) Unit := do
  let _ ← producerSendMsgPolling B foretell accepts polled msg.bytes topic.bytes (-1)

/-- `send_msg_with_cache` with the receipts that its poll and its flush serve. -/
def sendMsgWithCachePolling (polled flushed : List Receipt) (msg topic : CString) :
    Exec (World σ) ℤ := do
  let num ← withDb B topic.bytes (storeMsg B msg topic)
  let _ ← producerSendMsgPolling B foretell accepts polled msg.bytes topic.bytes num
  rdKafkaPoll B foretell flushed
  pure 0

/-- The messages whose receipts a poll serves, each with its receipt. -/
def served : List Wire → List Receipt → List (Wire × Receipt)
  | _, [] => []
  | flight, r :: rest =>
    match flight[r.place]? with
    | some wire => (wire, r) :: served (flight.eraseIdx r.place) rest
    | none => served flight rest

/-! ### The call and the receipts behind it -/

theorem rdKafkaProduce_run (wire : Wire) (w : World σ) :
    ∃ rc, (rdKafkaProduce accepts wire).run w = .ok rc
      { w with
        inflight := w.inflight ++ if accepts w.produced.length then [wire] else []
        produced := w.produced ++ [wire] } := by
  show ∃ rc, rdKafkaProduce accepts wire w = _
  rw [rdKafkaProduce]
  cases accepts w.produced.length
  · exact ⟨-1, by simp⟩
  · exact ⟨0, by simp⟩

/-- The poll is reached when there is something to produce. -/
theorem producerSendMsgPolling_run (polled : List Receipt) (message topic : Bytes) (nkey : ℤ)
    (w : World σ) :
    ∃ rc, (producerSendMsgPolling B foretell accepts polled message topic nkey).run w =
      (do
        rdKafkaPoll B foretell (if topic ∈ w.topics ∧ message ≠ [] then polled else [])
        pure rc).run (w.handOver accepts message topic nkey) := by
  rw [producerSendMsgPolling, run_bind_ok (run_get w), World.handOver]
  by_cases ht : topic ∈ w.topics
  swap
  · exact ⟨-1, by rw [if_pos ht, if_neg fun h => ht h.1, if_neg fun h => ht h.1]; rfl⟩
  by_cases hm : message = []
  · refine ⟨0, ?_⟩
    rw [if_neg (not_not_intro ht), if_pos (by rw [hm]; rfl), if_neg fun h => h.2 hm,
      if_neg fun h => h.2 hm]
    rfl
  have hl : ¬ message.length = 0 := by simpa using hm
  rw [if_neg (not_not_intro ht), if_neg hl, run_bind_ok (strcpy_message message w),
    if_pos ⟨ht, hm⟩, if_pos ⟨ht, hm⟩]
  obtain ⟨rc, hrun⟩ := rdKafkaProduce_run accepts ⟨topic, payloadOf message, keystr nkey⟩ w
  exact ⟨rc, run_bind_ok hrun⟩

variable {B foretell accepts} {w w' : World σ}

theorem rdKafkaPoll_append (rs rs' : List Receipt) :
    rdKafkaPoll B foretell (rs ++ rs') =
      (do rdKafkaPoll B foretell rs; rdKafkaPoll B foretell rs') := by
  induction rs with
  | nil => rfl
  | cons r rs ih => rw [List.cons_append, rdKafkaPoll, rdKafkaPoll, bind_assoc, ih]

/-- A call that returns has stored its message, handed it over and served the receipts of its
polls. -/
theorem sendMsgWithCachePolling_eq_ok {polled flushed : List Receipt} {msg topic : CString}
    {rc : ℤ} :
    (sendMsgWithCachePolling B foretell accepts polled flushed msg topic).run w = .ok rc w' ↔
      rc = 0 ∧ ∃ num s, (storeMsg B msg topic).run (w.db B topic.bytes) = .ok num s ∧
        (rdKafkaPoll B foretell
          ((if topic.bytes ∈ w.topics ∧ msg.bytes ≠ [] then polled else []) ++ flushed)).run
            ((w.setDb topic.bytes s).handOver accepts msg.bytes topic.bytes num) = .ok () w' := by
  constructor
  · intro h
    rw [sendMsgWithCachePolling] at h
    obtain ⟨num, m, hstore, h⟩ := run_bind_eq_ok h
    obtain ⟨s, hs, rfl⟩ := withDb_eq_ok B hstore
    obtain ⟨f, hrun⟩ := producerSendMsgPolling_run B foretell accepts polled msg.bytes topic.bytes
      num (w.setDb topic.bytes s)
    rw [World.setDb_topics] at hrun
    obtain ⟨f', m, hsend, h⟩ := run_bind_eq_ok h
    rw [hrun] at hsend
    obtain ⟨_, m', hpoll, hm⟩ := run_bind_eq_ok hsend
    cases hm
    obtain ⟨_, m', hflush, h⟩ := run_bind_eq_ok h
    cases h
    refine ⟨rfl, num, s, hs, ?_⟩
    rw [rdKafkaPoll_append, run_bind_ok hpoll, hflush]
  · rintro ⟨rfl, num, s, hs, hserved⟩
    rw [rdKafkaPoll_append] at hserved
    obtain ⟨_, m, hpoll, hflush⟩ := run_bind_eq_ok hserved
    obtain ⟨f, hrun⟩ := producerSendMsgPolling_run B foretell accepts polled msg.bytes topic.bytes
      num (w.setDb topic.bytes s)
    rw [World.setDb_topics] at hrun
    have hsend : (producerSendMsgPolling B foretell accepts polled msg.bytes topic.bytes num).run
        (w.setDb topic.bytes s) = .ok f m := by
      rw [hrun]
      exact run_bind_ok hpoll
    rw [sendMsgWithCachePolling, run_bind_ok (withDb_ok B hs), run_bind_ok hsend,
      run_bind_ok hflush]
    rfl

theorem serve_eq_ok {r : Receipt} {wire : Wire} (hw : w.inflight[r.place]? = some wire)
    (h : (serve B foretell r).run w = .ok () w') :
    (r.err = true ∧ w' = { w with inflight := w.inflight.eraseIdx r.place }) ∨
      (r.err = false ∧ ∃ rc s,
        (sendMsgCallback B wire.topic (receiptNumber wire.key)).run
          (foretell r.delFails (w.db B wire.topic)) = .ok rc s ∧
        w' = { w with inflight := w.inflight.eraseIdx r.place }.setDb wire.topic s) := by
  change serve B foretell r w = _ at h
  rw [serve, hw] at h
  simp only [World.reporting] at h
  cases herr : r.err with
  | true =>
    rw [herr, if_pos rfl] at h
    cases h
    exact .inl ⟨rfl, rfl⟩
  | false =>
    rw [herr, if_neg Bool.false_ne_true, messageReceiptCbk, if_neg Bool.false_ne_true] at h
    obtain ⟨rc, m, hdel, h⟩ := run_bind_eq_ok h
    obtain ⟨s, hs, rfl⟩ := withDb_eq_ok B hdel
    rw [World.db_setDb_self] at hs
    cases h
    exact .inr ⟨rfl, rc, s, hs, World.setDb_setDb _ _ _ _⟩

theorem serve_eq_ok_of_none {r : Receipt} (hw : w.inflight[r.place]? = none)
    (h : (serve B foretell r).run w = .ok () w') : w' = w := by
  change serve B foretell r w = _ at h
  rw [serve, hw] at h
  cases h
  rfl

/-- On a store that does not fail, a receipt served is a receipt event. -/
theorem serve_is_receipt (accepts : ℕ → Bool) {r : Receipt}
    (h : (serve B (fun _ s => s) r).run w = .ok () w') :
    w' = w ∨ step B accepts w (.receipt r.place r.err) = some w' := by
  cases hw : w.inflight[r.place]? with
  | none => exact .inl (serve_eq_ok_of_none hw h)
  | some wire =>
    right
    rcases serve_eq_ok hw h with ⟨herr, rfl⟩ | ⟨herr, rc, s, hs, rfl⟩
    · rw [step, hw, herr]
      rfl
    · rw [herr]
      exact step_receipt_ok hw hs

theorem rdKafkaPoll_is_run (accepts : ℕ → Bool) {rs : List Receipt}
    (h : (rdKafkaPoll B (fun _ s => s) rs).run w = .ok () w') :
    ∃ es : List Event, (∀ e ∈ es, ∃ i err, e = .receipt i err) ∧
      Transition.run (step B accepts) w es = some w' := by
  induction rs generalizing w with
  | nil =>
    cases h
    exact ⟨[], by simp, rfl⟩
  | cons r rs ih =>
    rw [rdKafkaPoll] at h
    obtain ⟨_, m, hserve, h⟩ := run_bind_eq_ok h
    obtain ⟨es, hes, hrun⟩ := ih h
    rcases serve_is_receipt accepts hserve with rfl | hstep
    · exact ⟨es, hes, hrun⟩
    · refine ⟨.receipt r.place r.err :: es, ?_, ?_⟩
      · rintro e (_ | ⟨_, he⟩)
        · exact ⟨_, _, rfl⟩
        · exact hes e he
      · rw [Transition.run_cons_some hstep, hrun]

theorem sendMsgPolling_is_run {polled : List Receipt} {msg : CString} {t : Topic}
    (h : (sendMsgPolling B (fun _ s => s) accepts polled msg t.name).run w = .ok () w') :
    ∃ es : List Event, (∀ e ∈ es, ∃ i err, e = .receipt i err) ∧
      Transition.run (step B accepts) w (.sendMsg msg t :: es) = some w' := by
  rw [sendMsgPolling] at h
  obtain ⟨f, m, hsend, h⟩ := run_bind_eq_ok h
  cases h
  obtain ⟨rc, hrun⟩ := producerSendMsgPolling_run B (fun _ s => s) accepts polled msg.bytes
    t.name.bytes (-1) w
  rw [hrun] at hsend
  obtain ⟨_, m', hpoll, hm⟩ := run_bind_eq_ok hsend
  cases hm
  obtain ⟨es, hes, hrun'⟩ := rdKafkaPoll_is_run accepts hpoll
  refine ⟨es, hes, ?_⟩
  have hstep : step B accepts w (.sendMsg msg t) =
      some (w.handOver accepts msg.bytes t.name.bytes (-1)) := by
    obtain ⟨rc', hrc⟩ := producerSendMsg_run accepts msg.bytes t.name.bytes (-1) w
    rw [step, outcome_eq_some]
    exact ⟨(), by rw [sendMsg, run_bind_ok hrc]; rfl⟩
  rw [Transition.run_cons_some hstep, hrun']

theorem sendMsgWithCachePolling_is_run {polled flushed : List Receipt} {msg : CString} {t : Topic}
    {rc : ℤ}
    (h : (sendMsgWithCachePolling B (fun _ s => s) accepts polled flushed msg t.name).run w =
      .ok rc w') :
    ∃ es : List Event, (∀ e ∈ es, ∃ i err, e = .receipt i err) ∧
      Transition.run (step B accepts) w (.sendMsgWithCache msg t :: es) = some w' := by
  obtain ⟨-, num, s, hs, hpoll⟩ := sendMsgWithCachePolling_eq_ok.mp h
  obtain ⟨es, hes, hrun⟩ := rdKafkaPoll_is_run accepts hpoll
  refine ⟨es, hes, ?_⟩
  rw [Transition.run_cons_some (step_sendMsgWithCache_iff.mpr ⟨num, s, hs, rfl⟩), hrun]

end Polling

end KfkClient
