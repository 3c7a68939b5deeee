import KfkClient.Cache.Evict

/-!
# The client and its surroundings

`World` is what a process of the client and its restarts leave behind: one database
for each directory under `topic_cache`, the topics of the producer, and the messages
librdkafka has taken and not yet reported on. A receipt arrives from inside
`rd_kafka_poll`, which a call makes only when it is done with the store. The calls here
end before their polls, and a receipt is an event of its own behind them;
`KfkClient.Client.Polling` has the calls with their polls and shows that nothing is lost
by this.

## Main definitions

- `sendMsgWithCache`, `sendMsg`, `messageReceiptCbk`, `recover` — the client's calls
- `Event`, `step` — what can happen next
- `World.handOver` — what the producer makes of a message
- `step_sendMsgWithCache`, `step_receipt` and the like — what each event does
-/

namespace KfkClient

open CLib OrderedMap
open Std (ExtTreeMap)

/-- A topic name as Kafka admits it. -/
structure Topic where
  name : CString
  legal : KafkaLegal name

/-- The topic `t`. -/
def Topic.sample : Topic where
  name := ⟨[116], by decide⟩
  legal := by
    refine ⟨by decide, by decide, ?_, by decide⟩
    intro b hb
    rw [List.mem_singleton.mp hb]
    decide

def msgA : CString := ⟨[97], by decide⟩

def msgB : CString := ⟨[98], by decide⟩

/-- A message as `rd_kafka_produce` is given it and as its receipt shows it. -/
structure Wire where
  topic : Bytes
  payload : Bytes
  key : Option Bytes
  deriving DecidableEq, Repr

structure World (σ : Type) where
  dirs : ExtTreeMap Bytes σ
  -- `p_kafka_topics` of the running process
  topics : List Bytes
  inflight : List Wire
  -- every message `rd_kafka_produce` was ever called with
  produced : List Wire

def World.init {σ : Type} : World σ := ⟨∅, [], [], []⟩

/-- A process whose producer has the topic `t`. -/
def producing : World Map := ⟨∅, [[116]], [], []⟩

section Client

variable {σ : Type} (B : Opdb σ) (accepts : ℕ → Bool)

/-- The database of a topic, which `get_db` creates when it is first asked for. -/
def World.db (w : World σ) (topic : Bytes) : σ := (w.dirs[topic]?).getD B.fresh

def World.setDb (w : World σ) (topic : Bytes) (s : σ) : World σ :=
  { w with dirs := w.dirs.insert topic s }

/-- `get_db(topic)` and an operation on the database it returns. -/
def withDb {α : Type} (topic : Bytes) (x : Exec σ α) : Exec (World σ) α := fun w =>
  match x.run (w.db B topic) with
  | .ok a s => .ok a (w.setDb topic s)
  | .error e s => .error e (w.setDb topic s)

/-- `rd_kafka_produce`. Whether the local queue takes the message is not up to the
client: `accepts` answers the calls in their order. -/
def rdKafkaProduce (wire : Wire) : Exec (World σ) ℤ := fun w =>
  let w' := { w with produced := w.produced ++ [wire] }
  if accepts w.produced.length then .ok 0 { w' with inflight := w.inflight ++ [wire] }
  else .ok (-1) w'

/-- The key bytes of a message: none, or the 20 elements of `keystr`. -/
def keystr (nkey : ℤ) : Option Bytes := if nkey < 0 then none else some ((fmtLL 20 nkey).take 20)

/-- `Producer::send_msg` up to `rd_kafka_poll`, whose receipts are events of their own. -/
def producerSendMsg (message topic : Bytes) (nkey : ℤ) : Exec (World σ) ℤ := do
  let w ← get
  if topic ∉ w.topics then pure (-1)
  else if message.length = 0 then pure 0
  else
    let msgPayload ← strcpy (zeros (message.length + 1)) message
    rdKafkaProduce accepts ⟨topic, msgPayload.take message.length, keystr nkey⟩

/-- `Producer::add_produce_topic`. -/
def addProduceTopic (topic : Bytes) : Exec (World σ) ℤ := fun w =>
  if topic ∈ w.topics then .ok (-1) w
  else .ok 0 { w with topics := w.topics ++ [topic] }

def sendMsg (msg topic : CString) : Exec (World σ) Unit := do
  let _ ← producerSendMsg accepts msg.bytes topic.bytes (-1)

/-- `send_msg_with_cache` without the receipts that its poll and its flush serve. -/
def sendMsgWithCache (msg topic : CString) : Exec (World σ) ℤ := do
  let num ← withDb B topic.bytes (storeMsg B msg topic)
  let _ ← producerSendMsg accepts msg.bytes topic.bytes num
  pure 0

/-- The number a receipt is taken to be for; the null key gives the empty string. -/
def receiptNumber (key : Option Bytes) : ℤ := atol (key.getD [])

/-- `Producer::message_receipt_cbk`. -/
def messageReceiptCbk (wire : Wire) (err : Bool) : Exec (World σ) Unit :=
  if err then pure ()
  else do
    let _ ← withDb B wire.topic (sendMsgCallback B wire.topic (receiptNumber wire.key))

def getProducer (topic : Bytes) : Exec (World σ) Unit :=
  if topic.isEmpty then pure ()
  else do
    let _ ← addProduceTopic topic

/-- `node.first.find("~~zz") < 2`. -/
def skips (key : Bytes) : Bool :=
  match strFind [126, 126, 122, 122] key with
  | some i => i < 2
  | none => false

def reSendLoop (topic : Bytes) : List (Bytes × Bytes) → Exec (World σ) Unit
  | [] => pure ()
  | node :: rest => do
    if skips node.1 then pure ()
    else
      let _ ← producerSendMsg accepts node.2 topic (-1)
    reSendLoop topic rest

-- `re_send` from the point where it has its listing `v`
def reSendListed (topic : Bytes) (v : Map) : Exec (World σ) Unit := do
  getProducer topic
  reSendLoop accepts topic v.toList

def reSend (topic : Bytes) : Exec (World σ) Unit := do
  let (_, v) ← withDb B topic (B.cursor ∅)
  reSendListed accepts topic v

/-- `topic_cache`, as `directory_iterator` is given it. -/
def cacheDir : Bytes := [116, 111, 112, 105, 99, 95, 99, 97, 99, 104, 101]

-- the body of the loop over the directory entries
def recoverPath (path : Bytes) : Exec (World σ) Unit :=
  match strFind [47] path with
  | some i => reSend B accepts (path.drop (i + 1))
  | none => pure ()

/-- `recover`, for the order in which the iterator lists the directories. -/
def recover : List Bytes → Exec (World σ) Unit
  | [] => pure ()
  | name :: rest => do
    recoverPath B accepts (cacheDir ++ 47 :: name)
    recover rest

/-! ### Events -/

inductive Event where
  | addTopic (topic : Topic)
  | sendMsg (msg : CString) (topic : Topic)
  | sendMsgWithCache (msg : CString) (topic : Topic)
  -- the receipt of the message at a place among those in flight
  | receipt (i : ℕ) (err : Bool)
  -- the process ends and a new one starts
  | restart
  | recover (order : List Bytes)

def outcome {α : Type} (x : Exec (World σ) α) (w : World σ) : Option (World σ) :=
  match x.run w with
  | .ok _ w' => some w'
  | .error _ _ => none

/-- One event. There is no next state when the event cannot happen, or when the
call it makes does not return. -/
def step (w : World σ) : Event → Option (World σ)
  | .addTopic topic => outcome (addProduceTopic topic.name.bytes) w
  | .sendMsg msg topic => outcome (sendMsg accepts msg topic.name) w
  | .sendMsgWithCache msg topic => outcome (sendMsgWithCache B accepts msg topic.name) w
  | .receipt i err =>
    match w.inflight[i]? with
    | some wire =>
      outcome (messageReceiptCbk B wire err) { w with inflight := w.inflight.eraseIdx i }
    | none => none
  | .restart => some { w with topics := [], inflight := [] }
  | .recover order =>
    if order.Perm w.dirs.keys then outcome (recover B accepts order) w else none

/-! ### What the calls do -/

@[simp] theorem World.setDb_topics (w : World σ) (topic : Bytes) (s : σ) :
    (w.setDb topic s).topics = w.topics := rfl

@[simp] theorem World.setDb_inflight (w : World σ) (topic : Bytes) (s : σ) :
    (w.setDb topic s).inflight = w.inflight := rfl

@[simp] theorem World.setDb_produced (w : World σ) (topic : Bytes) (s : σ) :
    (w.setDb topic s).produced = w.produced := rfl

@[simp] theorem World.db_setDb_self (w : World σ) (topic : Bytes) (s : σ) :
    (w.setDb topic s).db B topic = s := by
  simp [World.db, World.setDb]

theorem World.db_setDb_of_ne (w : World σ) {topic other : Bytes} (s : σ) (h : topic ≠ other) :
    (w.setDb topic s).db B other = w.db B other := by
  rw [World.db, World.setDb, get_insert_of_ne _ h, World.db]

theorem World.setDb_setDb (w : World σ) (topic : Bytes) (s s' : σ) :
    (w.setDb topic s).setDb topic s' = w.setDb topic s' := by
  simp only [World.setDb]
  congr 1
  apply ExtTreeMap.ext_getElem?
  intro k
  rw [ExtTreeMap.getElem?_insert, ExtTreeMap.getElem?_insert,
    ExtTreeMap.getElem?_insert]
  split <;> rfl

theorem withDb_ok {α : Type} {topic : Bytes} {x : Exec σ α} {w : World σ} {a : α} {s : σ}
    (h : x.run (w.db B topic) = .ok a s) : (withDb B topic x).run w = .ok a (w.setDb topic s) := by
  show withDb B topic x w = _
  rw [withDb, h]

theorem withDb_eq_ok {α : Type} {topic : Bytes} {x : Exec σ α} {w w' : World σ} {a : α}
    (h : (withDb B topic x).run w = .ok a w') :
    ∃ s, x.run (w.db B topic) = .ok a s ∧ w' = w.setDb topic s := by
  change withDb B topic x w = _ at h
  rw [withDb] at h
  split at h
  · next s hs =>
      cases h
      exact ⟨s, hs, rfl⟩
  · cases h

/-- The payload of a message: its text, copied into a zeroed buffer of its length. -/
def payloadOf (message : Bytes) : Bytes :=
  (cstr message ++ 0 :: (zeros (message.length + 1)).drop ((cstr message).length + 1)).take
    message.length

/-- `strcpy` stops at the first NUL; what follows stays zero. -/
theorem payloadOf_eq (message : Bytes) :
    payloadOf message = cstr message ++ zeros (message.length - (cstr message).length) := by
  have hle := length_cstr_le message
  rw [payloadOf, drop_zeros, ← zeros_succ, List.take_append, List.take_of_length_le hle]
  congr 1
  rw [zeros, List.take_replicate, zeros]
  congr 1
  omega

theorem payloadOf_text (msg : CString) : payloadOf msg.bytes = msg.bytes := by
  rw [payloadOf, cstr_of_nul_free msg.nul_free, List.take_left]

/-- What `Producer::send_msg` makes of a message. -/
def World.handOver (w : World σ) (message topic : Bytes) (nkey : ℤ) : World σ :=
  if topic ∈ w.topics ∧ message ≠ [] then
    { w with
      inflight := w.inflight ++
        if accepts w.produced.length then [⟨topic, payloadOf message, keystr nkey⟩] else []
      produced := w.produced ++ [⟨topic, payloadOf message, keystr nkey⟩] }
  else w

@[simp] theorem World.handOver_dirs (w : World σ) (message topic : Bytes) (nkey : ℤ) :
    (w.handOver accepts message topic nkey).dirs = w.dirs := by
  rw [World.handOver]
  split <;> rfl

@[simp] theorem World.handOver_topics (w : World σ) (message topic : Bytes) (nkey : ℤ) :
    (w.handOver accepts message topic nkey).topics = w.topics := by
  rw [World.handOver]
  split <;> rfl

@[simp] theorem World.handOver_db (w : World σ) (message topic other : Bytes) (nkey : ℤ) :
    (w.handOver accepts message topic nkey).db B other = w.db B other := by
  rw [World.db, World.handOver_dirs, World.db]

theorem strcpy_message (message : Bytes) (s : σ) :
    (strcpy (zeros (message.length + 1)) message : Exec σ Bytes).run s =
      .ok (cstr message ++ 0 :: (zeros (message.length + 1)).drop ((cstr message).length + 1))
        s := by
  apply sprintfInto_ok
  have := length_cstr_le message
  simp only [length_zeros]
  omega

theorem producerSendMsg_run (message topic : Bytes) (nkey : ℤ) (w : World σ) :
    ∃ rc, (producerSendMsg accepts message topic nkey).run w =
      .ok rc (w.handOver accepts message topic nkey) := by
  rw [producerSendMsg, run_bind_ok (run_get w), World.handOver]
  by_cases ht : topic ∈ w.topics
  swap
  · exact ⟨-1, by simp [ht]⟩
  by_cases hm : message = []
  · exact ⟨0, by simp [ht, hm]⟩
  have hl : ¬ message.length = 0 := by simpa using hm
  rw [if_neg (not_not_intro ht), if_neg hl, run_bind_ok (strcpy_message message w),
    if_pos ⟨ht, hm⟩]
  change ∃ rc, rdKafkaProduce accepts ⟨topic, payloadOf message, keystr nkey⟩ w = _
  rw [rdKafkaProduce]
  cases accepts w.produced.length
  · exact ⟨-1, by simp⟩
  · exact ⟨0, by simp⟩

theorem strFind_cacheDir (name : Bytes) :
    strFind [47] (cacheDir ++ 47 :: name) = some cacheDir.length := strFind_byte (by decide) name

theorem drop_cacheDir (name : Bytes) :
    (cacheDir ++ 47 :: name).drop (cacheDir.length + 1) = name := by
  rw [List.drop_append]
  rfl

theorem recoverPath_name (name : Bytes) :
    recoverPath B accepts (cacheDir ++ 47 :: name) = reSend B accepts name := by
  rw [recoverPath, strFind_cacheDir]
  simp only
  rw [drop_cacheDir]

theorem outcome_eq_some {α : Type} {x : Exec (World σ) α} {w w' : World σ} :
    outcome x w = some w' ↔ ∃ a, x.run w = .ok a w' := by
  rw [outcome]
  cases x.run w with
  | ok a s => simp
  | error e s => simp

variable {B accepts} {w w' : World σ}

theorem step_addTopic {topic : Topic} (h : step B accepts w (.addTopic topic) = some w') :
    ∃ topics, w' = { w with topics := topics } ∧
      ∀ x, x ∈ topics ↔ x ∈ w.topics ∨ x = topic.name.bytes := by
  obtain ⟨rc, h⟩ := outcome_eq_some.mp h
  change addProduceTopic topic.name.bytes w = _ at h
  rw [addProduceTopic] at h
  split at h
  · next hm =>
      cases h
      refine ⟨w.topics, rfl, fun x => ⟨Or.inl, ?_⟩⟩
      rintro (hx | rfl)
      · exact hx
      · exact hm
  · cases h
    exact ⟨_, rfl, fun x => by simp⟩

theorem step_sendMsg {msg : CString} {topic : Topic}
    (h : step B accepts w (.sendMsg msg topic) = some w') :
    w' = w.handOver accepts msg.bytes topic.name.bytes (-1) := by
  obtain ⟨_, h⟩ := outcome_eq_some.mp h
  obtain ⟨rc, hrun⟩ := producerSendMsg_run accepts msg.bytes topic.name.bytes (-1) w
  rw [sendMsg, run_bind_ok hrun] at h
  cases h
  rfl

/-- A call that returns has stored its message and handed it over, and returns zero. -/
theorem sendMsgWithCache_eq_ok {msg topic : CString} {rc : ℤ} :
    (sendMsgWithCache B accepts msg topic).run w = .ok rc w' ↔
      rc = 0 ∧ ∃ num s, (storeMsg B msg topic).run (w.db B topic.bytes) = .ok num s ∧
        w' = (w.setDb topic.bytes s).handOver accepts msg.bytes topic.bytes num := by
  constructor
  · intro h
    rw [sendMsgWithCache] at h
    obtain ⟨num, m, hstore, h⟩ := run_bind_eq_ok h
    obtain ⟨s, hs, rfl⟩ := withDb_eq_ok B hstore
    obtain ⟨rc', hrun⟩ := producerSendMsg_run accepts msg.bytes topic.bytes num
      (w.setDb topic.bytes s)
    rw [run_bind_ok hrun] at h
    cases h
    exact ⟨rfl, num, s, hs, rfl⟩
  · rintro ⟨rfl, num, s, hs, rfl⟩
    obtain ⟨rc', hrun⟩ := producerSendMsg_run accepts msg.bytes topic.bytes num
      (w.setDb topic.bytes s)
    rw [sendMsgWithCache, run_bind_ok (withDb_ok B hs), run_bind_ok hrun]
    rfl

theorem step_sendMsgWithCache_iff {msg : CString} {topic : Topic} :
    step B accepts w (.sendMsgWithCache msg topic) = some w' ↔
      ∃ num s, (storeMsg B msg topic.name).run (w.db B topic.name.bytes) = .ok num s ∧
        w' = (w.setDb topic.name.bytes s).handOver accepts msg.bytes topic.name.bytes num := by
  rw [step, outcome_eq_some]
  constructor
  · rintro ⟨rc, h⟩
    exact (sendMsgWithCache_eq_ok.mp h).2
  · intro h
    exact ⟨0, sendMsgWithCache_eq_ok.mpr ⟨rfl, h⟩⟩

theorem step_receipt {i : ℕ} {err : Bool} (h : step B accepts w (.receipt i err) = some w') :
    ∃ wire, w.inflight[i]? = some wire ∧
      ((err = true ∧ w' = { w with inflight := w.inflight.eraseIdx i }) ∨
        (err = false ∧ ∃ rc s,
          (sendMsgCallback B wire.topic (receiptNumber wire.key)).run (w.db B wire.topic) =
            .ok rc s ∧
          w' = { w with inflight := w.inflight.eraseIdx i }.setDb wire.topic s)) := by
  rw [step] at h
  cases hw : w.inflight[i]? with
  | none =>
    rw [hw] at h
    cases h
  | some wire =>
    rw [hw] at h
    obtain ⟨_, h⟩ := outcome_eq_some.mp h
    refine ⟨wire, rfl, ?_⟩
    cases err with
    | true =>
      cases h
      exact .inl ⟨rfl, rfl⟩
    | false =>
      obtain ⟨rc, m, hdel, h⟩ := run_bind_eq_ok h
      obtain ⟨s, hs, rfl⟩ := withDb_eq_ok B hdel
      cases h
      exact .inr ⟨rfl, rc, s, hs, rfl⟩

/-- A successful receipt is processed whenever its delete returns. -/
theorem step_receipt_ok {i : ℕ} {wire : Wire} {rc : ℤ} {s : σ} (hw : w.inflight[i]? = some wire)
    (hs : (sendMsgCallback B wire.topic (receiptNumber wire.key)).run (w.db B wire.topic) =
      .ok rc s) :
    step B accepts w (.receipt i false) =
      some ({ w with inflight := w.inflight.eraseIdx i }.setDb wire.topic s) := by
  rw [step, hw]
  apply outcome_eq_some.mpr
  have hrun := withDb_ok B (w := { w with inflight := w.inflight.eraseIdx i }) hs
  refine ⟨(), ?_⟩
  rw [messageReceiptCbk, if_neg Bool.false_ne_true, run_bind_ok hrun]
  rfl

theorem step_restart (h : step B accepts w .restart = some w') :
    w' = { w with topics := [], inflight := [] } := by
  cases h
  rfl

theorem step_recover {order : List Bytes} (h : step B accepts w (.recover order) = some w') :
    order.Perm w.dirs.keys ∧ (recover B accepts order).run w = .ok () w' := by
  rw [step] at h
  split at h
  · next hp =>
      obtain ⟨_, h⟩ := outcome_eq_some.mp h
      exact ⟨hp, h⟩
  · cases h

end Client

/-! ### Keys on the wire -/

theorem keystr_number {i : ℕ} (h : IsNumber i) : keystr i = some (decPad 20 i) := by
  have h0 : ¬ (i : ℤ) < 0 := by omega
  rw [keystr, if_neg h0, fmtLL_of_lt h.lt_pow, List.take_of_length_le (by simp)]

/-- The receipt of a numbered message is read as that number. -/
theorem receiptNumber_keystr {i : ℕ} (h : IsNumber i) : receiptNumber (keystr i) = i := by
  rw [keystr_number h, receiptNumber, Option.getD_some]
  exact atol_decPad (by decide) h.lt_pow h

/-- The receipt of a message without a key is read as number zero. -/
theorem receiptNumber_none : receiptNumber none = 0 := rfl

end KfkClient
