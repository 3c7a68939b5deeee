import KfkClient.Lib.CString
import KfkClient.Lib.OrderedMap

/-!
# The consumer

`Consumer.cpp` over any librdkafka. A `Kafka` answers `rd_kafka_consume_start` and
`rd_kafka_consume` from a state `β` and from what its surroundings did before the call,
an `ι`. Both loops of the consumer poll every topic once in a round, so a round is given
as one `ι` for each topic.

## Main definitions

- `Consumer`, `addConsumeTopic` — the topics to read and where to start
- `getEofLoop`, `getEofCallback` — the probe for the last offset of every topic
- `startConsumer` — the probe, the start of every topic and the rounds after it
-/

namespace KfkClient

open CLib OrderedMap
open Std (ExtTreeMap)

/-- `RD_KAFKA_OFFSET_TAIL_BASE`. -/
def offsetTailBase : ℤ := -2000

/-- What `rd_kafka_consume` returns of a message or an event. Its topic is the one that
was polled. -/
structure Rkmessage where
  err : ℤ
  payload : Bytes
  offset : ℤ
  deriving DecidableEq, Repr

/-- The arguments of one `CgoConsumerCallback`. -/
structure CgoCall where
  topic : Bytes
  offset : ℤ
  msg : Bytes
  len : ℤ
  code : ℕ
  deriving DecidableEq, Repr

/-- `topic_eof_offset`. -/
abbrev EofTable := ExtTreeMap Bytes ℤ

structure Consumer where
  -- the offset in `c_kafka_topics`, for every topic
  topics : ExtTreeMap Bytes ℤ
  eof : EofTable
  hashcode : ℕ

def createConsumer (hashcode : ℕ) : Consumer := ⟨∅, ∅, hashcode⟩

/-- `Consumer::add_consume_topic`. -/
def addConsumeTopic (topic : Bytes) (offset : ℤ) (c : Consumer) : ℤ × Consumer :=
  if topic ∈ c.topics then (-1, c)
  else (0, { c with topics := c.topics.insert topic offset, eof := c.eof.insert topic (-1) })

/-- A consumer after calls of `add_consume_topic`. -/
def subscribed (hashcode : ℕ) (subs : List (Bytes × ℤ)) : Consumer :=
  subs.foldl (fun c sub => (addConsumeTopic sub.1 sub.2 c).2) (createConsumer hashcode)

/-- `Consumer::get_eof_callback`. That `err` is not zero is logged; the event is then
treated as a message is. -/
def getEofCallback (topicName : Bytes) (rkmessage : Rkmessage) (eof : EofTable) : EofTable :=
  if eof.getD topicName 0 < 0 then eof.insert topicName rkmessage.offset
  else eof.insertIfNew topicName 0

/-- The call that `Consumer::consumer_callback` makes. Here too `err` is only logged. -/
def consumerCallback (hashcode : ℕ) (topicName : Bytes) (rkmessage : Rkmessage) : CgoCall where
  topic := topicName
  offset := rkmessage.offset
  msg := rkmessage.payload
  len := toInt rkmessage.payload.length
  code := hashcode

theorem consumerCallback_len (hashcode : ℕ) (topicName : Bytes) (m : Rkmessage) :
    (consumerCallback hashcode topicName m).len = toInt m.payload.length := by
  rw [consumerCallback]

structure Kafka (β ι : Type) where
  /-- `rd_kafka_consume_start(topic, partition, offset)`; `none` is the result -1 -/
  consumeStart : Bytes → ℕ → ℤ → ι → β → Option β
  /-- `rd_kafka_consume(topic, partition, 1)` -/
  consume : Bytes → ℕ → ι → β → Option Rkmessage × β

section Client

variable {β ι : Type} (K : Kafka β ι)

def startAll (tick : Bytes → ι) : List (Bytes × ℤ) → β → Option β
  | [], b => some b
  | (topic, offset) :: rest, b =>
    (K.consumeStart topic 0 offset (tick topic) b).bind (startAll tick rest)

/-- One round over the topics: every message that is there goes to the callback. -/
def pollAll {τ : Type} (callback : Bytes → Rkmessage → τ → τ) (tick : Bytes → ι) :
    List Bytes → τ → β → τ × β
  | [], s, b => (s, b)
  | topic :: rest, s, b =>
    match K.consume topic 0 (tick topic) b with
    | (some rkmessage, b') => pollAll callback tick rest (callback topic rkmessage s) b'
    | (none, b') => pollAll callback tick rest s b'

-- `isRun_get_eof` after a round
def someUnknown (eof : EofTable) : Bool := eof.toList.any (·.2 < 0)

/-- The loop of `Consumer::get_eof`. When it ends the rounds it has not used are left. -/
def getEofLoop (topics : List Bytes) :
    List (Bytes → ι) → EofTable → β → EofTable × β × Option (List (Bytes → ι))
  | [], eof, b => (eof, b, none)
  | tick :: rest, eof, b =>
    let (eof, b) := pollAll K getEofCallback tick topics eof b
    if someUnknown eof then getEofLoop topics rest eof b else (eof, b, some rest)

/-- Where `start_consumer` starts a topic. -/
def startOffset (eof : EofTable) (topic : Bytes) (offset : ℤ) : ℤ :=
  if offset > eof.getD topic 0 then offsetTailBase else offset

def startOffsets (c : Consumer) (eof : EofTable) : List (Bytes × ℤ) :=
  c.topics.toList.map fun sub => (sub.1, startOffset eof sub.1 sub.2)

/-- The rounds of the loop `while (isRunning)`, which no call ends. -/
def consumeLoop (c : Consumer) : List (Bytes → ι) → List CgoCall → β → List CgoCall × β
  | [], calls, b => (calls, b)
  | tick :: rest, calls, b =>
    let (calls, b) := pollAll K (fun topic rkmessage calls =>
      calls ++ [consumerCallback c.hashcode topic rkmessage]) tick c.topics.keys calls b
    consumeLoop c rest calls b

/-- How far `start_consumer` has come. -/
inductive Progress (β : Type) where
  -- `exit(1)`, because a start failed
  | exited
  -- `get_eof` still polls
  | probing (eof : EofTable) (b : β)
  | consuming (eof : EofTable) (starts : List (Bytes × ℤ)) (calls : List CgoCall) (b : β)

/-- `Consumer::start_consumer`, for the rounds its two loops have polled. -/
def startConsumer (c : Consumer) (tick tick' : Bytes → ι) (rounds : List (Bytes → ι)) (b : β) :
    Progress β :=
  match startAll K tick (c.topics.keys.map fun topic => (topic, offsetTailBase - 1)) b with
  | none => .exited
  | some b =>
    match getEofLoop K c.topics.keys rounds c.eof b with
    | (eof, b, none) => .probing eof b
    | (eof, b, some rest) =>
      match startAll K tick' (startOffsets c eof) b with
      | none => .exited
      | some b =>
        let (calls, b) := consumeLoop K c rest [] b
        .consuming eof (startOffsets c eof) calls b

end Client

/-! ### Rules for the loops -/

section Rules

variable {β ι τ : Type} {K : Kafka β ι}

/-- What every poll of a round preserves, the round preserves. -/
theorem pollAll_invariant {callback : Bytes → Rkmessage → τ → τ} {tick : Bytes → ι}
    {P : τ → β → Prop} {topics : List Bytes}
    (hmsg : ∀ topic ∈ topics, ∀ s b m b', P s b →
      K.consume topic 0 (tick topic) b = (some m, b') → P (callback topic m s) b')
    (hnone : ∀ topic ∈ topics, ∀ s b b', P s b →
      K.consume topic 0 (tick topic) b = (none, b') → P s b')
    {s : τ} {b : β} (h : P s b) :
    P (pollAll K callback tick topics s b).1 (pollAll K callback tick topics s b).2 := by
  induction topics generalizing s b with
  | nil => exact h
  | cons topic rest ih =>
    have hmsg' := fun u hu => hmsg u (List.mem_cons_of_mem topic hu)
    have hnone' := fun u hu => hnone u (List.mem_cons_of_mem topic hu)
    rw [pollAll]
    split
    · next m b' hc => exact ih hmsg' hnone' (hmsg topic List.mem_cons_self s b m b' h hc)
    · next b' hc => exact ih hmsg' hnone' (hnone topic List.mem_cons_self s b b' h hc)

/-- What every round preserves, the probe preserves; when it has ended no offset is
unknown. -/
theorem getEofLoop_invariant {P : EofTable → β → Prop} {topics : List Bytes}
    (hround : ∀ tick eof b, P eof b → P (pollAll K getEofCallback tick topics eof b).1
      (pollAll K getEofCallback tick topics eof b).2)
    {rounds : List (Bytes → ι)} {eof eof' : EofTable} {b b' : β}
    {rest : Option (List (Bytes → ι))} (h : P eof b)
    (hloop : getEofLoop K topics rounds eof b = (eof', b', rest)) :
    P eof' b' ∧ (rest.isSome → someUnknown eof' = false) := by
  induction rounds generalizing eof b with
  | nil =>
    cases hloop
    exact ⟨h, by simp⟩
  | cons tick rounds ih =>
    rw [getEofLoop] at hloop
    have hP := hround tick eof b h
    simp only at hloop
    split at hloop
    · exact ih hP hloop
    · next hknown =>
        cases hloop
        exact ⟨hP, fun _ => by simpa using hknown⟩

/-- A probe that has not ended has an offset to wait for. -/
theorem getEofLoop_unfinished {topics : List Bytes} {rounds : List (Bytes → ι)}
    {eof eof' : EofTable} {b b' : β} (h : someUnknown eof = true)
    (hloop : getEofLoop K topics rounds eof b = (eof', b', none)) : someUnknown eof' = true := by
  induction rounds generalizing eof b with
  | nil =>
    cases hloop
    exact h
  | cons tick rounds ih =>
    rw [getEofLoop] at hloop
    simp only at hloop
    split at hloop
    · next hunknown => exact ih hunknown hloop
    · cases hloop

theorem consumeLoop_invariant {c : Consumer} {P : List CgoCall → β → Prop}
    (hround : ∀ tick calls b, P calls b → P
      (pollAll K (fun topic m calls => calls ++ [consumerCallback c.hashcode topic m]) tick
        c.topics.keys calls b).1
      (pollAll K (fun topic m calls => calls ++ [consumerCallback c.hashcode topic m]) tick
        c.topics.keys calls b).2)
    (rounds : List (Bytes → ι)) {calls : List CgoCall} {b : β} (h : P calls b) :
    P (consumeLoop K c rounds calls b).1 (consumeLoop K c rounds calls b).2 := by
  induction rounds generalizing calls b with
  | nil => exact h
  | cons tick rounds ih =>
    rw [consumeLoop]
    exact ih (hround tick calls b h)

/-- The phases behind a consumer that consumes. -/
theorem startConsumer_consuming {c : Consumer} {tick tick' : Bytes → ι}
    {rounds : List (Bytes → ι)} {b b' : β} {eof : EofTable} {starts : List (Bytes × ℤ)}
    {calls : List CgoCall}
    (h : startConsumer K c tick tick' rounds b = .consuming eof starts calls b') :
    ∃ b1 b2 b3 rest,
      startAll K tick (c.topics.keys.map fun topic => (topic, offsetTailBase - 1)) b = some b1 ∧
      getEofLoop K c.topics.keys rounds c.eof b1 = (eof, b2, some rest) ∧
      startAll K tick' (startOffsets c eof) b2 = some b3 ∧ starts = startOffsets c eof ∧
      consumeLoop K c rest [] b3 = (calls, b') := by
  rw [startConsumer] at h
  split at h
  · cases h
  next b1 h1 =>
    split at h
    · cases h
    next eof2 b2 rest h2 =>
      split at h
      · cases h
      next b3 h3 =>
        cases h
        exact ⟨b1, b2, b3, rest, h1, h2, h3, rfl, rfl⟩

theorem startConsumer_probing {c : Consumer} {tick tick' : Bytes → ι}
    {rounds : List (Bytes → ι)} {b b' : β} {eof : EofTable}
    (h : startConsumer K c tick tick' rounds b = .probing eof b') :
    ∃ b1, startAll K tick (c.topics.keys.map fun topic => (topic, offsetTailBase - 1)) b =
        some b1 ∧
      getEofLoop K c.topics.keys rounds c.eof b1 = (eof, b', none) := by
  rw [startConsumer] at h
  split at h
  · cases h
  next b1 h1 =>
    split at h
    · next h2 =>
        cases h
        exact ⟨b1, h1, h2⟩
    · split at h <;> cases h

end Rules

/-! ### The tables of a consumer -/

/-- No offset is known, and a value is kept for every topic. -/
def Consumer.Fresh (c : Consumer) : Prop :=
  ∀ t : Bytes, c.eof[t]? = (c.topics[t]?).map fun _ => -1

theorem subscribed_induction {P : Consumer → Prop} {hashcode : ℕ}
    (h0 : P (createConsumer hashcode))
    (hadd : ∀ c topic offset, topic ∉ c.topics → P c → P (addConsumeTopic topic offset c).2)
    (subs : List (Bytes × ℤ)) : P (subscribed hashcode subs) := by
  have hgen : ∀ c : Consumer, P c →
      P (subs.foldl (fun c sub => (addConsumeTopic sub.1 sub.2 c).2) c) := by
    induction subs with
    | nil => exact fun c h => h
    | cons sub subs ih =>
      intro c h
      rw [List.foldl_cons]
      apply ih
      by_cases hin : sub.1 ∈ c.topics
      · rw [addConsumeTopic, if_pos hin]
        exact h
      · exact hadd c sub.1 sub.2 hin h
  exact hgen _ h0

theorem subscribed_hashcode (hashcode : ℕ) (subs : List (Bytes × ℤ)) :
    (subscribed hashcode subs).hashcode = hashcode := by
  refine subscribed_induction (P := fun c => c.hashcode = hashcode) rfl ?_ subs
  intro c topic offset hin h
  rw [addConsumeTopic, if_neg hin]
  exact h

theorem subscribed_fresh (hashcode : ℕ) (subs : List (Bytes × ℤ)) :
    (subscribed hashcode subs).Fresh := by
  refine subscribed_induction (P := Consumer.Fresh) ?_ ?_ subs
  · intro t
    simp [createConsumer]
  · intro c topic offset hin h t
    rw [addConsumeTopic, if_neg hin]
    simp only [ExtTreeMap.getElem?_insert]
    split
    · rfl
    · exact h t

/-- `start_consumer` starts the topics that `get_eof` probed. -/
theorem startOffsets_names (c : Consumer) (eof : EofTable) :
    (startOffsets c eof).map Prod.fst = c.topics.keys := by
  rw [startOffsets, List.map_map, ← ExtTreeMap.map_fst_toList_eq_keys]
  rfl

theorem mem_startOffsets {c : Consumer} {t : Bytes} {o : ℤ} (h : c.topics[t]? = some o)
    (eof : EofTable) : (t, startOffset eof t o) ∈ startOffsets c eof :=
  List.mem_map.mpr ⟨(t, o), ExtTreeMap.mem_toList_iff_getElem?_eq_some.mpr h, rfl⟩

theorem someUnknown_eq_false {eof : EofTable} :
    someUnknown eof = false ↔ ∀ (t : Bytes) (v : ℤ), eof[t]? = some v → 0 ≤ v := by
  simp only [someUnknown, List.any_eq_false, decide_eq_true_eq, not_lt]
  constructor
  · intro h t v hv
    exact h (t, v) (ExtTreeMap.mem_toList_iff_getElem?_eq_some.mpr hv)
  · intro h e he
    exact h e.1 e.2 (ExtTreeMap.mem_toList_iff_getElem?_eq_some.mp he)

theorem getD_eq {eof : EofTable} {t : Bytes} {v : ℤ} (h : eof[t]? = some v) : eof.getD t 0 = v := by
  rw [ExtTreeMap.getD_eq_getD_getElem?, h]
  rfl

/-- The callback changes the entry of its topic only, and only one that is negative. -/
theorem get_getEofCallback {eof : EofTable} {topicName : Bytes} {v : ℤ} (m : Rkmessage)
    (hv : eof[topicName]? = some v) (t : Bytes) :
    (getEofCallback topicName m eof)[t]? =
      if t = topicName ∧ v < 0 then some m.offset else eof[t]? := by
  rw [getEofCallback, getD_eq hv]
  by_cases hneg : v < 0
  · rw [if_pos hneg, ExtTreeMap.getElem?_insert]
    by_cases ht : t = topicName
    · simp [ht, hneg]
    · have ht' : ¬ topicName = t := fun h => ht h.symm
      simp [ht, ht']
  · have hmem : topicName ∈ eof := mem_iff_exists_get.mpr ⟨v, hv⟩
    rw [if_neg hneg, if_neg (fun h => hneg h.2), ExtTreeMap.getElem?_insertIfNew]
    exact if_neg fun h => h.2 hmem

end KfkClient
