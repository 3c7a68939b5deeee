import KfkClient.Lib.Lists
import KfkClient.Consumer.Machine

/-!
# A consumer on given results of its polls

Here every result of `rd_kafka_consume` is given: nothing, a message, or an event with an
error. The table that `get_eof` keeps and the calls that `start_consumer` makes are then
functions of what each topic heard.

## Main results

- `getEofLoop_script` — which rounds the probe takes, and what it has recorded
- `startConsumer_script` — the table, the start offsets and the calls of a run
-/

namespace KfkClient

open CLib Lists OrderedMap
open Std (ExtTreeMap)

inductive Polled where
  | nothing
  | message (payload : Bytes) (offset : ℕ)
  -- an event: its payload is an error text and its offset may be anything
  | event (err : ℤ) (nonzero : err ≠ 0) (text : Bytes) (offset : ℤ)

namespace Polled

def result : Polled → Option Rkmessage
  | nothing => none
  | message payload offset => some ⟨0, payload, offset⟩
  | event err _ text offset => some ⟨err, text, offset⟩

def isEvent : Polled → Bool
  | event .. => true
  | _ => false

/-- Nothing, where there was an event. -/
def withoutEvent : Polled → Polled
  | event .. => nothing
  | polled => polled

end Polled

abbrev Rounds := List (Bytes → Polled)

def withoutEvents (rounds : Rounds) : Rounds := rounds.map fun tick t => (tick t).withoutEvent

/-- A librdkafka whose starts succeed and whose polls give what the rounds say. -/
def scripted : Kafka Unit Polled where
  consumeStart _ _ _ _ b := some b
  consume _ _ polled b := (polled.result, b)

theorem consume_scripted (topic : Bytes) (partition : ℕ) (polled : Polled) :
    scripted.consume topic partition polled () = (polled.result, ()) := rfl

/-- What the polls of a topic returned. -/
def heard (t : Bytes) (rounds : Rounds) : List Rkmessage :=
  rounds.filterMap fun tick => (tick t).result

/-- Every topic has returned something with an offset that is not negative. -/
def Ended (topics : List Bytes) (rounds : Rounds) : Prop :=
  ∀ t ∈ topics, ∃ m ∈ heard t rounds, 0 ≤ m.offset

instance (topics : List Bytes) (rounds : Rounds) : Decidable (Ended topics rounds) :=
  inferInstanceAs (Decidable (∀ t ∈ topics, ∃ m ∈ heard t rounds, 0 ≤ m.offset))

/-- The rounds that `get_eof` polls and, when it has ended, the rounds that are left: it
ends after the first round with which every topic has returned such an offset. -/
def probe (topics : List Bytes) (seen : Rounds) : Rounds → Rounds × Option Rounds
  | [] => (seen, none)
  | tick :: rest =>
    if Ended topics (seen ++ [tick]) then (seen ++ [tick], some rest)
    else probe topics (seen ++ [tick]) rest

/-- The calls for what the topics return in some rounds. -/
def callsOf (hashcode : ℕ) (topics : List Bytes) (rounds : Rounds) : List CgoCall :=
  rounds.flatMap fun tick => topics.flatMap fun t =>
    ((tick t).result.map (consumerCallback hashcode t)).toList

/-! ### What the probe records -/

/-- The value for a topic that has returned the messages `l`: the first offset that is not
negative, and until there is one the last offset. -/
def recorded (l : List Rkmessage) : ℤ := l.foldl (fun v m => if v < 0 then m.offset else v) (-1)

theorem recorded_snoc (l : List Rkmessage) (m : Rkmessage) :
    recorded (l ++ [m]) = if recorded l < 0 then m.offset else recorded l := by
  rw [recorded, List.foldl_append]
  rfl

theorem recorded_nonneg_iff (l : List Rkmessage) : 0 ≤ recorded l ↔ ∃ m ∈ l, 0 ≤ m.offset := by
  induction l using List.reverseRecOn with
  | nil => simp [recorded]
  | append_singleton l m ih =>
    rw [recorded_snoc]
    by_cases hneg : recorded l < 0
    · have hno : ¬ ∃ m ∈ l, 0 ≤ m.offset := fun h => absurd (ih.mpr h) (not_le.mpr hneg)
      rw [if_pos hneg]
      constructor
      · exact fun h => ⟨m, by simp, h⟩
      · rintro ⟨a, ha, h⟩
        rcases List.mem_append.mp ha with ha | ha
        · exact absurd ⟨a, ha, h⟩ hno
        · rwa [← List.mem_singleton.mp ha]
    · rw [if_neg hneg]
      refine ⟨fun _ => ?_, fun _ => not_lt.mp hneg⟩
      obtain ⟨a, ha, h⟩ := ih.mp (not_lt.mp hneg)
      exact ⟨a, List.mem_append_left _ ha, h⟩

/-- The table after some rounds. -/
structure Records (topics : List Bytes) (rounds : Rounds) (eof : EofTable) : Prop where
  known : ∀ t ∈ topics, eof[t]? = some (recorded (heard t rounds))
  others : ∀ t ∉ topics, eof[t]? = none

theorem Records.unique {topics : List Bytes} {rounds rounds' : Rounds} {eof eof' : EofTable}
    (h : Records topics rounds eof) (h' : Records topics rounds' eof') :
    eof = eof' ↔ ∀ t ∈ topics, recorded (heard t rounds) = recorded (heard t rounds') := by
  constructor
  · rintro rfl t ht
    exact Option.some.inj ((h.known t ht).symm.trans (h'.known t ht))
  · intro hall
    apply ExtTreeMap.ext_getElem?
    intro t
    by_cases ht : t ∈ topics
    · rw [h.known t ht, h'.known t ht, hall t ht]
    · rw [h.others t ht, h'.others t ht]

theorem Records.unknown {topics : List Bytes} {rounds : Rounds} {eof : EofTable}
    (h : Records topics rounds eof) : someUnknown eof = false ↔ Ended topics rounds := by
  rw [someUnknown_eq_false]
  constructor
  · intro hall t ht
    rw [← recorded_nonneg_iff]
    exact hall t _ (h.known t ht)
  · intro hend t v hv
    by_cases ht : t ∈ topics
    · rw [h.known t ht] at hv
      cases hv
      exact (recorded_nonneg_iff _).mpr (hend t ht)
    · rw [h.others t ht] at hv
      cases hv

theorem Consumer.Fresh.records {c : Consumer} (h : c.Fresh) : Records c.topics.keys [] c.eof := by
  constructor
  · intro t ht
    obtain ⟨o, ho⟩ := mem_iff_exists_get.mp (ExtTreeMap.mem_keys.mp ht)
    rw [h t, ho]
    rfl
  · intro t ht
    rw [h t, ExtTreeMap.getElem?_eq_none fun hmem => ht (ExtTreeMap.mem_keys.mpr hmem)]
    rfl

theorem heard_snoc (t : Bytes) (rounds : Rounds) (tick : Bytes → Polled) :
    heard t (rounds ++ [tick]) = heard t rounds ++ (tick t).result.toList := by
  rw [heard, List.filterMap_append]
  cases h : (tick t).result <;> simp [h, heard]

/-- One round over different topics adds to what each of them has heard. -/
theorem pollAll_getEof {tick : Bytes → Polled} {before : Bytes → List Rkmessage}
    {topics : List Bytes} (hnd : topics.Nodup) {eof : EofTable}
    (h : ∀ t ∈ topics, eof[t]? = some (recorded (before t))) (u : Bytes) :
    (pollAll scripted getEofCallback tick topics eof ()).1[u]? =
      if u ∈ topics then some (recorded (before u ++ (tick u).result.toList)) else eof[u]? := by
  induction topics generalizing eof with
  | nil => rfl
  | cons topic rest ih =>
    obtain ⟨hnotin, hrest⟩ := List.nodup_cons.mp hnd
    have htopic := h topic List.mem_cons_self
    have hothers := fun t ht => h t (List.mem_cons_of_mem topic ht)
    have hne : ∀ t ∈ rest, t ≠ topic := fun t ht he => hnotin (he ▸ ht)
    rw [pollAll, consume_scripted]
    cases hm : (tick topic).result with
    | none =>
      simp only
      rw [ih hrest hothers]
      by_cases hu : u = topic
      · rw [hu, if_neg hnotin, if_pos List.mem_cons_self, hm, htopic]
        simp
      · simp [hu]
    | some m =>
      simp only
      have hget := get_getEofCallback m htopic
      rw [ih hrest fun t ht => by rw [hget t, if_neg fun hc => hne t ht hc.1, hothers t ht]]
      by_cases hu : u = topic
      · rw [hu, if_neg hnotin, if_pos List.mem_cons_self, hget, hm, Option.toList_some,
          recorded_snoc]
        by_cases hneg : recorded (before topic) < 0
        · rw [if_pos ⟨rfl, hneg⟩, if_pos hneg]
        · rw [if_neg fun hc => hneg hc.2, if_neg hneg, htopic]
      · rw [hget u, if_neg fun hc : u = topic ∧ _ => hu hc.1]
        simp [hu]

theorem Records.round {topics : List Bytes} (hnd : topics.Nodup) {seen : Rounds} {eof : EofTable}
    (h : Records topics seen eof) (tick : Bytes → Polled) :
    Records topics (seen ++ [tick]) (pollAll scripted getEofCallback tick topics eof ()).1 := by
  constructor
  · intro t ht
    rw [pollAll_getEof hnd h.known, if_pos ht, heard_snoc]
  · intro t ht
    rw [pollAll_getEof hnd h.known, if_neg ht, h.others t ht]

theorem getEofLoop_script {topics : List Bytes} (hnd : topics.Nodup) (rounds : Rounds)
    {seen : Rounds} {eof : EofTable} (h : Records topics seen eof) :
    ∃ eof', Records topics (probe topics seen rounds).1 eof' ∧
      getEofLoop scripted topics rounds eof () = (eof', (), (probe topics seen rounds).2) := by
  induction rounds generalizing seen eof with
  | nil => exact ⟨eof, h, rfl⟩
  | cons tick rest ih =>
    have hround := h.round hnd tick
    rw [getEofLoop, probe]
    by_cases hend : Ended topics (seen ++ [tick])
    · have hknown := hround.unknown.mpr hend
      refine ⟨(pollAll scripted getEofCallback tick topics eof ()).1, ?_, ?_⟩
      · rw [if_pos hend]
        exact hround
      · simp [hknown, if_pos hend]
    · have hunknown : someUnknown
          (pollAll scripted getEofCallback tick topics eof ()).1 = true := by
        by_contra hfalse
        exact hend (hround.unknown.mp (by simpa using hfalse))
      obtain ⟨eof', hrec, hloop⟩ := ih hround
      refine ⟨eof', ?_, ?_⟩
      · rw [if_neg hend]
        exact hrec
      · simp only [hunknown, if_true, if_neg hend]
        exact hloop

/-! ### The calls and the whole run -/

theorem pollAll_calls (hashcode : ℕ) (tick : Bytes → Polled) (topics : List Bytes)
    (calls : List CgoCall) :
    (pollAll scripted (fun t m calls => calls ++ [consumerCallback hashcode t m]) tick topics
      calls ()).1 =
      calls ++ topics.flatMap fun t =>
        ((tick t).result.map (consumerCallback hashcode t)).toList := by
  induction topics generalizing calls with
  | nil => simp [pollAll]
  | cons topic rest ih =>
    rw [pollAll, consume_scripted]
    cases hm : (tick topic).result with
    | none =>
      simp only
      rw [ih]
      simp [hm]
    | some m =>
      simp only
      rw [ih]
      simp [hm]

theorem consumeLoop_script (c : Consumer) (rounds : Rounds) (calls : List CgoCall) :
    consumeLoop scripted c rounds calls () =
      (calls ++ callsOf c.hashcode c.topics.keys rounds, ()) := by
  induction rounds generalizing calls with
  | nil => simp [consumeLoop, callsOf]
  | cons tick rest ih =>
    have hround := pollAll_calls c.hashcode tick c.topics.keys calls
    rw [consumeLoop]
    simp only [hround, ih, callsOf, List.flatMap_cons, List.append_assoc]

theorem startAll_script (tick : Bytes → Polled) (starts : List (Bytes × ℤ)) :
    startAll scripted tick starts () = some () := by
  induction starts with
  | nil => rfl
  | cons start rest ih => exact ih

/-- The run of `start_consumer` on given results. -/
theorem startConsumer_script {c : Consumer} (hc : c.Fresh) (tick tick' : Bytes → Polled)
    (rounds : Rounds) :
    ∃ eof, Records c.topics.keys (probe c.topics.keys [] rounds).1 eof ∧
      startConsumer scripted c tick tick' rounds () =
        match (probe c.topics.keys [] rounds).2 with
        | none => .probing eof ()
        | some rest =>
          .consuming eof (startOffsets c eof) (callsOf c.hashcode c.topics.keys rest) () := by
  obtain ⟨eof, hrec, hloop⟩ := getEofLoop_script (nodup_keys c.topics) rounds hc.records
  refine ⟨eof, hrec, ?_⟩
  rw [startConsumer, startAll_script]
  simp only [hloop]
  cases (probe c.topics.keys [] rounds).2 with
  | none => rfl
  | some rest =>
    simp only [startAll_script, consumeLoop_script, List.nil_append]

end KfkClient
