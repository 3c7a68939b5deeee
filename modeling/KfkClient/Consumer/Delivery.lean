import KfkClient.Lib.Lists
import KfkClient.Client.World
import KfkClient.Consumer.Probe

/-!
# From the producer to the consumer

`Producer::send_msg` leaves the partition of a message to librdkafka, and the consumer
reads partition 0. It starts to read only after it has seen a message of every topic it
subscribed, and hands the length of a message on as an `int`.

## Main results

- `consumeLoop_delivers` — what was read of partition 0 went to the application, in order
- `delivery_exactly_once_iff` — when that is every message that was produced
-/

namespace KfkClient

open CLib Lists OrderedMap
open Std (ExtTreeMap)

/-! ### The producer's side -/

/-- Calls of `Producer::send_msg` on one topic, each with a message and a key. -/
def produceAll {σ : Type} (accepts : ℕ → Bool) (topic : Bytes) :
    List (CString × ℤ) → Exec (World σ) Unit
  | [] => pure ()
  | (message, nkey) :: rest => do
    let _ ← producerSendMsg accepts message.bytes topic nkey
    produceAll accepts topic rest

/-- Messages that are not empty are all handed over, whole and in order. -/
theorem produceAll_run {σ : Type} (accepts : ℕ → Bool) {topic : Bytes} {run : List (CString × ℤ)}
    (hne : ∀ m ∈ run, m.1.bytes ≠ []) {w : World σ} (htop : topic ∈ w.topics) :
    ∃ w', (produceAll accepts topic run).run w = .ok () w' ∧
      w'.produced = w.produced ++ run.map fun m => ⟨topic, m.1.bytes, keystr m.2⟩ := by
  induction run generalizing w with
  | nil => exact ⟨w, rfl, by simp⟩
  | cons m run ih =>
    obtain ⟨rc, hsend⟩ := producerSendMsg_run accepts m.1.bytes topic m.2 w
    obtain ⟨w', hrun, hprod⟩ := ih (fun a ha => hne a (List.mem_cons_of_mem _ ha))
      (w := w.handOver accepts m.1.bytes topic m.2) (by rw [World.handOver_topics]; exact htop)
    refine ⟨w', ?_, ?_⟩
    · rw [produceAll, run_bind_ok hsend, hrun]
    · rw [hprod, World.handOver, if_pos ⟨htop, hne m List.mem_cons_self⟩, payloadOf_text]
      simp

/-- The log of a partition when each message goes where `parts` says. -/
def placed {N : ℕ} (wires : List Wire) (parts : List (Fin N)) (p : ℕ) : List Bytes :=
  ((wires.zip parts).filter fun e => (e.2 : ℕ) = p).map fun e => e.1.payload

/-! ### The consumer's side -/

/-- The calls for a log that was read from its beginning. -/
def deliveries (hashcode : ℕ) (t : Bytes) (log : List Bytes) : List CgoCall :=
  log.mapIdx fun i payload => consumerCallback hashcode t ⟨0, payload, i⟩

/-- What was read of partition 0 of `t` went to the application. -/
structure Delivered (hashcode : ℕ) (t : Bytes) (calls : List CgoCall) (b : Broker) : Prop where
  position : (b t 0).position ≤ (b t 0).log.length
  calls : (calls.filter fun call => call.topic = t) =
    deliveries hashcode t ((b t 0).log.take (b t 0).position)

theorem Delivered.grows {hashcode : ℕ} {t : Bytes} {calls : List CgoCall} {b b' : Broker}
    (h : Delivered hashcode t calls b) (hg : Grows (b t 0) (b' t 0)) :
    Delivered hashcode t calls b' := by
  refine ⟨?_, ?_⟩
  · rw [hg.position]
    exact h.position.trans hg.log.length_le
  · rw [hg.position, take_of_prefix hg.log h.position]
    exact h.calls

theorem Delivered.message {hashcode : ℕ} {t : Bytes} {calls : List CgoCall} {b b' : Broker}
    (h : Delivered hashcode t calls b) {topic : Bytes} {tick : Tick} {m : Rkmessage}
    (hc : broker.consume topic 0 tick b = (some m, b')) :
    Delivered hashcode t (calls ++ [consumerCallback hashcode topic m]) b' := by
  obtain ⟨hcons, hother⟩ := consume_some hc
  by_cases he : t = topic
  swap
  · have hg := h.grows (hother t 0 fun hp => he hp.1)
    refine ⟨hg.position, ?_⟩
    have hne : ¬ topic = t := fun hp => he hp.symm
    rw [List.filter_append, hg.calls]
    simp [consumerCallback, hne]
  · subst he
    obtain ⟨payload, rfl, hget⟩ := hcons.message
    have hlt : (b t 0).position < (b' t 0).log.length := (List.getElem?_eq_some_iff.mp hget).1
    refine ⟨?_, ?_⟩
    · rw [hcons.position]
      exact hlt
    · have htake : (b' t 0).log.take ((b t 0).position + 1) =
          (b t 0).log.take (b t 0).position ++ [payload] := by
        rw [List.take_add_one, hget, take_of_prefix hcons.log h.position]
        rfl
      rw [hcons.position, htake, List.filter_append, h.calls, deliveries, deliveries,
        List.mapIdx_append, List.length_take, min_eq_left h.position]
      simp [consumerCallback]

theorem consumeLoop_delivers (c : Consumer) (t : Bytes) (rounds : List (Bytes → Tick)) {b : Broker}
    (hpos : (b t 0).position = 0) :
    Delivered c.hashcode t (consumeLoop broker c rounds [] b).1
      (consumeLoop broker c rounds [] b).2 := by
  have h0 : Delivered c.hashcode t [] b := by
    refine ⟨by omega, ?_⟩
    rw [hpos]
    rfl
  refine consumeLoop_invariant (P := Delivered c.hashcode t) ?_ rounds h0
  intro tick calls b hP
  refine pollAll_invariant (P := Delivered c.hashcode t) ?_ ?_ hP
  · intro topic _ calls b m b' hP hc
    exact hP.message hc
  · intro topic _ calls b b' hP hc
    exact hP.grows (consume_none hc t 0)

namespace Progress

variable {β : Type}

def calls : Progress β → List CgoCall
  | .consuming _ _ calls _ => calls
  | _ => []

/-- The broker behind a consumer that has not exited. -/
def broker? : Progress β → Option β
  | .exited => none
  | .probing _ b => some b
  | .consuming _ _ _ b => some b

end Progress

/-- Everything that is there has been polled. -/
def AllPolled (c : Consumer) (b : Broker) : Prop :=
  ∀ t ∈ c.topics.keys, (b t 0).position = (b t 0).log.length

section Polled

variable {hashcode : ℕ} {subs : List (Bytes × ℤ)} {t : Bytes}
  (ht : (subscribed hashcode subs).topics[t]? = some 0) {tick tick' : Bytes → Tick}
  {rounds : List (Bytes → Tick)} {b b' : Broker}
  (hb : (startConsumer broker (subscribed hashcode subs) tick tick' rounds b).broker? = some b')
  (hpolled : AllPolled (subscribed hashcode subs) b')
include ht hb hpolled

/-- A topic that is read from offset 0 has been passed on whole, or not at all while the
probe waits for an empty topic. -/
theorem calls_of_allPolled :
    ((startConsumer broker (subscribed hashcode subs) tick tick' rounds b).calls.filter
        fun call => call.topic = t) = deliveries hashcode t (b' t 0).log ∧
        (∀ u ∈ (subscribed hashcode subs).topics.keys, (b' u 0).log ≠ []) ∨
      (startConsumer broker (subscribed hashcode subs) tick tick' rounds b).calls = [] ∧
        ∃ u ∈ (subscribed hashcode subs).topics.keys, (b' u 0).log = [] := by
  set c := subscribed hashcode subs with hc
  have hcode : c.hashcode = hashcode := subscribed_hashcode hashcode subs
  have hfresh : c.Fresh := subscribed_fresh hashcode subs
  have hkey : t ∈ c.topics.keys := ExtTreeMap.mem_keys.mpr (mem_iff_exists_get.mpr ⟨_, ht⟩)
  cases hrun : startConsumer broker c tick tick' rounds b with
  | exited =>
    rw [hrun] at hb
    cases hb
  | probing eof b2 =>
    rw [hrun] at hb
    cases hb
    right
    refine ⟨rfl, ?_⟩
    obtain ⟨b1, h1, h2⟩ := startConsumer_probing hrun
    obtain ⟨n, hprobing, hstarted⟩ := probe_begins hfresh h1
    have hunknown : someUnknown c.eof = true := by
      by_contra hno
      have hv : c.eof[t]? = some (-1) := by
        rw [hfresh t, ht]
        rfl
      have := someUnknown_eq_false.mp (by simpa using hno) t (-1) hv
      exact absurd this (by decide)
    exact hprobing.waits (fun u hu => (hstarted u hu).2) h2 hunknown hpolled
  | consuming eof starts calls b4 =>
    rw [hrun] at hb
    cases hb
    left
    obtain ⟨b1, b2, b3, rest, h1, h2, h3, -, h4⟩ := startConsumer_consuming hrun
    obtain ⟨n, hprobing, -⟩ := probe_begins hfresh h1
    obtain ⟨started, hstarted⟩ := topics_started h3 ht
    have hpos : (b3 t 0).position = 0 := by
      have hres := hstarted.resolved
      rw [startOffset, getD_eq (hprobing.ended h2 hkey).1, if_neg (by omega),
        ← Nat.cast_zero, resolveOffset_absolute] at hres
      rw [hstarted.position, ← Option.some.inj hres]
    have hdel := consumeLoop_delivers c t rest hpos
    rw [h4] at hdel
    refine ⟨?_, ?_⟩
    · have hcalls := hdel.calls
      rw [hpolled t hkey, List.take_length, hcode] at hcalls
      exact hcalls
    · intro u hu
      obtain ⟨o, ho⟩ := mem_iff_exists_get.mp (ExtTreeMap.mem_keys.mp hu)
      obtain ⟨startu, hstartu⟩ := topics_started h3 ho
      have hlog := (consumeLoop_keeps c rest [] b3 u 0).2
      rw [h4] at hlog
      exact hlog.ne_nil (hstartu.log.ne_nil (hprobing.ended h2 hu).2)

end Polled

/-! ### Every message exactly once -/

theorem deliveries_content (hashcode : ℕ) (t : Bytes) (log : List Bytes) :
    (deliveries hashcode t log).map (fun call => (call.msg, call.len)) =
      log.map fun payload => (payload, toInt payload.length) := by
  apply List.ext_getElem?
  intro i
  simp only [deliveries, consumerCallback, List.getElem?_map, List.getElem?_mapIdx, Option.map_map,
    Function.comp_def]

/-- Partition 0 holds all of the messages exactly when each was assigned to it. -/
theorem length_placed_zero_iff {N : ℕ} {wires : List Wire} {parts : List (Fin N)}
    (hlen : parts.length = wires.length) :
    (placed wires parts 0).length = wires.length ↔ ∀ p ∈ parts, (p : ℕ) = 0 := by
  have hzip : (wires.zip parts).length = wires.length := by simp [hlen]
  rw [placed, List.length_map, ← hzip, List.length_filter_eq_length_iff]
  have hsnd : (wires.zip parts).map Prod.snd = parts := List.map_snd_zip (by omega)
  constructor
  · intro h p hp
    rw [← hsnd] at hp
    obtain ⟨e, he, rfl⟩ := List.mem_map.mp hp
    simpa using h e he
  · intro h e he
    have hp : e.2 ∈ parts := by
      rw [← hsnd]
      exact List.mem_map_of_mem he
    simpa using h e.2 hp

theorem placed_zero {N : ℕ} {wires : List Wire} {parts : List (Fin N)}
    (hlen : parts.length = wires.length) (h : ∀ p ∈ parts, (p : ℕ) = 0) :
    placed wires parts 0 = wires.map Wire.payload := by
  have hall : (wires.zip parts).filter (fun e => (e.2 : ℕ) = 0) = wires.zip parts := by
    rw [List.filter_eq_self]
    intro e he
    simpa using h e.2 (List.of_mem_zip he).2
  have hfst : (wires.zip parts).map Prod.fst = wires := List.map_fst_zip (by omega)
  rw [placed, hall]
  conv_rhs => rw [← hfst]
  rw [List.map_map]
  rfl

/-- What was read of partition 0 is the run, in some order and with its lengths, exactly
when every message went there and none is too long for an `int`. -/
theorem placed_perm_iff {N : ℕ} {run : List (CString × ℤ)} {parts : List (Fin N)}
    (hparts : parts.length = run.length) (t : Bytes) :
    ((placed (run.map fun m => ⟨t, m.1.bytes, keystr m.2⟩) parts 0).map fun payload =>
        (payload, toInt payload.length)).Perm
        (run.map fun m => (m.1.bytes, (m.1.bytes.length : ℤ))) ↔
      (∀ p ∈ parts, (p : ℕ) = 0) ∧ ∀ m ∈ run, m.1.bytes.length < 2 ^ 31 := by
  set wires := run.map fun m : CString × ℤ => (⟨t, m.1.bytes, keystr m.2⟩ : Wire) with hw
  have hlen : parts.length = wires.length := by rw [hparts, hw, List.length_map]
  constructor
  · intro hperm
    have hcount := hperm.length_eq
    simp only [List.length_map] at hcount
    have hzero := (length_placed_zero_iff hlen).mp (by rw [hcount, hw, List.length_map])
    refine ⟨hzero, ?_⟩
    intro m hm
    rw [placed_zero hlen hzero] at hperm
    have hmem : (m.1.bytes, toInt m.1.bytes.length) ∈
        run.map fun m => (m.1.bytes, (m.1.bytes.length : ℤ)) := by
      rw [← hperm.mem_iff]
      simp only [hw, List.map_map, List.mem_map]
      exact ⟨m, hm, rfl⟩
    obtain ⟨m', -, hm'⟩ := List.mem_map.mp hmem
    obtain ⟨hbytes, hint⟩ := Prod.mk.inj hm'
    rw [hbytes] at hint
    exact toInt_eq_self_iff.mp hint.symm
  · rintro ⟨hzero, hshort⟩
    rw [placed_zero hlen hzero, hw, List.map_map, List.map_map]
    refine .of_eq (List.map_congr_left ?_)
    intro m hm
    show (m.1.bytes, toInt m.1.bytes.length) = _
    rw [toInt_of_lt (hshort m hm)]

/-- Whatever the partitions of a run of calls on an added topic and the rounds of a consumer
that read the topic from offset 0 and polled everything: each message was passed on once,
with its bytes and length, exactly when there was none, or all are in partition 0, none is
too long for an `int` and no subscribed topic is empty there. -/
theorem delivery_exactly_once_iff {σ : Type} (accepts : ℕ → Bool) (w w' : World σ) (t : Bytes)
    (htop : t ∈ w.topics) (run : List (CString × ℤ)) (hne : ∀ m ∈ run, m.1.bytes ≠ [])
    (hprod : (produceAll accepts t run).run w = .ok () w') (N : ℕ) (parts : List (Fin N))
    (hparts : parts.length = run.length) (hashcode : ℕ) (subs : List (Bytes × ℤ))
    (ht : (subscribed hashcode subs).topics[t]? = some 0) (tick tick' : Bytes → Tick)
    (rounds : List (Bytes → Tick)) (b b' : Broker)
    (hb : (startConsumer broker (subscribed hashcode subs) tick tick' rounds b).broker? = some b')
    (hpolled : AllPolled (subscribed hashcode subs) b')
    (hlogs : ∀ p, (b' t p).log = placed (w'.produced.drop w.produced.length) parts p) :
    (((startConsumer broker (subscribed hashcode subs) tick tick' rounds b).calls.filter
          fun call => call.topic = t).map fun call => (call.msg, call.len)).Perm
        (run.map fun m => (m.1.bytes, (m.1.bytes.length : ℤ))) ↔
      run = [] ∨ (∀ p ∈ parts, (p : ℕ) = 0) ∧ (∀ m ∈ run, m.1.bytes.length < 2 ^ 31) ∧
        ∀ u ∈ (subscribed hashcode subs).topics.keys, (b' u 0).log ≠ [] := by
  obtain ⟨w'', hrun, hwires⟩ := produceAll_run accepts hne htop
  rw [hprod] at hrun
  cases hrun
  rw [hwires, List.drop_left] at hlogs
  rcases calls_of_allPolled ht hb hpolled with ⟨hcalls, hfull⟩ | ⟨hcalls, u, hu, hempty⟩
  · rw [hcalls, deliveries_content, hlogs 0, placed_perm_iff hparts]
    constructor
    · exact fun h => .inr ⟨h.1, h.2, hfull⟩
    · rintro (rfl | ⟨hzero, hshort, -⟩)
      · rw [List.length_eq_zero_iff.mp hparts]
        simp
      · exact ⟨hzero, hshort⟩
  · rw [hcalls]
    constructor
    · intro hperm
      exact .inl (List.map_eq_nil_iff.mp hperm.nil_eq.symm)
    · rintro (rfl | ⟨-, -, hfull⟩)
      · exact .nil
      · exact absurd hempty (hfull u hu)

/-! The messages `a` and `b` on the topic `t`. -/

def sentA : CString × ℤ := (msgA, -1)

def sentB : CString × ℤ := (msgB, -1)

/-- The broker when the messages of a run are where `parts` says. -/
def stored {N : ℕ} (run : List (CString × ℤ)) (parts : List (Fin N)) : Broker := fun _ p =>
  ⟨placed (run.map fun m => ⟨[116], m.1.bytes, keystr m.2⟩) parts p, 0, []⟩

theorem delivery_exactly_once_one_partition :
    ∃ w' b', (produceAll (fun _ => true) [116] [sentA, sentB]).run producing = .ok () w' ∧
      (startConsumer broker (subscribed 0 [([116], 0)]) arriving arriving
        [arriving, arriving, arriving] (stored [sentA, sentB] [(0 : Fin 1), 0])).broker? =
          some b' ∧
      (((startConsumer broker (subscribed 0 [([116], 0)]) arriving arriving
            [arriving, arriving, arriving]
            (stored [sentA, sentB] [(0 : Fin 1), 0])).calls.filter
          fun call => call.topic = [116]).map fun call => (call.msg, call.len)).Perm
        [([97], 1), ([98], 1)] := by
  refine ⟨_, _, rfl, rfl, ?_⟩
  refine (delivery_exactly_once_iff (fun _ => true) producing _ [116] (by decide) [sentA, sentB]
    (by decide) rfl 1 [0, 0] rfl 0 [([116], 0)] rfl arriving arriving
    [arriving, arriving, arriving] (stored [sentA, sentB] [(0 : Fin 1), 0]) _ rfl ?_ ?_).mpr
    (.inr ⟨by decide, by decide, ?_⟩)
  · intro t ht
    rw [List.mem_singleton.mp ht]
    rfl
  · intro p
    cases p with
    | zero => rfl
    | succ p => rfl
  · intro u hu
    rw [List.mem_singleton.mp hu]
    exact List.cons_ne_nil _ _

/-- The message `b` is in partition 1: a consumer that has polled everything has passed on
`a` alone. -/
theorem second_partition_not_delivered :
    ∃ w' b', (produceAll (fun _ => true) [116] [sentA, sentB]).run producing = .ok () w' ∧
      (startConsumer broker (subscribed 0 [([116], 0)]) arriving arriving
        [arriving, arriving] (stored [sentA, sentB] [(0 : Fin 2), 1])).broker? = some b' ∧
      AllPolled (subscribed 0 [([116], 0)]) b' ∧
      (∀ p, (b' [116] p).log = placed w'.produced [(0 : Fin 2), 1] p) ∧
      (startConsumer broker (subscribed 0 [([116], 0)]) arriving arriving
        [arriving, arriving] (stored [sentA, sentB] [(0 : Fin 2), 1])).calls =
          [consumerCallback 0 [116] ⟨0, [97], 0⟩] := by
  refine ⟨_, _, rfl, rfl, ?_, ?_, rfl⟩
  · intro t ht
    rw [List.mem_singleton.mp ht]
    rfl
  · intro p
    cases p with
    | zero => rfl
    | succ p => rfl

end KfkClient
