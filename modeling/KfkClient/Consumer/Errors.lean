import KfkClient.Consumer.Script

/-!
# Error events

A run of `start_consumer` is compared with the run on the same results without their
events. An event is treated as a message is: one that brings an offset may end the probe
and decide where a topic starts, and after the probe its text goes to the application.
-/

namespace KfkClient

open CLib Lists OrderedMap
open Std (ExtTreeMap)

theorem result_withoutEvent (p : Polled) :
    p.withoutEvent.result = p.result.filter fun m => m.err = 0 := by
  cases p with
  | nothing => rfl
  | message payload offset => rfl
  | event err nonzero text offset =>
    simp [Polled.withoutEvent, Polled.result, Option.filter, nonzero]

theorem withoutEvent_eq_self {p : Polled} (h : ¬ p.isEvent) : p.withoutEvent = p := by
  cases p with
  | nothing => rfl
  | message payload offset => rfl
  | event err nonzero text offset => exact absurd rfl h

theorem heard_withoutEvents (t : Bytes) (rounds : Rounds) :
    heard t (withoutEvents rounds) = (heard t rounds).filter fun m => m.err = 0 := by
  induction rounds with
  | nil => rfl
  | cons tick rest ih =>
    simp only [heard, withoutEvents, List.map_cons, List.filterMap_cons,
      result_withoutEvent] at ih ⊢
    cases (tick t).result with
    | none => exact ih
    | some m =>
      by_cases hm : m.err = 0
      · simp [Option.filter, hm, ih]
      · simp [Option.filter, hm, ih]

theorem heard_message {t : Bytes} {rounds : Rounds} {m : Rkmessage} (h : m ∈ heard t rounds)
    (herr : m.err = 0) : 0 ≤ m.offset := by
  obtain ⟨tick, -, hm⟩ := List.mem_filterMap.mp h
  cases hp : tick t with
  | nothing => simp [hp, Polled.result] at hm
  | message payload offset =>
    rw [hp, Polled.result, Option.some_inj] at hm
    rw [← hm]
    exact Int.natCast_nonneg offset
  | event err nonzero text offset =>
    rw [hp, Polled.result, Option.some_inj] at hm
    rw [← hm] at herr
    exact absurd herr nonzero

theorem heard_append (t : Bytes) (a b : Rounds) : heard t (a ++ b) = heard t a ++ heard t b :=
  List.filterMap_append

theorem Ended.of_withoutEvents {topics : List Bytes} {rounds : Rounds}
    (h : Ended topics (withoutEvents rounds)) : Ended topics rounds := by
  intro t ht
  obtain ⟨m, hm, h0⟩ := h t ht
  rw [heard_withoutEvents] at hm
  exact ⟨m, List.mem_of_mem_filter hm, h0⟩

/-! ### The table -/

theorem recorded_eq (l : List Rkmessage) :
    recorded l = match l.find? fun m => 0 ≤ m.offset with
      | some e => e.offset
      | none => (l.getLast?.map Rkmessage.offset).getD (-1) := by
  induction l using List.reverseRecOn with
  | nil => rfl
  | append_singleton l m ih =>
    rw [recorded_snoc, List.find?_append]
    cases hfind : l.find? fun m => 0 ≤ m.offset with
    | some e =>
      rw [hfind] at ih
      simp only at ih
      have h0 : 0 ≤ e.offset := by simpa using List.find?_some hfind
      rw [ih, if_neg (not_lt.mpr h0)]
      rfl
    | none =>
      have hneg : recorded l < 0 := by
        rw [← not_le, recorded_nonneg_iff]
        rintro ⟨a, ha, h0⟩
        simpa [h0] using List.find?_eq_none.mp hfind a ha
      rw [if_pos hneg]
      by_cases h0 : 0 ≤ m.offset
      · simp [h0]
      · simp [h0]

/-- The events among what a topic has returned do not show in its entry: where there is a
message, no event before the first one brings another offset, and where there is none, no
event brings an offset and the last of them brings -1. -/
def Harmless (l : List Rkmessage) : Prop :=
  match l.find? fun m => m.err = 0 with
  | some m => ∀ e ∈ l.find? fun m => 0 ≤ m.offset, e.offset = m.offset
  | none => (∀ e ∈ l, e.offset < 0) ∧ ∀ e ∈ l.getLast?, e.offset = -1

theorem recorded_filter {l : List Rkmessage} (hl : ∀ m ∈ l, m.err = 0 → 0 ≤ m.offset) :
    recorded (l.filter fun m => m.err = 0) =
      ((l.find? fun m => m.err = 0).map Rkmessage.offset).getD (-1) := by
  have hfind : ((l.filter fun m => m.err = 0).find? fun m => 0 ≤ m.offset) =
      l.find? fun m => m.err = 0 := by
    rw [List.find?_filter]
    refine List.find?_congr ?_
    intro m hm
    by_cases herr : m.err = 0
    · simp [herr, hl m hm herr]
    · simp [herr]
  rw [recorded_eq, hfind]
  cases hm : l.find? fun m => m.err = 0 with
  | some m => rfl
  | none =>
    have hnil : (l.filter fun m => m.err = 0) = [] :=
      List.filter_eq_nil_iff.mpr (List.find?_eq_none.mp hm)
    rw [hnil]
    rfl

theorem recorded_filter_iff {l : List Rkmessage} (hl : ∀ m ∈ l, m.err = 0 → 0 ≤ m.offset) :
    recorded l = recorded (l.filter fun m => m.err = 0) ↔ Harmless l := by
  rw [recorded_filter hl, recorded_eq, Harmless]
  cases hm : l.find? fun m => m.err = 0 with
  | some m =>
    cases he : l.find? fun m => 0 ≤ m.offset with
    | some e => simp
    | none =>
      -- the message itself has an offset
      have hmem := List.mem_of_find?_eq_some hm
      have herr : m.err = 0 := by simpa using List.find?_some hm
      simpa [hl m hmem herr] using List.find?_eq_none.mp he m hmem
  | none =>
    cases he : l.find? fun m => 0 ≤ m.offset with
    | some e =>
      have h0 : 0 ≤ e.offset := by simpa using List.find?_some he
      simp only [Option.map_none, Option.getD_none]
      constructor
      · intro h
        omega
      · intro h
        exact absurd (h.1 e (List.mem_of_find?_eq_some he)) (not_lt.mpr h0)
    | none =>
      have hneg : ∀ e ∈ l, e.offset < 0 := by
        intro e hmem
        simpa using List.find?_eq_none.mp he e hmem
      rw [and_iff_right hneg]
      cases hlast : l.getLast? with
      | none => simp
      | some e => simp

/-! ### The probe -/

theorem withoutEvents_cons (tick : Bytes → Polled) (rest : Rounds) :
    withoutEvents (tick :: rest) = (fun t => (tick t).withoutEvent) :: withoutEvents rest := rfl

theorem withoutEvents_snoc (seen : Rounds) (tick : Bytes → Polled) :
    withoutEvents seen ++ [fun t => (tick t).withoutEvent] = withoutEvents (seen ++ [tick]) := by
  simp [withoutEvents]

/-- A probe that does not end because of an event takes the same rounds without the
events. -/
theorem probe_withoutEvents {topics : List Bytes} {seen rounds : Rounds}
    (h : (probe topics seen rounds).2.isSome →
      Ended topics (withoutEvents (probe topics seen rounds).1)) :
    probe topics (withoutEvents seen) (withoutEvents rounds) =
      (withoutEvents (probe topics seen rounds).1,
        (probe topics seen rounds).2.map withoutEvents) := by
  induction rounds generalizing seen with
  | nil => rfl
  | cons tick rest ih =>
    rw [probe] at h ⊢
    rw [withoutEvents_cons, probe, withoutEvents_snoc]
    by_cases hend : Ended topics (seen ++ [tick])
    · rw [if_pos hend] at h ⊢
      rw [if_pos (h rfl)]
      rfl
    · rw [if_neg hend] at h ⊢
      rw [if_neg fun hc => hend hc.of_withoutEvents]
      exact ih h

/-- A probe that an event has ended goes on without the events. -/
theorem probe_goes_on {topics : List Bytes} {seen rounds rest : Rounds}
    (hrest : (probe topics seen rounds).2 = some rest)
    (h : ¬ Ended topics (withoutEvents (probe topics seen rounds).1)) :
    probe topics (withoutEvents seen) (withoutEvents rounds) =
      probe topics (withoutEvents (probe topics seen rounds).1) (withoutEvents rest) := by
  induction rounds generalizing seen with
  | nil => cases hrest
  | cons tick rounds ih =>
    rw [probe] at h hrest ⊢
    rw [withoutEvents_cons, probe, withoutEvents_snoc]
    by_cases hend : Ended topics (seen ++ [tick])
    · rw [if_pos hend] at h hrest ⊢
      cases hrest
      rw [if_neg h]
    · rw [if_neg hend] at h hrest ⊢
      rw [if_neg fun hc => hend hc.of_withoutEvents]
      exact ih hrest h

theorem probe_ended {topics : List Bytes} {seen rounds rest : Rounds}
    (h : (probe topics seen rounds).2 = some rest) :
    ∃ more, rounds = more ++ rest ∧ (probe topics seen rounds).1 = seen ++ more ∧
      Ended topics (seen ++ more) := by
  induction rounds generalizing seen with
  | nil => cases h
  | cons tick rounds ih =>
    rw [probe] at h ⊢
    by_cases hend : Ended topics (seen ++ [tick])
    · rw [if_pos hend] at h ⊢
      cases h
      exact ⟨[tick], rfl, rfl, hend⟩
    · rw [if_neg hend] at h ⊢
      obtain ⟨more, hmore, hseen, hended⟩ := ih h
      rw [List.append_assoc] at hseen hended
      exact ⟨tick :: more, by rw [hmore]; rfl, hseen, hended⟩

/-! ### The calls -/

/-- The calls of a round without its events are the same calls, or fewer. -/
theorem length_call_withoutEvent (hashcode : ℕ) (t : Bytes) (p : Polled) :
    ((p.withoutEvent.result.map (consumerCallback hashcode t)).toList).length ≤
        ((p.result.map (consumerCallback hashcode t)).toList).length ∧
      (((p.withoutEvent.result.map (consumerCallback hashcode t)).toList).length =
        ((p.result.map (consumerCallback hashcode t)).toList).length ↔ ¬ p.isEvent) := by
  cases p with
  | nothing => simp [Polled.withoutEvent, Polled.isEvent]
  | message payload offset => simp [Polled.withoutEvent, Polled.isEvent]
  | event err nonzero text offset =>
    simp [Polled.withoutEvent, Polled.isEvent, Polled.result]

theorem callsOf_withoutEvents (hashcode : ℕ) (topics : List Bytes) (rounds : Rounds) :
    callsOf hashcode topics (withoutEvents rounds) = rounds.flatMap fun tick =>
      topics.flatMap fun t =>
        ((tick t).withoutEvent.result.map (consumerCallback hashcode t)).toList := by
  rw [callsOf, withoutEvents, List.flatMap_map]

theorem length_callsOf_le (hashcode : ℕ) (topics : List Bytes) (rounds : Rounds) :
    (callsOf hashcode topics (withoutEvents rounds)).length ≤
      (callsOf hashcode topics rounds).length := by
  rw [callsOf_withoutEvents]
  apply length_flatMap_le
  intro tick _
  exact length_flatMap_le fun t _ => (length_call_withoutEvent hashcode t (tick t)).1

theorem callsOf_eq_iff (hashcode : ℕ) (topics : List Bytes) (rounds : Rounds) :
    callsOf hashcode topics rounds = callsOf hashcode topics (withoutEvents rounds) ↔
      ∀ tick ∈ rounds, ∀ t ∈ topics, ¬ (tick t).isEvent := by
  constructor
  · intro h tick htick t ht
    have hlen := congrArg List.length h.symm
    rw [callsOf_withoutEvents] at hlen
    have hround := (length_flatMap_eq_iff fun tick _ => length_flatMap_le fun t _ =>
      (length_call_withoutEvent hashcode t (tick t)).1).mp hlen tick htick
    have hpoll := (length_flatMap_eq_iff fun t _ =>
      (length_call_withoutEvent hashcode t (tick t)).1).mp hround t ht
    exact (length_call_withoutEvent hashcode t (tick t)).2.mp hpoll
  · intro h
    rw [callsOf_withoutEvents, callsOf]
    refine List.flatMap_congr fun tick htick => List.flatMap_congr fun t ht => ?_
    rw [withoutEvent_eq_self (h tick htick t ht)]

theorem callsOf_append (hashcode : ℕ) (topics : List Bytes) (a b : Rounds) :
    callsOf hashcode topics (a ++ b) =
      callsOf hashcode topics a ++ callsOf hashcode topics b :=
  List.flatMap_append

theorem callsOf_ne_nil {topics : List Bytes} {rounds : Rounds} {t : Bytes} {m : Rkmessage}
    (ht : t ∈ topics) (h : m ∈ heard t rounds) (hashcode : ℕ) :
    callsOf hashcode topics rounds ≠ [] := by
  obtain ⟨tick, htick, hm⟩ := List.mem_filterMap.mp h
  apply List.ne_nil_of_mem (a := consumerCallback hashcode t m)
  refine List.mem_flatMap.mpr ⟨tick, htick, List.mem_flatMap.mpr ⟨t, ht, ?_⟩⟩
  rw [hm]
  exact List.mem_singleton.mpr rfl

/-! ### Runs with and without events -/

theorem recorded_heard_iff (t : Bytes) (rounds : Rounds) :
    recorded (heard t rounds) = recorded (heard t (withoutEvents rounds)) ↔
      Harmless (heard t rounds) := by
  rw [heard_withoutEvents]
  exact recorded_filter_iff fun m hm herr => heard_message hm herr

theorem Ended.withoutEvents {topics : List Bytes} {rounds : Rounds} (hend : Ended topics rounds)
    (h : ∀ t ∈ topics, Harmless (heard t rounds)) : Ended topics (withoutEvents rounds) := by
  intro t ht
  rw [← recorded_nonneg_iff, ← (recorded_heard_iff t rounds).mpr (h t ht), recorded_nonneg_iff]
  exact hend t ht

/-- When the probe goes on without the events, it takes a message that the run with the
events passes to the application. -/
theorem callsOf_ne_of_goes_on {topics : List Bytes} {seen rest left : Rounds}
    (hseen : ¬ Ended topics (withoutEvents seen))
    (h : (probe topics (withoutEvents seen) (withoutEvents rest)).2 = some left) (hashcode : ℕ) :
    callsOf hashcode topics rest ≠ callsOf hashcode topics left := by
  obtain ⟨more', hsplit, -, hended⟩ := probe_ended h
  obtain ⟨more, left', hrest, hmore, hleft⟩ := List.map_eq_append_iff.mp hsplit
  -- a topic without an offset so far, and the message that brings one
  obtain ⟨t, ht, hno⟩ : ∃ t ∈ topics, ¬ ∃ m ∈ heard t (withoutEvents seen), 0 ≤ m.offset := by
    simpa only [Ended, not_forall, exists_prop] using hseen
  obtain ⟨m, hm, h0⟩ := hended t ht
  have hm' : m ∈ heard t (withoutEvents more) := by
    rw [heard_append, List.mem_append] at hm
    rcases hm with hm | hm
    · exact absurd ⟨m, hm, h0⟩ hno
    · rwa [← hmore] at hm
  rw [heard_withoutEvents] at hm'
  have hpos := List.length_pos_iff.mpr
    (callsOf_ne_nil ht (List.mem_of_mem_filter hm') hashcode)
  have hle := length_callsOf_le hashcode topics left'
  have hleft' : left = withoutEvents left' := hleft.symm
  intro heq
  have hlen := congrArg List.length heq
  rw [hrest, callsOf_append, List.length_append, hleft'] at hlen
  omega

/-- The table, the start offsets and the calls are those of the results without the events
if and only if the events up to the end of the probe are harmless on every topic and no
event comes after it. -/
theorem errors_invisible_iff (hashcode : ℕ) (subs : List (Bytes × ℤ)) (tick tick' : Bytes → Polled)
    (rounds : Rounds) :
    startConsumer scripted (subscribed hashcode subs) tick tick' rounds () =
        startConsumer scripted (subscribed hashcode subs) tick tick' (withoutEvents rounds) () ↔
      (∀ t ∈ (subscribed hashcode subs).topics.keys,
        Harmless (heard t (probe (subscribed hashcode subs).topics.keys [] rounds).1)) ∧
      ∀ rest ∈ (probe (subscribed hashcode subs).topics.keys [] rounds).2,
        ∀ round ∈ rest, ∀ t ∈ (subscribed hashcode subs).topics.keys, ¬ (round t).isEvent := by
  have hfresh := subscribed_fresh hashcode subs
  generalize subscribed hashcode subs = c at hfresh ⊢
  obtain ⟨eof, hrec, hrun⟩ := startConsumer_script hfresh tick tick' rounds
  obtain ⟨eof', hrec', hrun'⟩ := startConsumer_script hfresh tick tick' (withoutEvents rounds)
  rw [hrun, hrun']
  by_cases hsame : (probe c.topics.keys [] rounds).2.isSome →
      Ended c.topics.keys (withoutEvents (probe c.topics.keys [] rounds).1)
  · -- both probes take the same rounds
    have hprobe : probe c.topics.keys [] (withoutEvents rounds) = _ := probe_withoutEvents hsame
    rw [hprobe] at hrec' ⊢
    have htable : eof = eof' ↔ ∀ t ∈ c.topics.keys,
        Harmless (heard t (probe c.topics.keys [] rounds).1) := by
      rw [hrec.unique hrec']
      exact forall₂_congr fun t _ => recorded_heard_iff t _
    rw [← htable]
    cases (probe c.topics.keys [] rounds).2 with
    | none => simp
    | some rest =>
      simp only [Option.map_some, Progress.consuming.injEq, callsOf_eq_iff, and_true,
        Option.mem_some_iff, forall_eq']
      constructor
      · exact fun h => ⟨h.1, h.2.2⟩
      · rintro ⟨rfl, h⟩
        exact ⟨rfl, rfl, h⟩
  · -- an event has ended the probe
    obtain ⟨hsome, hend⟩ := Classical.not_imp.mp hsame
    obtain ⟨rest, hrest⟩ := Option.isSome_iff_exists.mp hsome
    have hprobe : probe c.topics.keys [] (withoutEvents rounds) = _ := probe_goes_on hrest hend
    constructor
    · intro h
      rw [hprobe, hrest] at h
      cases hleft : (probe c.topics.keys (withoutEvents (probe c.topics.keys [] rounds).1)
          (withoutEvents rest)).2 with
      | none =>
        rw [hleft] at h
        cases h
      | some left =>
        rw [hleft] at h
        simp only [Progress.consuming.injEq] at h
        exact absurd h.2.2.1 (callsOf_ne_of_goes_on hend hleft c.hashcode)
    · intro h
      obtain ⟨more, -, hseen, hended⟩ := probe_ended hrest
      rw [← hseen] at hended
      exact absurd (hended.withoutEvents h.1) hend

/-- What `rd_kafka_err2str` says of the error 29. -/
def authorizationFailed : Bytes := "Broker: Topic authorization failed".toUTF8.toList

/-- A message at offset 0, and then the answer of a broker that no longer lets the topic be
read: the event has the error's text and the offset that was to be read. -/
def refusedAfterMessage : Rounds :=
  [fun _ => .message [97] 0, fun _ => .event 29 (by decide) authorizationFailed 0]

theorem error_text_is_delivered :
    startConsumer scripted (subscribed 0 [([116], 0)]) (fun _ => .nothing) (fun _ => .nothing)
        refusedAfterMessage () =
      .consuming (ExtTreeMap.empty.insert [116] 0) [([116], 0)]
        [consumerCallback 0 [116] ⟨29, authorizationFailed, 0⟩] () ∧
    startConsumer scripted (subscribed 0 [([116], 0)]) (fun _ => .nothing) (fun _ => .nothing)
        (withoutEvents refusedAfterMessage) () =
      .consuming (ExtTreeMap.empty.insert [116] 0) [([116], 0)] [] () := by
  exact ⟨rfl, rfl⟩

end KfkClient
