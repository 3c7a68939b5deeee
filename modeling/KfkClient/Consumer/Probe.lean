import KfkClient.Consumer.Broker

/-!
# What the probe records

`get_eof` starts every topic at its last message, so the first message it sees of a topic
is the one that was last when the topic was started, or the first of an empty topic. As
long as it has seen none, the position of the topic has not moved.
-/

namespace KfkClient

open CLib OrderedMap
open Std (ExtTreeMap)

/-- While `get_eof` polls: `n` is where the logs ended when their topics were started. -/
structure Probing (n : Bytes → ℕ) (topics : List Bytes) (eof : EofTable) (b : Broker) : Prop where
  seen : ∀ t ∈ topics, eof[t]? = some ((n t - 1 : ℕ) : ℤ) ∧ (b t 0).log ≠ [] ∨
    eof[t]? = some (-1) ∧ (b t 0).position = n t - 1
  only : ∀ (t : Bytes) (v : ℤ), eof[t]? = some v → t ∈ topics

section Probe

variable {n : Bytes → ℕ} {topics : List Bytes} {eof eof' : EofTable} {b b' : Broker}

theorem Probing.grows (h : Probing n topics eof b) (hg : ∀ t, Grows (b t 0) (b' t 0)) :
    Probing n topics eof b' := by
  refine ⟨?_, h.only⟩
  intro t ht
  rcases h.seen t ht with ⟨hseen, hne⟩ | hstart
  · exact .inl ⟨hseen, (hg t).log.ne_nil hne⟩
  · right
    rw [(hg t).position]
    exact hstart

/-- A message that is polled while the offset of its topic is unknown is the one the topic
was started at. -/
theorem Probing.message (h : Probing n topics eof b) {topic : Bytes} (htopic : topic ∈ topics)
    {tick : Tick} {m : Rkmessage} (hc : broker.consume topic 0 tick b = (some m, b')) :
    Probing n topics (getEofCallback topic m eof) b' := by
  obtain ⟨hcons, hother⟩ := consume_some hc
  obtain ⟨payload, hm, hget⟩ := hcons.message
  obtain ⟨v, hv⟩ : ∃ v, eof[topic]? = some v := by
    rcases h.seen topic htopic with ⟨hv, -⟩ | ⟨hv, -⟩
    · exact ⟨_, hv⟩
    · exact ⟨_, hv⟩
  constructor
  · intro t ht
    rw [get_getEofCallback m hv]
    by_cases he : t = topic
    · subst he
      left
      refine ⟨?_, List.ne_nil_of_mem (List.mem_of_getElem? hget)⟩
      rcases h.seen t ht with ⟨hseen, -⟩ | ⟨hseen, hpos⟩
      · rw [hv] at hseen
        cases hseen
        rw [if_neg (fun hp => absurd hp.2 (by omega)), hv]
      · rw [hv] at hseen
        cases hseen
        rw [if_pos ⟨rfl, by decide⟩, hm, hpos]
    · have hg := hother t 0 fun hp => he hp.1
      rw [if_neg (fun hp => he hp.1), hg.position]
      exact (h.seen t ht).imp_left fun hp => ⟨hp.1, hg.log.ne_nil hp.2⟩
  · intro t w hw
    rw [get_getEofCallback m hv] at hw
    split at hw
    · next hp => exact hp.1 ▸ htopic
    · exact h.only t w hw

theorem Probing.loop (h : Probing n topics eof b) {rounds : List (Bytes → Tick)}
    {rest : Option (List (Bytes → Tick))}
    (hloop : getEofLoop broker topics rounds eof b = (eof', b', rest)) :
    Probing n topics eof' b' ∧ (rest.isSome → someUnknown eof' = false) := by
  refine getEofLoop_invariant (P := Probing n topics) ?_ h hloop
  intro tick eof b hP
  refine pollAll_invariant (P := Probing n topics) ?_ ?_ hP
  · intro topic htopic eof b m b' hP hc
    exact hP.message htopic hc
  · intro topic _ eof b b' hP hc
    exact hP.grows fun t => consume_none hc t 0

/-- When the probe has ended, a message of each topic was seen and the table has the offset
the topic was started at. -/
theorem Probing.ended (h : Probing n topics eof b) {rounds rest : List (Bytes → Tick)}
    (hloop : getEofLoop broker topics rounds eof b = (eof', b', some rest)) {t : Bytes}
    (ht : t ∈ topics) : eof'[t]? = some ((n t - 1 : ℕ) : ℤ) ∧ (b' t 0).log ≠ [] := by
  obtain ⟨hprobing, hend⟩ := h.loop hloop
  rcases hprobing.seen t ht with hseen | ⟨hseen, -⟩
  · exact hseen
  · have hknown := someUnknown_eq_false.mp (hend rfl) t (-1) hseen
    exact absurd hknown (by decide)

/-- A probe that has polled everything and still goes on waits for an empty topic. -/
theorem Probing.waits (h : Probing n topics eof b) (hn : ∀ t ∈ topics, n t ≤ (b t 0).log.length)
    {rounds : List (Bytes → Tick)}
    (hloop : getEofLoop broker topics rounds eof b = (eof', b', none))
    (hunknown : someUnknown eof = true)
    (hpolled : ∀ t ∈ topics, (b' t 0).position = (b' t 0).log.length) :
    ∃ t ∈ topics, (b' t 0).log = [] := by
  have hprobing := (h.loop hloop).1
  have hstill := getEofLoop_unfinished hunknown hloop
  obtain ⟨t, v, hv, hneg⟩ : ∃ (t : Bytes) (v : ℤ), eof'[t]? = some v ∧ v < 0 := by
    by_contra hno
    push Not at hno
    rw [someUnknown_eq_false.mpr hno] at hstill
    cases hstill
  have ht := hprobing.only t v hv
  refine ⟨t, ht, List.length_eq_zero_iff.mp ?_⟩
  have hlen := (getEofLoop_keeps hloop t 0).2.length_le
  have hend := hn t ht
  have hpos := hpolled t ht
  rcases hprobing.seen t ht with hseen | ⟨-, hstart⟩
  · rw [hv] at hseen
    have := Option.some.inj hseen.1
    omega
  · omega

end Probe

/-- The probe of a new consumer: where the logs ended is where `get_eof` found them. -/
theorem probe_begins {c : Consumer} (hfresh : c.Fresh) {tick : Bytes → Tick} {b b' : Broker}
    (h : startAll broker tick (c.topics.keys.map fun topic => (topic, offsetTailBase - 1)) b =
      some b') :
    ∃ n : Bytes → ℕ, Probing n c.topics.keys c.eof b' ∧ ∀ t ∈ c.topics.keys,
      (b' t 0).starts = (b t 0).starts ++ [⟨n t, n t - 1⟩] ∧ n t ≤ (b' t 0).log.length := by
  have hstart : ∀ t, ∃ n : ℕ, t ∈ c.topics.keys →
      (b' t 0).starts = (b t 0).starts ++ [⟨n, n - 1⟩] ∧ n ≤ (b' t 0).log.length ∧
        (b' t 0).position = n - 1 := by
    intro t
    by_cases ht : t ∈ c.topics.keys
    swap
    · exact ⟨0, fun hin => absurd hin ht⟩
    obtain ⟨o, ho⟩ := mem_iff_exists_get.mp (ExtTreeMap.mem_keys.mp ht)
    obtain ⟨start, hs, hpos⟩ := probe_started h ho
    refine ⟨start.logEnd, fun _ => ⟨?_, hs.logEnd.2, hs.position.trans hpos⟩⟩
    rw [hs.starts, ← hpos]
  choose n hn using hstart
  refine ⟨n, ⟨?_, ?_⟩, fun t ht => ⟨(hn t ht).1, (hn t ht).2.1⟩⟩
  · intro t ht
    right
    obtain ⟨o, ho⟩ := mem_iff_exists_get.mp (ExtTreeMap.mem_keys.mp ht)
    refine ⟨?_, (hn t ht).2.2⟩
    rw [hfresh t, ho]
    rfl
  · intro t v hv
    rw [hfresh t, Option.map_eq_some_iff] at hv
    obtain ⟨o, ho, -⟩ := hv
    exact ExtTreeMap.mem_keys.mpr (mem_iff_exists_get.mpr ⟨o, ho⟩)

end KfkClient
