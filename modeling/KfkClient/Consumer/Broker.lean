import KfkClient.Consumer.Machine

/-!
# A broker behind the consumer

Partitions are logs of payloads; the offset of a message is its place in the log.
Before every call of the consumer any messages may be appended anywhere, and a message
that is in the log may or may not have arrived when it is polled for. No event but a
message is ever returned.
-/

namespace KfkClient

open CLib OrderedMap
open Std (ExtTreeMap)

/-- One `rd_kafka_consume_start`: the end of the log at that time, and the offset that
consumption starts at. -/
structure Start where
  logEnd : ℕ
  position : ℕ
  deriving DecidableEq, Repr

structure Partition where
  log : List Bytes
  -- the offset that is consumed next
  position : ℕ
  starts : List Start

abbrev Broker := Bytes → ℕ → Partition

/-- What happens before a call: messages are appended to partitions of topics, and the
one that is polled for arrives or not. -/
structure Tick where
  appends : List (Bytes × ℕ × Bytes)
  arrives : Bool

/-- Nothing is appended, and what is polled for arrives. -/
def arriving : Bytes → Tick := fun _ => ⟨[], true⟩

def Broker.update (b : Broker) (topic : Bytes) (partition : ℕ) (x : Partition) : Broker :=
  fun t p => if t = topic ∧ p = partition then x else b t p

def Broker.append (b : Broker) : Bytes × ℕ × Bytes → Broker
  | (topic, partition, payload) => b.update topic partition
      { b topic partition with log := (b topic partition).log ++ [payload] }

def Broker.appendAll (b : Broker) (appends : List (Bytes × ℕ × Bytes)) : Broker :=
  appends.foldl Broker.append b

/-- What an offset stands for when the log ends at `logEnd`: itself, a distance from the
end, the beginning or the end. -/
def resolveOffset (logEnd : ℕ) (offset : ℤ) : Option ℕ :=
  if 0 ≤ offset then some offset.toNat
  else if offset ≤ offsetTailBase then some (logEnd - (offsetTailBase - offset).toNat)
  else if offset = -2 then some 0
  else if offset = -1 then some logEnd
  else none

def broker : Kafka Broker Tick where
  consumeStart topic partition offset tick b :=
    let b := b.appendAll tick.appends
    let x := b topic partition
    (resolveOffset x.log.length offset).map fun position =>
      b.update topic partition
        { x with position := position, starts := x.starts ++ [⟨x.log.length, position⟩] }
  consume topic partition tick b :=
    let b := b.appendAll tick.appends
    let x := b topic partition
    match if tick.arrives then x.log[x.position]? else none with
    | some payload =>
      (some ⟨0, payload, x.position⟩,
        b.update topic partition { x with position := x.position + 1 })
    | none => (none, b)

/-! ### What a call does to a partition -/

/-- The log may have got longer and nothing else has changed. -/
structure Grows (x x' : Partition) : Prop where
  log : x.log <+: x'.log
  position : x'.position = x.position
  starts : x'.starts = x.starts

theorem Grows.refl (x : Partition) : Grows x x := ⟨List.prefix_rfl, rfl, rfl⟩

theorem Grows.trans {x y z : Partition} (h : Grows x y) (h' : Grows y z) : Grows x z :=
  ⟨h.log.trans h'.log, h'.position.trans h.position, h'.starts.trans h.starts⟩

@[simp] theorem Broker.update_self (b : Broker) (topic : Bytes) (partition : ℕ) (x : Partition) :
    b.update topic partition x topic partition = x := if_pos ⟨rfl, rfl⟩

theorem Broker.update_of_ne (b : Broker) {topic t : Bytes} {partition p : ℕ} (x : Partition)
    (h : ¬ (t = topic ∧ p = partition)) : b.update topic partition x t p = b t p := if_neg h

theorem append_grows (b : Broker) (a : Bytes × ℕ × Bytes) (t : Bytes) (p : ℕ) :
    Grows (b t p) (b.append a t p) := by
  obtain ⟨topic, partition, payload⟩ := a
  rw [Broker.append]
  by_cases h : t = topic ∧ p = partition
  · obtain ⟨rfl, rfl⟩ := h
    rw [Broker.update_self]
    exact ⟨List.prefix_append _ _, rfl, rfl⟩
  · rw [Broker.update_of_ne b _ h]
    exact .refl _

theorem appendAll_grows (b : Broker) (appends : List (Bytes × ℕ × Bytes)) (t : Bytes) (p : ℕ) :
    Grows (b t p) (b.appendAll appends t p) := by
  induction appends generalizing b with
  | nil => exact .refl _
  | cons a appends ih => exact (append_grows b a t p).trans (ih (b.append a))

/-- A poll moves the position of the polled partition over the message it returns. -/
structure Consumed (x x' : Partition) (m : Rkmessage) : Prop where
  log : x.log <+: x'.log
  message : ∃ payload, m = ⟨0, payload, x.position⟩ ∧ x'.log[x.position]? = some payload
  position : x'.position = x.position + 1
  starts : x'.starts = x.starts

theorem consume_none {topic : Bytes} {partition : ℕ} {tick : Tick} {b b' : Broker}
    (h : broker.consume topic partition tick b = (none, b')) (t : Bytes) (p : ℕ) :
    Grows (b t p) (b' t p) := by
  simp only [broker] at h
  split at h
  · cases h
  · cases h
    exact appendAll_grows b tick.appends t p

theorem consume_some {topic : Bytes} {partition : ℕ} {tick : Tick} {b b' : Broker} {m : Rkmessage}
    (h : broker.consume topic partition tick b = (some m, b')) :
    Consumed (b topic partition) (b' topic partition) m ∧
      ∀ t p, ¬ (t = topic ∧ p = partition) → Grows (b t p) (b' t p) := by
  have hgrow := appendAll_grows b tick.appends
  simp only [broker] at h
  split at h
  swap
  · cases h
  next payload hpay =>
    cases h
    have hg := hgrow topic partition
    have hget : (b.appendAll tick.appends topic partition).log[
        (b.appendAll tick.appends topic partition).position]? = some payload := by
      split at hpay
      · exact hpay
      · cases hpay
    refine ⟨⟨?_, ⟨payload, ?_, ?_⟩, ?_, ?_⟩, ?_⟩
    · rw [Broker.update_self]
      exact hg.log
    · rw [hg.position]
    · rw [Broker.update_self, ← hg.position]
      exact hget
    · rw [Broker.update_self, ← hg.position]
    · rw [Broker.update_self]
      exact hg.starts
    · intro t p hne
      rw [Broker.update_of_ne _ _ hne]
      exact hgrow t p

/-- A start moves the position of its partition to the offset it was given. -/
structure StartedAt (offset : ℤ) (x x' : Partition) (start : Start) : Prop where
  log : x.log <+: x'.log
  logEnd : x.log.length ≤ start.logEnd ∧ start.logEnd ≤ x'.log.length
  resolved : resolveOffset start.logEnd offset = some start.position
  position : x'.position = start.position
  starts : x'.starts = x.starts ++ [start]

theorem StartedAt.grows {offset : ℤ} {x y z w : Partition} {start : Start} (h : Grows x y)
    (hs : StartedAt offset y z start) (h' : Grows z w) : StartedAt offset x w start := by
  have h1 := h.log.length_le
  have h2 := h'.log.length_le
  refine ⟨h.log.trans (hs.log.trans h'.log), ⟨h1.trans hs.logEnd.1, hs.logEnd.2.trans h2⟩,
    hs.resolved, h'.position.trans hs.position, ?_⟩
  rw [h'.starts, hs.starts, h.starts]

theorem consumeStart_some {topic : Bytes} {partition : ℕ} {offset : ℤ} {tick : Tick}
    {b b' : Broker} (h : broker.consumeStart topic partition offset tick b = some b') :
    (∃ start, StartedAt offset (b topic partition) (b' topic partition) start) ∧
      ∀ t p, ¬ (t = topic ∧ p = partition) → Grows (b t p) (b' t p) := by
  have hgrow := appendAll_grows b tick.appends
  simp only [broker, Option.map_eq_some_iff] at h
  obtain ⟨position, hres, rfl⟩ := h
  have hg := hgrow topic partition
  constructor
  · refine ⟨⟨_, position⟩, ?_, ⟨hg.log.length_le, ?_⟩, hres, ?_, ?_⟩
    · rw [Broker.update_self]
      exact hg.log
    · rw [Broker.update_self]
    · rw [Broker.update_self]
    · rw [Broker.update_self, hg.starts]
  · intro t p hne
    rw [Broker.update_of_ne _ _ hne]
    exact hgrow t p

theorem startAll_grows {tick : Bytes → Tick} {l : List (Bytes × ℤ)} {b b' : Broker}
    (h : startAll broker tick l b = some b') {t : Bytes} {p : ℕ}
    (hout : p = 0 → t ∉ l.map Prod.fst) : Grows (b t p) (b' t p) := by
  induction l generalizing b with
  | nil =>
    cases h
    exact .refl _
  | cons sub l ih =>
    obtain ⟨topic, offset⟩ := sub
    obtain ⟨m, hm, h⟩ := Option.bind_eq_some_iff.mp h
    have hfirst := (consumeStart_some hm).2 t p (fun he => hout he.2 (he.1 ▸ List.mem_cons_self))
    exact hfirst.trans (ih h fun hp hmem => hout hp (List.mem_cons_of_mem _ hmem))

/-- Starting every topic of a list starts each of them once. -/
theorem startAll_started {tick : Bytes → Tick} {l : List (Bytes × ℤ)} {b b' : Broker}
    (hnd : (l.map Prod.fst).Nodup) (h : startAll broker tick l b = some b') {t : Bytes}
    {offset : ℤ} (hmem : (t, offset) ∈ l) :
    ∃ start, StartedAt offset (b t 0) (b' t 0) start := by
  induction l generalizing b with
  | nil => cases hmem
  | cons sub l ih =>
    obtain ⟨topic, off⟩ := sub
    obtain ⟨m, hm, hrest⟩ := Option.bind_eq_some_iff.mp h
    obtain ⟨hnot, hnd⟩ := List.nodup_cons.mp hnd
    obtain ⟨⟨start, hstart⟩, hother⟩ := consumeStart_some hm
    rcases List.mem_cons.mp hmem with he | hin
    · cases he
      exact ⟨start, .grows (.refl _) hstart (startAll_grows hrest fun _ => hnot)⟩
    · have hne : ¬ (t = topic ∧ 0 = 0) := by
        rintro ⟨rfl, -⟩
        exact hnot (List.mem_map.mpr ⟨_, hin, rfl⟩)
      obtain ⟨start', hstart'⟩ := ih hnd hrest hin
      exact ⟨start', .grows (hother t 0 hne) hstart' (.refl _)⟩

/-! ### What the loops do to a partition -/

section Loops

variable {τ : Type} (callback : Bytes → Rkmessage → τ → τ)

/-- Polling starts nothing and takes nothing from a log. -/
theorem pollAll_keeps (tick : Bytes → Tick) (topics : List Bytes) (s : τ) (b : Broker) (t : Bytes)
    (p : ℕ) :
    ((pollAll broker callback tick topics s b).2 t p).starts = (b t p).starts ∧
      (b t p).log <+: ((pollAll broker callback tick topics s b).2 t p).log := by
  refine pollAll_invariant
    (P := fun _ (b' : Broker) => (b' t p).starts = (b t p).starts ∧ (b t p).log <+: (b' t p).log)
    ?_ ?_ ⟨rfl, List.prefix_rfl⟩
  · intro topic _ s b1 m b2 hP hc
    obtain ⟨hcons, hother⟩ := consume_some hc
    by_cases he : t = topic ∧ p = 0
    · obtain ⟨rfl, rfl⟩ := he
      exact ⟨hcons.starts.trans hP.1, hP.2.trans hcons.log⟩
    · have hg := hother t p he
      exact ⟨hg.starts.trans hP.1, hP.2.trans hg.log⟩
  · intro topic _ s b1 b2 hP hc
    have hg := consume_none hc t p
    exact ⟨hg.starts.trans hP.1, hP.2.trans hg.log⟩

end Loops

theorem getEofLoop_keeps {topics : List Bytes} {rounds : List (Bytes → Tick)}
    {eof eof' : EofTable} {b b' : Broker} {rest : Option (List (Bytes → Tick))}
    (h : getEofLoop broker topics rounds eof b = (eof', b', rest)) (t : Bytes) (p : ℕ) :
    (b' t p).starts = (b t p).starts ∧ (b t p).log <+: (b' t p).log := by
  refine (getEofLoop_invariant
    (P := fun _ (b' : Broker) => (b' t p).starts = (b t p).starts ∧ (b t p).log <+: (b' t p).log)
    ?_ ⟨rfl, List.prefix_rfl⟩ h).1
  intro tick eof b1 hP
  have hk := pollAll_keeps getEofCallback tick topics eof b1 t p
  exact ⟨hk.1.trans hP.1, hP.2.trans hk.2⟩

theorem consumeLoop_keeps (c : Consumer) (rounds : List (Bytes → Tick)) (calls : List CgoCall)
    (b : Broker) (t : Bytes) (p : ℕ) :
    ((consumeLoop broker c rounds calls b).2 t p).starts = (b t p).starts ∧
      (b t p).log <+: ((consumeLoop broker c rounds calls b).2 t p).log := by
  refine consumeLoop_invariant
    (P := fun _ (b' : Broker) => (b' t p).starts = (b t p).starts ∧ (b t p).log <+: (b' t p).log)
    ?_ rounds ⟨rfl, List.prefix_rfl⟩
  intro tick calls b1 hP
  have hk := pollAll_keeps
    (fun topic m calls => calls ++ [consumerCallback c.hashcode topic m]) tick c.topics.keys calls
    b1 t p
  exact ⟨hk.1.trans hP.1, hP.2.trans hk.2⟩

/-! ### The two starts of a topic -/

theorem resolveOffset_tail (logEnd k : ℕ) :
    resolveOffset logEnd (offsetTailBase - k) = some (logEnd - k) := by
  have h1 : ¬ 0 ≤ offsetTailBase - k := by
    simp only [offsetTailBase]
    omega
  have h2 : offsetTailBase - k ≤ offsetTailBase := by omega
  rw [resolveOffset, if_neg h1, if_pos h2]
  simp

theorem resolveOffset_absolute (logEnd o : ℕ) : resolveOffset logEnd o = some o := by
  rw [resolveOffset, if_pos (Int.natCast_nonneg o), Int.toNat_natCast]

section Starts

variable {c : Consumer} {tick : Bytes → Tick} {b b' : Broker} {t : Bytes} {o : ℤ}

/-- `get_eof` starts every topic at its last message. -/
theorem probe_started
    (h : startAll broker tick (c.topics.keys.map fun topic => (topic, offsetTailBase - 1)) b =
      some b') (ht : c.topics[t]? = some o) :
    ∃ start, StartedAt (offsetTailBase - 1) (b t 0) (b' t 0) start ∧
      start.position = start.logEnd - 1 := by
  have hnames : (c.topics.keys.map fun topic => (topic, offsetTailBase - 1)).map Prod.fst =
      c.topics.keys := by
    rw [List.map_map]
    exact List.map_id _
  have hkey : t ∈ c.topics.keys := ExtTreeMap.mem_keys.mpr (mem_iff_exists_get.mpr ⟨o, ht⟩)
  obtain ⟨start, hstart⟩ := startAll_started (by rw [hnames]; exact nodup_keys c.topics) h
    (List.mem_map.mpr ⟨t, hkey, rfl⟩)
  refine ⟨start, hstart, ?_⟩
  have hres := hstart.resolved
  rw [← Nat.cast_one, resolveOffset_tail] at hres
  exact (Option.some.inj hres).symm

/-- `start_consumer` starts every topic at the offset it chose. -/
theorem topics_started {eof : EofTable}
    (h : startAll broker tick (startOffsets c eof) b = some b') (ht : c.topics[t]? = some o) :
    ∃ start, StartedAt (startOffset eof t o) (b t 0) (b' t 0) start := by
  refine startAll_started ?_ h (mem_startOffsets ht eof)
  rw [startOffsets_names]
  exact nodup_keys c.topics

end Starts

end KfkClient
