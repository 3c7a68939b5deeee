import KfkClient.Lib.Lists
import KfkClient.Lib.Transition
import KfkClient.Client.Recovery

/-!
# What the message cache of a topic is for

An `Outbox` is the abstract account of one topic: the messages cached on it so far,
the numbers whose delivery was confirmed, and for every message in flight the number
it has on the topic, if any. It knows nothing of keys, counters or databases.
`step_refines` shows that every event of the client keeps the topic's LevelDB
database in agreement with it.
-/

namespace KfkClient

open CLib Lists OrderedMap LevelDb
open Std (ExtTreeMap)

structure Outbox where
  sent : List CString
  acked : Finset ℕ
  topics : List Bytes
  -- `none` stands for a message that this topic's cache has nothing to do with
  flight : List (Option ℕ)
  calls : ℕ

namespace Outbox

def init : Outbox := ⟨[], ∅, [], [], 0⟩

/-- The message that the cache should hold under number `i`: one that was not
confirmed and is among the 50001 latest. -/
def held (o : Outbox) (i : ℕ) : Option CString :=
  if i ∈ o.acked ∨ i + 50001 < o.sent.length then none else o.sent[i]?

def cache (o : Outbox) (msg : CString) : Outbox := { o with sent := o.sent ++ [msg] }

def ack (o : Outbox) (i : ℕ) : Outbox := { o with acked := insert i o.acked }

def confirm (o : Outbox) : Option ℕ → Outbox
  | some i => o.ack i
  | none => o

/-- A message goes to the producer, which drops it when it is empty or its topic
unknown; librdkafka may still refuse it. -/
def handOver (accepts : ℕ → Bool) (o : Outbox) (message topic : Bytes) (tag : Option ℕ) : Outbox :=
  if topic ∈ o.topics ∧ message ≠ [] then
    { o with
      flight := o.flight ++ if accepts o.calls then [tag] else []
      calls := o.calls + 1 }
  else o

def step (t : Topic) (accepts : ℕ → Bool) (o : Outbox) : Event → Outbox
  | .addTopic topic => { o with topics := topic.name.bytes :: o.topics }
  | .sendMsg msg topic => o.handOver accepts msg.bytes topic.name.bytes none
  | .sendMsgWithCache msg topic =>
    if topic.name.bytes = t.name.bytes then
      (o.cache msg).handOver accepts msg.bytes topic.name.bytes (some o.sent.length)
    else o.handOver accepts msg.bytes topic.name.bytes none
  | .receipt i err =>
    let o' := { o with flight := o.flight.eraseIdx i }
    if err then o' else o'.confirm (o.flight[i]?).join
  | .restart => { o with topics := [], flight := [] }
  | .recover order => { o with topics := order ++ o.topics }

/-- The account of a topic after a sequence of events. -/
def after (t : Topic) (accepts : ℕ → Bool) (es : List Event) : Outbox :=
  es.foldl (step t accepts) init

@[simp] theorem handOver_sent (accepts : ℕ → Bool) (o : Outbox) (m x : Bytes) (tag : Option ℕ) :
    (o.handOver accepts m x tag).sent = o.sent := by
  rw [handOver]
  split <;> rfl

@[simp] theorem handOver_acked (accepts : ℕ → Bool) (o : Outbox) (m x : Bytes) (tag : Option ℕ) :
    (o.handOver accepts m x tag).acked = o.acked := by
  rw [handOver]
  split <;> rfl

theorem held_ack (o : Outbox) (i j : ℕ) :
    (o.ack i).held j = if j = i then none else o.held j := by
  by_cases h : j = i
  · simp [held, ack, h]
  · simp [held, ack, h]

theorem held_cache_last {o : Outbox} (h : ∀ i ∈ o.acked, i < o.sent.length) (msg : CString) :
    (o.cache msg).held o.sent.length = some msg := by
  have hn : o.sent.length ∉ o.acked := fun hm => absurd (h _ hm) (lt_irrefl _)
  simp [held, cache, hn]

theorem held_cache_outdated {o : Outbox} {i : ℕ} (h : i + 50000 < o.sent.length) (msg : CString) :
    (o.cache msg).held i = none := by
  have hlt : i + 50001 < o.sent.length + 1 := by omega
  simp [held, cache, hlt]

theorem held_cache_other {o : Outbox} {i : ℕ} (hi : i ≠ o.sent.length)
    (h : ¬ i + 50000 < o.sent.length) (msg : CString) : (o.cache msg).held i = o.held i := by
  have h1 : ¬ i + 50001 < o.sent.length + 1 := by omega
  have h2 : ¬ i + 50001 < o.sent.length := by omega
  have hget : (o.sent ++ [msg])[i]? = o.sent[i]? := by
    by_cases hlt : i < o.sent.length
    · exact List.getElem?_append_left hlt
    · rw [List.getElem?_eq_none (by simp; omega), List.getElem?_eq_none (by omega)]
  simp only [held, cache, List.length_append, List.length_cons, List.length_nil, h1, h2, hget]

theorem held_lt {o : Outbox} {i : ℕ} {m : CString} (h : o.held i = some m) :
    i < o.sent.length := by
  rw [held] at h
  split at h
  · cases h
  · exact (List.getElem?_eq_some_iff.mp h).1

end Outbox

/-! ### The database of the topic -/

/-- The database agrees with the account. -/
structure Caches (t : CString) (o : Outbox) (db : Map) : Prop where
  shaped : Shaped t db
  counts : Counts t db o.sent.length
  fresh : o.sent = [] → db[counterKey t.bytes]? = none
  number : IsNumber o.sent.length
  acked_lt : ∀ i ∈ o.acked, i < o.sent.length
  entry : ∀ i, IsNumber i → db[messageKey t.bytes i]? = (o.held i).map storedBytes

theorem caches_init (t : CString) : Caches t Outbox.init ∅ where
  shaped := shaped_empty t
  counts := by simp [Counts, Outbox.init]
  fresh _ := ExtTreeMap.getElem?_empty
  number := by simp [IsNumber, Outbox.init, llBound]
  acked_lt := by simp [Outbox.init]
  entry := by simp [Outbox.init, Outbox.held]

/-- Only the messages and the confirmations of an account matter to the database. -/
theorem Caches.congr {t : CString} {o o' : Outbox} {db : Map} (h : Caches t o db)
    (hs : o'.sent = o.sent) (ha : o'.acked = o.acked) : Caches t o' db := by
  have hheld : o'.held = o.held := by
    funext i
    rw [Outbox.held, Outbox.held, hs, ha]
  exact ⟨h.shaped, hs ▸ h.counts, hs ▸ h.fresh, hs ▸ h.number, by rw [hs, ha]; exact h.acked_lt,
    by rw [hheld]; exact h.entry⟩

/-- Storing a message under the next number. -/
theorem Caches.store {t : CString} {o : Outbox} {db db' : Map} (h : Caches t o db) {msg : CString}
    (hn : IsNumber (o.sent.length + 1))
    (hs : Stored t (storedBytes msg) o.sent.length db db') : Caches t (o.cache msg) db' := by
  have hlen : (o.cache msg).sent.length = o.sent.length + 1 := by simp [Outbox.cache]
  refine ⟨hs.shaped h.number h.shaped, hlen ▸ hs.counts, ?_, hlen ▸ hn, ?_, ?_⟩
  · simp [Outbox.cache]
  · intro i hi
    rw [hlen]
    exact (h.acked_lt i hi).trans (Nat.lt_succ_self _)
  · intro i hi
    by_cases hin : i = o.sent.length
    · subst hin
      rw [hs.message, Outbox.held_cache_last h.acked_lt]
      rfl
    by_cases hold : i + 50000 < o.sent.length
    · rw [hs.gone i hi hold, Outbox.held_cache_outdated hold]
      rfl
    · rw [Outbox.held_cache_other hin hold, ← h.entry i hi]
      apply hs.kept
      · exact messageKey_ne_counterKey t.bytes _
      · exact fun he => hin ((messageKey_inj hi h.number).mp he)
      · intro j hj hjo he
        have := (messageKey_inj hi hj).mp he
        omega

/-- Erasing the entry of a confirmed number. -/
theorem Caches.ack {t : CString} {o : Outbox} {db : Map} (h : Caches t o db) {i : ℕ}
    (hi : i < o.sent.length) : Caches t (o.ack i) (db.erase (messageKey t.bytes i)) := by
  have hin : IsNumber i := h.number.mono hi.le
  have hne := messageKey_ne_counterKey t.bytes i
  refine ⟨h.shaped.erase _, ?_, ?_, h.number, ?_, ?_⟩
  · rw [Counts, get_erase_of_ne hne]
    exact h.counts
  · intro hnil
    rw [get_erase_of_ne hne]
    exact h.fresh hnil
  · intro j hj
    rcases Finset.mem_insert.mp hj with rfl | hj
    · exact hi
    · exact h.acked_lt j hj
  · intro j hj
    rw [Outbox.held_ack]
    by_cases hji : j = i
    · subst hji
      simp
    · have hk : messageKey t.bytes i ≠ messageKey t.bytes j :=
        fun he => hji ((messageKey_inj hin hj).mp he).symm
      rw [get_erase_of_ne hk, if_neg hji, h.entry j hj]

/-! ### The whole client -/

/-- A message in flight delivers the number it is tagged with, out of `n` given out. -/
def Delivers (t : CString) (n : ℕ) (wire : Wire) : Option ℕ → Prop
  | some i => wire.topic = t.bytes ∧ wire.key = keystr i ∧ i < n
  | none => wire.topic ≠ t.bytes

theorem Delivers.mono {t : CString} {n m : ℕ} (hnm : n ≤ m) {wire : Wire} {tag : Option ℕ}
    (h : Delivers t n wire tag) : Delivers t m wire tag := by
  cases tag with
  | none => exact h
  | some i => exact ⟨h.1, h.2.1, h.2.2.trans_le hnm⟩

structure Refines (t : CString) (w : World Map) (o : Outbox) : Prop where
  caches : Caches t o (w.db levelDb t.bytes)
  flight : List.Forall₂ (Delivers t o.sent.length) w.inflight o.flight
  topics : ∀ x, x ≠ [] → (x ∈ w.topics ↔ x ∈ o.topics)
  calls : o.calls = w.produced.length

theorem refines_init (t : CString) : Refines t World.init Outbox.init where
  caches := by
    have hdb : (World.init : World Map).db levelDb t.bytes = ∅ := by
      simp [World.db, World.init, levelDb]
    rw [hdb]
    exact caches_init t
  flight := List.Forall₂.nil
  topics := by simp [World.init, Outbox.init]
  calls := rfl

theorem Refines.handOver {t : CString} {w : World Map} {o : Outbox} (h : Refines t w o)
    (accepts : ℕ → Bool) {message topic : Bytes} {nkey : ℤ} {tag : Option ℕ} (htop : topic ≠ [])
    (htag : Delivers t o.sent.length ⟨topic, payloadOf message, keystr nkey⟩ tag) :
    Refines t (w.handOver accepts message topic nkey)
      (o.handOver accepts message topic tag) := by
  have hmem := h.topics topic htop
  refine ⟨?_, ?_, ?_, ?_⟩
  · rw [World.handOver_db]
    exact h.caches.congr (Outbox.handOver_sent ..) (Outbox.handOver_acked ..)
  · rw [Outbox.handOver_sent, World.handOver, Outbox.handOver, h.calls]
    by_cases hp : topic ∈ w.topics ∧ message ≠ []
    · have hq : topic ∈ o.topics ∧ message ≠ [] := ⟨hmem.mp hp.1, hp.2⟩
      rw [if_pos hp, if_pos hq]
      refine List.rel_append h.flight ?_
      cases accepts w.produced.length
      · exact .nil
      · exact .cons htag .nil
    · have hq : ¬ (topic ∈ o.topics ∧ message ≠ []) := fun hq => hp ⟨hmem.mpr hq.1, hq.2⟩
      rw [if_neg hp, if_neg hq]
      exact h.flight
  · intro x hx
    rw [World.handOver_topics, h.topics x hx, Outbox.handOver]
    split <;> rfl
  · rw [World.handOver, Outbox.handOver]
    by_cases hp : topic ∈ w.topics ∧ message ≠ []
    · have hq : topic ∈ o.topics ∧ message ≠ [] := ⟨hmem.mp hp.1, hp.2⟩
      rw [if_pos hp, if_pos hq]
      simp [h.calls]
    · have hq : ¬ (topic ∈ o.topics ∧ message ≠ []) := fun hq => hp ⟨hmem.mpr hq.1, hq.2⟩
      rw [if_neg hp, if_neg hq]
      exact h.calls

theorem Topic.ne_nil (t : Topic) : t.name.bytes ≠ [] := t.legal.nonempty

/-- A call on the topic stores its message under the next number and hands it over
with that number. -/
theorem Refines.sendMsgWithCache {t : Topic} {w w' : World Map} {o : Outbox}
    (h : Refines t.name w o) {accepts : ℕ → Bool} {msg : CString} {topic : Topic}
    (htop : topic.name.bytes = t.name.bytes)
    (hstep : KfkClient.step levelDb accepts w (.sendMsgWithCache msg topic) = some w') :
    Refines t.name w' ((o.cache msg).handOver accepts msg.bytes topic.name.bytes
      (some o.sent.length)) := by
  obtain ⟨num, s, hs, rfl⟩ := step_sendMsgWithCache_iff.mp hstep
  have hname : topic.name = t.name := CString.ext htop
  rw [hname] at hs ⊢
  obtain ⟨rfl, hn, hst⟩ := storeMsg_stores levelDb_faithful t.legal.cacheable
    (keysOk_all t.name) h.caches.number h.caches.shaped h.caches.counts hs
  rw [id_eq] at hst
  have hlen : (o.cache msg).sent.length = o.sent.length + 1 := by simp [Outbox.cache]
  have htag : Delivers t.name (o.cache msg).sent.length
      ⟨t.name.bytes, payloadOf msg.bytes, keystr o.sent.length⟩ (some o.sent.length) :=
    ⟨rfl, rfl, by rw [hlen]; exact Nat.lt_succ_self _⟩
  have hR : Refines t.name (w.setDb t.name.bytes s) (o.cache msg) := by
    refine ⟨?_, ?_, h.topics, h.calls⟩
    · rw [World.db_setDb_self]
      exact h.caches.store hn hst
    · refine h.flight.imp fun wire tag hd => hd.mono ?_
      rw [hlen]
      exact Nat.le_succ _
  exact hR.handOver accepts t.ne_nil htag

/-- A receipt erases the entry of the number it delivers, or leaves the topic alone. -/
theorem Refines.receipt {t : Topic} {w w' : World Map} {o : Outbox} (h : Refines t.name w o)
    {accepts : ℕ → Bool} {i : ℕ} {err : Bool}
    (hstep : KfkClient.step levelDb accepts w (.receipt i err) = some w') :
    Refines t.name w' (o.step t accepts (.receipt i err)) := by
  obtain ⟨wire, hw, hcase⟩ := step_receipt hstep
  obtain ⟨tag, htag, hdel⟩ := forall₂_getElem h.flight hw
  have hflight := forall₂_eraseIdx h.flight i
  rcases hcase with ⟨rfl, rfl⟩ | ⟨rfl, rc, s, hs, rfl⟩
  · exact ⟨h.caches.congr rfl rfl, hflight, h.topics, h.calls⟩
  simp only [Outbox.step, htag, Option.join_some, Bool.false_eq_true, if_false]
  cases tag with
  | none =>
    refine ⟨?_, hflight, h.topics, h.calls⟩
    rw [World.db_setDb_of_ne levelDb _ _ hdel]
    exact h.caches.congr rfl rfl
  | some n =>
    obtain ⟨htop, hkey, hlt⟩ := hdel
    have hn : IsNumber n := h.caches.number.mono hlt.le
    obtain ⟨rc', hrun⟩ := sendMsgCallback_run levelDb_faithful hn t.legal.cacheable.length_le
      trivial (w.db levelDb t.name.bytes)
    rw [hkey, receiptNumber_keystr hn, htop, hrun] at hs
    cases hs
    rw [htop]
    refine ⟨?_, hflight, h.topics, h.calls⟩
    rw [World.db_setDb_self]
    exact (h.caches.ack hlt).congr rfl rfl

/-- **Refinement**: one event of the client is one event of the account, as long as
the topic is used through its cache only. -/
theorem step_refines {t : Topic} {w w' : World Map} {o : Outbox} (h : Refines t.name w o)
    {accepts : ℕ → Bool} {e : Event}
    (hplain : ∀ msg topic, e = .sendMsg msg topic → topic.name.bytes ≠ t.name.bytes)
    (hstep : KfkClient.step levelDb accepts w e = some w') :
    Refines t.name w' (o.step t accepts e) := by
  cases e with
  | addTopic topic =>
    obtain ⟨topics, rfl, htop⟩ := step_addTopic hstep
    refine ⟨h.caches.congr rfl rfl, h.flight, ?_, h.calls⟩
    intro x hx
    simp only [htop, Outbox.step, List.mem_cons, h.topics x hx]
    exact or_comm
  | sendMsg msg topic =>
    rw [step_sendMsg hstep]
    exact h.handOver accepts topic.ne_nil (hplain msg topic rfl)
  | sendMsgWithCache msg topic =>
    rw [Outbox.step]
    by_cases htop : topic.name.bytes = t.name.bytes
    · rw [if_pos htop]
      exact h.sendMsgWithCache htop hstep
    · obtain ⟨num, s, -, rfl⟩ := step_sendMsgWithCache_iff.mp hstep
      have hR : Refines t.name (w.setDb topic.name.bytes s) o := by
        refine ⟨?_, h.flight, h.topics, h.calls⟩
        rw [World.db_setDb_of_ne levelDb _ _ htop]
        exact h.caches
      have htag : Delivers t.name o.sent.length
          ⟨topic.name.bytes, payloadOf msg.bytes, keystr num⟩ none := htop
      rw [if_neg htop]
      exact hR.handOver accepts topic.ne_nil htag
  | receipt i err => exact h.receipt hstep
  | restart =>
    rw [step_restart hstep]
    exact ⟨h.caches.congr rfl rfl, .nil, fun x _ => Iff.rfl, h.calls⟩
  | recover order =>
    have hadd := step_recover_levelDb hstep
    refine ⟨?_, hadd.inflight ▸ h.flight, ?_, hadd.produced ▸ h.calls⟩
    · rw [hadd.db]
      exact h.caches.congr rfl rfl
    · intro x hx
      rw [hadd.topics x hx, h.topics x hx, Outbox.step, List.mem_append]
      exact or_comm

/-- Every run that uses the topic through its cache only keeps the database in
agreement with the account. -/
theorem run_refines (t : Topic) {accepts : ℕ → Bool} {es : List Event} {w : World Map}
    (hplain : ∀ msg topic, .sendMsg msg topic ∈ es → topic.name.bytes ≠ t.name.bytes)
    (h : Transition.run (step levelDb accepts) World.init es = some w) :
    Refines t.name w (Outbox.after t accepts es) := by
  have hP : ∀ e ∈ es, ∀ msg topic, e = .sendMsg msg topic → topic.name.bytes ≠ t.name.bytes := by
    rintro e he msg topic rfl
    exact hplain msg topic he
  show Refines t.name w (es.foldl (Outbox.step t accepts) Outbox.init)
  refine Transition.Along.simulates (R := Refines t.name) ?_
    (Transition.along_of_forall hP World.init) (refines_init t.name) h
  intro s a e s' hR hp hs
  exact step_refines hR hp hs

end KfkClient
