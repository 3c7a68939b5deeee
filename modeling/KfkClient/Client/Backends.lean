import KfkClient.Lib.Transition
import KfkClient.Client.World
import KfkClient.Store.LevelDb
import KfkClient.Store.Lmdb

/-!
# The two backends under the cache protocol

One topic on one database, used by a single thread: calls of `send_msg_with_cache`
and receipts of the messages they numbered. Two backends that are faithful to an
ordered map on the keys of the topic and store its messages alike stay in agreement
on every such run; LevelDB and LMDB are an instance.
-/

namespace KfkClient

open CLib OrderedMap
open Std (ExtTreeMap)

/-- A database and the numbers that the calls so far were given. -/
structure CacheState (σ : Type) where
  db : σ
  numbers : List ℤ

inductive CacheEvent where
  | send (msg : CString)
  -- the successful receipt of the message of an earlier call
  | receipt (j : ℕ)

def CacheState.fresh {σ : Type} (B : Opdb σ) : CacheState σ := ⟨B.fresh, []⟩

/-- One event of the cache protocol; the receipt comes back with the key bytes that
the producer sent along. -/
def cacheStep {σ : Type} (B : Opdb σ) (topic : CString) (c : CacheState σ) :
    CacheEvent → Option (CacheState σ)
  | .send msg =>
    (returned (storeMsg B msg topic) c.db).map fun r => ⟨r.2, c.numbers ++ [r.1]⟩
  | .receipt j =>
    (c.numbers[j]?).bind fun num =>
      (returned (sendMsgCallback B topic.bytes (receiptNumber (keystr num))) c.db).map
        fun r => { c with db := r.2 }

theorem cacheStep_send {σ : Type} (B : Opdb σ) (topic : CString) (c : CacheState σ)
    (msg : CString) : cacheStep B topic c (.send msg) =
      (returned (storeMsg B msg topic) c.db).map fun r => ⟨r.2, c.numbers ++ [r.1]⟩ := by
  rw [cacheStep]

/-- Both caches gave out the same numbers and hold the same message entries. -/
structure SameCache (topic : CString) (a b : CacheState Map) : Prop where
  numbers : a.numbers = b.numbers
  entries : ∀ k, k ≠ counterKey topic.bytes → a.db[k]? = b.db[k]?

/-- A cache after `n` calls. -/
structure Serving (topic : CString) (n : ℕ) (c : CacheState Map) : Prop where
  shaped : Shaped topic c.db
  counts : Counts topic c.db n
  number : IsNumber n
  numbers : c.numbers = (List.range n).map fun i : ℕ => (i : ℤ)

theorem serving_fresh {B : Opdb Map} {ok : Bytes → Prop} {enc : Bytes → Bytes}
    (F : B.Faithful ok enc) (topic : CString) :
    Serving topic 0 (CacheState.fresh B) := by
  refine ⟨?_, ?_, isNumber_of_lt (by decide), rfl⟩
  · rw [CacheState.fresh, F.fresh]
    exact shaped_empty topic
  · rw [CacheState.fresh, F.fresh]
    simp [Counts]

theorem cacheStep_receipt_none (B : Opdb Map) {topic : CString} {n : ℕ} {c : CacheState Map}
    (h : Serving topic n c) {j : ℕ}
    (hj : ¬ j < n) : cacheStep B topic c (.receipt j) = none := by
  have hnum : c.numbers[j]? = none := by
    rw [h.numbers]
    exact List.getElem?_eq_none (by simpa using hj)
  rw [cacheStep, hnum, Option.bind_none]

section Faithful

variable {B : Opdb Map} {ok : Bytes → Prop} {enc : Bytes → Bytes} (F : B.Faithful ok enc)
  {topic : CString} (ht : Cacheable topic) (hfit : topic.bytes.length ≤ 235) (hK : KeysOk ok topic)
include F ht hK

theorem serving_receipt {n : ℕ} {c : CacheState Map} (h : Serving topic n c) {j : ℕ} (hj : j < n) :
    cacheStep B topic c (.receipt j) =
        some { c with db := c.db.erase (messageKey topic.bytes j) } ∧
      Serving topic n { c with db := c.db.erase (messageKey topic.bytes j) } := by
  have hjn : IsNumber j := h.number.mono hj.le
  have hnum : c.numbers[j]? = some (j : ℤ) := by
    rw [h.numbers, List.getElem?_map, List.getElem?_range hj]
    rfl
  obtain ⟨rc, hrun⟩ := sendMsgCallback_run F hjn ht.length_le (hK.message hjn) c.db
  refine ⟨?_, h.shaped.erase _, ?_, h.number, h.numbers⟩
  · rw [cacheStep, hnum, Option.bind_some, receiptNumber_keystr hjn, returned_eq_some.mpr hrun,
      Option.map_some]
  · rw [Counts, get_erase_of_ne (messageKey_ne_counterKey topic.bytes _)]
    exact h.counts

theorem serving_send_of_some {n : ℕ} {c c' : CacheState Map} (h : Serving topic n c)
    {msg : CString} (hs : cacheStep B topic c (.send msg) = some c') :
    IsNumber (n + 1) ∧ Serving topic (n + 1) c' ∧
      Stored topic (enc (storedBytes msg)) n c.db c'.db := by
  rw [cacheStep_send, Option.map_eq_some_iff] at hs
  obtain ⟨⟨num, db⟩, hret, rfl⟩ := hs
  have hrun := returned_eq_some.mp hret
  obtain ⟨rfl, hn, hst⟩ := storeMsg_stores F ht hK h.number h.shaped h.counts hrun
  refine ⟨hn, ⟨hst.shaped h.number h.shaped, hst.counts, hn, ?_⟩, hst⟩
  rw [h.numbers, List.range_succ, List.map_append]
  rfl

include hfit in
theorem serving_send {n : ℕ} {c : CacheState Map} (h : Serving topic n c) {msg : CString}
    (hm : msg.bytes.length ≤ 1023) (hn : IsNumber (n + 1)) :
    ∃ c', cacheStep B topic c (.send msg) = some c' := by
  have hm' : 0 ≤ toInt msg.bytes.length := by
    rw [toInt_of_lt (by omega)]
    omega
  obtain ⟨s, hs⟩ := storeMsg_returns F ht (.inl hfit) hK hn h.shaped h.counts hm'
  refine ⟨⟨s, c.numbers ++ [(n : ℤ)]⟩, ?_⟩
  rw [cacheStep_send, returned_eq_some.mpr hs, Option.map_some]

end Faithful

/-- Two caches that hold the same entries and stored the same message hold the same
entries again. -/
theorem Stored.same {topic : CString} {val : Bytes} {n : ℕ} {s s' r r' : Map}
    (hs : Stored topic val n s s') (hr : Stored topic val n r r')
    (h : ∀ k, k ≠ counterKey topic.bytes → s[k]? = r[k]?) :
    ∀ k, k ≠ counterKey topic.bytes → s'[k]? = r'[k]? := by
  intro k hc
  by_cases hk : k = messageKey topic.bytes n
  · rw [hk, hs.message, hr.message]
  by_cases hold : ∃ i, IsNumber i ∧ i + 50000 < n ∧ k = messageKey topic.bytes i
  · obtain ⟨i, hi, hin, rfl⟩ := hold
    rw [hs.gone i hi hin, hr.gone i hi hin]
  · have hkeep : ∀ i, IsNumber i → i + 50000 < n → k ≠ messageKey topic.bytes i :=
      fun i hi hin he => hold ⟨i, hi, hin, he⟩
    rw [hs.kept k hc hk hkeep, hr.kept k hc hk hkeep, h k hc]

/-! ### Two backends side by side -/

structure Agree (topic : CString) (n : ℕ) (a b : CacheState Map) : Prop where
  left : Serving topic n a
  right : Serving topic n b
  entries : ∀ k, k ≠ counterKey topic.bytes → a.db[k]? = b.db[k]?

theorem Agree.same {topic : CString} {n : ℕ} {a b : CacheState Map} (h : Agree topic n a b) :
    SameCache topic a b :=
  ⟨h.left.numbers.trans h.right.numbers.symm, h.entries⟩

/-- Every receipt is for a call made before it; `n` calls were made already. -/
def ReceiptsFollow : ℕ → List CacheEvent → Prop
  | _, [] => True
  | n, .send _ :: es => ReceiptsFollow (n + 1) es
  | n, .receipt j :: es => j < n ∧ ReceiptsFollow n es

section TwoBackends

variable {A B : Opdb Map} {okA okB : Bytes → Prop} {encA encB : Bytes → Bytes}
  (FA : A.Faithful okA encA) (FB : B.Faithful okB encB) {topic : CString} (ht : Cacheable topic)
  (hfit : topic.bytes.length ≤ 235) (hA : KeysOk okA topic) (hB : KeysOk okB topic)
  (henc : ∀ msg : CString, msg.bytes.length ≤ 1023 →
    encA (storedBytes msg) = encB (storedBytes msg))
include FA FB ht hfit hA hB henc

/-- One event takes agreeing caches to agreeing caches, or is impossible on both. -/
theorem agree_step {n : ℕ} {a b : CacheState Map} (h : Agree topic n a b) {e : CacheEvent}
    (he : ∀ msg, e = .send msg → msg.bytes.length ≤ 1023) :
    Option.Rel (fun a' b' => ∃ n', Agree topic n' a' b')
      (cacheStep A topic a e) (cacheStep B topic b e) := by
  cases e with
  | send msg =>
    have hm := he msg rfl
    by_cases hn : IsNumber (n + 1)
    · obtain ⟨a', ha'⟩ := serving_send FA ht hfit hA h.left hm hn
      obtain ⟨b', hb'⟩ := serving_send FB ht hfit hB h.right hm hn
      obtain ⟨-, hsa, hsta⟩ := serving_send_of_some FA ht hA h.left ha'
      obtain ⟨-, hsb, hstb⟩ := serving_send_of_some FB ht hB h.right hb'
      rw [← henc msg hm] at hstb
      rw [ha', hb']
      exact .some ⟨n + 1, hsa, hsb, hsta.same hstb h.entries⟩
    · -- the next number does not fit into a `long long`
      have hna : cacheStep A topic a (.send msg) = none :=
        Option.eq_none_iff_forall_ne_some.mpr fun a' ha' =>
          hn (serving_send_of_some FA ht hA h.left ha').1
      have hnb : cacheStep B topic b (.send msg) = none :=
        Option.eq_none_iff_forall_ne_some.mpr fun b' hb' =>
          hn (serving_send_of_some FB ht hB h.right hb').1
      rw [hna, hnb]
      exact .none
  | receipt j =>
    by_cases hj : j < n
    · obtain ⟨ha, hsa⟩ := serving_receipt FA ht hA h.left hj
      obtain ⟨hb, hsb⟩ := serving_receipt FB ht hB h.right hj
      rw [ha, hb]
      refine .some ⟨n, hsa, hsb, ?_⟩
      intro k hk
      rw [ExtTreeMap.getElem?_erase, ExtTreeMap.getElem?_erase, h.entries k hk]
    · rw [cacheStep_receipt_none A h.left hj, cacheStep_receipt_none B h.right hj]
      exact .none

theorem agree_run {n : ℕ} {a b : CacheState Map} (h : Agree topic n a b) {es : List CacheEvent}
    (hes : ∀ msg, .send msg ∈ es → msg.bytes.length ≤ 1023) :
    Option.Rel (fun a' b' => ∃ n', Agree topic n' a' b')
      (Transition.run (cacheStep A topic) a es) (Transition.run (cacheStep B topic) b es) := by
  have hP : ∀ e ∈ es, ∀ msg, e = .send msg → msg.bytes.length ≤ 1023 := by
    rintro e he msg rfl
    exact hes msg he
  refine Transition.run_rel ?_ hP ⟨n, h⟩
  rintro a b e ⟨m, hm⟩ he
  exact agree_step FA FB ht hfit hA hB henc hm he

end TwoBackends

/-- A run whose receipts are for earlier calls goes through while the numbers last. -/
theorem serving_run {B : Opdb Map} {ok : Bytes → Prop} {enc : Bytes → Bytes}
    (F : B.Faithful ok enc) {topic : CString} (ht : Cacheable topic)
    (hfit : topic.bytes.length ≤ 235) (hK : KeysOk ok topic) (es : List CacheEvent) {n : ℕ}
    {c : CacheState Map} (h : Serving topic n c)
    (hes : ∀ msg, .send msg ∈ es → msg.bytes.length ≤ 1023) (hrec : ReceiptsFollow n es)
    (hlen : n + es.length < 2 ^ 63) :
    ∃ c', Transition.run (cacheStep B topic) c es = some c' := by
  induction es generalizing n c with
  | nil => exact ⟨c, rfl⟩
  | cons e es ih =>
    have hes' : ∀ msg, .send msg ∈ es → msg.bytes.length ≤ 1023 :=
      fun msg hmsg => hes msg (List.mem_cons_of_mem _ hmsg)
    rw [List.length_cons] at hlen
    cases e with
    | send msg =>
      have hn : IsNumber (n + 1) := isNumber_of_lt (by omega)
      obtain ⟨c', hc'⟩ := serving_send F ht hfit hK h (hes msg List.mem_cons_self) hn
      obtain ⟨-, hs, -⟩ := serving_send_of_some F ht hK h hc'
      obtain ⟨c'', hrun⟩ := ih hs hes' hrec (by omega)
      exact ⟨c'', (Transition.run_cons_some hc' es).trans hrun⟩
    | receipt j =>
      obtain ⟨hc', hs⟩ := serving_receipt F ht hK h hrec.1
      obtain ⟨c'', hrun⟩ := ih hs hes' hrec.2 (by omega)
      exact ⟨c'', (Transition.run_cons_some hc' es).trans hrun⟩

theorem keysOk_keyFits {topic : CString} (hfit : topic.bytes.length ≤ 235) :
    KeysOk Lmdb.KeyFits topic := by
  have hmsg : ∀ {i}, IsNumber i → Lmdb.KeyFits (messageKey topic.bytes i) := by
    intro i hi
    have hlen := length_messageKey hi topic.bytes
    refine ⟨?_, by omega, nul_not_mem_messageKey hi topic⟩
    exact List.ne_nil_of_length_pos (by omega)
  refine ⟨⟨?_, ?_, nul_not_mem_counterKey topic⟩, hmsg, ?_⟩
  · simp [counterKey]
  · rw [length_counterKey]
    omega
  · intro i hi
    rw [List.take_of_length_le (hmsg hi).2.1]
    exact hmsg hi

/-- On every run over a topic of at most 235 bytes that starts below `'~'`, with
messages of at most 1023 bytes, LevelDB and LMDB give out the same numbers and hold
the same message entries; and every run with receipts for earlier calls goes through. -/
theorem backends_interchangeable (topic : CString) (hfit : topic.bytes.length ≤ 235)
    (hbelow : ∀ b ∈ topic.bytes.head?, b < 126) (es : List CacheEvent)
    (hes : ∀ msg, .send msg ∈ es → msg.bytes.length ≤ 1023) :
    Option.Rel (SameCache topic)
        (Transition.run (cacheStep LevelDb.levelDb topic) (.fresh LevelDb.levelDb) es)
        (Transition.run (cacheStep Lmdb.lmdb topic) (.fresh Lmdb.lmdb) es) ∧
      (ReceiptsFollow 0 es → es.length < 2 ^ 63 →
        ∃ a, Transition.run (cacheStep LevelDb.levelDb topic) (.fresh LevelDb.levelDb) es =
          some a) := by
  have ht : Cacheable topic := ⟨by omega, hbelow⟩
  have hA := keysOk_all topic
  have hB := keysOk_keyFits hfit
  have hsA := serving_fresh LevelDb.levelDb_faithful topic
  have hsB := serving_fresh Lmdb.lmdb_faithful topic
  have henc : ∀ msg : CString, msg.bytes.length ≤ 1023 →
      id (storedBytes msg) = Lmdb.valText (storedBytes msg) := by
    intro msg hm
    rw [storedBytes_of_lt (by omega), Lmdb.valText_of_text hm msg.nul_free, id_eq]
  have hrel := agree_run LevelDb.levelDb_faithful Lmdb.lmdb_faithful ht hfit hA hB henc
    ⟨hsA, hsB, fun _ _ => rfl⟩ hes
  constructor
  · refine Transition.rel_mono ?_ hrel
    rintro a b ⟨n, hagree⟩
    exact hagree.same
  · intro hrec hlen
    exact serving_run LevelDb.levelDb_faithful ht hfit hA es hsA hes hrec (by omega)

theorem backends_interchangeable_one_message :
    ∃ a b, Transition.run (cacheStep LevelDb.levelDb Topic.sample.name) (.fresh LevelDb.levelDb)
        [.send ⟨[109], by decide⟩, .receipt 0] = some a ∧
      Transition.run (cacheStep Lmdb.lmdb Topic.sample.name) (.fresh Lmdb.lmdb)
        [.send ⟨[109], by decide⟩, .receipt 0] = some b ∧
      SameCache Topic.sample.name a b := by
  have hes : ∀ msg : CString, CacheEvent.send msg ∈ [.send ⟨[109], by decide⟩, .receipt 0] →
      msg.bytes.length ≤ 1023 := by
    intro msg hmsg
    simp only [List.mem_cons, CacheEvent.send.injEq, reduceCtorEq, List.not_mem_nil,
      or_false] at hmsg
    rw [hmsg]
    decide
  have hbelow : ∀ b ∈ Topic.sample.name.bytes.head?, b < 126 := by
    intro b hb
    cases hb
    decide
  obtain ⟨hrel, hruns⟩ := backends_interchangeable Topic.sample.name (by decide) hbelow _ hes
  obtain ⟨a, ha⟩ := hruns (by simp [ReceiptsFollow]) (by norm_num)
  rw [ha] at hrel
  obtain ⟨b, hb, hsame⟩ := Transition.exists_of_rel_some hrel
  exact ⟨a, b, ha, hb, hsame⟩

end KfkClient
