import KfkClient.Client.Polling
import KfkClient.Client.StoreFailures

/-!
# Messages lost under a reported success

`send_msg_with_cache` returns zero whenever it returns: neither a failed put nor what
`Producer::send_msg` says reaches its caller. A receipt that its own polls serve may even
take the message out of the cache again, since a message without a key is confirmed as
number zero.
-/

namespace KfkClient

open CLib OrderedMap LevelDb
open Std (ExtTreeMap)

/-! ### The store part of a call that returns -/

theorem storageSetkey_flaky_eq_ok {key val : Bytes} (hl : key.length < 2 ^ 31) {vlen rc : ℤ}
    {db : Map} {fails : Bool} {fs : List Bool} {s' : Flaky}
    (h : (storageSetkey flaky key (toInt key.length) val vlen).run ⟨db, fails :: fs⟩ =
      .ok rc s') :
    0 ≤ vlen ∧ s' = ⟨putUnless fails key (val.take vlen.toNat) db, fs⟩ := by
  rw [storageSetkey, toInt_of_lt hl, run_bind_ok (stdString_length key _)] at h
  have h0 : 0 ≤ vlen := by
    by_contra hneg
    rw [run_bind_error (stdString_negative val (by omega) _)] at h
    cases h
  obtain ⟨valuestr, m, hval, hset⟩ := run_bind_eq_ok h
  obtain rfl := stdString_eq_ok hval
  obtain rfl := readOnly_stdString _ _ _ _ _ hval
  obtain ⟨rc', hput⟩ := flaky_setkey key (val.take vlen.toNat) db fails fs
  cases hput.symm.trans hset
  exact ⟨h0, rfl⟩

/-- Puts that return have read the number used and put each of their two records unless the
put failed. -/
theorem storePuts_flaky_returned {topic msg : CString} (hlen : topic.bytes.length + 21 < 2 ^ 31)
    {s : Map} {readFails putFails countFails : Bool} {delFails : List Bool} {num : ℤ}
    {s' : Flaky} (h : (storePuts flaky msg topic).run
      ⟨s, readFails :: putFails :: countFails :: delFails⟩ = .ok num s') :
    num = numberUsed topic s readFails ∧ 0 ≤ toInt msg.bytes.length ∧
      ∃ v, s' = ⟨putUnless countFails (counterKey topic.bytes) v
        (putUnless putFails (messageKey topic.bytes num) (storedBytes msg) s), delFails⟩ := by
  have hcl : (counterKey topic.bytes).length < 2 ^ 31 := by
    rw [length_counterKey]
    omega
  obtain ⟨hlow, hhigh⟩ := numberUsed_bounds topic s readFails
  have hml : (messageKey topic.bytes (numberUsed topic s readFails)).length < 2 ^ 31 :=
    lt_of_le_of_lt (length_messageKey_bounds topic.bytes hlow hhigh).2 hlen
  obtain ⟨tmp, -, hread⟩ := readCounter_flaky hcl s readFails (putFails :: countFails :: delFails)
  rw [storePuts, run_bind_ok hread] at h
  obtain ⟨_, m, hmessage, h⟩ := run_bind_eq_ok h
  obtain ⟨_, m', hcounter, h⟩ := run_bind_eq_ok h
  cases h
  rw [putMessage] at hmessage
  obtain ⟨_, _, hset, hm⟩ := run_bind_eq_ok hmessage
  cases hm
  obtain ⟨hmsg, rfl⟩ := storageSetkey_flaky_eq_ok hml hset
  rw [putCounter] at hcounter
  obtain ⟨_, _, hadd, hcounter⟩ := run_bind_eq_ok hcounter
  obtain rfl := readOnly_llAdd _ _ _ _ _ hadd
  obtain ⟨_, _, htext, hcounter⟩ := run_bind_eq_ok hcounter
  obtain rfl := readOnly_sprintfInto _ _ _ _ _ htext
  obtain ⟨_, _, hset', hm'⟩ := run_bind_eq_ok hcounter
  cases hm'
  exact ⟨rfl, hmsg, _, (storageSetkey_flaky_eq_ok hcl hset').2⟩

/-- The key in the buffer is that of the call's own message only if the number behind the
topic is the number of the call. -/
theorem atol_of_own_key {topic : CString} {n : ℕ} (hn : IsNumber n) {k : Bytes}
    (h : cstr (keyBuf k) = messageKey topic.bytes n) :
    atol ((keyBuf k).drop topic.bytes.length) = n := by
  have hle : topic.bytes.length ≤ (cstr (keyBuf k)).length := by
    rw [h, length_messageKey hn]
    omega
  rw [← atol_cstr, cstr_drop hle, h, messageKey, List.drop_left]
  exact atol_fmtLL (by decide) hn

theorem firstOffset_flaky_eq_ok {topic : CString} {offset : ℤ} {ktmp : Bytes} {s s' : Flaky}
    (h : (firstOffset flaky topic).run s = .ok (offset, ktmp) s') :
    ∃ k, ktmp = keyBuf k ∧ offset = atol ((keyBuf k).drop topic.bytes.length) ∧ s' = s := by
  by_cases hlen : topic.bytes.length ≤ 255
  swap
  · -- the number would be read behind the end of `ktmp`
    rw [firstOffset] at h
    obtain ⟨_, _, _, h⟩ := run_bind_eq_ok h
    simp only at h
    rw [if_neg (by omega)] at h
    cases h
  cases hf : first? s.db with
  | none =>
    rw [firstOffset, storageFirst, bind_assoc, run_bind_error (flaky_getFirst_none hf)] at h
    cases h
  | some e =>
    rw [firstOffset_of_first flaky hlen (flaky_getFirst_some hf)] at h
    cases h
    exact ⟨e.1, rfl, rfl, rfl⟩

theorem evictRound_keeps_own {topic : CString} {n : ℕ} (hn : IsNumber n) {s s' : Flaky}
    {goes : Bool} (h : (evictRound flaky topic n).run s = .ok goes s') :
    s'.db[messageKey topic.bytes n]? = s.db[messageKey topic.bytes n]? := by
  rw [evictRound] at h
  obtain ⟨⟨offset, ktmp⟩, m, hfirst, hrest⟩ := run_bind_eq_ok h
  obtain ⟨k, rfl, rfl, rfl⟩ := firstOffset_flaky_eq_ok hfirst
  obtain ⟨age, m', hage, hend⟩ := run_bind_eq_ok hrest
  obtain ⟨rfl, rfl⟩ := llSub_eq_ok hage
  split at hend
  swap
  · cases hend
    rfl
  next hold =>
    obtain ⟨rc, r, hdel, hgoes⟩ := run_bind_eq_ok hend
    cases hgoes
    have hshort : (cstr (keyBuf k)).length < 2 ^ 31 :=
      lt_of_le_of_lt (length_cstr_le _) (by rw [length_keyBuf]; decide)
    obtain ⟨rc', hdel'⟩ := flaky_delkey (cstr (keyBuf k)) m'
    rw [storageDelkey_eq flaky hshort, hdel'] at hdel
    cases hdel
    rcases deleted_cases m' (cstr (keyBuf k)) with ⟨hdb, -⟩ | ⟨hdb, -⟩
    · rw [hdb]
    · rw [hdb]
      refine get_erase_of_ne fun hown => ?_
      rw [atol_of_own_key hn hown, numMax] at hold
      omega

/-- Whatever is in the database, a loop that ends has left the message of its call alone. -/
theorem evictLoop_keeps_own {topic : CString} {num : ℤ} (hnum : num < llBound) {fuel : ℕ}
    {s s' : Flaky} (h : (evictLoop flaky topic num fuel).run s = .ok () s') :
    s'.db[messageKey topic.bytes num]? = s.db[messageKey topic.bytes num]? := by
  induction fuel generalizing s with
  | zero => cases h
  | succ fuel ih =>
    rw [evictLoop_succ] at h
    split at h
    swap
    · cases h
      rfl
    next hmax =>
      obtain ⟨n, rfl⟩ : ∃ n : ℕ, num = n := Int.eq_ofNat_of_zero_le (by rw [numMax] at hmax; omega)
      obtain ⟨goes, m, hround, h⟩ := run_bind_eq_ok h
      rw [← evictRound_keeps_own hnum hround]
      cases goes with
      | true => exact ih h
      | false =>
        cases h
        rfl

/-- A call whose store part returns holds its message under the number it used, unless the
put failed. -/
theorem storeMsg_flaky_returned {topic msg : CString} (hlen : topic.bytes.length + 21 < 2 ^ 31)
    {s : Map} {readFails putFails countFails : Bool} {delFails : List Bool} {num : ℤ}
    {s' : Flaky} (hrun : (storeMsg flaky msg topic).run
      ⟨s, readFails :: putFails :: countFails :: delFails⟩ = .ok num s') :
    num = numberUsed topic s readFails ∧ 0 ≤ toInt msg.bytes.length ∧
      s'.db[messageKey topic.bytes num]? =
        if putFails then s[messageKey topic.bytes num]? else some (storedBytes msg) := by
  obtain ⟨m, hputs, hloop⟩ := storeMsg_eq_ok hrun
  obtain ⟨hnum, hmsg, v, rfl⟩ := storePuts_flaky_returned hlen hputs
  have hbound : num < llBound := by
    rw [hnum]
    exact (numberUsed_bounds topic s readFails).2
  refine ⟨hnum, hmsg, ?_⟩
  rw [evictLoop_keeps_own hbound hloop,
    get_putUnless_of_ne _ _ _ (messageKey_ne_counterKey topic.bytes num).symm, get_putUnless_self]

/-! ### Receipts served inside the call -/

def Flaky.foretell (fails : Bool) (s : Flaky) : Flaky := ⟨s.db, fails :: s.failures⟩

/-- The receipt takes the entry of number `num` out of the cache of the topic. -/
def Removes (topic : Bytes) (num : ℤ) (p : Wire × Receipt) : Prop :=
  p.1.topic = topic ∧ receiptNumber p.1.key = num ∧ p.2.err = false ∧ p.2.delFails = false

instance (topic : Bytes) (num : ℤ) : DecidablePred (Removes topic num) :=
  fun _ => inferInstanceAs (Decidable (_ ∧ _))

theorem messageKey_inj_of_bounds {topic : Bytes} {a b : ℤ} (ha : -llBound ≤ a) (ha' : a < llBound)
    (hb : -llBound ≤ b) (hb' : b < llBound) : messageKey topic a = messageKey topic b ↔ a = b := by
  simp only [llBound] at ha ha' hb hb'
  rw [messageKey, messageKey, List.append_right_inj]
  exact ⟨fmtLL_injective (by omega) (by omega), fun h => by rw [h]⟩

/-- The delete of a receipt, whatever number it was read as. -/
theorem sendMsgCallback_flaky {topic : Bytes} (hlen : topic.length + 21 < 2 ^ 31)
    (key : Option Bytes) (s : Flaky) :
    ∃ rc, (sendMsgCallback flaky topic (receiptNumber key)).run s =
      .ok rc (s.deleted (messageKey topic (receiptNumber key))) := by
  obtain ⟨hlow, hhigh⟩ := atol_bounds (key.getD [])
  have hkey : (messageKey topic (receiptNumber key)).length < 2 ^ 31 :=
    lt_of_le_of_lt (length_messageKey_bounds topic hlow hhigh).2 hlen
  obtain ⟨rc, hdel⟩ := flaky_delkey (messageKey topic (receiptNumber key)) s
  refine ⟨rc, ?_⟩
  simp only [sendMsgCallback]
  rw [storageDelkey, toInt_of_lt hkey, run_bind_ok (stdString_length _ _), hdel]

/-- The entry of number `num` in the cache of a topic. -/
def World.cached (w : World Flaky) (topic : Bytes) (num : ℤ) : Option Bytes :=
  (w.db flaky topic).db[messageKey topic num]?

section Served

variable {topic : CString} (hlen : topic.bytes.length + 21 < 2 ^ 31) {num : ℤ}
  (hlow : -llBound ≤ num) (hhigh : num < llBound)
include hlen hlow hhigh

/-- A served receipt of the topic deletes the entry of the number it is read as, unless the
delivery or the delete failed. -/
theorem serve_flaky {r : Receipt} {wire : Wire} {w w' : World Flaky}
    (hw : w.inflight[r.place]? = some wire)
    (h : (serve flaky Flaky.foretell r).run w = .ok () w') :
    w'.inflight = w.inflight.eraseIdx r.place ∧ w'.produced = w.produced ∧
      w'.cached topic.bytes num =
        if Removes topic.bytes num (wire, r) then none else w.cached topic.bytes num := by
  rcases serve_eq_ok hw h with ⟨herr, rfl⟩ | ⟨herr, rc, s, hs, rfl⟩
  · refine ⟨rfl, rfl, ?_⟩
    rw [if_neg (by simp [Removes, herr])]
    rfl
  refine ⟨rfl, rfl, ?_⟩
  by_cases htop : wire.topic = topic.bytes
  swap
  · rw [if_neg fun hrem => htop hrem.1, World.cached, World.db_setDb_of_ne _ _ _ htop]
    rfl
  rw [htop] at hs ⊢
  obtain ⟨hlow', hhigh'⟩ := atol_bounds (wire.key.getD [])
  have hinj : messageKey topic.bytes (receiptNumber wire.key) = messageKey topic.bytes num ↔
      receiptNumber wire.key = num := messageKey_inj_of_bounds hlow' hhigh' hlow hhigh
  obtain ⟨rc', hdel⟩ := sendMsgCallback_flaky hlen wire.key
    (Flaky.foretell r.delFails (w.db flaky topic.bytes))
  cases hdel.symm.trans hs
  rw [World.cached, World.db_setDb_self, Flaky.deleted, Flaky.foretell, List.headD_cons]
  simp only [Removes, htop, herr, true_and]
  cases r.delFails with
  | true => simp [World.cached]
  | false =>
    by_cases hnum : receiptNumber wire.key = num
    · rw [hnum]
      simp
    · rw [if_neg Bool.false_ne_true, get_erase_of_ne (mt hinj.mp hnum), if_neg (by simp [hnum])]
      rfl

theorem rdKafkaPoll_flaky {rs : List Receipt} {w w' : World Flaky}
    (h : (rdKafkaPoll flaky Flaky.foretell rs).run w = .ok () w') :
    w'.produced = w.produced ∧
      w'.cached topic.bytes num =
        if ∃ p ∈ served w.inflight rs, Removes topic.bytes num p then none
        else w.cached topic.bytes num := by
  induction rs generalizing w with
  | nil =>
    cases h
    simp [served]
  | cons r rs ih =>
    rw [rdKafkaPoll] at h
    obtain ⟨_, m, hserve, h⟩ := run_bind_eq_ok h
    obtain ⟨hprod, hentry⟩ := ih h
    rw [served]
    cases hw : w.inflight[r.place]? with
    | none =>
      obtain rfl := serve_eq_ok_of_none hw hserve
      exact ⟨hprod, hentry⟩
    | some wire =>
      obtain ⟨hflight, hprod', hentry'⟩ := serve_flaky hlen hlow hhigh hw hserve
      refine ⟨hprod.trans hprod', ?_⟩
      rw [hentry, hentry', hflight]
      simp only [List.mem_cons, exists_eq_or_imp]
      by_cases hrem : Removes topic.bytes num (wire, r)
      · simp [hrem]
      · rw [if_neg hrem]
        simp only [hrem, false_or]

end Served

theorem serve_flaky_returns {r : Receipt} {wire : Wire} {w : World Flaky}
    (hw : w.inflight[r.place]? = some wire) (hlen : wire.topic.length + 21 < 2 ^ 31) :
    ∃ w', (serve flaky Flaky.foretell r).run w = .ok () w' ∧
      w'.inflight = w.inflight.eraseIdx r.place := by
  show ∃ w', serve flaky Flaky.foretell r w = _ ∧ _
  rw [serve, hw]
  simp only [World.reporting]
  cases r.err with
  | true => exact ⟨_, rfl, rfl⟩
  | false =>
    rw [if_neg Bool.false_ne_true, messageReceiptCbk, if_neg Bool.false_ne_true]
    obtain ⟨rc, hdel⟩ := sendMsgCallback_flaky hlen wire.key _
    exact ⟨_, run_bind_ok (withDb_ok flaky hdel), rfl⟩

/-- Every poll returns while the topics in flight have names whose keys have lengths that are
ints. -/
theorem rdKafkaPoll_flaky_returns (rs : List Receipt) {w : World Flaky}
    (h : ∀ wire ∈ w.inflight, wire.topic.length + 21 < 2 ^ 31) :
    ∃ w', (rdKafkaPoll flaky Flaky.foretell rs).run w = .ok () w' := by
  induction rs generalizing w with
  | nil => exact ⟨w, rfl⟩
  | cons r rs ih =>
    rw [rdKafkaPoll]
    cases hw : w.inflight[r.place]? with
    | none =>
      have hserve : (serve flaky Flaky.foretell r).run w = .ok () w := by
        show serve flaky Flaky.foretell r w = _
        rw [serve, hw]
      rw [run_bind_ok hserve]
      exact ih h
    | some wire =>
      obtain ⟨m, hserve, hflight⟩ := serve_flaky_returns hw (h wire (List.mem_of_getElem? hw))
      rw [run_bind_ok hserve]
      refine ih fun wire hwire => h wire ?_
      rw [hflight] at hwire
      exact List.mem_of_mem_eraseIdx hwire

/-! ### What a returned zero says -/

theorem storedBytes_eq_iff {msg : CString} (h : 0 ≤ toInt msg.bytes.length) :
    storedBytes msg = msg.bytes ↔ msg.bytes.length < 2 ^ 31 := by
  refine ⟨fun heq => ?_, storedBytes_of_lt⟩
  have hle : toInt msg.bytes.length ≤ msg.bytes.length := by
    rw [toInt, Int.bmod_def] at h ⊢
    omega
  have hlen := congrArg List.length heq
  rw [storedBytes, List.length_take] at hlen
  rw [← toInt_eq_self_iff]
  omega

theorem World.handOver_refused {accepts : ℕ → Bool} {w : World Flaky} {message topic : Bytes}
    {nkey : ℤ} (h : ¬ (topic ∈ w.topics ∧ accepts w.produced.length = true)) :
    (w.handOver accepts message topic nkey).inflight = w.inflight := by
  rw [World.handOver]
  split
  · next hcall =>
      have hacc : ¬ accepts w.produced.length = true := fun hacc => h ⟨hcall.1, hacc⟩
      simp [hacc]
  · rfl

/-- `rd_kafka_produce` was called with the message and took it. -/
def Taken (accepts : ℕ → Bool) (w w' : World Flaky) (wire : Wire) : Prop :=
  w'.produced = w.produced ++ [wire] ∧ accepts w.produced.length = true

theorem not_taken_of_refused {accepts : ℕ → Bool} {w w' : World Flaky} {message topic : Bytes}
    {nkey : ℤ} {wire : Wire}
    (hprod : w'.produced = (w.handOver accepts message topic nkey).produced)
    (h : ¬ (topic ∈ w.topics ∧ accepts w.produced.length = true)) :
    ¬ Taken accepts w w' wire := by
  rintro ⟨hcall, hacc⟩
  have htop : topic ∉ w.topics := fun htop => h ⟨htop, hacc⟩
  rw [hprod, World.handOver, if_neg fun h => htop h.1] at hcall
  have hlength := congrArg List.length hcall
  simp at hlength

/-- The entry behind the puts holds the message. -/
theorem stored_iff {msg : CString} (h : 0 ≤ toInt msg.bytes.length) (putFails : Bool)
    (before : Option Bytes) :
    (if putFails then before else some (storedBytes msg)) = some msg.bytes ↔
      putFails = false ∧ msg.bytes.length < 2 ^ 31 ∨
        putFails = true ∧ before = some msg.bytes := by
  cases putFails with
  | true => simp
  | false => simp [storedBytes_eq_iff h]

/-- A call that returns zero has not lost its message exactly when the topic was added and
librdkafka took the message, or the message is in the cache behind the puts (its put
succeeded and it is shorter than 2 GiB, or the put failed and the entry of the number used
held these bytes already) and no receipt that the call serves takes it out again. -/
theorem success_keeps_message_iff (topic msg : CString) (hlen : topic.bytes.length + 21 < 2 ^ 31)
    (hne : msg.bytes ≠ []) (accepts : ℕ → Bool) (polled flushed : List Receipt)
    (w w' : World Flaky) (s : Map) (readFails putFails countFails : Bool) (delFails : List Bool)
    (hdb : w.db flaky topic.bytes = ⟨s, readFails :: putFails :: countFails :: delFails⟩) (rc : ℤ)
    (h : (sendMsgWithCachePolling flaky Flaky.foretell accepts polled flushed msg topic).run w =
      .ok rc w') :
    (rc = 0 →
      w'.cached topic.bytes (numberUsed topic s readFails) = some msg.bytes ∨
        Taken accepts w w'
          ⟨topic.bytes, msg.bytes, keystr (numberUsed topic s readFails)⟩) ↔
      topic.bytes ∈ w.topics ∧ accepts w.produced.length = true ∨
        (putFails = false ∧ msg.bytes.length < 2 ^ 31 ∨
          putFails = true ∧
            s[messageKey topic.bytes (numberUsed topic s readFails)]? = some msg.bytes) ∧
        ∀ p ∈ served w.inflight ((if topic.bytes ∈ w.topics then polled else []) ++ flushed),
          ¬ Removes topic.bytes (numberUsed topic s readFails) p := by
  obtain ⟨rfl, num, s', hstore, hpoll⟩ := sendMsgWithCachePolling_eq_ok.mp h
  rw [hdb] at hstore
  obtain ⟨hnum, hmsg, hget⟩ := storeMsg_flaky_returned hlen hstore
  obtain ⟨hlow, hhigh⟩ := numberUsed_bounds topic s readFails
  rw [← hnum] at hlow hhigh ⊢
  obtain ⟨hprod, hcached⟩ := rdKafkaPoll_flaky hlen hlow hhigh hpoll
  simp only [hne, ne_eq, not_false_eq_true, and_true] at hcached
  by_cases htaken : topic.bytes ∈ w.topics ∧ accepts w.produced.length = true
  · refine ⟨fun _ => .inl htaken, fun _ _ => .inr ⟨?_, htaken.2⟩⟩
    rw [hprod, World.handOver, if_pos ⟨htaken.1, hne⟩, payloadOf_text]
    rfl
  have hno : ¬ Taken accepts w w' ⟨topic.bytes, msg.bytes, keystr num⟩ :=
    not_taken_of_refused (w := w.setDb topic.bytes s') hprod htaken
  have hstored : ((w.setDb topic.bytes s').handOver accepts msg.bytes topic.bytes num).cached
      topic.bytes num =
        if putFails then s[messageKey topic.bytes num]? else some (storedBytes msg) := by
    rw [World.cached, World.handOver_db, World.db_setDb_self, hget]
  rw [World.handOver_refused (w := w.setDb topic.bytes s') htaken, hstored,
    World.setDb_inflight] at hcached
  rw [or_iff_right htaken, ← stored_iff hmsg, imp_iff_right rfl, or_iff_left hno, hcached]
  by_cases hrem : ∃ p ∈ served w.inflight
      ((if topic.bytes ∈ w.topics then polled else []) ++ flushed), Removes topic.bytes num p
  · rw [if_pos hrem]
    obtain ⟨p, hp, hremoves⟩ := hrem
    exact iff_of_false (Option.some_ne_none _).symm fun hkept => hkept.2 p hp hremoves
  · rw [if_neg hrem]
    push Not at hrem
    exact (and_iff_left hrem).symm

/-- Up to number 50000 there is no eviction that could keep a call from returning. -/
theorem storeMsg_flaky_small {t : Topic} {msg : CString} (hmsg : 0 ≤ toInt msg.bytes.length)
    {s : Map} (h : WellFormed t.name s) {readFails : Bool}
    (hsmall : numberUsed t.name s readFails ≤ 50000) (putFails countFails : Bool)
    (delFails : List Bool) :
    ∃ s', (storeMsg flaky msg t.name).run
        ⟨s, readFails :: putFails :: countFails :: delFails⟩ =
      .ok (numberUsed t.name s readFails) s' := by
  have hlen := t.legal.cacheable.length_le
  obtain ⟨m, tmp, hused, -, htmp, hread⟩ := h.readCounter_flaky hlen readFails
    (putFails :: countFails :: delFails)
  rw [hused] at hsmall ⊢
  have hm1 : IsNumber (m + 1) := isNumber_of_lt (by omega)
  obtain ⟨rec1, -, hputs⟩ := storePuts_flaky hlen hread hm1 hmsg htmp
  refine ⟨⟨putBoth t.name msg m rec1 putFails countFails s, delFails⟩, ?_⟩
  rw [storeMsg_of_puts hputs, run_bind_ok (evictLoop_small flaky (by omega) _ _)]
  rfl

/-- A world with an empty cache of the topic `t`, which was not added to the producer. -/
def notAdded (putFails : Bool) : World Flaky :=
  ⟨(∅ : ExtTreeMap Bytes Flaky).insert Topic.sample.name.bytes ⟨∅, [false, putFails, false]⟩,
    [], [], []⟩

theorem notAdded_db (putFails : Bool) :
    (notAdded putFails).db flaky Topic.sample.name.bytes = ⟨∅, [false, putFails, false]⟩ := by
  rw [World.db, notAdded, ExtTreeMap.getElem?_insert_self]
  rfl

theorem numberUsed_empty (topic : CString) (readFails : Bool) :
    numberUsed topic ∅ readFails = 0 :=
  numberUsed_of_none ExtTreeMap.getElem?_empty readFails

/-- The topic `t` is added, its cache is empty, and number five is in flight. -/
def fiveInFlight : World Flaky :=
  ⟨(∅ : ExtTreeMap Bytes Flaky).insert Topic.sample.name.bytes ⟨∅, [false, false, false]⟩,
    [Topic.sample.name.bytes], [⟨Topic.sample.name.bytes, [97], keystr 5⟩], []⟩

theorem fiveInFlight_db :
    fiveInFlight.db flaky Topic.sample.name.bytes = ⟨∅, [false, false, false]⟩ := by
  rw [World.db, fiveInFlight, ExtTreeMap.getElem?_insert_self]
  rfl

theorem storeMsg_first (putFails : Bool) :
    ∃ s', (storeMsg flaky ⟨[109], by decide⟩ Topic.sample.name).run
      ⟨∅, [false, putFails, false]⟩ = .ok 0 s' := by
  have hused := numberUsed_empty Topic.sample.name false
  have hm : 0 ≤ toInt (⟨[109], by decide⟩ : CString).bytes.length :=
    toInt_length_nonneg (by decide)
  have hsmall : numberUsed Topic.sample.name ∅ false ≤ 50000 := by
    rw [hused]
    decide
  obtain ⟨s', hs'⟩ := storeMsg_flaky_small hm (wellFormed_empty _) hsmall putFails false []
  rw [hused] at hs'
  exact ⟨s', hs'⟩

/-- librdkafka refuses the message, but it is in the cache and the receipt of number five
leaves it there. -/
theorem success_keeps_refused_message :
    ∃ w', (sendMsgWithCachePolling flaky Flaky.foretell (fun _ => false) [⟨0, false, false⟩] []
        ⟨[109], by decide⟩ Topic.sample.name).run fiveInFlight = .ok 0 w' ∧
      (w'.cached Topic.sample.name.bytes (numberUsed Topic.sample.name ∅ false) = some [109] ∨
        Taken (fun _ => false) fiveInFlight w' ⟨Topic.sample.name.bytes, [109],
          keystr (numberUsed Topic.sample.name ∅ false)⟩) := by
  obtain ⟨s', hstore⟩ := storeMsg_first false
  have hshort : ∀ wire ∈ fiveInFlight.inflight, wire.topic.length + 21 < 2 ^ 31 := by decide
  obtain ⟨w', hpoll⟩ := rdKafkaPoll_flaky_returns [⟨0, false, false⟩]
    (w := (fiveInFlight.setDb Topic.sample.name.bytes s').handOver (fun _ => false) [109]
      Topic.sample.name.bytes 0) (by rw [World.handOver_refused (by simp)]; exact hshort)
  have hrun : (sendMsgWithCachePolling flaky Flaky.foretell (fun _ => false) [⟨0, false, false⟩] []
      ⟨[109], by decide⟩ Topic.sample.name).run fiveInFlight = .ok 0 w' :=
    sendMsgWithCachePolling_eq_ok.mpr ⟨rfl, 0, s', by rw [fiveInFlight_db, hstore], hpoll⟩
  refine ⟨w', hrun, (success_keeps_message_iff Topic.sample.name ⟨[109], by decide⟩ (by decide)
    (by decide) (fun _ => false) _ _ fiveInFlight w' ∅ false false false [] fiveInFlight_db 0
    hrun).mpr (.inr ⟨.inl ⟨rfl, by decide⟩, ?_⟩) rfl⟩
  rw [numberUsed_empty]
  decide

/-- The put fails and the topic was not added: the call returns zero, and the message is
neither in the cache nor was it ever produced. -/
theorem lost_message_reported_sent :
    ∃ w', (sendMsgWithCachePolling flaky Flaky.foretell (fun _ => true) [] []
        ⟨[109], by decide⟩ Topic.sample.name).run (notAdded true) = .ok 0 w' ∧
      w'.cached Topic.sample.name.bytes (numberUsed Topic.sample.name ∅ false) = none ∧
      w'.produced = [] := by
  obtain ⟨s', hstore⟩ := storeMsg_first true
  refine ⟨_, sendMsgWithCachePolling_eq_ok.mpr ⟨rfl, 0, s', by rw [notAdded_db, hstore], rfl⟩, ?_,
    rfl⟩
  obtain ⟨-, -, hget⟩ := storeMsg_flaky_returned (by decide) hstore
  rw [World.cached, World.handOver_db, World.db_setDb_self, numberUsed_empty, hget]
  exact ExtTreeMap.getElem?_empty

end KfkClient
