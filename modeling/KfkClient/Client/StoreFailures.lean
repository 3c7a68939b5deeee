import KfkClient.Cache.Evict
import KfkClient.Client.World
import KfkClient.Store.LevelDb

/-!
# Calls on a store that fails

The counter record of a topic over one call of `send_msg_with_cache` whose LevelDB
operations succeed or fail in any combination. A failed delete is tried again by the
next round of the eviction loop, so a call that ends has met finitely many failures.

## Main results

- `evict_keeps_counter`, `evict_drops_counter` — when the eviction loop takes the
  counter record for an old message
- `storeMsg_flaky_wellFormed` — whatever fails, the database stays a cache
-/

namespace KfkClient

open CLib OrderedMap LevelDb
open Std (ExtTreeMap)

/-- The eviction loop of number `n` comes to the counter record and deletes it. -/
structure ReachesCounter (topic : CString) (n : ℕ) (s : Map) : Prop where
  counting : 50000 < n
  -- no message entry is recent, and the buffer does not cut its key
  old : ∀ i, IsNumber i → messageKey topic.bytes i ∈ s →
    i + 50000 < n ∧ topic.bytes.length ≤ 235
  offset : 50000 < (n : ℤ) - counterOffset topic ∧ (n : ℤ) - counterOffset topic < llBound

theorem ReachesCounter.mono {topic : CString} {n : ℕ} {s s' : Map} (h : ReachesCounter topic n s)
    (hsub : ∀ i, IsNumber i → messageKey topic.bytes i ∈ s' → messageKey topic.bytes i ∈ s) :
    ReachesCounter topic n s' :=
  ⟨h.counting, fun i hi hmem => h.old i hi (hsub i hi hmem), h.offset⟩

/-- An eviction of an old message does not open the way to the counter record. -/
theorem ReachesCounter.of_erase {topic : CString} (ht : Cacheable topic) {n i : ℕ} {s : Map}
    (hs : Shaped topic s) (hi : IsNumber i)
    (hold : i / 10 ^ (topic.bytes.length - 235) + 50000 < n)
    (h : ReachesCounter topic n (s.erase ((messageKey topic.bytes i).take 255))) :
    ReachesCounter topic n s := by
  rw [hs.erase_cut ht hi] at h
  by_cases hfit : topic.bytes.length ≤ 235
  swap
  · rwa [if_neg hfit] at h
  rw [if_pos hfit] at h
  rw [offset_of_fits hfit] at hold
  refine ⟨h.counting, ?_, h.offset⟩
  intro j hj hmem
  by_cases hij : i = j
  · subst hij
    exact ⟨hold, hfit⟩
  · refine h.old j hj (ExtTreeMap.mem_erase.mpr ⟨?_, hmem⟩)
    simpa using fun he => hij ((messageKey_inj hi hj).mp he)

theorem deleted_cases (s : Flaky) (k : Bytes) :
    (s.deleted k).db = s.db ∧ (s.deleted k).failures.length + 1 = s.failures.length ∨
      (s.deleted k).db = s.db.erase k ∧
        (s.deleted k).failures.length ≤ s.failures.length := by
  obtain ⟨db, _ | ⟨f, fs⟩⟩ := s
  · exact .inr ⟨rfl, le_rfl⟩
  · cases f with
    | true => exact .inl ⟨rfl, rfl⟩
    | false => exact .inr ⟨rfl, Nat.le_succ _⟩

section Evict

variable {topic : CString} (ht : Cacheable topic) {n : ℕ} {s : Flaky}

include ht in
/-- One round of the loop under failures: the state it leaves is the one it finds when
it ends there, and otherwise what the rest of the loop makes of the store after the
delete. -/
theorem stateAfter_evict_round (hmax : 50000 < n) {k v : Bytes} (hk : (0 : UInt8) ∉ k)
    (hf : first? s.db = some (k, v)) {o : ℤ}
    (ho : atol ((keyBuf k).drop topic.bytes.length) = o) (fuel : ℕ) :
    stateAfter (evictLoop flaky topic n (fuel + 1)) s =
      if 50000 < (n : ℤ) - o ∧ (n : ℤ) - o < llBound then
        stateAfter (evictLoop flaky topic n fuel) (s.deleted (k.take 255))
      else s := by
  have hget := flaky_getFirst_some hf
  have hlow : -llBound ≤ (n : ℤ) - o := by
    have hlt := (atol_bounds ((keyBuf k).drop topic.bytes.length)).2
    rw [ho] at hlt
    omega
  by_cases hover : (n : ℤ) - o < llBound
  swap
  · rw [if_neg (fun h => hover h.2)]
    exact stateAfter_error (evictLoop_overflow flaky ht.length_le hmax hget ho hover fuel)
  have hround := evictRound_first flaky ht.length_le hk hget ho ⟨hlow, hover⟩
  by_cases hold : (n : ℤ) - o > numMax
  · obtain ⟨rc, hdel⟩ := flaky_delkey (k.take 255) s
    rw [if_pos hold, run_bind_ok hdel] at hround
    rw [if_pos ⟨hold, hover⟩]
    exact stateAfter_congr (evictLoop_goes flaky hmax hround fuel)
  · rw [if_neg hold] at hround
    rw [if_neg (fun h => hold h.1)]
    exact stateAfter_ok (evictLoop_breaks flaky hmax hround fuel)

theorem stateAfter_evict_small (hn : ¬ 50000 < n) (fuel : ℕ) :
    stateAfter (evictLoop flaky topic n (fuel + 1)) s = s :=
  stateAfter_ok (evictLoop_small flaky (by omega) fuel s)

theorem stateAfter_evict_empty (hmax : 50000 < n) (hf : first? s.db = none) (fuel : ℕ) :
    stateAfter (evictLoop flaky topic n (fuel + 1)) s = s :=
  stateAfter_error (evictLoop_first_error flaky hmax (flaky_getFirst_none hf) fuel)

include ht in
/-- What every delete of an old first key preserves, the loop preserves, whatever fails. -/
theorem evict_invariant {P : Map → Prop}
    (hP : ∀ (db : Map) (k v : Bytes), 50000 < n → Shaped topic db → P db →
      first? db = some (k, v) →
      50000 < (n : ℤ) - atol ((keyBuf k).drop topic.bytes.length) ∧
        (n : ℤ) - atol ((keyBuf k).drop topic.bytes.length) < llBound →
      P (db.erase (k.take 255)))
    (hs : Shaped topic s.db) (h : P s.db) (fuel : ℕ) :
    P (stateAfter (evictLoop flaky topic n fuel) s).db := by
  induction fuel generalizing s with
  | zero => exact h
  | succ fuel ih =>
    by_cases hmax : 50000 < n
    swap
    · rw [stateAfter_evict_small hmax]
      exact h
    cases hf : first? s.db with
    | none =>
      rw [stateAfter_evict_empty hmax hf]
      exact h
    | some e =>
      obtain ⟨k, v⟩ := e
      have hk := hs.nul_not_mem (mem_iff_exists_get.mpr ⟨v, (first?_spec hf).1⟩)
      rw [stateAfter_evict_round ht hmax hk hf rfl]
      split
      swap
      · exact h
      next hold =>
        rcases deleted_cases s (k.take 255) with ⟨hdb, -⟩ | ⟨hdb, -⟩
        · exact ih (by rw [hdb]; exact hs) (by rw [hdb]; exact h)
        · refine ih (by rw [hdb]; exact hs.erase _) ?_
          rw [hdb]
          exact hP s.db k v hmax hs h hf hold

include ht in
/-- Whatever the deletes do, the loop only takes entries away. -/
theorem evict_only_erases (hs : Shaped topic s.db) (fuel : ℕ)
    (k : Bytes) :
    (stateAfter (evictLoop flaky topic n fuel) s).db[k]? = none ∨
      (stateAfter (evictLoop flaky topic n fuel) s).db[k]? = s.db[k]? := by
  refine evict_invariant ht (P := fun db => db[k]? = none ∨ db[k]? = s.db[k]?) ?_ hs (.inr rfl)
    fuel
  intro db a v _ _ h _ _
  rw [ExtTreeMap.getElem?_erase]
  split
  · exact .inl rfl
  · exact h

include ht in
theorem evict_keeps_counter (hlen : topic.bytes.length ≤ 251) (hs : Shaped topic s.db)
    (hno : ¬ ReachesCounter topic n s.db) (fuel : ℕ) :
    (stateAfter (evictLoop flaky topic n fuel) s).db[counterKey topic.bytes]? =
      s.db[counterKey topic.bytes]? := by
  refine (evict_invariant ht (P := fun db => ¬ ReachesCounter topic n db ∧
    db[counterKey topic.bytes]? = s.db[counterKey topic.bytes]?) ?_ hs ⟨hno, rfl⟩ fuel).2
  intro db k v hmax hshaped hkept hf hold
  obtain ⟨hno, hsame⟩ := hkept
  rcases hshaped.first_key ht hf with ⟨i, hi, rfl⟩ | ⟨rfl, hnone⟩
  · rw [atol_keyBuf hi ht.length_le] at hold
    refine ⟨fun h => hno (h.of_erase ht hshaped hi (by omega)), ?_⟩
    rw [get_erase_of_ne (take_messageKey_ne_counterKey hi ht 255), hsame]
  · -- no message entry is left, so the offset read in the counter key decides
    rw [atol_keyBuf_counterKey hlen] at hold
    exact absurd ⟨hmax, fun i hi hmem => absurd hmem (hnone i hi), hold⟩ hno

include ht in
theorem evict_drops_counter (hlen : topic.bytes.length ≤ 251) (hn : IsNumber n)
    (hs : Shaped topic s.db) (hyes : ReachesCounter topic n s.db) {fuel : ℕ}
    (hfuel : s.db.size + s.failures.length < fuel) :
    (stateAfter (evictLoop flaky topic n fuel) s).db[counterKey topic.bytes]? = none := by
  induction fuel generalizing s with
  | zero => omega
  | succ fuel ih =>
    have hmax := hyes.counting
    -- a round that deletes uses up a failure or an entry
    have hnext : ∀ k v, first? s.db = some (k, v) → k.length ≤ 255 →
        (stateAfter (evictLoop flaky topic n fuel)
          (s.deleted (k.take 255))).db[counterKey topic.bytes]? = none := by
      intro k v hf hkl
      have hmem : k ∈ s.db := mem_iff_exists_get.mpr ⟨v, (first?_spec hf).1⟩
      have hsize := size_erase_of_mem hmem
      have hsub : ∀ i, IsNumber i → messageKey topic.bytes i ∈ s.db.erase k →
          messageKey topic.bytes i ∈ s.db := fun _ _ hi => ExtTreeMap.mem_of_mem_erase hi
      rw [List.take_of_length_le hkl]
      rcases deleted_cases s k with ⟨hdb, hfail⟩ | ⟨hdb, hfail⟩
      · exact ih (by rw [hdb]; exact hs) (by rw [hdb]; exact hyes) (by rw [hdb]; omega)
      · exact ih (by rw [hdb]; exact hs.erase k) (by rw [hdb]; exact hyes.mono hsub)
          (by rw [hdb]; omega)
    cases hf : first? s.db with
    | none =>
      rw [stateAfter_evict_empty hmax hf, first?_eq_none_iff.mp hf]
      exact ExtTreeMap.getElem?_empty
    | some e =>
      obtain ⟨k, v⟩ := e
      rcases hs.first_key ht hf with ⟨i, hi, rfl⟩ | ⟨rfl, -⟩
      · obtain ⟨hold, hfit⟩ :=
          hyes.old i hi (mem_iff_exists_get.mpr ⟨v, (first?_spec hf).1⟩)
        have ho := atol_keyBuf hi ht.length_le
        rw [offset_of_fits hfit] at ho
        have hage : 50000 < (n : ℤ) - i ∧ (n : ℤ) - i < llBound := by
          simp only [IsNumber] at hn
          omega
        rw [stateAfter_evict_round ht hmax (nul_not_mem_messageKey hi topic) hf ho, if_pos hage]
        refine hnext _ v hf ?_
        rw [length_messageKey hi]
        omega
      · rw [stateAfter_evict_round ht hmax (nul_not_mem_counterKey topic) hf
          (atol_keyBuf_counterKey hlen), if_pos hyes.offset]
        refine hnext _ v hf ?_
        rw [length_counterKey]
        omega

end Evict

/-! ### The whole call -/

/-- A call that stops before its loop. -/
theorem stateAfter_storeMsg_error {topic msg : CString} {s s' : Flaky} {e : Fault}
    (h : (storePuts flaky msg topic).run s = .error e s') :
    stateAfter (storeMsg flaky msg topic) s = s' := by
  refine stateAfter_error (e := e) ?_
  rw [storeMsg_eq, run_bind_error h]

theorem get_putUnless_of_ne (fails : Bool) {k a : Bytes} (v : Bytes) (db : Map) (h : k ≠ a) :
    (putUnless fails k v db)[a]? = db[a]? := by
  cases fails with
  | true => rfl
  | false => exact get_insert_of_ne v h

theorem get_putUnless_self (fails : Bool) (k v : Bytes) (db : Map) :
    (putUnless fails k v db)[k]? = if fails then db[k]? else some v := by
  cases fails with
  | true => rfl
  | false => exact ExtTreeMap.getElem?_insert_self

theorem Shaped.putUnless {topic : CString} {db : Map} (h : Shaped topic db) (fails : Bool)
    {k : Bytes} (v : Bytes)
    (hk : k = counterKey topic.bytes ∨ ∃ i, IsNumber i ∧ k = messageKey topic.bytes i) :
    Shaped topic (putUnless fails k v db) := by
  cases fails with
  | true => exact h
  | false => exact h.insert v hk

/-- The number a call uses: the one in the first 1023 bytes of the counter record, and zero
when there is no record or when the read fails. -/
def numberUsed (topic : CString) (s : Map) (readFails : Bool) : ℤ :=
  if readFails then 0 else ((s[counterKey topic.bytes]?).map fun v => atol (v.take 1023)).getD 0

theorem numberUsed_of_value {topic : CString} {n : ℕ} (hn : IsNumber n) {s : Map} {v : Bytes}
    (hv : s[counterKey topic.bytes]? = some v) (hc : CounterValue v n) (fails : Bool) :
    numberUsed topic s fails = ((if fails then 0 else n : ℕ) : ℤ) := by
  rw [numberUsed, hv, Option.map_some, Option.getD_some, hc.atol_take hn]
  cases fails <;> rfl

theorem numberUsed_of_none {topic : CString} {s : Map}
    (hv : s[counterKey topic.bytes]? = none) (fails : Bool) : numberUsed topic s fails = 0 := by
  rw [numberUsed, hv]
  cases fails <;> rfl

theorem numberUsed_bounds (topic : CString) (s : Map) (fails : Bool) :
    -llBound ≤ numberUsed topic s fails ∧ numberUsed topic s fails < llBound := by
  have h0 : -llBound ≤ 0 ∧ 0 < llBound := by decide
  rw [numberUsed]
  split
  · exact h0
  · cases s[counterKey topic.bytes]? with
    | none => exact h0
    | some v => exact atol_bounds (v.take 1023)

/-- Whatever the database holds under the counter key, this is what a call takes from it. -/
theorem readCounter_flaky {topic : CString} (hl : (counterKey topic.bytes).length < 2 ^ 31)
    (s : Map) (fails : Bool) (fs : List Bool) :
    ∃ tmp : Bytes, tmp.length = 1024 ∧ (readCounter flaky topic).run ⟨s, fails :: fs⟩ =
      .ok (numberUsed topic s fails, tmp) ⟨s, fs⟩ := by
  cases fails with
  | true =>
    exact ⟨zeros 1024, length_zeros 1024, readCounter_of_error flaky hl
      (by decide : (-1 : ℤ) ≠ 0) (flaky_getkey_fails _ s fs)⟩
  | false =>
    cases hv : s[counterKey topic.bytes]? with
    | some v =>
      rw [numberUsed, hv]
      exact readCounter_of_record flaky hl (flaky_getkey_some hv fs)
    | none =>
      rw [numberUsed_of_none hv]
      exact ⟨zeros 1024, length_zeros 1024, readCounter_of_error flaky hl
        (by decide : (-2 : ℤ) ≠ 0) (flaky_getkey_none hv fs)⟩

/-- A counter record that counts `n` is read as `n`, or as zero when the read fails. -/
theorem readCounter_flaky_of_value {topic : CString} (hlen : topic.bytes.length ≤ 255) {n : ℕ}
    (hn : IsNumber n) {s : Map} {v : Bytes} (hv : s[counterKey topic.bytes]? = some v)
    (hc : CounterValue v n) (fails : Bool) (fs : List Bool) :
    ∃ tmp : Bytes, tmp.length = 1024 ∧ (readCounter flaky topic).run ⟨s, fails :: fs⟩ =
      .ok (((if fails then 0 else n : ℕ) : ℤ), tmp) ⟨s, fs⟩ := by
  rw [← numberUsed_of_value hn hv hc fails]
  exact readCounter_flaky (length_counterKey_lt hlen) s fails fs

/-- The database when the eviction loop of a call begins. -/
def putBoth (topic msg : CString) (m : ℕ) (rec1 : Bytes) (putFails countFails : Bool) (db : Map) :
    Map :=
  putUnless countFails (counterKey topic.bytes) rec1
    (putUnless putFails (messageKey topic.bytes m) (storedBytes msg) db)

/-- Only a message put that fails lets the eviction loop reach the counter record. -/
theorem reachesCounter_putBoth {topic msg : CString} {n : ℕ} (hn : IsNumber n) {s : Map}
    (rec1 : Bytes) (putFails countFails : Bool) :
    ReachesCounter topic n (putBoth topic msg n rec1 putFails countFails s) ↔
      putFails = true ∧ ReachesCounter topic n s := by
  have hcount : ∀ (db : Map) (i : ℕ), IsNumber i →
      (putUnless countFails (counterKey topic.bytes) rec1 db)[messageKey topic.bytes i]? =
        db[messageKey topic.bytes i]? :=
    fun db i hi => get_putUnless_of_ne _ _ _ (messageKey_ne_counterKey topic.bytes _).symm
  cases putFails with
  | true =>
    have hsame : ∀ i, IsNumber i →
        (messageKey topic.bytes i ∈ putBoth topic msg n rec1 true countFails s ↔
          messageKey topic.bytes i ∈ s) := by
      intro i hi
      rw [mem_iff_exists_get, mem_iff_exists_get, putBoth, hcount _ i hi]
      rfl
    exact ⟨fun h => ⟨rfl, h.mono fun i hi => (hsame i hi).mpr⟩,
      fun h => h.2.mono fun i hi => (hsame i hi).mp⟩
  | false =>
    have hmem : messageKey topic.bytes n ∈ putBoth topic msg n rec1 false countFails s := by
      rw [mem_iff_exists_get, putBoth, hcount _ n hn, get_putUnless_self]
      exact ⟨_, rfl⟩
    constructor
    · intro h
      have := (h.old n hn hmem).1
      omega
    · rintro ⟨h, -⟩
      cases h

section Call

variable {topic msg : CString} (hlen : topic.bytes.length ≤ 255) {m : ℕ} {tmp : Bytes} {s : Flaky}
  {db : Map} {putFails countFails : Bool} {delFails : List Bool}
  (hread : (readCounter flaky topic).run s =
    .ok ((m : ℤ), tmp) ⟨db, putFails :: countFails :: delFails⟩)
include hlen hread

/-- A message too long for an `int` length ends the call before its first put. -/
theorem storePuts_flaky_long (hm : IsNumber m) (hmsg : toInt msg.bytes.length < 0) :
    (storePuts flaky msg topic).run s =
      .error .lengthError ⟨db, putFails :: countFails :: delFails⟩ := by
  rw [storePuts, run_bind_ok hread]
  simp only
  rw [run_bind_error (putMessage_error flaky hm hlen hmsg _)]

/-- The call with the last number ends before its counter put. -/
theorem storePuts_flaky_last (hm : IsNumber m) (hm1 : ¬ IsNumber (m + 1))
    (hmsg : 0 ≤ toInt msg.bytes.length) :
    (storePuts flaky msg topic).run s = .error .signedOverflow
      ⟨putUnless putFails (messageKey topic.bytes m) (storedBytes msg) db,
        countFails :: delFails⟩ := by
  obtain ⟨rc, hset⟩ := flaky_setkey (messageKey topic.bytes m) (storedBytes msg) db putFails
    (countFails :: delFails)
  rw [storePuts, run_bind_ok hread]
  simp only
  rw [run_bind_ok (putMessage_of_setkey flaky hm hlen hmsg hset),
    run_bind_error (putCounter_overflow flaky hm1 tmp _)]

theorem storePuts_flaky (hm1 : IsNumber (m + 1)) (hmsg : 0 ≤ toInt msg.bytes.length)
    (htmp : tmp.length = 1024) :
    ∃ rec1, CounterValue rec1 (m + 1) ∧ (storePuts flaky msg topic).run s =
      .ok (m : ℤ) ⟨putBoth topic msg m rec1 putFails countFails db, delFails⟩ := by
  have hm : IsNumber m := hm1.mono (by omega)
  obtain ⟨rc, hset⟩ := flaky_setkey (messageKey topic.bytes m) (storedBytes msg) db putFails
    (countFails :: delFails)
  obtain ⟨rest, hrec, hput⟩ := putCounter_of_setkey flaky hlen hm1 htmp
  obtain ⟨rc', hset'⟩ := flaky_setkey (counterKey topic.bytes)
    (fmtLL 1 ((m + 1 : ℕ) : ℤ) ++ 0 :: rest)
    (putUnless putFails (messageKey topic.bytes m) (storedBytes msg) db) countFails delFails
  refine ⟨_, ⟨hrec.le, cstr_append_nul (nul_not_mem_fmtLL _ _) rest⟩, ?_⟩
  rw [storePuts, run_bind_ok hread]
  simp only
  rw [run_bind_ok (putMessage_of_setkey flaky hm hlen hmsg hset), run_bind_ok (hput hset')]
  rfl

/-- Behind its two puts a call leaves what its eviction loop leaves. -/
theorem stateAfter_storeMsg (hm1 : IsNumber (m + 1)) (hmsg : 0 ≤ toInt msg.bytes.length)
    (htmp : tmp.length = 1024) :
    ∃ rec1, CounterValue rec1 (m + 1) ∧
      stateAfter (storeMsg flaky msg topic) s =
        stateAfter (evictLoop flaky topic m
            ((putBoth topic msg m rec1 putFails countFails db).size + delFails.length + 1))
          ⟨putBoth topic msg m rec1 putFails countFails db, delFails⟩ := by
  obtain ⟨rec1, hrec, hputs⟩ := storePuts_flaky hlen hread hm1 hmsg htmp
  exact ⟨rec1, hrec, (stateAfter_congr (storeMsg_of_puts hputs)).trans
    (stateAfter_bind_pure _ (m : ℤ) _)⟩

end Call

/-- The record is present and decodes to at least `n`. -/
def CounterKept (topic : CString) (n : ℕ) (s : Map) : Prop :=
  ∃ v, s[counterKey topic.bytes]? = some v ∧ (n : ℤ) ≤ atol v

/-- The read of the counter fails and its put does not: counting starts over at one. -/
def StartsOver (n : ℕ) (readFails countFails : Bool) : Prop :=
  readFails = true ∧ countFails = false ∧ 1 < n

/-- The put of the message fails and the eviction loop finds nothing recent: it deletes
the counter record. -/
def EvictsCounter (topic : CString) (n : ℕ) (s : Map) (readFails putFails : Bool) : Prop :=
  readFails = false ∧ putFails = true ∧ IsNumber (n + 1) ∧ ReachesCounter topic n s

theorem CounterKept.of_get {topic : CString} {n m : ℕ} {s s' : Map} {v : Bytes}
    (hv : s[counterKey topic.bytes]? = some v) (hc : CounterValue v m) (hm : IsNumber m)
    (hnm : n ≤ m) (h : s'[counterKey topic.bytes]? = s[counterKey topic.bytes]?) :
    CounterKept topic n s' := by
  refine ⟨v, h.trans hv, ?_⟩
  rw [hc.atol_eq hm]
  omega

section Kept

variable {t : Topic} {msg : CString} {n : ℕ} (hn : IsNumber n) {s : Map} {v : Bytes}
  (hs : Shaped t.name s) (hv : s[counterKey t.name.bytes]? = some v) (hc : CounterValue v n)
  (hmsg : 0 ≤ toInt msg.bytes.length)
include hn hv hc hmsg

/-- When the read fails, the call counts from zero. -/
theorem unread_counter_kept_iff (putFails countFails : Bool) (delFails : List Bool) :
    CounterKept t.name n (stateAfter (storeMsg flaky msg t.name)
        ⟨s, true :: putFails :: countFails :: delFails⟩).db ↔ ¬ (countFails = false ∧ 1 < n) := by
  have hlen := t.legal.cacheable.length_le
  have h0 : IsNumber 0 := isNumber_of_lt (by decide)
  have h1 : IsNumber (0 + 1) := isNumber_of_lt (by decide)
  obtain ⟨tmp, htmp, hread⟩ := readCounter_flaky_of_value hlen hn hv hc true
    (putFails :: countFails :: delFails)
  rw [if_pos rfl] at hread
  obtain ⟨rec1, hrec, hafter⟩ := stateAfter_storeMsg hlen hread h1 hmsg htmp
  rw [hafter, stateAfter_evict_small (by decide)]
  have hget : (putBoth t.name msg 0 rec1 putFails countFails s)[counterKey t.name.bytes]? =
      if countFails then some v else some rec1 := by
    rw [putBoth, get_putUnless_self,
      get_putUnless_of_ne _ _ _ (messageKey_ne_counterKey t.name.bytes _), hv]
  cases countFails with
  | true =>
    simp only [reduceCtorEq, false_and, not_false_eq_true, iff_true]
    exact .of_get hv hc hn le_rfl (hget.trans hv.symm)
  | false =>
    simp only [true_and, not_lt]
    have hat : atol rec1 = 1 := hrec.atol_eq h1
    constructor
    · rintro ⟨w, hw, hle⟩
      rw [hget] at hw
      cases hw
      omega
    · intro hn1
      exact ⟨rec1, hget, by omega⟩

include hs in
/-- When the read succeeds, only the eviction loop can harm the counter record. -/
theorem read_counter_kept_iff (putFails countFails : Bool) (delFails : List Bool) :
    CounterKept t.name n (stateAfter (storeMsg flaky msg t.name)
        ⟨s, false :: putFails :: countFails :: delFails⟩).db ↔
      ¬ (putFails = true ∧ IsNumber (n + 1) ∧ ReachesCounter t.name n s) := by
  have ht := t.legal.cacheable
  have hlen := ht.length_le
  have h251 : t.name.bytes.length ≤ 251 := t.legal.length_le.trans (by decide)
  obtain ⟨tmp, htmp, hread⟩ := readCounter_flaky_of_value hlen hn hv hc false
    (putFails :: countFails :: delFails)
  rw [if_neg Bool.false_ne_true] at hread
  have hne := messageKey_ne_counterKey t.name.bytes n
  by_cases hn1 : IsNumber (n + 1)
  swap
  · rw [stateAfter_storeMsg_error (storePuts_flaky_last hlen hread hn hn1 hmsg)]
    simp only [hn1, false_and, and_false, not_false_eq_true, iff_true]
    exact .of_get hv hc hn le_rfl (get_putUnless_of_ne _ _ _ hne)
  obtain ⟨rec1, hrec, hafter⟩ := stateAfter_storeMsg hlen hread hn1 hmsg htmp
  rw [hafter]
  set d := putBoth t.name msg n rec1 putFails countFails s with hd
  have hshaped : Shaped t.name d :=
    (hs.putUnless putFails _ (.inr ⟨n, hn, rfl⟩)).putUnless countFails _ (.inl rfl)
  -- the record in front of the eviction loop is the old one or the next
  have hkept : CounterKept t.name n d := by
    have hget : d[counterKey t.name.bytes]? = if countFails then some v else some rec1 := by
      rw [hd, putBoth, get_putUnless_self, get_putUnless_of_ne _ _ _ hne, hv]
    cases countFails with
    | true => exact .of_get hv hc hn le_rfl (hget.trans hv.symm)
    | false =>
      refine ⟨rec1, hget, ?_⟩
      rw [hrec.atol_eq hn1]
      omega
  have hreach : ReachesCounter t.name n d ↔ putFails = true ∧ ReachesCounter t.name n s :=
    reachesCounter_putBoth hn rec1 putFails countFails
  by_cases hr : ReachesCounter t.name n d
  · have hnone := evict_drops_counter ht h251 hn (s := ⟨d, delFails⟩) hshaped hr
      (Nat.lt_succ_self _)
    constructor
    · rintro ⟨w, hw, -⟩
      rw [hnone] at hw
      cases hw
    · intro hno
      obtain ⟨hp, hr⟩ := hreach.mp hr
      exact absurd ⟨hp, hn1, hr⟩ hno
  · have hsame := evict_keeps_counter ht h251 (s := ⟨d, delFails⟩) hshaped hr
      (d.size + delFails.length + 1)
    refine ⟨fun _ h => hr (hreach.mpr ⟨h.1, h.2.2⟩), fun _ => ?_⟩
    obtain ⟨w, hw, hle⟩ := hkept
    exact ⟨w, hsame.trans hw, hle⟩

end Kept

/-! ### What a topic's database can hold -/

/-- Message entries, and a counter record with the text of a number at its front. -/
structure WellFormed (topic : CString) (s : Map) : Prop where
  shaped : Shaped topic s
  record : ∀ v, s[counterKey topic.bytes]? = some v → ∃ n, IsNumber n ∧ CounterValue v n

theorem wellFormed_empty (topic : CString) : WellFormed topic ∅ := by
  refine ⟨shaped_empty topic, ?_⟩
  intro v hv
  rw [ExtTreeMap.getElem?_empty] at hv
  cases hv

theorem WellFormed.putUnless_message {topic : CString} {s : Map} (h : WellFormed topic s)
    (fails : Bool) {i : ℕ} (hi : IsNumber i) (val : Bytes) :
    WellFormed topic (putUnless fails (messageKey topic.bytes i) val s) := by
  refine ⟨h.shaped.putUnless fails val (.inr ⟨i, hi, rfl⟩), ?_⟩
  intro v hv
  rw [get_putUnless_of_ne _ _ _ (messageKey_ne_counterKey topic.bytes _)] at hv
  exact h.record v hv

theorem WellFormed.putUnless_counter {topic : CString} {s : Map} (h : WellFormed topic s)
    (fails : Bool) {n : ℕ} (hn : IsNumber n) {rec1 : Bytes} (hrec : CounterValue rec1 n) :
    WellFormed topic (putUnless fails (counterKey topic.bytes) rec1 s) := by
  refine ⟨h.shaped.putUnless fails rec1 (.inl rfl), ?_⟩
  intro v hv
  rw [get_putUnless_self] at hv
  cases fails with
  | true => exact h.record v hv
  | false =>
    cases hv
    exact ⟨n, hn, hrec⟩

theorem WellFormed.of_erased {topic : CString} {s s' : Map} (h : WellFormed topic s)
    (herased : ∀ k : Bytes, s'[k]? = none ∨ s'[k]? = s[k]?) : WellFormed topic s' := by
  have hget : ∀ (k v : Bytes), s'[k]? = some v → s[k]? = some v := by
    intro k v hv
    rcases herased k with hk | hk
    · rw [hk] at hv
      cases hv
    · rwa [← hk]
  constructor
  · intro k hk
    obtain ⟨v, hv⟩ := mem_iff_exists_get.mp hk
    exact h.shaped k (mem_iff_exists_get.mpr ⟨v, hget k v hv⟩)
  · intro v hv
    exact h.record v (hget _ v hv)

theorem WellFormed.numberUsed_eq {topic : CString} {s : Map} (h : WellFormed topic s)
    (fails : Bool) : ∃ m : ℕ, numberUsed topic s fails = m ∧ IsNumber m := by
  cases hv : s[counterKey topic.bytes]? with
  | some v =>
    obtain ⟨n, hn, hc⟩ := h.record v hv
    exact ⟨_, numberUsed_of_value hn hv hc fails, hn.mono (by split <;> omega)⟩
  | none => exact ⟨0, numberUsed_of_none hv fails, isNumber_of_lt (by decide)⟩

theorem WellFormed.readCounter_flaky {topic : CString} {s : Map} (h : WellFormed topic s)
    (hlen : topic.bytes.length ≤ 255) (fails : Bool) (fs : List Bool) :
    ∃ (m : ℕ) (tmp : Bytes), numberUsed topic s fails = m ∧ IsNumber m ∧ tmp.length = 1024 ∧
      (readCounter flaky topic).run ⟨s, fails :: fs⟩ = .ok ((m : ℤ), tmp) ⟨s, fs⟩ := by
  obtain ⟨m, hused, hm⟩ := h.numberUsed_eq fails
  obtain ⟨tmp, htmp, hread⟩ :=
    KfkClient.readCounter_flaky (length_counterKey_lt hlen) s fails fs
  rw [hused] at hread
  exact ⟨m, tmp, hused, hm, htmp, hread⟩

/-- Whatever fails in a call, it leaves a well-formed database. -/
theorem storeMsg_flaky_wellFormed (t : Topic) (msg : CString) {s : Map}
    (h : WellFormed t.name s) (readFails putFails countFails : Bool) (delFails : List Bool) :
    WellFormed t.name (stateAfter (storeMsg flaky msg t.name)
      ⟨s, readFails :: putFails :: countFails :: delFails⟩).db := by
  have ht := t.legal.cacheable
  obtain ⟨m, tmp, -, hm, htmp, hread⟩ := h.readCounter_flaky ht.length_le readFails
    (putFails :: countFails :: delFails)
  by_cases hmsg : toInt msg.bytes.length < 0
  · rw [stateAfter_storeMsg_error (storePuts_flaky_long ht.length_le hread hm hmsg)]
    exact h
  rw [not_lt] at hmsg
  have hput := h.putUnless_message putFails hm (storedBytes msg)
  by_cases hm1 : IsNumber (m + 1)
  · obtain ⟨rec1, hrec, hafter⟩ := stateAfter_storeMsg ht.length_le hread hm1 hmsg htmp
    have hboth := hput.putUnless_counter countFails hm1 hrec
    rw [hafter]
    exact hboth.of_erased (evict_only_erases ht (s := ⟨_, delFails⟩) hboth.shaped _)
  · rw [stateAfter_storeMsg_error (storePuts_flaky_last ht.length_le hread hm hm1 hmsg)]
    exact hput

/-- For every well-formed database of a topic whose counter record decodes to `n`, and
every combination of failures, the record is still there after the call and decodes to
at least `n` exactly when the call neither starts over nor evicts the record. -/
theorem counter_kept_iff (t : Topic) (msg : CString) {s : Map} (h : WellFormed t.name s)
    {v : Bytes} (hv : s[counterKey t.name.bytes]? = some v) {n : ℕ} (hn : atol v = n)
    (readFails putFails countFails : Bool) (delFails : List Bool) :
    CounterKept t.name n (stateAfter (storeMsg flaky msg t.name)
        ⟨s, readFails :: putFails :: countFails :: delFails⟩).db ↔
      toInt msg.bytes.length < 0 ∨
        ¬ StartsOver n readFails countFails ∧ ¬ EvictsCounter t.name n s readFails putFails := by
  obtain ⟨m, hm, hc⟩ := h.record v hv
  have hmn : m = n := by
    rw [hc.atol_eq hm] at hn
    exact_mod_cast hn
  subst hmn
  by_cases hmsg : toInt msg.bytes.length < 0
  · simp only [hmsg, true_or, iff_true]
    have hlen := t.legal.cacheable.length_le
    have hnum : IsNumber (if readFails then 0 else m) := hm.mono (by split <;> omega)
    obtain ⟨tmp, -, hread⟩ := readCounter_flaky_of_value hlen hm hv hc readFails
      (putFails :: countFails :: delFails)
    rw [stateAfter_storeMsg_error (storePuts_flaky_long hlen hread hnum hmsg)]
    exact .of_get hv hc hm le_rfl rfl
  cases readFails with
  | true =>
    rw [unread_counter_kept_iff hm hv hc (not_lt.mp hmsg)]
    simp [hmsg, StartsOver, EvictsCounter]
  | false =>
    rw [read_counter_kept_iff hm h.shaped hv hc (not_lt.mp hmsg)]
    simp [hmsg, StartsOver, EvictsCounter]

/-- The cache of the topic `t` with a counter record for 2 and no message. -/
def countsTwo : Map := (∅ : Map).insert (counterKey Topic.sample.name.bytes) (50 :: zeros 1023)

theorem counterValue_two : CounterValue (50 :: zeros 1023) 2 := by
  refine ⟨by simp, ?_⟩
  have htext : fmtLL 1 ((2 : ℕ) : ℤ) = [50] := by decide
  rw [htext, zeros_succ]
  have h50 : (0 : UInt8) ∉ [(50 : UInt8)] := by decide
  exact cstr_append_nul h50 _

theorem number_two : IsNumber 2 := isNumber_of_lt (by decide)

theorem countsTwo_get :
    countsTwo[counterKey Topic.sample.name.bytes]? = some (50 :: zeros 1023) :=
  ExtTreeMap.getElem?_insert_self

theorem wellFormed_countsTwo : WellFormed Topic.sample.name countsTwo :=
  (wellFormed_empty Topic.sample.name).putUnless_counter false number_two counterValue_two

/-- Neither the read nor the counter put succeeds: the record stays as it was. -/
theorem counter_kept_both_fail :
    CounterKept Topic.sample.name 2 (stateAfter
      (storeMsg flaky ⟨[109], by decide⟩ Topic.sample.name) ⟨countsTwo, [true, false, true]⟩).db :=
  (counter_kept_iff Topic.sample ⟨[109], by decide⟩ wellFormed_countsTwo countsTwo_get
    (counterValue_two.atol_eq number_two) true false true []).mpr
    (.inr ⟨fun h => absurd h.2.1 (by decide), fun h => absurd h.1 (by decide)⟩)

/-- The read of a counter that stands at 2 fails: the call puts the counter back to 1. -/
theorem failed_read_moves_counter_back :
    WellFormed Topic.sample.name countsTwo ∧ atol (50 :: zeros 1023) = 2 ∧
      countsTwo[counterKey Topic.sample.name.bytes]? = some (50 :: zeros 1023) ∧
      ¬ CounterKept Topic.sample.name 2 (stateAfter
        (storeMsg flaky ⟨[109], by decide⟩ Topic.sample.name)
        ⟨countsTwo, [true, false, false]⟩).db := by
  refine ⟨wellFormed_countsTwo, counterValue_two.atol_eq number_two, countsTwo_get, ?_⟩
  rw [unread_counter_kept_iff number_two countsTwo_get counterValue_two (by decide)]
  simp

end KfkClient
