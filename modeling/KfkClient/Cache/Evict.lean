import KfkClient.Cache.Steps

/-!
# The eviction loop and the whole store part

`evictLoop_evicts` is partial correctness for every cacheable topic and
`evictLoop_returns` termination for topics whose keys fit into `ktmp[256]`.
`storeMsg_stores` and `storeMsg_returns` put the operations together.
-/

namespace KfkClient

open CLib OrderedMap
open Std (ExtTreeMap)

/-- Nothing is in the database but the counter record and message entries. -/
def Shaped (topic : CString) (s : Map) : Prop :=
  ∀ k ∈ s, k = counterKey topic.bytes ∨ ∃ i, IsNumber i ∧ k = messageKey topic.bytes i

/-- The keys of a topic's cache, whole or cut to the eviction buffer, are keys the
backend keeps as they are. -/
structure KeysOk (ok : Bytes → Prop) (topic : CString) : Prop where
  counter : ok (counterKey topic.bytes)
  message : ∀ {i}, IsNumber i → ok (messageKey topic.bytes i)
  cut : ∀ {i}, IsNumber i → ok ((messageKey topic.bytes i).take 255)

theorem keysOk_all (topic : CString) : KeysOk (fun _ => True) topic :=
  ⟨trivial, fun _ => trivial, fun _ => trivial⟩

/-- What the eviction loop for number `n` makes of `s`. -/
structure Evicted (topic : CString) (n : ℕ) (s s' : Map) : Prop where
  gone : ∀ i, IsNumber i → i + 50000 < n → s'[messageKey topic.bytes i]? = none
  kept : ∀ k, (∀ i, IsNumber i → i + 50000 < n → k ≠ messageKey topic.bytes i) → s'[k]? = s[k]?

/-- The counter record holds `n`; a cache without one counts from zero. -/
def Counts (topic : CString) (s : Map) (n : ℕ) : Prop :=
  match s[counterKey topic.bytes]? with
  | none => n = 0
  | some v => CounterValue v n

/-- What a call that stored its message `val` under number `n` makes of `s`. -/
structure Stored (topic : CString) (val : Bytes) (n : ℕ) (s s' : Map) : Prop where
  counter : ∃ v, s'[counterKey topic.bytes]? = some v ∧ CounterValue v (n + 1)
  message : s'[messageKey topic.bytes n]? = some val
  gone : ∀ i, IsNumber i → i + 50000 < n → s'[messageKey topic.bytes i]? = none
  kept : ∀ k, k ≠ counterKey topic.bytes → k ≠ messageKey topic.bytes n →
    (∀ i, IsNumber i → i + 50000 < n → k ≠ messageKey topic.bytes i) → s'[k]? = s[k]?

theorem Shaped.erase {topic : CString} {s : Map} (h : Shaped topic s) (k : Bytes) :
    Shaped topic (s.erase k) :=
  fun a ha => h a (ExtTreeMap.mem_of_mem_erase ha)

theorem Shaped.insert {topic : CString} {s : Map} (h : Shaped topic s) {k : Bytes} (v : Bytes)
    (hk : k = counterKey topic.bytes ∨ ∃ i, IsNumber i ∧ k = messageKey topic.bytes i) :
    Shaped topic (s.insert k v) := by
  intro a ha
  rcases ExtTreeMap.mem_insert.mp ha with he | ha
  · rw [← Std.LawfulEqCmp.eq_of_compare he]
    exact hk
  · exact h a ha

theorem shaped_empty (topic : CString) : Shaped topic ∅ := by
  intro k hk
  simp at hk

/-- The first entry of a cache with a message in it is its oldest message. -/
theorem Shaped.first_message {topic : CString} (ht : Cacheable topic) {s : Map}
    (h : Shaped topic s) {j : ℕ} (hj : IsNumber j) (hm : messageKey topic.bytes j ∈ s) :
    ∃ i v, IsNumber i ∧ first? s = some (messageKey topic.bytes i, v) ∧
      ∀ l, IsNumber l → messageKey topic.bytes l ∈ s → i ≤ l := by
  obtain ⟨k, v, hf⟩ := exists_first?_of_mem hm
  obtain ⟨hk, hmin⟩ := first?_spec hf
  rcases h k (mem_iff_exists_get.mpr ⟨v, hk⟩) with rfl | ⟨i, hi, rfl⟩
  · -- the counter record comes after the message entry
    have h1 := hmin _ hm (messageKey_ne_counterKey topic.bytes _)
    have h2 := compare_messageKey_counterKey hj ht
    exact absurd h1 (Std.OrientedCmp.not_lt_of_lt h2)
  · refine ⟨i, v, hi, hf, ?_⟩
    intro l hl hml
    by_cases hil : l = i
    · exact hil.ge
    · have hlt := hmin _ hml (fun he => hil ((messageKey_inj hl hi).mp he))
      rw [compare_messageKey hi hl] at hlt
      exact (Nat.compare_eq_lt.mp hlt).le

/-- The first key of a cache is a message key, or the counter key when there is no
message. -/
theorem Shaped.first_key {topic : CString} (ht : Cacheable topic) {s : Map}
    (h : Shaped topic s) {k v : Bytes} (hf : first? s = some (k, v)) :
    (∃ i, IsNumber i ∧ k = messageKey topic.bytes i) ∨
      k = counterKey topic.bytes ∧ ∀ i, IsNumber i → messageKey topic.bytes i ∉ s := by
  rcases h k (mem_iff_exists_get.mpr ⟨v, (first?_spec hf).1⟩) with hk | hk
  · refine .inr ⟨hk, ?_⟩
    intro i hi hmem
    obtain ⟨j, w, hj, hfj, -⟩ := h.first_message ht hi hmem
    rw [hf] at hfj
    exact messageKey_ne_counterKey topic.bytes _
      ((congrArg Prod.fst (Option.some.inj hfj)).symm.trans hk)
  · exact .inl hk

theorem Shaped.nul_not_mem {topic : CString} {s : Map} (h : Shaped topic s) {k : Bytes}
    (hk : k ∈ s) : (0 : UInt8) ∉ k := by
  rcases h k hk with rfl | ⟨i, hi, rfl⟩
  · exact nul_not_mem_counterKey topic
  · exact nul_not_mem_messageKey hi topic

/-- A message key that the buffer cuts is not a key of the cache. -/
theorem Shaped.cut_not_mem {topic : CString} (ht : Cacheable topic) {s : Map} (h : Shaped topic s)
    (hlong : 235 < topic.bytes.length) {i : ℕ} (hi : IsNumber i) :
    (messageKey topic.bytes i).take 255 ∉ s := by
  intro hm
  have hlen : ((messageKey topic.bytes i).take 255).length = 255 := by
    rw [List.length_take, length_messageKey hi]
    omega
  rcases h _ hm with he | ⟨j, hj, he⟩
  · exact take_messageKey_ne_counterKey hi ht 255 he
  · rw [he, length_messageKey hj] at hlen
    omega

/-- Deleting the key in the buffer erases the whole key, or nothing when it was cut. -/
theorem Shaped.erase_cut {topic : CString} (ht : Cacheable topic) {s : Map} (h : Shaped topic s)
    {i : ℕ} (hi : IsNumber i) :
    s.erase ((messageKey topic.bytes i).take 255) =
      if topic.bytes.length ≤ 235 then s.erase (messageKey topic.bytes i) else s := by
  split
  · next hfit =>
      rw [List.take_of_length_le]
      rw [length_messageKey hi]
      omega
  · next hlong =>
      exact erase_of_not_mem (ExtTreeMap.getElem?_eq_none (h.cut_not_mem ht (by omega) hi))

theorem mem_erase_older {topic : Bytes} {i n : ℕ} (hi : IsNumber i) (hn : IsNumber n) (hin : i < n)
    {s : Map} (h : messageKey topic n ∈ s) : messageKey topic n ∈ s.erase (messageKey topic i) := by
  rw [ExtTreeMap.mem_erase]
  refine ⟨?_, h⟩
  simpa using fun he => hin.ne ((messageKey_inj hi hn).mp he)

theorem numMax_lt {n : ℕ} (h : 50000 < n) : (n : ℤ) > numMax := by
  simp only [numMax]
  omega

section AnyBackend

variable {σ : Type} (B : Opdb σ) {topic : CString} {n : ℕ}

theorem evictLoop_small (hn : n ≤ 50000) (fuel : ℕ) (s : σ) :
    (evictLoop B topic n (fuel + 1)).run s = .ok () s := by
  have hle : ¬ (n : ℤ) > numMax := by
    simp only [numMax]
    omega
  rw [evictLoop, if_neg hle]
  rfl

theorem evictLoop_first_error (hmax : 50000 < n) {s s' : σ} {e : Fault}
    (hget : B.getFirst.run s = .error e s') (fuel : ℕ) :
    (evictLoop B topic n (fuel + 1)).run s = .error e s' := by
  have hgt := numMax_lt hmax
  have hfirst : (storageFirst B (zeros 256) 256 (zeros 1024) 1024).run s = .error e s' := by
    rw [storageFirst, run_bind_error hget]
  have hfo : (firstOffset B topic).run s = .error e s' := by
    rw [firstOffset, run_bind_error hfirst]
  rw [evictLoop, if_pos hgt, run_bind_error hfo]

theorem evictLoop_overflow (hlen : topic.bytes.length ≤ 255) (hmax : 50000 < n) {k v : Bytes}
    {s : σ} (hget : B.getFirst.run s = .ok (0, k, v) s) {o : ℤ}
    (ho : atol ((keyBuf k).drop topic.bytes.length) = o)
    (hover : ¬ (n : ℤ) - o < llBound) (fuel : ℕ) :
    (evictLoop B topic n (fuel + 1)).run s = .error .signedOverflow s := by
  have hfo := firstOffset_of_first B hlen hget
  rw [ho] at hfo
  have hgt := numMax_lt hmax
  rw [evictLoop, if_pos hgt, run_bind_ok hfo]
  simp only
  rw [run_bind_error (llSub_overflow hover s)]

/-- One round on a database whose first key is `k`. -/
theorem evictRound_first (hlen : topic.bytes.length ≤ 255) {k v : Bytes}
    (hk : (0 : UInt8) ∉ k) {s : σ} (hget : B.getFirst.run s = .ok (0, k, v) s) {o : ℤ}
    (ho : atol ((keyBuf k).drop topic.bytes.length) = o)
    (hsub : -llBound ≤ (n : ℤ) - o ∧ (n : ℤ) - o < llBound) :
    (evictRound B topic n).run s =
      if (n : ℤ) - o > numMax then (B.delkey (k.take 255) >>= fun _ => pure true).run s
      else .ok false s := by
  have hfo := firstOffset_of_first B hlen hget
  rw [ho] at hfo
  have hcut : (cstr (keyBuf k)).length < 2 ^ 31 := by
    rw [cstr_keyBuf hk, List.length_take]
    omega
  rw [evictRound, run_bind_ok hfo]
  simp only
  rw [run_bind_ok (llSub_ok hsub s)]
  by_cases hold : (n : ℤ) - o > numMax
  · have hdel := storageDelkey_eq B hcut s
    rw [cstr_keyBuf hk] at hdel
    rw [if_pos hold, if_pos hold, run_bind_congr hdel]
  · rw [if_neg hold, if_neg hold]
    rfl

/-- The loop after a round that does not break. -/
theorem evictLoop_goes (hmax : 50000 < n) {s s' : σ}
    (h : (evictRound B topic n).run s = .ok true s') (fuel : ℕ) :
    (evictLoop B topic n (fuel + 1)).run s = (evictLoop B topic n fuel).run s' := by
  rw [evictLoop_succ, if_pos (numMax_lt hmax), run_bind_ok h]
  rfl

theorem evictLoop_breaks (hmax : 50000 < n) {s s' : σ}
    (h : (evictRound B topic n).run s = .ok false s') (fuel : ℕ) :
    (evictLoop B topic n (fuel + 1)).run s = .ok () s' := by
  rw [evictLoop_succ, if_pos (numMax_lt hmax), run_bind_ok h]
  rfl

end AnyBackend

section Faithful

variable {B : Opdb Map} {ok : Bytes → Prop} {enc : Bytes → Bytes} (F : B.Faithful ok enc)
include F

theorem readCounter_counts {topic : CString} (hlen : topic.bytes.length ≤ 255)
    (hk : ok (counterKey topic.bytes)) {s : Map} {n : ℕ} (hn : IsNumber n)
    (hc : Counts topic s n) :
    ∃ tmp : Bytes, tmp.length = 1024 ∧ (readCounter B topic).run s = .ok ((n : ℤ), tmp) s := by
  cases hv : s[counterKey topic.bytes]? with
  | none =>
    rw [Counts, hv] at hc
    subst hc
    exact ⟨zeros 1024, by simp, readCounter_none F hlen hk hv⟩
  | some v =>
    rw [Counts, hv] at hc
    exact readCounter_some F hlen hk hn hv hc

/-- One round on a cache whose oldest message is `i`: it breaks when `i` is recent, and
otherwise erases the key in the buffer. -/
theorem evictRound_run {topic : CString} (ht : Cacheable topic) (hK : KeysOk ok topic) {n i : ℕ}
    (hn : IsNumber n) (hi : IsNumber i) (hin : i ≤ n) {s : Map} {v : Bytes}
    (hf : first? s = some (messageKey topic.bytes i, v)) :
    (evictRound B topic n).run s =
      if i / 10 ^ (topic.bytes.length - 235) + 50000 < n then
        .ok true (s.erase ((messageKey topic.bytes i).take 255))
      else .ok false s := by
  have ho := atol_keyBuf hi ht.length_le
  set o := i / 10 ^ (topic.bytes.length - 235) with hodef
  have hoi : o ≤ i := Nat.div_le_self _ _
  have ho0 : (0 : ℤ) ≤ o := Int.natCast_nonneg o
  have hsub : -llBound ≤ (n : ℤ) - o ∧ (n : ℤ) - o < llBound := by
    simp only [IsNumber, llBound] at hn ⊢
    omega
  rw [evictRound_first B ht.length_le (nul_not_mem_messageKey hi topic) (F.getFirst hf) ho hsub]
  by_cases hold : o + 50000 < n
  · obtain ⟨rc, hdel⟩ := F.delkey (hK.cut hi) s
    have hage : (n : ℤ) - o > numMax := by
      simp only [numMax]
      omega
    rw [if_pos hage, if_pos hold, run_bind_ok hdel]
    rfl
  · have hage : ¬ (n : ℤ) - o > numMax := by
      simp only [numMax]
      omega
    rw [if_neg hage, if_neg hold]

theorem evictLoop_round {topic : CString} (ht : Cacheable topic) (hK : KeysOk ok topic) {n i : ℕ}
    (hn : IsNumber n) (hi : IsNumber i) (hin : i ≤ n) (hmax : 50000 < n) {s : Map} {v : Bytes}
    (hf : first? s = some (messageKey topic.bytes i, v)) (fuel : ℕ) :
    (evictLoop B topic n (fuel + 1)).run s =
      if i / 10 ^ (topic.bytes.length - 235) + 50000 < n then
        (evictLoop B topic n fuel).run (s.erase ((messageKey topic.bytes i).take 255))
      else .ok () s := by
  have hround := evictRound_run F ht hK hn hi hin hf
  split at hround
  · next hold =>
      rw [if_pos hold]
      exact evictLoop_goes B hmax hround fuel
  · next hold =>
      rw [if_neg hold]
      exact evictLoop_breaks B hmax hround fuel

/-- When the loop ends, exactly the entries more than `num_max` numbers old are gone. -/
theorem evictLoop_evicts {topic : CString} (ht : Cacheable topic) (hK : KeysOk ok topic) {n : ℕ}
    (hn : IsNumber n) {fuel : ℕ} {s s' : Map} (hs : Shaped topic s)
    (hmem : messageKey topic.bytes n ∈ s)
    (h : (evictLoop B topic n fuel).run s = .ok () s') : Evicted topic n s s' := by
  induction fuel generalizing s with
  | zero =>
    rw [evictLoop, run_throw] at h
    cases h
  | succ fuel ih =>
    by_cases hmax : 50000 < n
    swap
    · rw [evictLoop_small B (by omega)] at h
      cases h
      exact ⟨fun i _ hi => by omega, fun k _ => rfl⟩
    obtain ⟨i, v, hi, hf, hmin⟩ := hs.first_message ht hn hmem
    have hin : i ≤ n := hmin n hn hmem
    rw [evictLoop_round F ht hK hn hi hin hmax hf] at h
    have hoi : i / 10 ^ (topic.bytes.length - 235) ≤ i := Nat.div_le_self _ _
    by_cases hold : i / 10 ^ (topic.bytes.length - 235) + 50000 < n
    · rw [if_pos hold] at h
      rw [hs.erase_cut ht hi] at h
      by_cases hfit : topic.bytes.length ≤ 235
      · -- the whole key fits into the buffer: the oldest entry goes
        rw [offset_of_fits hfit] at hold
        rw [if_pos hfit] at h
        obtain ⟨hgone, hkept⟩ := ih (hs.erase _) (mem_erase_older hi hn (by omega) hmem) h
        refine ⟨hgone, ?_⟩
        intro k hk
        rw [hkept k hk, get_erase_of_ne (Ne.symm (hk i hi hold))]
      · -- the buffer cuts the key, and the delete finds nothing
        rw [if_neg hfit] at h
        exact ih hs hmem h
    · rw [if_neg hold] at h
      cases h
      refine ⟨?_, fun k _ => rfl⟩
      intro j hj hjn
      by_contra hne
      obtain ⟨w, hw⟩ := Option.ne_none_iff_exists'.mp hne
      have hij := hmin j hj (mem_iff_exists_get.mpr ⟨w, hw⟩)
      omega

/-- On a topic of at most 235 bytes the loop ends: every round that does not break
deletes an entry. -/
theorem evictLoop_returns {topic : CString} (ht : Cacheable topic)
    (hfit : topic.bytes.length ≤ 235) (hK : KeysOk ok topic) {n : ℕ} (hn : IsNumber n) {fuel : ℕ}
    {s : Map} (hs : Shaped topic s) (hmem : messageKey topic.bytes n ∈ s) (hfuel : s.size < fuel) :
    ∃ s', (evictLoop B topic n fuel).run s = .ok () s' := by
  induction fuel generalizing s with
  | zero => omega
  | succ fuel ih =>
    by_cases hmax : 50000 < n
    swap
    · exact ⟨s, evictLoop_small B (by omega) fuel s⟩
    obtain ⟨i, v, hi, hf, hmin⟩ := hs.first_message ht hn hmem
    have hin : i ≤ n := hmin n hn hmem
    have hround := evictLoop_round F ht hK hn hi hin hmax hf fuel
    by_cases hold : i / 10 ^ (topic.bytes.length - 235) + 50000 < n
    · rw [if_pos hold, hs.erase_cut ht hi, if_pos hfit] at hround
      rw [offset_of_fits hfit] at hold
      have hik : messageKey topic.bytes i ∈ s := mem_iff_exists_get.mpr ⟨v, (first?_spec hf).1⟩
      have hsize := size_erase_of_mem hik
      obtain ⟨s', hs'⟩ := ih (hs.erase _) (mem_erase_older hi hn (by omega) hmem) (by omega)
      exact ⟨s', hround.trans hs'⟩
    · rw [if_neg hold] at hround
      exact ⟨s, hround⟩

/-- Before its loop a call reads the number `n` and puts the message and the counter. -/
theorem storePuts_run {msg topic : CString} (hlen : topic.bytes.length ≤ 255)
    (hK : KeysOk ok topic) {n : ℕ} (hn : IsNumber (n + 1)) {s : Map} (hc : Counts topic s n)
    (hm : 0 ≤ toInt msg.bytes.length) :
    ∃ v, CounterValue v (n + 1) ∧ (storePuts B msg topic).run s = .ok (n : ℤ)
      ((s.insert (messageKey topic.bytes n) (enc (storedBytes msg))).insert
        (counterKey topic.bytes) v) := by
  have hn0 : IsNumber n := hn.mono (by omega)
  obtain ⟨tmp, htmp, hread⟩ := readCounter_counts F hlen hK.counter hn0 hc
  obtain ⟨v, hv, hput⟩ := putCounter_run F hlen hK.counter hn htmp
    (s.insert (messageKey topic.bytes n) (enc (storedBytes msg)))
  refine ⟨v, hv, ?_⟩
  rw [storePuts, run_bind_ok hread]
  simp only
  rw [run_bind_ok (putMessage_run F hn0 hlen (hK.message hn0) hm s), run_bind_ok hput]
  rfl

/-- The loop is reached with a message that has an `int` length and a number that has a
successor. -/
theorem storePuts_eq_ok {msg topic : CString} (hlen : topic.bytes.length ≤ 255)
    (hK : KeysOk ok topic) {n : ℕ} (hn : IsNumber n) {s s' : Map} (hc : Counts topic s n) {num : ℤ}
    (h : (storePuts B msg topic).run s = .ok num s') :
    num = n ∧ IsNumber (n + 1) ∧ ∃ v, CounterValue v (n + 1) ∧
      s' = (s.insert (messageKey topic.bytes n) (enc (storedBytes msg))).insert
        (counterKey topic.bytes) v := by
  obtain ⟨tmp, htmp, hread⟩ := readCounter_counts F hlen hK.counter hn hc
  have hm : 0 ≤ toInt msg.bytes.length := by
    by_contra hneg
    rw [storePuts, run_bind_ok hread] at h
    simp only at h
    rw [run_bind_error (putMessage_error B hn hlen (by omega) s)] at h
    cases h
  have hn1 : IsNumber (n + 1) := by
    by_contra hov
    rw [storePuts, run_bind_ok hread] at h
    simp only at h
    rw [run_bind_ok (putMessage_run F hn hlen (hK.message hn) hm s),
      run_bind_error (putCounter_overflow B hov tmp _)] at h
    cases h
  obtain ⟨v, hv, hput⟩ := storePuts_run F hlen hK hn1 hc hm
  cases hput.symm.trans h
  exact ⟨rfl, hn1, v, hv, rfl⟩

/-- A call that returns read the number `n` it returns, and stored its message. -/
theorem storeMsg_stores {msg topic : CString} (ht : Cacheable topic) (hK : KeysOk ok topic)
    {n : ℕ} (hn : IsNumber n) {s s' : Map} {num : ℤ} (hs : Shaped topic s) (hc : Counts topic s n)
    (h : (storeMsg B msg topic).run s = .ok num s') :
    num = n ∧ IsNumber (n + 1) ∧ Stored topic (enc (storedBytes msg)) n s s' := by
  obtain ⟨s2, hputs, hev⟩ := storeMsg_eq_ok h
  obtain ⟨rfl, hn1, v, hv, hs2⟩ := storePuts_eq_ok F ht.length_le hK hn hc hputs
  have hne := messageKey_ne_counterKey topic.bytes n
  have hmem : s2[messageKey topic.bytes n]? = some (enc (storedBytes msg)) := by
    rw [hs2, get_insert_of_ne _ (Ne.symm hne), ExtTreeMap.getElem?_insert_self]
  have hsh : Shaped topic s2 := by
    rw [hs2]
    exact (hs.insert _ (.inr ⟨n, hn, rfl⟩)).insert _ (.inl rfl)
  obtain ⟨hgone, hkept⟩ := evictLoop_evicts F ht hK hn hsh (mem_iff_exists_get.mpr ⟨_, hmem⟩) hev
  refine ⟨rfl, hn1, ⟨v, ?_, hv⟩, ?_, hgone, ?_⟩
  · rw [hkept _ fun i hi _ => (messageKey_ne_counterKey topic.bytes _).symm, hs2,
      ExtTreeMap.getElem?_insert_self]
  · rw [hkept _ fun i hi hlt he => by have := (messageKey_inj hn hi).mp he; omega, hmem]
  · intro k hkc hkn hold
    rw [hkept k hold, hs2, get_insert_of_ne _ (Ne.symm hkc), get_insert_of_ne _ (Ne.symm hkn)]

/-- On a topic of at most 235 bytes, or below number 50001 on any topic, a call whose
message has an `int` length returns. -/
theorem storeMsg_returns {msg topic : CString} (ht : Cacheable topic) {n : ℕ}
    (hfit : topic.bytes.length ≤ 235 ∨ n ≤ 50000) (hK : KeysOk ok topic) (hn : IsNumber (n + 1))
    {s : Map} (hs : Shaped topic s) (hc : Counts topic s n) (hm : 0 ≤ toInt msg.bytes.length) :
    ∃ s', (storeMsg B msg topic).run s = .ok (n : ℤ) s' := by
  have hn0 : IsNumber n := hn.mono (by omega)
  obtain ⟨v, -, hputs⟩ := storePuts_run F ht.length_le hK hn hc hm
  set s2 := (s.insert (messageKey topic.bytes n) (enc (storedBytes msg))).insert
    (counterKey topic.bytes) v with hs2
  have hev : ∃ s', (evictLoop B topic n (B.deletable s2 + 1)).run s2 = .ok () s' := by
    rcases hfit with hfit | hsmall
    · have hmem : messageKey topic.bytes n ∈ s2 := by simp [hs2]
      have hsh : Shaped topic s2 := (hs.insert _ (.inr ⟨n, hn0, rfl⟩)).insert _ (.inl rfl)
      have hfuel : s2.size < B.deletable s2 + 1 := by
        rw [F.deletable]
        omega
      exact evictLoop_returns F ht hfit hK hn0 hsh hmem hfuel
    · exact ⟨s2, evictLoop_small B hsmall _ s2⟩
  obtain ⟨s', hev⟩ := hev
  refine ⟨s', ?_⟩
  rw [storeMsg_of_puts hputs, run_bind_ok hev]
  rfl

end Faithful

theorem Stored.shaped {topic : CString} {val : Bytes} {n : ℕ} (hn : IsNumber n) {s s' : Map}
    (h : Stored topic val n s s') (hs : Shaped topic s) : Shaped topic s' := by
  intro k hk
  by_cases hc : k = counterKey topic.bytes
  · exact .inl hc
  by_cases hm : ∃ i, IsNumber i ∧ k = messageKey topic.bytes i
  · exact .inr hm
  refine hs k ?_
  obtain ⟨v, hv⟩ := mem_iff_exists_get.mp hk
  rw [h.kept k hc (fun he => hm ⟨n, hn, he⟩) (fun i hi _ he => hm ⟨i, hi, he⟩)] at hv
  exact mem_iff_exists_get.mpr ⟨v, hv⟩

theorem Stored.counts {topic : CString} {val : Bytes} {n : ℕ} {s s' : Map}
    (h : Stored topic val n s s') : Counts topic s' (n + 1) := by
  obtain ⟨v, hv, hc⟩ := h.counter
  rw [Counts, hv]
  exact hc

end KfkClient
