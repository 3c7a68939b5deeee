import KfkClient.Cache.Send

/-!
# The keys of a topic's cache

Message keys of one topic have one length and their byte order is the order of
their numbers. On a cacheable topic every message key comes before the counter key.
-/

namespace KfkClient

open CLib

/-- Names whose caches work: the offset of an eviction is read inside `ktmp[256]`,
and no message key reaches the `'~'` that the counter key starts with. -/
structure Cacheable (topic : CString) : Prop where
  length_le : topic.bytes.length ≤ 255
  below : ∀ b ∈ topic.bytes.head?, b < 126

-- letters, digits, `.`, `_` and `-`
def legalByte (b : UInt8) : Bool :=
  (48 ≤ b && b ≤ 57) || (65 ≤ b && b ≤ 90) || (97 ≤ b && b ≤ 122) || b == 46 || b == 95 || b == 45

/-- The topic names Kafka admits. -/
structure KafkaLegal (topic : CString) : Prop where
  nonempty : topic.bytes ≠ []
  length_le : topic.bytes.length ≤ 249
  legal : ∀ b ∈ topic.bytes, legalByte b = true
  -- `.` and `..` are not names
  not_dots : topic.bytes ≠ [46] ∧ topic.bytes ≠ [46, 46]

theorem legalByte_lt {b : UInt8} (h : legalByte b = true) : b < 126 := by
  simp only [legalByte, Bool.or_eq_true, Bool.and_eq_true, decide_eq_true_eq, beq_iff_eq,
    UInt8.le_iff_toNat_le, UInt8.lt_iff_toNat_lt, ← UInt8.toNat_inj] at h ⊢
  change b.toNat < 126
  simp at h
  omega

theorem KafkaLegal.cacheable {topic : CString} (h : KafkaLegal topic) : Cacheable topic := by
  refine ⟨h.length_le.trans (by decide), ?_⟩
  intro b hb
  exact legalByte_lt (h.legal b (List.mem_of_mem_head? hb))

/-- The numbers a message can have. -/
def IsNumber (i : ℕ) : Prop := (i : ℤ) < llBound

theorem isNumber_of_lt {i : ℕ} (h : i < 2 ^ 63) : IsNumber i := by
  simp only [IsNumber, llBound]
  omega

theorem IsNumber.lt_pow {i : ℕ} (h : IsNumber i) : i < 10 ^ 20 := by
  simp only [IsNumber, llBound] at h
  omega

theorem IsNumber.mono {i j : ℕ} (h : IsNumber j) (hij : i ≤ j) : IsNumber i := by
  simp only [IsNumber] at h ⊢
  omega

theorem messageKey_eq {i : ℕ} (h : IsNumber i) (topic : Bytes) :
    messageKey topic i = topic ++ decPad 20 i := by
  rw [messageKey, fmtLL_of_lt h.lt_pow]

theorem length_messageKey {i : ℕ} (h : IsNumber i) (topic : Bytes) :
    (messageKey topic i).length = topic.length + 20 := by
  simp [messageKey_eq h]

theorem length_counterKey (topic : Bytes) : (counterKey topic).length = topic.length + 4 := by
  simp [counterKey]

theorem length_messageKey_lt {i : ℕ} (h : IsNumber i) {topic : Bytes} (ht : topic.length ≤ 255) :
    (messageKey topic i).length < 2 ^ 31 := by
  rw [length_messageKey h]
  omega

theorem length_counterKey_lt {topic : Bytes} (ht : topic.length ≤ 255) :
    (counterKey topic).length < 2 ^ 31 := by
  rw [length_counterKey]
  omega

theorem messageKey_inj {i j : ℕ} (hi : IsNumber i) (hj : IsNumber j) {topic : Bytes} :
    messageKey topic i = messageKey topic j ↔ i = j := by
  constructor
  · intro h
    rw [messageKey_eq hi, messageKey_eq hj] at h
    exact decPad_injective hi.lt_pow hj.lt_pow (List.append_cancel_left h)
  · rintro rfl
    rfl

theorem length_messageKey_bounds (topic : Bytes) {num : ℤ} (h0 : -llBound ≤ num)
    (h : num < llBound) :
    topic.length + 20 ≤ (messageKey topic num).length ∧
      (messageKey topic num).length ≤ topic.length + 21 := by
  have hlow := le_length_fmtLL 20 num
  have hhigh := length_fmtLL_le 20 h0 h
  rw [messageKey, List.length_append]
  omega

theorem messageKey_ne_counterKey (topic : Bytes) (num : ℤ) :
    messageKey topic num ≠ counterKey topic := by
  intro he
  have hl := congrArg List.length he
  have hlow := le_length_fmtLL 20 num
  rw [messageKey, List.length_append, length_counterKey] at hl
  omega

/-- Keys of one topic are ordered as their numbers are. -/
theorem compare_messageKey {i j : ℕ} (hi : IsNumber i) (hj : IsNumber j) (topic : Bytes) :
    compare (messageKey topic i) (messageKey topic j) = compare i j := by
  rw [messageKey_eq hi, messageKey_eq hj, compare_append_left, compare_decPad hi.lt_pow hj.lt_pow]

theorem decPad_cons {n : ℕ} : ∃ b r, decPad 20 n = b :: r ∧ b < 126 := by
  cases hd : decPad 20 n with
  | nil =>
    have hl := length_decPad 20 n
    rw [hd] at hl
    simp at hl
  | cons b r =>
    have hb : isDigit b = true := isDigit_of_mem_decPad (by rw [hd]; exact List.mem_cons_self)
    refine ⟨b, r, rfl, ?_⟩
    rw [UInt8.lt_iff_toNat_lt]
    exact lt_of_le_of_lt (isDigit_bounds hb).2 (by decide)

/-- On a cacheable topic every message key starts below `'~'`. -/
theorem messageKey_cons {i : ℕ} (h : IsNumber i) {topic : CString} (ht : Cacheable topic) :
    ∃ b r, messageKey topic.bytes i = b :: r ∧ b < 126 := by
  rw [messageKey_eq h]
  cases hb : topic.bytes with
  | nil => simpa using decPad_cons
  | cons b r =>
    refine ⟨b, r ++ decPad 20 i, by simp, ?_⟩
    exact ht.below b (by simp [hb])

theorem compare_messageKey_counterKey {i : ℕ} (h : IsNumber i) {topic : CString}
    (ht : Cacheable topic) :
    compare (messageKey topic.bytes i) (counterKey topic.bytes) = .lt := by
  obtain ⟨b, r, he, hb⟩ := messageKey_cons h ht
  rw [he, counterKey]
  exact compare_cons_lt hb _ _

/-- No beginning of a message key is the counter key. -/
theorem take_messageKey_ne_counterKey {i : ℕ} (h : IsNumber i) {topic : CString}
    (ht : Cacheable topic) (m : ℕ) :
    (messageKey topic.bytes i).take m ≠ counterKey topic.bytes := by
  obtain ⟨b, r, hb, hlt⟩ := messageKey_cons h ht
  intro he
  cases m with
  | zero => simp [counterKey] at he
  | succ m =>
    rw [hb, counterKey] at he
    simp only [List.take_succ_cons, List.cons_append, List.cons.injEq] at he
    rw [he.1] at hlt
    exact absurd hlt (by decide)

theorem nul_not_mem_messageKey {i : ℕ} (h : IsNumber i) (topic : CString) :
    (0 : UInt8) ∉ messageKey topic.bytes i := by
  rw [messageKey_eq h, List.mem_append, not_or]
  exact ⟨topic.nul_free, nul_not_mem_decPad 20 i⟩

theorem nul_not_mem_counterKey (topic : CString) : (0 : UInt8) ∉ counterKey topic.bytes := by
  rw [counterKey, List.mem_append, not_or]
  exact ⟨by decide, topic.nul_free⟩

/-! ### A key in the eviction buffer -/

/-- A zeroed `ktmp[256]` after `storage_first` copied the key `k` into it. -/
def keyBuf (k : Bytes) : Bytes := k.take 255 ++ zeros (256 - min k.length 255)

theorem length_keyBuf (k : Bytes) : (keyBuf k).length = 256 := by
  rw [keyBuf, List.length_append, List.length_take, length_zeros]
  omega

theorem cstr_keyBuf {k : Bytes} (h : (0 : UInt8) ∉ k) : cstr (keyBuf k) = k.take 255 := by
  have hm : min k.length 255 ≤ 255 := min_le_right _ _
  obtain ⟨m, hm⟩ : ∃ m, 256 - min k.length 255 = m + 1 := ⟨255 - min k.length 255, by omega⟩
  rw [keyBuf, hm, zeros_succ, cstr_append_nul fun h0 => h (List.mem_of_mem_take h0)]

/-- The number an eviction reads behind the topic in a buffered message key: the
digits that fit into the buffer. -/
theorem atol_keyBuf {i : ℕ} (h : IsNumber i) {topic : CString} (ht : topic.bytes.length ≤ 255) :
    atol ((keyBuf (messageKey topic.bytes i)).drop topic.bytes.length) =
      ((i / 10 ^ (topic.bytes.length - 235) : ℕ) : ℤ) := by
  rw [show topic.bytes.length - 235 = 20 - min 20 (255 - topic.bytes.length) by omega]
  have hlen : (messageKey topic.bytes i).length = topic.bytes.length + 20 :=
    length_messageKey h topic.bytes
  set c := min 20 (255 - topic.bytes.length) with hc
  have htake : (messageKey topic.bytes i).take 255 =
      topic.bytes ++ decPad c (i / 10 ^ (20 - c)) := by
    rw [messageKey_eq h, List.take_append, List.take_of_length_le ht]
    by_cases hfit : 20 ≤ 255 - topic.bytes.length
    · have hc20 : c = 20 := by omega
      rw [List.take_of_length_le (by simpa using hfit), hc20]
      simp
    · have hcl : 255 - topic.bytes.length = c := by omega
      rw [hcl, take_decPad (by omega)]
  obtain ⟨m, hm⟩ : ∃ m, 256 - min (messageKey topic.bytes i).length 255 = m + 1 := by
    have := min_le_right (messageKey topic.bytes i).length 255
    exact ⟨255 - min (messageKey topic.bytes i).length 255, by omega⟩
  rw [keyBuf, htake, hm, zeros_succ, List.append_assoc, List.drop_left]
  have hq : i / 10 ^ (20 - c) < 10 ^ c := by
    rw [Nat.div_lt_iff_lt_mul (by positivity), ← pow_add]
    exact lt_of_lt_of_eq h.lt_pow (by congr 1; omega)
  have hn : ((i / 10 ^ (20 - c) : ℕ) : ℤ) < llBound :=
    lt_of_le_of_lt (by exact_mod_cast Nat.div_le_self _ _) h
  rcases Nat.eq_zero_or_pos c with h0 | hpos
  · -- no digit fits: the buffer ends with the topic
    have hz : i / 10 ^ (20 - c) = 0 := by
      rw [h0]
      exact Nat.div_eq_of_lt h.lt_pow
    rw [h0]
    simp only [decPad, List.nil_append]
    rw [h0] at hz
    rw [hz]
    rfl
  · exact atol_decPad_append hpos hq hn (by simp [isDigit])

/-- Up to 235 bytes of a topic all digits fit. -/
theorem offset_of_fits {topic : CString} (h : topic.bytes.length ≤ 235) (i : ℕ) :
    i / 10 ^ (topic.bytes.length - 235) = i := by
  rw [Nat.sub_eq_zero_of_le h, pow_zero, Nat.div_one]

/-- The number an eviction reads in the counter key, behind as many bytes as the topic
has. -/
def counterOffset (topic : CString) : ℤ := atol ((counterKey topic.bytes).drop topic.bytes.length)

theorem atol_keyBuf_counterKey {topic : CString} (h : topic.bytes.length ≤ 251) :
    atol ((keyBuf (counterKey topic.bytes)).drop topic.bytes.length) = counterOffset topic := by
  have hlen := length_counterKey topic.bytes
  obtain ⟨m, hm⟩ : ∃ m, 256 - min (counterKey topic.bytes).length 255 = m + 1 :=
    ⟨255 - (counterKey topic.bytes).length, by omega⟩
  have h0 : (0 : UInt8) ∉ (counterKey topic.bytes).drop topic.bytes.length :=
    fun hd => nul_not_mem_counterKey topic (List.mem_of_mem_drop hd)
  rw [keyBuf, hm, zeros_succ, List.take_of_length_le (by omega),
    List.drop_append_of_le_length (by omega), counterOffset, ← atol_cstr, cstr_append_nul h0]

end KfkClient
