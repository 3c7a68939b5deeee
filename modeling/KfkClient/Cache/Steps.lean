import KfkClient.Cache.Keys

/-!
# What each store operation of `send_msg_with_cache` does

One lemma for each operation, over any faithful backend. `CounterValue v n` says
that the stored counter record `v` has the text of `n` at its front, which is all
that the next call reads of it.
-/

namespace KfkClient

open CLib OrderedMap
open Std (ExtTreeMap)

def CounterValue (v : Bytes) (n : ℕ) : Prop := v.length ≤ 1024 ∧ cstr v = fmtLL 1 n

theorem CounterValue.atol_eq {v : Bytes} {n : ℕ} (h : CounterValue v n) (hn : IsNumber n) :
    atol v = n := by
  rw [← atol_cstr, h.2]
  exact atol_fmtLL (by decide) hn

/-- The bytes of a message that `storage_setkey(..., msg, strlen(msg))` stores. -/
def storedBytes (msg : CString) : Bytes := msg.bytes.take (toInt msg.bytes.length).toNat

theorem storedBytes_of_lt {msg : CString} (h : msg.bytes.length < 2 ^ 31) :
    storedBytes msg = msg.bytes := by
  rw [storedBytes, toInt_of_lt h]
  simp

theorem copyLen_of_pos (len : ℕ) {vlen : ℕ} (h0 : 0 < vlen) (h : vlen < 2 ^ 31) :
    copyLen len vlen = ((min len (vlen - 1) : ℕ) : ℤ) := by
  have hs : toSizeT ((vlen : ℤ) - 1) = vlen - 1 := by
    have := toSizeT_of_nonneg (n := (vlen : ℤ) - 1) (by omega) (by omega)
    omega
  rw [copyLen, hs]
  by_cases hl : len < vlen - 1
  · rw [if_pos hl, toInt_of_lt (by omega), min_eq_left (by omega)]
  · rw [if_neg hl, toInt_of_lt (by omega), min_eq_right (by omega)]

/-! ### Over any backend -/

section AnyBackend

variable {σ : Type} (B : Opdb σ)

theorem storageSetkey_eq {key : Bytes} (hlen : key.length < 2 ^ 31) (val : Bytes) {vlen : ℤ}
    (h0 : 0 ≤ vlen) (hv : vlen ≤ val.length) (s : σ) :
    (storageSetkey B key (toInt key.length) val vlen).run s =
      (B.setkey key (val.take vlen.toNat)).run s := by
  rw [storageSetkey, toInt_of_lt hlen, run_bind_ok (stdString_length key s),
    run_bind_ok (stdString_ok val h0 hv s)]

theorem storageDelkey_eq {buf : Bytes} (hlen : (cstr buf).length < 2 ^ 31) (s : σ) :
    (storageDelkey B buf (toInt (strlen buf))).run s = (B.delkey (cstr buf)).run s := by
  have hle := length_cstr_le buf
  have ht : buf.take (cstr buf).length = cstr buf :=
    (List.prefix_iff_eq_take.mp (List.takeWhile_prefix _)).symm
  rw [storageDelkey, strlen, toInt_of_lt hlen,
    run_bind_ok (stdString_ok buf (by omega) (by omega) s), Int.toNat_natCast, ht]

/-- A counter record that cannot be read counts as none. -/
theorem readCounter_of_error {topic : CString} (hl : (counterKey topic.bytes).length < 2 ^ 31)
    {s s' : σ} {rc : ℤ} {v : Bytes} (hrc : rc ≠ 0)
    (hget : (B.getkey (counterKey topic.bytes)).run s = .ok (rc, v) s') :
    (readCounter B topic).run s = .ok (0, zeros 1024) s' := by
  have hs : (storageGetkey B (counterKey topic.bytes) (toInt (counterKey topic.bytes).length)
      (zeros 1024) 1024).run s = .ok (-1, zeros 1024) s' := by
    rw [storageGetkey, toInt_of_lt hl, run_bind_ok (stdString_length _ s), run_bind_ok hget]
    simp [hrc]
  rw [readCounter, run_bind_ok hs]
  simp

/-- `desc_tmp` takes 1023 bytes of the record that is read into it. -/
theorem readCounter_of_record {topic : CString} (hl : (counterKey topic.bytes).length < 2 ^ 31)
    {s s' : σ} {v : Bytes} (hget : (B.getkey (counterKey topic.bytes)).run s = .ok (0, v) s') :
    ∃ tmp : Bytes, tmp.length = 1024 ∧
      (readCounter B topic).run s = .ok (atol (v.take 1023), tmp) s' := by
  set l := min v.length 1023 with hldef
  have htake : v.take l = v.take 1023 := by
    rw [hldef, List.take_eq_take_iff]
    omega
  set tmp := v.take l ++ (zeros 1024).drop l with htmpdef
  have htmp : tmp.length = 1024 := by
    simp only [htmpdef, List.length_append, List.length_take, List.length_drop, length_zeros]
    omega
  have hcl : copyLen v.length 1024 = (l : ℤ) := copyLen_of_pos v.length (by decide) (by decide)
  have hs : (storageGetkey B (counterKey topic.bytes) (toInt (counterKey topic.bytes).length)
      (zeros 1024) 1024).run s = .ok ((l : ℤ), tmp) s' := by
    have hm := memcpy_ok (zeros 1024) v (n := (l : ℤ)) (by omega) (by simp; omega) (by omega) s'
    rw [storageGetkey, toInt_of_lt hl, run_bind_ok (stdString_length _ s), run_bind_ok hget]
    simp only [↓reduceIte, hcl]
    rw [run_bind_ok hm]
    rfl
  refine ⟨tmp, htmp, ?_⟩
  rw [readCounter, run_bind_ok hs]
  by_cases hpos : (0 : ℤ) < l
  · have ha : atol tmp = atol (v.take 1023) := by
      obtain ⟨m, hm⟩ : ∃ m, 1024 - l = m + 1 := ⟨1023 - l, by omega⟩
      rw [htmpdef, drop_zeros, hm, zeros_succ, ← atol_cstr, cstr_append_zero, atol_cstr, htake]
    simp only [if_pos hpos, ha]
    rfl
  · -- an empty record is not decoded, and its text is that of zero
    have hnil : v = [] := List.length_eq_zero_iff.mp (by omega)
    simp only [if_neg hpos, hnil]
    rfl

theorem CounterValue.atol_take {v : Bytes} {n : ℕ} (h : CounterValue v n) (hn : IsNumber n) :
    atol (v.take 1023) = n := by
  have h19 := length_fmtLL_one_le hn
  rw [← atol_cstr, cstr_take, h.2, List.take_of_length_le (by omega)]
  exact atol_fmtLL (by decide) hn

/-- A counter record that holds `n` is read as `n`. -/
theorem readCounter_of_value {topic : CString} (hlen : topic.bytes.length ≤ 255) {s s' : σ}
    {v : Bytes} {n : ℕ} (hn : IsNumber n) (hv : CounterValue v n)
    (hget : (B.getkey (counterKey topic.bytes)).run s = .ok (0, v) s') :
    ∃ tmp : Bytes, tmp.length = 1024 ∧ (readCounter B topic).run s = .ok ((n : ℤ), tmp) s' := by
  rw [← hv.atol_take hn]
  exact readCounter_of_record B (length_counterKey_lt hlen) hget

/-- A message too long for an `int` length is not stored at all. -/
theorem putMessage_error {msg topic : CString} {i : ℕ} (hi : IsNumber i)
    (hlen : topic.bytes.length ≤ 255) (hm : toInt msg.bytes.length < 0) (s : σ) :
    (putMessage B msg topic i).run s = .error .lengthError s := by
  have hl := length_messageKey_lt hi hlen
  have hs : (storageSetkey B (messageKey topic.bytes i) (toInt (messageKey topic.bytes i).length)
      msg.bytes (toInt msg.bytes.length)).run s = .error .lengthError s := by
    rw [storageSetkey, toInt_of_lt hl, run_bind_ok (stdString_length _ s),
      run_bind_error (stdString_negative msg.bytes hm s)]
  rw [putMessage, run_bind_error hs]

/-- A message is put under the key of its number. -/
theorem putMessage_eq {msg topic : CString} {i : ℕ} (hi : IsNumber i)
    (hlen : topic.bytes.length ≤ 255) (hm : 0 ≤ toInt msg.bytes.length) (s : σ) :
    (putMessage B msg topic i).run s =
      (B.setkey (messageKey topic.bytes i) (storedBytes msg) >>= fun _ => pure ()).run s := by
  have hle : toInt msg.bytes.length ≤ msg.bytes.length := by
    rw [toInt, Int.bmod_def] at hm ⊢
    omega
  have hset := storageSetkey_eq B (length_messageKey_lt hi hlen) msg.bytes hm hle s
  rw [putMessage]
  exact run_bind_congr hset

theorem putMessage_of_setkey {msg topic : CString} {i : ℕ} (hi : IsNumber i)
    (hlen : topic.bytes.length ≤ 255) (hm : 0 ≤ toInt msg.bytes.length) {s s' : σ} {rc : ℤ}
    (hset : (B.setkey (messageKey topic.bytes i) (storedBytes msg)).run s = .ok rc s') :
    (putMessage B msg topic i).run s = .ok () s' := by
  rw [putMessage_eq B hi hlen hm, run_bind_ok hset]
  rfl

/-- `send_msg_callback` deletes under the key of the number it is given. -/
theorem sendMsgCallback_eq {topic : CString} {i : ℕ} (hi : IsNumber i)
    (hlen : topic.bytes.length ≤ 255) (s : σ) :
    (sendMsgCallback B topic.bytes i).run s = (B.delkey (messageKey topic.bytes i)).run s := by
  have hc := cstr_of_nul_free (nul_not_mem_messageKey hi topic)
  have hl : (cstr (messageKey topic.bytes i)).length < 2 ^ 31 := by
    rw [hc]
    exact length_messageKey_lt hi hlen
  have hdel := storageDelkey_eq B hl s
  rw [strlen, hc] at hdel
  exact hdel

theorem putCounter_overflow {topic : CString} {n : ℕ} (hn : ¬ IsNumber (n + 1)) (tmp : Bytes)
    (s : σ) : (putCounter B topic n tmp).run s = .error .signedOverflow s := by
  have hadd : ¬ ((n : ℤ) + 1 < llBound) := by
    simpa only [IsNumber, Nat.cast_add, Nat.cast_one] using hn
  rw [putCounter, run_bind_error (llAdd_overflow hadd s)]

/-- The record put is the text of the next number, a NUL, and what was behind it. -/
theorem putCounter_of_setkey {topic : CString} (hlen : topic.bytes.length ≤ 255) {n : ℕ}
    (hn : IsNumber (n + 1)) {tmp : Bytes} (htmp : tmp.length = 1024) :
    ∃ rest : Bytes, (fmtLL 1 ((n + 1 : ℕ) : ℤ) ++ 0 :: rest).length = 1024 ∧
      ∀ {s s' : σ} {rc : ℤ}, (B.setkey (counterKey topic.bytes)
          (fmtLL 1 ((n + 1 : ℕ) : ℤ) ++ 0 :: rest)).run s = .ok rc s' →
        (putCounter B topic n tmp).run s = .ok () s' := by
  have hl := length_counterKey_lt hlen
  have h19 := length_fmtLL_one_le hn
  have hadd : -llBound ≤ (n : ℤ) + 1 ∧ (n : ℤ) + 1 < llBound := by
    simp only [IsNumber, llBound] at hn ⊢
    omega
  refine ⟨tmp.drop ((fmtLL 1 ((n + 1 : ℕ) : ℤ)).length + 1), ?_, ?_⟩
  · simp only [List.length_append, List.length_cons, List.length_drop]
    omega
  intro s s' rc hset
  set text := fmtLL 1 ((n + 1 : ℕ) : ℤ) with htext
  have hrec : (text ++ 0 :: tmp.drop (text.length + 1)).length = 1024 := by
    simp only [List.length_append, List.length_cons, List.length_drop]
    omega
  have hsp := sprintfInto_ok tmp text (by omega) s
  have hrun := storageSetkey_eq B hl (text ++ 0 :: tmp.drop (text.length + 1))
    (by decide : (0 : ℤ) ≤ 1024) (by omega) s
  rw [List.take_of_length_le (by rw [hrec]; decide), hset] at hrun
  rw [putCounter, run_bind_ok (llAdd_ok hadd s)]
  rw [show (n : ℤ) + 1 = ((n + 1 : ℕ) : ℤ) by push_cast; ring, ← htext, run_bind_ok hsp,
    run_bind_ok hrun]
  rfl

/-- The first key as an eviction sees it. -/
theorem firstOffset_of_first {topic : CString} (hlen : topic.bytes.length ≤ 255) {s s' : σ}
    {k v : Bytes} (hget : B.getFirst.run s = .ok (0, k, v) s') :
    (firstOffset B topic).run s =
      .ok (atol ((keyBuf k).drop topic.bytes.length), keyBuf k) s' := by
  have hck : copyLen k.length 256 = ((min k.length 255 : ℕ) : ℤ) :=
    copyLen_of_pos k.length (by decide) (by decide)
  have hcv : copyLen v.length 1024 = ((min v.length 1023 : ℕ) : ℤ) :=
    copyLen_of_pos v.length (by decide) (by decide)
  have hmk := memcpy_ok (zeros 256) k (n := ((min k.length 255 : ℕ) : ℤ)) (by omega)
    (by simp) (by omega) s'
  have hmv := memcpy_ok (zeros 1024) v (n := ((min v.length 1023 : ℕ) : ℤ)) (by omega)
    (by simp) (by omega) s'
  have hkb : k.take (min k.length 255) ++ (zeros 256).drop (min k.length 255) = keyBuf k := by
    rw [keyBuf, drop_zeros]
    by_cases hl : k.length ≤ 255
    · rw [min_eq_left hl, List.take_of_length_le le_rfl, List.take_of_length_le hl]
    · rw [min_eq_right (by omega)]
  have hs : (storageFirst B (zeros 256) 256 (zeros 1024) 1024).run s =
      .ok (0, keyBuf k, v.take (min v.length 1023) ++ (zeros 1024).drop (min v.length 1023))
        s' := by
    rw [storageFirst, run_bind_ok hget]
    simp only [↓reduceIte, hck, hcv]
    rw [run_bind_ok hmk, run_bind_ok hmv]
    simp only [Int.toNat_natCast, hkb]
    rfl
  have hlt : topic.bytes.length < 256 := by omega
  rw [firstOffset, run_bind_ok hs]
  simp [hlt]

end AnyBackend

/-! ### Over a faithful backend -/

section Faithful

variable {B : Opdb Map} {ok : Bytes → Prop} {enc : Bytes → Bytes} (F : B.Faithful ok enc)
include F

theorem storageDelkey_run {key : Bytes} (hlen : key.length < 2 ^ 31)
    {buf : Bytes} (hbuf : cstr buf = key) (hk : ok key) (s : Map) :
    ∃ rc, (storageDelkey B buf (toInt (strlen buf))).run s = .ok rc (s.erase key) := by
  subst hbuf
  obtain ⟨rc, hdel⟩ := F.delkey hk s
  exact ⟨rc, (storageDelkey_eq B hlen s).trans hdel⟩

/-- `send_msg_callback` erases the entry of the number it is given. -/
theorem sendMsgCallback_run {topic : CString} {i : ℕ} (hi : IsNumber i)
    (hlen : topic.bytes.length ≤ 255) (hk : ok (messageKey topic.bytes i)) (s : Map) :
    ∃ rc, (sendMsgCallback B topic.bytes i).run s =
      .ok rc (s.erase (messageKey topic.bytes i)) := by
  obtain ⟨rc, hdel⟩ := F.delkey hk s
  exact ⟨rc, (sendMsgCallback_eq B hi hlen s).trans hdel⟩

theorem readCounter_none {topic : CString} (hlen : topic.bytes.length ≤ 255)
    (hk : ok (counterKey topic.bytes)) {s : Map} (h : s[counterKey topic.bytes]? = none) :
    (readCounter B topic).run s = .ok (0, zeros 1024) s := by
  obtain ⟨rc, hrc, hget⟩ := F.getkey_none hk h
  exact readCounter_of_error B (length_counterKey_lt hlen) hrc hget

theorem readCounter_some {topic : CString} (hlen : topic.bytes.length ≤ 255)
    (hk : ok (counterKey topic.bytes)) {s : Map} {v : Bytes} {n : ℕ} (hn : IsNumber n)
    (h : s[counterKey topic.bytes]? = some v) (hv : CounterValue v n) :
    ∃ tmp : Bytes, tmp.length = 1024 ∧ (readCounter B topic).run s = .ok ((n : ℤ), tmp) s :=
  readCounter_of_value B hlen hn hv (F.getkey_some hk h)

theorem putMessage_run {msg topic : CString} {i : ℕ} (hi : IsNumber i)
    (hlen : topic.bytes.length ≤ 255) (hk : ok (messageKey topic.bytes i))
    (hm : 0 ≤ toInt msg.bytes.length) (s : Map) :
    (putMessage B msg topic i).run s =
      .ok () (s.insert (messageKey topic.bytes i) (enc (storedBytes msg))) :=
  putMessage_of_setkey B hi hlen hm (F.setkey hk (storedBytes msg) s)

/-- The new counter record holds the next number. -/
theorem putCounter_run {topic : CString} (hlen : topic.bytes.length ≤ 255)
    (hk : ok (counterKey topic.bytes)) {n : ℕ} (hn : IsNumber (n + 1)) {tmp : Bytes}
    (htmp : tmp.length = 1024) (s : Map) :
    ∃ v, CounterValue v (n + 1) ∧
      (putCounter B topic n tmp).run s = .ok () (s.insert (counterKey topic.bytes) v) := by
  have h19 := length_fmtLL_one_le hn
  obtain ⟨rest, hrec, hput⟩ := putCounter_of_setkey B hlen hn htmp
  refine ⟨_, ⟨(F.enc_length _).trans hrec.le, ?_⟩, hput (F.setkey hk _ s)⟩
  exact F.enc_text (nul_not_mem_fmtLL _ _) (by omega)

theorem firstOffset_run {topic : CString} (hlen : topic.bytes.length ≤ 255) {s : Map}
    {k v : Bytes} (h : first? s = some (k, v)) :
    (firstOffset B topic).run s =
      .ok (atol ((keyBuf k).drop topic.bytes.length), keyBuf k) s :=
  firstOffset_of_first B hlen (F.getFirst h)

end Faithful

end KfkClient
