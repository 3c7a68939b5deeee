import KfkClient.Client.World
import KfkClient.Consumer.Machine
import KfkClient.Store.LevelDb

/-!
# The buffers a message passes through

The three conversions `"%.20lld"` print into arrays of 20 bytes. Elsewhere the model goes
by the text they print; here the arrays are given, and a write behind their end stops the
call. The payload is copied as a C string, while its length is that of the `std::string`.

## Main results

- `putMessageIn_eq`, `sendMsgCallbackIn_eq`, `producerSendMsgIn_eq` — with room enough for
  the text and its NUL nothing else changes
- `key_codec_exact` — all places that write or read a number in a key agree on it
- `formatted_numbers_overrun` — an array of 20 bytes never has that room
- `bytes_transparent_iff` — which messages come through unchanged
-/

namespace KfkClient

open CLib OrderedMap

/-! ### Formatted numbers -/

section Format

variable {σ : Type} (B : Opdb σ)

/-- `putMessage` with the array `id`. -/
def putMessageIn (id : Bytes) (msg topic : CString) (num : ℤ) : Exec σ Unit := do
  let id ← sprintfInto id (fmtLL 20 num)
  let key := topic.bytes ++ cstr id
  let _ ← storageSetkey B key (toInt key.length) msg.bytes (toInt msg.bytes.length)

/-- `send_msg_callback` with the array `id`. -/
def sendMsgCallbackIn (id topic : Bytes) (nkey : ℤ) : Exec σ ℤ := do
  let id ← sprintfInto id (fmtLL 20 nkey)
  let key := topic ++ cstr id
  storageDelkey B key (toInt key.length)

/-- `Producer::send_msg` with the array `keystr`. -/
def producerSendMsgIn (accepts : ℕ → Bool) (keystr message topic : Bytes) (nkey : ℤ) :
    Exec (World σ) ℤ := do
  let w ← get
  if topic ∉ w.topics then pure (-1)
  else if message.length = 0 then pure 0
  else
    let msgPayload ← strcpy (zeros (message.length + 1)) message
    if nkey < 0 then rdKafkaProduce accepts ⟨topic, msgPayload.take message.length, none⟩
    else
      let keystr ← sprintfInto keystr (fmtLL 20 nkey)
      rdKafkaProduce accepts ⟨topic, msgPayload.take message.length, some (keystr.take 20)⟩

variable {id : Bytes} {v : ℤ}

theorem putMessageIn_eq (h : (fmtLL 20 v).length + 1 ≤ id.length) (msg topic : CString) (s : σ) :
    (putMessageIn B id msg topic v).run s = (putMessage B msg topic v).run s := by
  rw [putMessageIn, run_bind_ok (sprintfInto_ok id _ h s), cstr_append_nul (nul_not_mem_fmtLL 20 v)]
  rfl

theorem sendMsgCallbackIn_eq (h : (fmtLL 20 v).length + 1 ≤ id.length) (topic : Bytes) (s : σ) :
    (sendMsgCallbackIn B id topic v).run s = (sendMsgCallback B topic v).run s := by
  rw [sendMsgCallbackIn, run_bind_ok (sprintfInto_ok id _ h s),
    cstr_append_nul (nul_not_mem_fmtLL 20 v)]
  rfl

theorem producerSendMsgIn_eq (accepts : ℕ → Bool) (h : (fmtLL 20 v).length + 1 ≤ id.length)
    (message topic : Bytes) (w : World σ) :
    (producerSendMsgIn accepts id message topic v).run w =
      (producerSendMsg accepts message topic v).run w := by
  rw [producerSendMsgIn, producerSendMsg, run_bind_ok (run_get w), run_bind_ok (run_get w)]
  split
  · rfl
  split
  · rfl
  rw [run_bind_ok (strcpy_message message w), run_bind_ok (strcpy_message message w), keystr]
  split
  · rfl
  · have htake : (fmtLL 20 v ++ 0 :: id.drop ((fmtLL 20 v).length + 1)).take 20 =
        (fmtLL 20 v).take 20 := List.take_append_of_le_length (le_length_fmtLL 20 v)
    rw [run_bind_ok (sprintfInto_ok id _ h w), htake]

theorem sprintfInto_overrun (hid : id.length = 20) (s : σ) :
    (sprintfInto id (fmtLL 20 v) : Exec σ Bytes).run s = .error .outOfBounds s := by
  have hlen := le_length_fmtLL 20 v
  rw [sprintfInto, if_pos (by omega), run_throw]

/-- Whatever number they are given, all three conversions write behind the end of their
array; the decimal of the next number has room in `desc_tmp`. -/
theorem formatted_numbers_overrun (accepts : ℕ → Bool) (msg topic : CString) (message : Bytes)
    (hne : message ≠ []) (num key nkey : ℤ) (hnkey : 0 ≤ nkey) (s : σ) (w : World σ)
    (htop : topic.bytes ∈ w.topics) (tmp : Bytes) (htmp : tmp.length = 1024) :
    (putMessageIn B (zeros 20) msg topic num).run s = .error .outOfBounds s ∧
      (sendMsgCallbackIn B (zeros 20) topic.bytes key).run s = .error .outOfBounds s ∧
      (producerSendMsgIn accepts (zeros 20) message topic.bytes nkey).run w =
        .error .outOfBounds w ∧
      (-llBound ≤ num + 1 → num + 1 < llBound →
        ∃ tmp', (sprintfInto tmp (fmtLL 1 (num + 1)) : Exec σ Bytes).run s = .ok tmp' s) := by
  have h20 := length_zeros 20
  refine ⟨?_, ?_, ?_, ?_⟩
  · rw [putMessageIn, run_bind_error (sprintfInto_overrun h20 s)]
  · rw [sendMsgCallbackIn, run_bind_error (sprintfInto_overrun h20 s)]
  · have hl : ¬ message.length = 0 := by simpa using hne
    rw [producerSendMsgIn, run_bind_ok (run_get w), if_neg (not_not_intro htop), if_neg hl,
      run_bind_ok (strcpy_message message w), if_neg (not_lt.mpr hnkey),
      run_bind_error (sprintfInto_overrun h20 w)]
  · intro h0 h
    have hlen := length_fmtLL_le 1 h0 h
    exact ⟨_, sprintfInto_ok tmp _ (by omega) s⟩

end Format

theorem formatted_numbers_overrun_at_zero :
    (putMessageIn LevelDb.levelDb (zeros 20) ⟨[109], by decide⟩ Topic.sample.name 0).run ∅ =
        .error .outOfBounds ∅ ∧
      (sendMsgCallbackIn LevelDb.levelDb (zeros 20) [116] 0).run ∅ = .error .outOfBounds ∅ ∧
      (producerSendMsgIn (fun _ => true) (zeros 20) [109] [116] 0).run producing =
        .error .outOfBounds producing := by
  obtain ⟨h1, h2, h3, -⟩ := formatted_numbers_overrun LevelDb.levelDb (fun _ => true)
    ⟨[109], by decide⟩ Topic.sample.name [109] (by decide) 0 0 0 le_rfl ∅ producing
    List.mem_cons_self (zeros 1024) (length_zeros 1024)
  exact ⟨h1, h2, h3⟩

/-- The first number takes 20 digits and a NUL. -/
theorem first_number_overruns :
    (fmtLL 20 0).length + 1 = 21 ∧
      (putMessageIn LevelDb.levelDb (zeros 20) ⟨[109], by decide⟩ Topic.sample.name 0).run ∅ =
        .error .outOfBounds ∅ := by
  refine ⟨by decide, ?_⟩
  rw [putMessageIn, run_bind_error (sprintfInto_overrun (length_zeros 20) ∅)]

/-! ### Numbers in keys -/

/-- For every number of 63 bits, on a topic of at most 235 bytes: the cache stores under the
key of the number, the receipt of what goes out with the number deletes under the same key,
an eviction that finds the key first reads the number from it, and keys are ordered as
their numbers are. -/
theorem key_codec_exact {σ : Type} (B : Opdb σ) (accepts : ℕ → Bool) (topic : CString)
    (ht : topic.bytes.length ≤ 235) (i j : ℕ) (hi : i < 2 ^ 63) (hj : j < 2 ^ 63) :
    (∀ (msg : CString) (s : σ), 0 ≤ toInt msg.bytes.length →
      (putMessage B msg topic i).run s =
        (B.setkey (messageKey topic.bytes i) (storedBytes msg) >>= fun _ => pure ()).run s) ∧
      (∀ (message : Bytes) (w : World σ), topic.bytes ∈ w.topics → message ≠ [] →
        ∃ rc w' key, (producerSendMsg accepts message topic.bytes i).run w = .ok rc w' ∧
          w'.produced = w.produced ++ [⟨topic.bytes, payloadOf message, some key⟩] ∧
          key.length = 20 ∧
          ∀ s, (sendMsgCallback B topic.bytes (receiptNumber (some key))).run s =
            (B.delkey (messageKey topic.bytes i)).run s) ∧
      (∀ (v : Bytes) (s s' : σ), B.getFirst.run s = .ok (0, messageKey topic.bytes i, v) s' →
        (firstOffset B topic).run s = .ok ((i : ℤ), keyBuf (messageKey topic.bytes i)) s') ∧
      (compare (messageKey topic.bytes i) (messageKey topic.bytes j) = .lt ↔ i < j) := by
  have hni := isNumber_of_lt hi
  have hnj := isNumber_of_lt hj
  have hlen : topic.bytes.length ≤ 255 := ht.trans (by decide)
  refine ⟨?_, ?_, ?_, ?_⟩
  · intro msg s hm
    exact putMessage_eq B hni hlen hm s
  · intro message w htop hne
    obtain ⟨rc, hrun⟩ := producerSendMsg_run accepts message topic.bytes i w
    have hkey := keystr_number hni
    refine ⟨rc, _, decPad 20 i, hrun, ?_, length_decPad 20 i, ?_⟩
    · rw [World.handOver, if_pos ⟨htop, hne⟩, hkey]
    · intro s
      rw [← hkey, receiptNumber_keystr hni, sendMsgCallback_eq B hni hlen]
  · intro v s s' hfirst
    rw [firstOffset_of_first B hlen hfirst, atol_keyBuf hni hlen, offset_of_fits ht]
  · rw [compare_messageKey hni hnj, Nat.compare_eq_lt]

theorem key_codec_exact_at_zero :
    (∃ rc w' key, (producerSendMsg (fun _ => true) [109] Topic.sample.name.bytes (0 : ℕ)).run
        producing = .ok rc w' ∧
      w'.produced = producing.produced ++ [⟨Topic.sample.name.bytes, payloadOf [109], some key⟩] ∧
      key.length = 20 ∧
      ∀ s, (sendMsgCallback LevelDb.levelDb Topic.sample.name.bytes
          (receiptNumber (some key))).run s =
        (LevelDb.levelDb.delkey (messageKey Topic.sample.name.bytes (0 : ℕ))).run s) ∧
      compare (messageKey Topic.sample.name.bytes (0 : ℕ))
        (messageKey Topic.sample.name.bytes (1 : ℕ)) = .lt := by
  obtain ⟨-, hwire, -, horder⟩ := key_codec_exact LevelDb.levelDb (fun _ => true) Topic.sample.name
    (by decide) 0 1 (by decide) (by decide)
  exact ⟨hwire [109] producing List.mem_cons_self (by decide), horder.mpr (by decide)⟩

/-! ### Payloads -/

/-- The message `m` goes through: it is handed to `rd_kafka_produce` as it is, and its bytes
and its length reach the application when librdkafka delivers what it was given. -/
def Transparent {σ : Type} (accepts : ℕ → Bool) (w : World σ) (m topic : Bytes) (nkey : ℤ)
    (hashcode : ℕ) (offset : ℤ) : Prop :=
  ∃ rc w' wire, (producerSendMsg accepts m topic nkey).run w = .ok rc w' ∧
    w'.produced = w.produced ++ [wire] ∧ wire.payload = m ∧ wire.payload.length = m.length ∧
    (consumerCallback hashcode topic ⟨0, wire.payload, offset⟩).msg = m ∧
    (consumerCallback hashcode topic ⟨0, wire.payload, offset⟩).len = m.length

/-- The copy is the message when nothing but NULs follows its first NUL. -/
theorem payloadOf_eq_self_iff (m : Bytes) :
    payloadOf m = m ↔ ∀ b ∈ m.dropWhile (· ≠ 0), b = 0 := by
  have hsplit : cstr m ++ m.dropWhile (· ≠ 0) = m := List.takeWhile_append_dropWhile
  have hlen := congrArg List.length hsplit
  rw [List.length_append] at hlen
  have hrest : m.length - (cstr m).length = (m.dropWhile (· ≠ 0)).length := by omega
  have hboth : payloadOf m = m ↔
      cstr m ++ zeros (m.dropWhile (· ≠ 0)).length = cstr m ++ m.dropWhile (· ≠ 0) := by
    rw [hsplit, payloadOf_eq, hrest]
  rw [hboth, List.append_cancel_left_eq, zeros, eq_comm, List.eq_replicate_iff]
  exact and_iff_right rfl

/-- A message that is not empty goes through, on an added topic and with any key, exactly
when only NULs follow its first NUL and it is shorter than 2 GiB. -/
theorem bytes_transparent_iff {σ : Type} (accepts : ℕ → Bool) (w : World σ) (m topic : Bytes)
    (hm : m ≠ []) (htop : topic ∈ w.topics) (nkey : ℤ) (hashcode : ℕ) (offset : ℤ) :
    Transparent accepts w m topic nkey hashcode offset ↔
      (∀ b ∈ m.dropWhile (· ≠ 0), b = 0) ∧ m.length < 2 ^ 31 := by
  obtain ⟨rc, hrun⟩ := producerSendMsg_run accepts m topic nkey w
  have hprod : (w.handOver accepts m topic nkey).produced =
      w.produced ++ [⟨topic, payloadOf m, keystr nkey⟩] := by
    rw [World.handOver, if_pos ⟨htop, hm⟩]
  rw [← payloadOf_eq_self_iff, ← toInt_eq_self_iff]
  constructor
  · rintro ⟨rc', w', wire, hrun', hprod', hpay, -, -, hlen⟩
    have hw : w' = w.handOver accepts m topic nkey := by
      rw [hrun, EStateM.Result.ok.injEq] at hrun'
      exact hrun'.2.symm
    rw [hw, hprod, List.append_cancel_left_eq, List.singleton_inj] at hprod'
    have hpayload : payloadOf m = m := (congrArg Wire.payload hprod').trans hpay
    rw [consumerCallback_len, hpay] at hlen
    exact ⟨hpayload, hlen⟩
  · rintro ⟨hpay, hlen⟩
    refine ⟨rc, _, _, hrun, hprod, hpay, congrArg List.length hpay, hpay, ?_⟩
    rw [consumerCallback_len, hpay]
    exact hlen

theorem bytes_transparent_text : Transparent (fun _ => true) producing [97, 98] [116] (-1) 0 0 :=
  (bytes_transparent_iff (fun _ => true) producing [97, 98] [116] (by decide) List.mem_cons_self
    (-1) 0 0).mpr ⟨by simp, by decide⟩

/-- The byte behind a NUL is handed over as a NUL. -/
theorem byte_behind_nul_is_lost :
    ∃ w', (producerSendMsg (fun _ => true) [97, 0, 98] [116] (-1)).run producing = .ok 0 w' ∧
      w'.produced = [⟨[116], [97, 0, 0], none⟩] :=
  ⟨_, rfl, rfl⟩

end KfkClient
