import KfkClient.Engine.Log

/-!
# What is written to a log is read back

A reader that stands where a writer stood reads the fragment written there, and at a fragment
that was cut off it sees the end of the file. Records follow from their fragments by
induction along the loop of the writer, and whole logs from their records.

## Main results

- `read_physical`, `read_cut` — one fragment, whole or cut off
- `addRecord_delivers` — a record that was added is read back, whatever follows it in the
  file, and a proper prefix of its bytes reads as the end of the file
- `readRecords_append`, `readRecords_take` — the records of a log that goes on or was cut off
-/

namespace KfkClient.Engine.Log

open CLib

/-- The reader has the bytes `rem` of the file before it, and its buffer begins at the
offset `o` of a block. -/
structure Reader.At (r : Reader) (o : ℕ) (rem : Bytes) : Prop where
  bytes : r.buffer ++ r.file = rem
  loaded : r.eof = false → r.buffer.length = kBlockSize - o
  ended : r.eof = true → r.file = [] ∧ r.buffer.length ≤ kBlockSize - o
  fromStart : r.initialOffset = 0
  synced : r.resyncing = false

def physical (t : RecordType) (payload : Bytes) : Bytes := header t payload ++ payload

def trailer (o : ℕ) : Bytes :=
  if kBlockSize - o < kHeaderSize then zeros (kBlockSize - o) else []

-- the offset at which a fragment is written
def start (o : ℕ) : ℕ := if kBlockSize - o < kHeaderSize then 0 else o

theorem switchBlock_eq (w : Writer) :
    switchBlock w = ⟨w.dest ++ trailer w.blockOffset, start w.blockOffset⟩ := by
  simp only [switchBlock, trailer, start]
  split
  · rfl
  · rw [List.append_nil]

@[simp] theorem length_header (t : RecordType) (payload : Bytes) :
    (header t payload).length = kHeaderSize := rfl

theorem length_physical (t : RecordType) (payload : Bytes) :
    (physical t payload).length = kHeaderSize + payload.length := by
  rw [physical, List.length_append, length_header]

theorem start_room {o : ℕ} (h : o ≤ kBlockSize) : start o + kHeaderSize ≤ kBlockSize := by
  have hb : kBlockSize = 32768 := rfl
  have hk : kHeaderSize = 7 := rfl
  rw [start]
  split <;> omega

theorem code_lt (t : RecordType) : t.code < 128 := by
  cases t <;> decide

theorem header_length_field {n : ℕ} (h : n ≤ 0xffff) :
    (UInt8.ofNat n).toNat ||| (UInt8.ofNat (n >>> 8)).toNat <<< 8 = n := by
  rw [UInt8.toNat_ofNat', UInt8.toNat_ofNat', Nat.shiftRight_eq_div_pow,
    or_shift_eq_add 8 (by omega)]
  omega

theorem value_type_payload (t : RecordType) (payload : Bytes) :
    Crc32c.value (UInt8.ofNat t.code :: payload) = Crc32c.extend (typeCrc t) payload :=
  Crc32c.extend_append 0 [.ofNat t.code] payload

/-- A whole physical record at the front of the buffer passes every check. -/
theorem parse_physical {r : Reader} {t : RecordType} {payload more : Bytes} (ht : t ≠ .zero)
    (hlen : payload.length ≤ 0xffff) (hstart : r.initialOffset = 0)
    (hbuf : r.buffer = physical t payload ++ more) :
    parsePhysicalRecord r = ⟨t.code, payload, { r with buffer := more }⟩ := by
  have ha : byteAt r.buffer 4 ||| byteAt r.buffer 5 <<< 8 = payload.length := by
    rw [hbuf]
    exact header_length_field hlen
  have htype : charToUnsigned (byteAt r.buffer 6) = t.code := by
    have hbyte : byteAt r.buffer 6 = t.code := by
      have hlt := code_lt t
      rw [hbuf]
      show (UInt8.ofNat t.code).toNat = t.code
      rw [UInt8.toNat_ofNat']
      omega
    rw [hbyte, charToUnsigned, if_pos (code_lt t)]
  have hsize : r.buffer.length = kHeaderSize + payload.length + more.length := by
    rw [hbuf, List.length_append, length_physical]
  have hzero : ¬ (t.code = RecordType.zero.code ∧ payload.length = 0) := by
    rintro ⟨hcode, _⟩
    cases t <;> first | exact ht rfl | cases hcode
  have hcrc : Crc32c.value ((r.buffer.drop 6).take (1 + payload.length)) =
      Crc32c.unmask (BitVec.ofNat 32 (decodeFixed32 r.buffer)) := by
    have hdrop : (r.buffer.drop 6).take (1 + payload.length) = UInt8.ofNat t.code :: payload := by
      rw [hbuf, Nat.add_comm]
      show (UInt8.ofNat t.code :: (payload ++ more)).take (payload.length + 1) = _
      rw [List.take_succ_cons, List.take_left]
    have hfixed : decodeFixed32 r.buffer =
        (Crc32c.mask (Crc32c.extend (typeCrc t) payload)).toNat := by
      rw [hbuf, physical, header, List.append_assoc, List.append_assoc]
      exact decodeFixed32_encodeFixed32 (BitVec.isLt _) _
    rw [hdrop, value_type_payload, hfixed, BitVec.ofNat_toNat, BitVec.setWidth_eq,
      Crc32c.unmask_mask]
  have hfrag : (r.buffer.drop kHeaderSize).take payload.length = payload := by
    rw [hbuf, physical, List.append_assoc, List.drop_left' (length_header t payload),
      List.take_left]
  have hrest : r.buffer.drop (kHeaderSize + payload.length) = more := by
    rw [hbuf, List.drop_left' (length_physical t payload)]
  simp only [parsePhysicalRecord, ha, htype, hcrc, hfrag, hrest, hstart]
  rw [if_neg (by omega), if_neg hzero, if_neg (by simp), if_neg (Nat.not_lt_zero _)]

/-- A physical record without all of its payload at the end of the file is the end. -/
theorem parse_cut {r : Reader} {t : RecordType} {payload : Bytes} {m : ℕ}
    (hlen : payload.length ≤ 0xffff) (heof : r.eof = true)
    (hbuf : r.buffer = (physical t payload).take m) (hm : kHeaderSize ≤ m)
    (hcut : m < kHeaderSize + payload.length) :
    parsePhysicalRecord r = ⟨kEof, [], { r with buffer := [] }⟩ := by
  have hk : kHeaderSize = 7 := rfl
  have hfront : r.buffer = header t payload ++ payload.take (m - kHeaderSize) := by
    rw [hbuf, physical, List.take_append, length_header,
      List.take_of_length_le (by rw [length_header]; exact hm)]
  have ha : byteAt r.buffer 4 ||| byteAt r.buffer 5 <<< 8 = payload.length := by
    rw [hfront]
    exact header_length_field hlen
  have hsize : r.buffer.length < kHeaderSize + payload.length := by
    rw [hbuf, List.length_take]
    omega
  simp only [parsePhysicalRecord, ha]
  rw [if_pos hsize, if_pos heof]

theorem Reader.At.fill {r : Reader} {o : ℕ} {rem : Bytes} (h : r.At o rem) :
    r.fill.At 0 r.file where
  bytes := List.take_append_drop kBlockSize r.file
  loaded := by
    intro heof
    have hlen : ¬ (r.file.take kBlockSize).length < kBlockSize := by
      simpa [Reader.fill] using heof
    have hle := List.length_take_le kBlockSize r.file
    show (r.file.take kBlockSize).length = kBlockSize - 0
    omega
  ended := by
    intro heof
    have hlen : (r.file.take kBlockSize).length < kBlockSize := by
      simpa [Reader.fill] using heof
    rw [List.length_take] at hlen
    refine ⟨List.drop_eq_nil_of_le (by omega), ?_⟩
    show (r.file.take kBlockSize).length ≤ kBlockSize - 0
    rw [List.length_take]
    omega
  fromStart := h.fromStart
  synced := h.synced

theorem readPhysicalRecord_fill {r : Reader} (hbuf : r.buffer.length < kHeaderSize)
    (heof : r.eof = false) : readPhysicalRecord r = readPhysicalRecord r.fill := by
  rw [readPhysicalRecord, if_pos hbuf, if_neg (by rw [heof]; decide)]

theorem readPhysicalRecord_loaded {r : Reader} (hbuf : kHeaderSize ≤ r.buffer.length) :
    readPhysicalRecord r = parsePhysicalRecord r := by
  rw [readPhysicalRecord, if_neg (by omega)]

/-- Where a block still has room for a header, the fragment is read from the buffer. -/
theorem read_in_block {r : Reader} {o : ℕ} {t : RecordType} {payload rest : Bytes}
    (ht : t ≠ .zero) (hfit : o + kHeaderSize + payload.length ≤ kBlockSize)
    (hr : r.At o (physical t payload ++ rest)) :
    ∃ r', readPhysicalRecord r = ⟨t.code, payload, r'⟩ ∧
      r'.At (o + kHeaderSize + payload.length) rest ∧ r'.reports = r.reports := by
  have hb : kBlockSize = 32768 := rfl
  have hk : kHeaderSize = 7 := rfl
  have hlong : (physical t payload).length ≤ r.buffer.length := by
    rw [length_physical]
    cases heof : r.eof with
    | false =>
      rw [hr.loaded heof]
      omega
    | true =>
      have hbytes := congrArg List.length hr.bytes
      rw [(hr.ended heof).1, List.append_nil, List.length_append, length_physical] at hbytes
      omega
  obtain ⟨more, hbuf, hrest⟩ : ∃ more, r.buffer = physical t payload ++ more ∧
      more ++ r.file = rest := by
    have hpre : physical t payload <+: r.buffer :=
      List.prefix_of_prefix_length_le (List.prefix_append _ rest)
        (by rw [← hr.bytes]; exact List.prefix_append _ _) hlong
    obtain ⟨more, hmore⟩ := hpre
    refine ⟨more, hmore.symm, ?_⟩
    have hbytes := hr.bytes
    rw [← hmore, List.append_assoc] at hbytes
    exact List.append_cancel_left hbytes
  have hsize : r.buffer.length = kHeaderSize + payload.length + more.length := by
    rw [hbuf, List.length_append, length_physical]
  refine ⟨{ r with buffer := more }, ?_, ?_, rfl⟩
  · rw [readPhysicalRecord_loaded (by omega)]
    exact parse_physical ht (by omega) hr.fromStart hbuf
  · refine ⟨hrest, ?_, ?_, hr.fromStart, hr.synced⟩
    · intro heof
      have hloaded := hr.loaded heof
      show more.length = _
      omega
    · intro heof
      obtain ⟨hfile, hle⟩ := hr.ended heof
      refine ⟨hfile, ?_⟩
      show more.length ≤ _
      omega

/-- A reader at the offset at which a fragment was written reads that fragment. -/
theorem read_physical {r : Reader} {o : ℕ} {t : RecordType} {payload rest : Bytes}
    (ht : t ≠ .zero) (hfit : start o + kHeaderSize + payload.length ≤ kBlockSize)
    (hr : r.At o (trailer o ++ physical t payload ++ rest)) :
    ∃ r', readPhysicalRecord r = ⟨t.code, payload, r'⟩ ∧
      r'.At (start o + kHeaderSize + payload.length) rest ∧ r'.reports = r.reports := by
  by_cases hleft : kBlockSize - o < kHeaderSize
  · rw [trailer, if_pos hleft, List.append_assoc] at hr
    rw [start, if_pos hleft] at hfit ⊢
    have hzeros : (zeros (kBlockSize - o)).length = kBlockSize - o := List.length_replicate
    have heof : r.eof = false := by
      by_contra hne
      obtain ⟨hfile, hle⟩ := hr.ended (by simpa using hne)
      have hbytes := congrArg List.length hr.bytes
      rw [hfile, List.append_nil, List.length_append, List.length_append, length_physical,
        hzeros] at hbytes
      have hk : kHeaderSize = 7 := rfl
      omega
    have hloaded := hr.loaded heof
    have hfile : r.file = physical t payload ++ rest :=
      (List.append_inj hr.bytes (by rw [hloaded, hzeros])).2
    have hfill := hr.fill
    rw [hfile] at hfill
    rw [readPhysicalRecord_fill (by omega) heof]
    exact read_in_block ht hfit hfill
  · rw [trailer, if_neg hleft, List.nil_append] at hr
    rw [start, if_neg hleft] at hfit ⊢
    exact read_in_block ht hfit hr

theorem readPhysicalRecord_end {r : Reader} (hbuf : r.buffer.length < kHeaderSize)
    (heof : r.eof = true) : readPhysicalRecord r = ⟨kEof, [], { r with buffer := [] }⟩ := by
  rw [readPhysicalRecord, if_pos hbuf, if_pos heof]

theorem read_cut_in_block {r : Reader} {o m : ℕ} {t : RecordType} {payload : Bytes}
    (hfit : o + kHeaderSize + payload.length ≤ kBlockSize)
    (hm : m < kHeaderSize + payload.length) (hr : r.At o ((physical t payload).take m)) :
    ∃ r', readPhysicalRecord r = ⟨kEof, [], r'⟩ ∧ r'.reports = r.reports ∧
      r'.resyncing = false := by
  have hb : kBlockSize = 32768 := rfl
  have hsize : r.buffer.length + r.file.length = m := by
    have hbytes := congrArg List.length hr.bytes
    rw [List.length_append, List.length_take, length_physical] at hbytes
    omega
  have heof : r.eof = true := by
    by_contra hne
    have hloaded := hr.loaded (by simpa using hne)
    omega
  have hbuf : r.buffer = (physical t payload).take m := by
    have hbytes := hr.bytes
    rwa [(hr.ended heof).1, List.append_nil] at hbytes
  have hlen : r.buffer.length = m := by
    rw [hbuf, List.length_take, length_physical]
    omega
  refine ⟨{ r with buffer := [] }, ?_, rfl, hr.synced⟩
  by_cases hhead : m < kHeaderSize
  · exact readPhysicalRecord_end (by omega) heof
  · rw [readPhysicalRecord_loaded (by omega)]
    exact parse_cut (by omega) heof hbuf (by omega) hm

/-- At a fragment that was cut off, or at the end of a log, the file ends. -/
theorem read_cut {r : Reader} {o m : ℕ} {t : RecordType} {payload : Bytes}
    (hfit : start o + kHeaderSize + payload.length ≤ kBlockSize)
    (hm : m < (trailer o ++ physical t payload).length)
    (hr : r.At o ((trailer o ++ physical t payload).take m)) :
    ∃ r', readPhysicalRecord r = ⟨kEof, [], r'⟩ ∧ r'.reports = r.reports ∧
      r'.resyncing = false := by
  by_cases hleft : kBlockSize - o < kHeaderSize
  · have hzeros : (zeros (kBlockSize - o)).length = kBlockSize - o := List.length_replicate
    rw [trailer, if_pos hleft] at hr hm
    rw [start, if_pos hleft] at hfit
    rw [List.length_append, length_physical, hzeros] at hm
    have hsize : r.buffer.length + r.file.length = m := by
      have hbytes := congrArg List.length hr.bytes
      rw [List.length_append, List.length_take, List.length_append, length_physical,
        hzeros] at hbytes
      omega
    cases heof : r.eof with
    | true =>
      -- the file ends inside the trailer
      obtain ⟨hfile, hle⟩ := hr.ended heof
      exact ⟨_, readPhysicalRecord_end (by omega) heof, rfl, hr.synced⟩
    | false =>
      have hloaded := hr.loaded heof
      have hfile : r.file = (physical t payload).take (m - (kBlockSize - o)) := by
        have hbytes := hr.bytes
        rw [List.take_append, hzeros,
          List.take_of_length_le (by rw [hzeros]; omega : _ ≤ m)] at hbytes
        exact (List.append_inj hbytes (by rw [hloaded, hzeros])).2
      have hfill := hr.fill
      rw [hfile] at hfill
      rw [readPhysicalRecord_fill (by omega) heof]
      exact read_cut_in_block hfit (by omega) hfill
  · rw [trailer, if_neg hleft, List.nil_append] at hr hm
    rw [start, if_neg hleft] at hfit
    rw [length_physical] at hm
    exact read_cut_in_block hfit hm hr

/-- The bytes `bs`, written from the block offset `o` on up to `o'`, complete a record whose
earlier fragments are in `a`: it is read, and not while they are cut off. -/
structure Delivers (o : ℕ) (bs : Bytes) (o' : ℕ) (a : Assembly) (record : Bytes) : Prop where
  whole : ∀ r rest, r.At o (bs ++ rest) →
    ∃ r', readRecordLoop r a = (some record, r') ∧ r'.At o' rest ∧ r'.reports = r.reports
  cut : ∀ r m, m < bs.length → r.At o (bs.take m) →
    ∃ r', readRecordLoop r a = (none, r') ∧ r'.reports = r.reports

theorem readRecordLoop_stop {r r' : Reader} {a : Assembly} {record : Option Bytes}
    (h : readRound r a = .stop record r') : readRecordLoop r a = (record, r') := by
  rw [readRecordLoop, h]

theorem readRecordLoop_more {r r' : Reader} {a a' : Assembly} (h : readRound r a = .more r' a') :
    readRecordLoop r a = readRecordLoop r' a' := by
  conv_lhs => rw [readRecordLoop, h]

theorem readRound_synced {r : Reader} {p : Physical} (a : Assembly)
    (h : readPhysicalRecord r = p) (hs : p.reader.resyncing = false) :
    readRound r a = handleRecord p a := by
  simp only [readRound, h, hs, Bool.false_eq_true, if_false]

theorem readRecordLoop_eof {r r' : Reader} (a : Assembly)
    (h : readPhysicalRecord r = ⟨kEof, [], r'⟩) (hs : r'.resyncing = false) :
    readRecordLoop r a = (none, r') := by
  apply readRecordLoop_stop
  rw [readRound_synced a h hs]
  rfl

theorem Reader.At.lastRecordOffset {r : Reader} {o : ℕ} {rem : Bytes} (h : r.At o rem) (n : ℕ) :
    Reader.At { r with lastRecordOffset := n } o rem :=
  ⟨h.bytes, h.loaded, h.ended, h.fromStart, h.synced⟩

section Fragment

variable {o : ℕ} {payload : Bytes} (hfit : start o + kHeaderSize + payload.length ≤ kBlockSize)
include hfit

/-- The last fragment of a record, or its only one. -/
theorem delivers_end {t : RecordType} {a : Assembly} {record : Bytes} (ht : t ≠ .zero)
    (hstop : ∀ r : Reader, ∃ n,
      handleRecord ⟨t.code, payload, r⟩ a = .stop (some record) { r with lastRecordOffset := n }) :
    Delivers o (trailer o ++ physical t payload) (start o + kHeaderSize + payload.length) a
      record where
  whole := by
    intro r rest hr
    obtain ⟨r', hread, hat, hrep⟩ := read_physical ht hfit hr
    obtain ⟨n, hn⟩ := hstop r'
    refine ⟨_, readRecordLoop_stop ?_, hat.lastRecordOffset n, hrep⟩
    rw [readRound_synced a hread hat.synced]
    exact hn
  cut := by
    intro r m hm hr
    obtain ⟨r', hread, hrep, hs⟩ := read_cut hfit hm hr
    exact ⟨r', readRecordLoop_eof a hread hs, hrep⟩

/-- A fragment after which the record goes on. -/
theorem delivers_more {t : RecordType} {a : Assembly} {bs record : Bytes} {o' : ℕ}
    (ht : t ≠ .zero)
    (hmore : ∀ r : Reader, ∃ a', handleRecord ⟨t.code, payload, r⟩ a = .more r a' ∧
      Delivers (start o + kHeaderSize + payload.length) bs o' a' record) :
    Delivers o (trailer o ++ physical t payload ++ bs) o' a record where
  whole := by
    intro r rest hr
    rw [List.append_assoc] at hr
    obtain ⟨r₁, hread, hat, hrep⟩ := read_physical ht hfit hr
    obtain ⟨a', hnext, hdel⟩ := hmore r₁
    obtain ⟨r', hrest, hat', hrep'⟩ := hdel.whole r₁ rest hat
    refine ⟨r', ?_, hat', hrep'.trans hrep⟩
    rw [readRecordLoop_more ((readRound_synced a hread hat.synced).trans hnext), hrest]
  cut := by
    intro r m hm hr
    rw [List.take_append] at hr
    by_cases hcut : m < (trailer o ++ physical t payload).length
    · rw [Nat.sub_eq_zero_of_le (by omega), List.take_zero, List.append_nil] at hr
      obtain ⟨r', hread, hrep, hs⟩ := read_cut hfit hcut hr
      exact ⟨r', readRecordLoop_eof a hread hs, hrep⟩
    · rw [List.take_of_length_le (by omega)] at hr
      rw [List.length_append] at hm
      obtain ⟨r₁, hread, hat, hrep⟩ := read_physical ht hfit hr
      obtain ⟨a', hnext, hdel⟩ := hmore r₁
      obtain ⟨r', hrest, hrep'⟩ := hdel.cut r₁ _ (by omega) hat
      refine ⟨r', ?_, hrep'.trans hrep⟩
      rw [readRecordLoop_more ((readRound_synced a hread hat.synced).trans hnext), hrest]

end Fragment

theorem fragmentLength_le (left : Bytes) (w : Writer) :
    fragmentLength left w ≤ left.length ∧ fragmentLength left w ≤ avail w := by
  rw [fragmentLength]
  split <;> omega

/-- Every fragment fits into its block, so that the assertions of `EmitPhysicalRecord`
hold. -/
theorem emit_switchBlock (t : RecordType) (left : Bytes) {w : Writer}
    (hw : w.blockOffset ≤ kBlockSize) :
    let payload := left.take (fragmentLength left (switchBlock w))
    let o := start w.blockOffset
    o + kHeaderSize + payload.length ≤ kBlockSize ∧
      emitPhysicalRecord t payload (switchBlock w) =
        some ⟨w.dest ++ (trailer w.blockOffset ++ physical t payload),
          o + kHeaderSize + payload.length⟩ := by
  intro payload o
  have hb : kBlockSize = 32768 := rfl
  have hroom := start_room hw
  have hlen : payload.length ≤ kBlockSize - o - kHeaderSize := by
    have hle := (fragmentLength_le left (switchBlock w)).2
    have havail : avail (switchBlock w) = kBlockSize - o - kHeaderSize := by
      rw [switchBlock_eq]
      rfl
    have htake := List.length_take_le (fragmentLength left (switchBlock w)) left
    show (left.take _).length ≤ _
    omega
  have hfit : o + kHeaderSize + payload.length ≤ kBlockSize := by omega
  refine ⟨hfit, ?_⟩
  rw [emitPhysicalRecord, switchBlock_eq]
  dsimp only
  rw [if_pos ⟨by omega, hfit⟩]
  simp only [physical, List.append_assoc]
  rfl

theorem fragmentType_ne_zero (begin last : Bool) : fragmentType begin last ≠ .zero := by
  cases begin <;> cases last <;> decide

/-- The fragment with which a record ends is handed out with what was read before it. -/
theorem handleRecord_end {begin : Bool} {a : Assembly} (r : Reader) (payload : Bytes)
    (ha : a.inFragmentedRecord = !begin) :
    ∃ n, handleRecord ⟨(fragmentType begin true).code, payload, r⟩ a =
      .stop (some (if begin then payload else a.scratch ++ payload))
        { r with lastRecordOffset := n } := by
  cases begin with
  | true =>
    refine ⟨toSizeT (r.endOfBufferOffset - r.buffer.length - kHeaderSize - payload.length), ?_⟩
    have hpartial : r.reportPartial a "partial record without end(1)" = r := by
      rw [Reader.reportPartial, if_neg (by simp [ha])]
    simp only [handleRecord, fragmentType, Bool.and_self, if_true, hpartial]
  | false =>
    refine ⟨a.prospectiveRecordOffset, ?_⟩
    have hfrag : a.inFragmentedRecord = true := ha
    simp [handleRecord, fragmentType, RecordType.code, hfrag]

/-- Any other fragment is kept. -/
theorem handleRecord_goesOn {begin : Bool} {a : Assembly} (r : Reader) (payload : Bytes)
    (ha : a.inFragmentedRecord = !begin) :
    ∃ a', handleRecord ⟨(fragmentType begin false).code, payload, r⟩ a = .more r a' ∧
      a'.inFragmentedRecord = true ∧
      a'.scratch = if begin then payload else a.scratch ++ payload := by
  cases begin with
  | true =>
    refine ⟨⟨true, payload,
      toSizeT (r.endOfBufferOffset - r.buffer.length - kHeaderSize - payload.length)⟩, ?_, rfl, rfl⟩
    have hpartial : r.reportPartial a "partial record without end(2)" = r := by
      rw [Reader.reportPartial, if_neg (by simp [ha])]
    simp [handleRecord, fragmentType, RecordType.code, hpartial]
  | false =>
    have hfrag : a.inFragmentedRecord = true := ha
    refine ⟨{ a with scratch := a.scratch ++ payload }, ?_, hfrag, rfl⟩
    simp [handleRecord, fragmentType, RecordType.code, hfrag]

theorem addRecordLoop_delivers (begin : Bool) (left : Bytes) (w : Writer)
    (hw : w.blockOffset ≤ kBlockSize) :
    ∃ w' bs, addRecordLoop begin left w = some w' ∧ w'.dest = w.dest ++ bs ∧
      w'.blockOffset ≤ kBlockSize ∧ ∀ a : Assembly, a.inFragmentedRecord = !begin →
        Delivers w.blockOffset bs w'.blockOffset a (if begin then left else a.scratch ++ left) := by
  induction begin, left, w using addRecordLoop.induct with
  | case1 begin left w _ n last hemit =>
    obtain ⟨_, hsome⟩ := emit_switchBlock (fragmentType begin last) left hw
    exact absurd (hsome.symm.trans hemit) (by simp)
  | case2 begin left w _ n last w₁ hemit hmore ih =>
    obtain ⟨hfit, hsome⟩ := emit_switchBlock (fragmentType begin last) left hw
    obtain rfl : _ = w₁ := Option.some.inj (hsome.symm.trans hemit)
    obtain ⟨w', bs, hrest, hdest, hoff, hdel⟩ := ih hfit
    have hlast : last = false := by
      rw [List.length_drop] at hmore
      exact beq_false_of_ne (by omega)
    refine ⟨w', trailer w.blockOffset ++ physical (fragmentType begin last) (left.take n) ++ bs,
      ?_, ?_, hoff, ?_⟩
    · rw [addRecordLoop, if_pos hw]
      dsimp only
      rw [hemit]
      dsimp only
      rw [if_pos hmore, hrest]
    · rw [hdest]
      simp only [List.append_assoc]
      rfl
    · intro a ha
      apply delivers_more hfit (fragmentType_ne_zero begin last)
      intro r
      rw [hlast]
      obtain ⟨a', hnext, hfrag, hscratch⟩ := handleRecord_goesOn r (left.take n) ha
      refine ⟨a', hnext, ?_⟩
      have hrec := hdel a' hfrag
      rw [if_neg Bool.false_ne_true, hscratch] at hrec
      cases begin with
      | true => simpa only [if_true, List.take_append_drop] using hrec
      | false =>
        simpa only [Bool.false_eq_true, if_false, List.append_assoc, List.take_append_drop]
          using hrec
  | case3 begin left w _ n last w₁ hemit hdone =>
    obtain ⟨hfit, hsome⟩ := emit_switchBlock (fragmentType begin last) left hw
    obtain rfl : _ = w₁ := Option.some.inj (hsome.symm.trans hemit)
    have hn : left.take n = left := by
      rw [List.length_drop] at hdone
      exact List.take_of_length_le (by omega)
    have hlast : last = true := by
      have hle := (fragmentLength_le left (switchBlock w)).1
      rw [List.length_drop] at hdone
      exact beq_iff_eq.mpr (by omega)
    refine ⟨⟨w.dest ++ (trailer w.blockOffset ++ physical (fragmentType begin last) (left.take n)),
      start w.blockOffset + kHeaderSize + (left.take n).length⟩,
      trailer w.blockOffset ++ physical (fragmentType begin last) (left.take n),
      ?_, rfl, hfit, ?_⟩
    · rw [addRecordLoop, if_pos hw]
      dsimp only
      rw [hemit]
      dsimp only
      rw [if_neg hdone]
    · intro a ha
      apply delivers_end hfit (fragmentType_ne_zero begin last)
      intro r
      rw [hlast, hn]
      exact handleRecord_end r left ha
  | case4 begin left w h => exact absurd hw h

theorem addRecord_delivers (slice : Bytes) {w : Writer} (hw : w.blockOffset ≤ kBlockSize) :
    ∃ w' bs, addRecord slice w = some w' ∧ w'.dest = w.dest ++ bs ∧
      w'.blockOffset ≤ kBlockSize ∧
      Delivers w.blockOffset bs w'.blockOffset ⟨false, [], 0⟩ slice := by
  obtain ⟨w', bs, hadd, hdest, hoff, hdel⟩ := addRecordLoop_delivers true slice w hw
  exact ⟨w', bs, hadd, hdest, hoff, hdel ⟨false, [], 0⟩ rfl⟩

theorem readRecord_eq {r : Reader} {o : ℕ} {rem : Bytes} (h : r.At o rem) :
    readRecord r = readRecordLoop r ⟨false, [], 0⟩ := by
  rw [readRecord, if_neg (by rw [h.fromStart]; exact Nat.not_lt_zero _)]

theorem readRecords_some {r r' : Reader} {record : Bytes} (h : readRecord r = (some record, r')) :
    readRecords r = (record :: (readRecords r').1, (readRecords r').2) := by
  rw [readRecords, h]

theorem readRecords_none {r r' : Reader} (h : readRecord r = (none, r')) :
    readRecords r = ([], r') := by
  rw [readRecords, h]

/-- At the end of the file there is no record. -/
theorem readRecords_nil {r : Reader} {o : ℕ} (h : r.At o []) :
    ∃ r', readRecords r = ([], r') ∧ r'.reports = r.reports := by
  obtain ⟨hbuf, hfile⟩ := List.append_eq_nil_iff.mp h.bytes
  have hshort : r.buffer.length < kHeaderSize := by
    rw [hbuf]
    decide
  obtain ⟨r', hread, hrep, hs⟩ : ∃ r', readPhysicalRecord r = ⟨kEof, [], r'⟩ ∧
      r'.reports = r.reports ∧ r'.resyncing = false := by
    by_cases he : r.eof = true
    · exact ⟨_, readPhysicalRecord_end hshort he, rfl, h.synced⟩
    · have hfill : r.fill.buffer = [] := by
        show r.file.take kBlockSize = []
        rw [hfile, List.take_nil]
      have hend : r.fill.eof = true := by
        show decide ((r.file.take kBlockSize).length < kBlockSize) = true
        rw [hfile, List.take_nil]
        rfl
      rw [readPhysicalRecord_fill hshort (by simpa using he)]
      exact ⟨_, readPhysicalRecord_end (by rw [hfill]; decide) hend, rfl, h.synced⟩
  exact ⟨r', readRecords_none ((readRecord_eq h).trans (readRecordLoop_eof _ hread hs)), hrep⟩

/-- The assertions of the writer hold. -/
theorem addRecords_total (records : List Bytes) {w : Writer} (hw : w.blockOffset ≤ kBlockSize) :
    ∃ w' bs, addRecords records w = some w' ∧ w'.dest = w.dest ++ bs ∧
      w'.blockOffset ≤ kBlockSize := by
  induction records generalizing w with
  | nil => exact ⟨w, [], rfl, (List.append_nil _).symm, hw⟩
  | cons slice records ih =>
    obtain ⟨w₁, bs₁, hadd, hdest, hoff, _⟩ := addRecord_delivers slice hw
    obtain ⟨w', bs, hrest, hdest', hoff'⟩ := ih hoff
    refine ⟨w', bs₁ ++ bs, ?_, ?_, hoff'⟩
    · rw [addRecords, hadd, Option.bind_some, hrest]
    · rw [hdest', hdest, List.append_assoc]

/-- Records that were written are read first, whatever comes after them in the file. -/
theorem readRecords_append (records : List Bytes) {w w' : Writer} {bs junk : Bytes} {r : Reader}
    (hw : w.blockOffset ≤ kBlockSize) (hadd : addRecords records w = some w')
    (hdest : w'.dest = w.dest ++ bs) (hr : r.At w.blockOffset (bs ++ junk)) :
    ∃ r', r'.At w'.blockOffset junk ∧ r'.reports = r.reports ∧
      readRecords r = (records ++ (readRecords r').1, (readRecords r').2) := by
  induction records generalizing w r bs with
  | nil =>
    obtain rfl : w = w' := Option.some.inj hadd
    have hbs : bs = [] := List.self_eq_append_right.mp hdest
    subst hbs
    exact ⟨r, hr, rfl, rfl⟩
  | cons slice records ih =>
    obtain ⟨w₁, bs₁, hone, hdest₁, hoff, hdel⟩ := addRecord_delivers slice hw
    rw [addRecords, hone, Option.bind_some] at hadd
    obtain ⟨w₂, bs₂, hrest, hdest₂, _⟩ := addRecords_total records hoff
    obtain rfl : w₂ = w' := Option.some.inj (hrest.symm.trans hadd)
    have hbs : bs = bs₁ ++ bs₂ := by
      rw [hdest₂, hdest₁, List.append_assoc] at hdest
      exact (List.append_cancel_left hdest).symm
    rw [hbs, List.append_assoc] at hr
    obtain ⟨r₁, hread, hat, hrep⟩ := hdel.whole r (bs₂ ++ junk) hr
    obtain ⟨r', hat', hrep', hrecs⟩ := ih hoff hadd hdest₂ hat
    refine ⟨r', hat', hrep'.trans hrep, ?_⟩
    rw [readRecords_some ((readRecord_eq hr).trans hread), hrecs, List.cons_append]

/-- Of records that were cut off after `m` bytes the whole ones are read. -/
theorem readRecords_take (records : List Bytes) {w w' : Writer} {bs : Bytes} {r : Reader} {m : ℕ}
    (hw : w.blockOffset ≤ kBlockSize) (hadd : addRecords records w = some w')
    (hdest : w'.dest = w.dest ++ bs) (hr : r.At w.blockOffset (bs.take m)) :
    ∃ k ≤ records.length, ∃ r', readRecords r = (records.take k, r') ∧ r'.reports = r.reports ∧
      (∃ v, addRecords (records.take k) w = some v ∧ v.dest.length ≤ w.dest.length + m) ∧
      (k < records.length →
        ∃ v, addRecords (records.take (k + 1)) w = some v ∧ w.dest.length + m < v.dest.length) := by
  induction records generalizing w r bs m with
  | nil =>
    obtain rfl : w = w' := Option.some.inj hadd
    have hbs : bs = [] := List.self_eq_append_right.mp hdest
    rw [hbs, List.take_nil] at hr
    obtain ⟨r', hread, hrep⟩ := readRecords_nil hr
    exact ⟨0, le_rfl, r', hread, hrep, ⟨w, rfl, by omega⟩, fun h => absurd h (by simp)⟩
  | cons slice records ih =>
    obtain ⟨w₁, bs₁, hone, hdest₁, hoff, hdel⟩ := addRecord_delivers slice hw
    rw [addRecords, hone, Option.bind_some] at hadd
    obtain ⟨w₂, bs₂, hrest, hdest₂, _⟩ := addRecords_total records hoff
    obtain rfl : w₂ = w' := Option.some.inj (hrest.symm.trans hadd)
    have hbs : bs = bs₁ ++ bs₂ := by
      rw [hdest₂, hdest₁, List.append_assoc] at hdest
      exact (List.append_cancel_left hdest).symm
    have hlen : w₁.dest.length = w.dest.length + bs₁.length := by
      rw [hdest₁, List.length_append]
    rw [hbs, List.take_append] at hr
    by_cases hcut : m < bs₁.length
    · rw [Nat.sub_eq_zero_of_le (by omega), List.take_zero, List.append_nil] at hr
      obtain ⟨r', hread, hrep⟩ := hdel.cut r m hcut hr
      refine ⟨0, Nat.zero_le _, r', ?_, hrep, ⟨w, rfl, by omega⟩, fun _ => ⟨w₁, ?_, by omega⟩⟩
      · exact readRecords_none ((readRecord_eq hr).trans hread)
      · rw [Nat.zero_add, List.take_succ_cons, List.take_zero, addRecords, hone]
        rfl
    · rw [List.take_of_length_le (by omega)] at hr
      obtain ⟨r₁, hread, hat, hrep⟩ := hdel.whole r _ hr
      obtain ⟨k, hk, r', hrecs, hrep', ⟨v, hv, hvlen⟩, hnext⟩ := ih hoff hadd hdest₂ hat
      refine ⟨k + 1, by simpa using hk, r', ?_, hrep'.trans hrep, ⟨v, ?_, by omega⟩, ?_⟩
      · rw [readRecords_some ((readRecord_eq hr).trans hread), hrecs, List.take_succ_cons]
      · rw [List.take_succ_cons, addRecords, hone, Option.bind_some, hv]
      · intro hlt
        obtain ⟨u, hu, hulen⟩ := hnext (by simpa using hlt)
        refine ⟨u, ?_, by omega⟩
        rw [List.take_succ_cons, addRecords, hone, Option.bind_some, hu]

-- a new file begins a block, which to a reader is the end of the block before it
theorem addRecords_start (records : List Bytes) (dest : Bytes) :
    addRecords records ⟨dest, kBlockSize⟩ = addRecords records ⟨dest, 0⟩ ∨ records = [] := by
  cases records with
  | nil => exact .inr rfl
  | cons slice records =>
    left
    have hswitch : switchBlock ⟨dest, kBlockSize⟩ = switchBlock ⟨dest, 0⟩ := by
      rw [switchBlock_eq, switchBlock_eq]
      simp [trailer, start, kBlockSize, kHeaderSize, zeros]
    have hadd : addRecord slice ⟨dest, kBlockSize⟩ = addRecord slice ⟨dest, 0⟩ := by
      rw [addRecord, addRecord, addRecordLoop, addRecordLoop, hswitch, if_pos le_rfl,
        if_pos (Nat.zero_le _)]
    rw [addRecords, addRecords, hadd]

theorem Reader.at_new (file : Bytes) (checksum : Bool) :
    (Reader.new file checksum 0).At kBlockSize file :=
  ⟨rfl, fun _ => (Nat.sub_self _).symm, fun h => absurd h Bool.false_ne_true, rfl, rfl⟩

theorem writeLog_of_start {records : List Bytes} {v : Writer}
    (h : addRecords records ⟨[], kBlockSize⟩ = some v) :
    ∃ u, writeLog records = some u ∧ u.dest = v.dest := by
  rcases addRecords_start records [] with hstart | rfl
  · exact ⟨v, hstart.symm.trans h, rfl⟩
  · cases h
    exact ⟨Writer.new, rfl, rfl⟩

/-- Of a log that was cut off anywhere, as by a crash while a record was being written, the
reader gives exactly the records that are there as a whole, and nothing is reported as
corrupt. -/
theorem log_cut_reads_whole_records (records : List Bytes) (checksum : Bool) (m : ℕ) :
    ∃ w, writeLog records = some w ∧
      ∃ k ≤ records.length, ∃ r,
        readRecords (Reader.new (w.dest.take m) checksum 0) = (records.take k, r) ∧
        r.reports = [] ∧
        (∃ v, writeLog (records.take k) = some v ∧ v.dest.length ≤ m) ∧
        (k < records.length → ∃ v, writeLog (records.take (k + 1)) = some v ∧
          m < v.dest.length) := by
  obtain ⟨w', bs, hadd, hdest, _⟩ := addRecords_total records (w := ⟨[], kBlockSize⟩) le_rfl
  obtain ⟨w, hw, hwdest⟩ := writeLog_of_start hadd
  have hr : (Reader.new (w.dest.take m) checksum 0).At kBlockSize (bs.take m) := by
    have hbs : w.dest = bs := by rw [hwdest, hdest, List.nil_append]
    rw [hbs]
    exact Reader.at_new _ _
  obtain ⟨k, hk, r, hread, hrep, ⟨v, hv, hvlen⟩, hnext⟩ :=
    readRecords_take records le_rfl hadd hdest hr
  obtain ⟨u, hu, hudest⟩ := writeLog_of_start hv
  refine ⟨w, hw, k, hk, r, hread, hrep, ⟨u, hu, ?_⟩, fun hlt => ?_⟩
  · rw [hudest]
    simpa using hvlen
  · obtain ⟨x, hx, hxlen⟩ := hnext hlt
    obtain ⟨y, hy, hydest⟩ := writeLog_of_start hx
    refine ⟨y, hy, ?_⟩
    rw [hydest]
    simpa using hxlen

/-- Damage to a log costs no record before it: whatever follows the records that were
written, they are read first and in order. -/
theorem log_damage_spares_earlier_records (records : List Bytes) (checksum : Bool)
    (junk : Bytes) :
    ∃ w, writeLog records = some w ∧
      ∃ more, (readRecords (Reader.new (w.dest ++ junk) checksum 0)).1 = records ++ more := by
  obtain ⟨w', bs, hadd, hdest, _⟩ := addRecords_total records (w := ⟨[], kBlockSize⟩) le_rfl
  obtain ⟨w, hw, hwdest⟩ := writeLog_of_start hadd
  have hr : (Reader.new (w.dest ++ junk) checksum 0).At kBlockSize (bs ++ junk) := by
    have hbs : w.dest = bs := by rw [hwdest, hdest, List.nil_append]
    rw [hbs]
    exact Reader.at_new _ _
  obtain ⟨r', _, _, hread⟩ := readRecords_append records le_rfl hadd hdest hr
  refine ⟨w, hw, (readRecords r').1, ?_⟩
  rw [hread]

end KfkClient.Engine.Log
