import KfkClient.Engine.Crc32c

/-!
# The log file (`log_format.h`, `log_writer.cc`, `log_reader.cc`)

A record is cut into fragments, none of which crosses the end of a block of 32768 bytes,
and each fragment is written behind a header with a checksum, its length and its type. The
writer and the reader are as in the source, with appends to and reads from the file
succeeding. A writer whose assertion fails has no next state.
-/

namespace KfkClient.Engine.Log

open CLib

inductive RecordType where
  | zero
  | full
  | first
  | middle
  | last
  deriving DecidableEq, Repr

def RecordType.code : RecordType → ℕ
  | zero => 0
  | full => 1
  | first => 2
  | middle => 3
  | last => 4

def kMaxRecordType : ℕ := RecordType.last.code

def kBlockSize : ℕ := 32768

-- checksum (4 bytes), length (2 bytes), type (1 byte)
def kHeaderSize : ℕ := 4 + 2 + 1

structure Writer where
  dest : Bytes
  blockOffset : ℕ

def Writer.new : Writer := ⟨[], 0⟩

def typeCrc (t : RecordType) : BitVec 32 := Crc32c.value [.ofNat t.code]

def header (t : RecordType) (payload : Bytes) : Bytes :=
  let n := payload.length
  let crc := Crc32c.mask (Crc32c.extend (typeCrc t) payload)
  encodeFixed32 crc.toNat ++ [.ofNat n, .ofNat (n >>> 8), .ofNat t.code]

def emitPhysicalRecord (t : RecordType) (payload : Bytes) (w : Writer) : Option Writer :=
  let n := payload.length
  if n ≤ 0xffff ∧ w.blockOffset + kHeaderSize + n ≤ kBlockSize then
    some { dest := w.dest ++ header t payload ++ payload
           blockOffset := w.blockOffset + kHeaderSize + n }
  else none

-- the switch to a new block at the top of the loop of `AddRecord`
def switchBlock (w : Writer) : Writer :=
  let leftover := kBlockSize - w.blockOffset
  if leftover < kHeaderSize then ⟨w.dest ++ zeros leftover, 0⟩ else w

def fragmentType (begin «end» : Bool) : RecordType :=
  if begin && «end» then .full
  else if begin then .first
  else if «end» then .last
  else .middle

theorem blockOffset_of_emit {t : RecordType} {payload : Bytes} {w w' : Writer}
    (h : emitPhysicalRecord t payload w = some w') :
    w'.blockOffset = w.blockOffset + kHeaderSize + payload.length ∧
      w'.blockOffset ≤ kBlockSize := by
  simp only [emitPhysicalRecord] at h
  split at h
  · rename_i hfit
    cases h
    exact ⟨rfl, hfit.2⟩
  · cases h

theorem switchBlock_cases (w : Writer) :
    (switchBlock w).blockOffset = 0 ∨
      switchBlock w = w ∧ kHeaderSize ≤ kBlockSize - w.blockOffset := by
  simp only [switchBlock]
  split
  · exact .inl rfl
  · rename_i h
    exact .inr ⟨rfl, Nat.le_of_not_lt h⟩

-- `kBlockSize - block_offset_ - kHeaderSize`
def avail (w : Writer) : ℕ := kBlockSize - w.blockOffset - kHeaderSize

def fragmentLength (left : Bytes) (w : Writer) : ℕ :=
  if left.length < avail w then left.length else avail w

theorem addRecordLoop_decreases {t : RecordType} {left : Bytes} {w w' : Writer}
    (h : emitPhysicalRecord t (left.take (fragmentLength left (switchBlock w))) (switchBlock w) =
      some w') (hleft : 0 < (left.drop (fragmentLength left (switchBlock w))).length) :
    2 * (left.drop (fragmentLength left (switchBlock w))).length +
        (if w'.blockOffset + kHeaderSize = kBlockSize then 1 else 0) <
      2 * left.length + if w.blockOffset + kHeaderSize = kBlockSize then 1 else 0 := by
  -- a fragment that leaves something fills its block, and only one at the very end of a
  -- block is empty
  have hemit := (blockOffset_of_emit h).1
  have hcases := switchBlock_cases w
  generalize switchBlock w = v at h hleft hemit hcases ⊢
  rw [List.length_drop] at hleft ⊢
  have hfrag : fragmentLength left v = avail v := by
    simp only [fragmentLength] at hleft ⊢
    split at hleft
    · omega
    · rename_i hge
      rw [if_neg hge]
  rw [hfrag] at hleft ⊢
  rw [List.length_take, hfrag, Nat.min_eq_left (by omega)] at hemit
  have hb : kBlockSize = 32768 := rfl
  have hk : kHeaderSize = 7 := rfl
  have ha : avail v = kBlockSize - v.blockOffset - kHeaderSize := rfl
  rcases hcases with hzero | ⟨rfl, hroom⟩
  · rw [if_neg (by omega)]
    omega
  · rw [if_neg (by omega)]
    split <;> omega

/-- The loop of `AddRecord` for the bytes that are left, run at least once. -/
def addRecordLoop (begin : Bool) (left : Bytes) (w : Writer) : Option Writer :=
  if w.blockOffset ≤ kBlockSize then
    let n := fragmentLength left (switchBlock w)
    let «end» := left.length == n
    match _h : emitPhysicalRecord (fragmentType begin «end») (left.take n) (switchBlock w) with
    | none => none
    | some w' => if 0 < (left.drop n).length then addRecordLoop false (left.drop n) w' else some w'
  else none
termination_by 2 * left.length + if w.blockOffset + kHeaderSize = kBlockSize then 1 else 0
decreasing_by exact addRecordLoop_decreases _h ‹_›

def addRecord (slice : Bytes) (w : Writer) : Option Writer := addRecordLoop true slice w

def addRecords : List Bytes → Writer → Option Writer
  | [], w => some w
  | slice :: records, w => (addRecord slice w).bind (addRecords records)

/-- A new log file with some records in it. -/
def writeLog (records : List Bytes) : Option Writer := addRecords records Writer.new

def kEof : ℕ := kMaxRecordType + 1

def kBadRecord : ℕ := kMaxRecordType + 2

/-- `log::Reader`. `file` holds the bytes not read yet and `reports` what the reporter was
told. -/
structure Reader where
  file : Bytes
  checksum : Bool
  buffer : Bytes
  eof : Bool
  lastRecordOffset : ℕ
  endOfBufferOffset : ℕ
  initialOffset : ℕ
  resyncing : Bool
  reports : List (ℕ × String)

def Reader.new (file : Bytes) (checksum : Bool) (initialOffset : ℕ) : Reader :=
  { file, checksum, buffer := [], eof := false, lastRecordOffset := 0, endOfBufferOffset := 0,
    initialOffset, resyncing := decide (0 < initialOffset), reports := [] }

-- `ReportDrop`; the offsets are `uint64_t`
def Reader.reportCorruption (r : Reader) (bytes : ℕ) (reason : String) : Reader :=
  if r.initialOffset ≤ toSizeT (r.endOfBufferOffset - r.buffer.length - bytes) then
    { r with reports := r.reports ++ [(bytes, reason)] }
  else r

-- `file_->Read(kBlockSize, ...)`
def Reader.fill (r : Reader) : Reader :=
  let buffer := r.file.take kBlockSize
  { r with
    buffer, file := r.file.drop kBlockSize
    endOfBufferOffset := r.endOfBufferOffset + buffer.length
    eof := decide (buffer.length < kBlockSize) }

theorem Reader.fill_decreases {r : Reader} (h : ¬ r.eof) :
    2 * r.fill.file.length + (if r.fill.eof then 0 else 1) <
      2 * r.file.length + if r.eof then 0 else 1 := by
  have hfile : r.fill.file.length = r.file.length - kBlockSize := List.length_drop
  have heof : r.fill.eof = decide ((r.file.take kBlockSize).length < kBlockSize) := rfl
  have hb : kBlockSize = 32768 := rfl
  rw [hfile, heof, List.length_take, if_neg h]
  by_cases hlen : r.file.length < kBlockSize
  · rw [if_pos (by simp; omega)]
    omega
  · split <;> omega

/-- What `ReadPhysicalRecord` gives: a type, or `kEof` or `kBadRecord`, with the fragment. -/
structure Physical where
  type : ℕ
  fragment : Bytes
  reader : Reader

-- `header[6]` is a `char`, which is signed
def charToUnsigned (c : ℕ) : ℕ := if c < 128 then c else c + 0xffffff00

/-- `ReadPhysicalRecord` from "Parse the header" on. -/
def parsePhysicalRecord (r : Reader) : Physical :=
  let a := byteAt r.buffer 4
  let b := byteAt r.buffer 5
  let type := charToUnsigned (byteAt r.buffer 6)
  let length := a ||| b <<< 8
  if r.buffer.length < kHeaderSize + length then
    let dropSize := r.buffer.length
    let r := { r with buffer := [] }
    if r.eof then ⟨kEof, [], r⟩
    else ⟨kBadRecord, [], r.reportCorruption dropSize "bad record length"⟩
  else if type = RecordType.zero.code ∧ length = 0 then ⟨kBadRecord, [], { r with buffer := [] }⟩
  else
    let expectedCrc := Crc32c.unmask (BitVec.ofNat 32 (decodeFixed32 r.buffer))
    let actualCrc := Crc32c.value ((r.buffer.drop 6).take (1 + length))
    if r.checksum ∧ actualCrc ≠ expectedCrc then
      let dropSize := r.buffer.length
      let r := { r with buffer := [] }
      ⟨kBadRecord, [], r.reportCorruption dropSize "checksum mismatch"⟩
    else
      let fragment := (r.buffer.drop kHeaderSize).take length
      let r := { r with buffer := r.buffer.drop (kHeaderSize + length) }
      -- a physical record that started before the initial offset
      if toSizeT (r.endOfBufferOffset - r.buffer.length - kHeaderSize - length) < r.initialOffset
      then ⟨kBadRecord, [], r⟩
      else ⟨type, fragment, r⟩

def readPhysicalRecord (r : Reader) : Physical :=
  if r.buffer.length < kHeaderSize then
    if r.eof then ⟨kEof, [], { r with buffer := [] }⟩ else readPhysicalRecord r.fill
  else parsePhysicalRecord r
termination_by 2 * r.file.length + if r.eof then 0 else 1
decreasing_by exact Reader.fill_decreases ‹_›

/-- The bytes of the file that no record has been made of yet. -/
def Reader.remaining (r : Reader) : ℕ := r.buffer.length + r.file.length

@[simp] theorem remaining_reportCorruption (r : Reader) (bytes : ℕ) (reason : String) :
    (r.reportCorruption bytes reason).remaining = r.remaining := by
  rw [Reader.reportCorruption]
  split <;> rfl

theorem remaining_parse {r : Reader} (hbuf : kHeaderSize ≤ r.buffer.length) :
    (parsePhysicalRecord r).reader.remaining < r.remaining := by
  have hk : kHeaderSize = 7 := rfl
  simp only [parsePhysicalRecord]
  split_ifs <;> simp only [remaining_reportCorruption] <;>
    simp only [Reader.remaining, List.length_nil, List.length_drop] <;> omega

/-- Every physical record but the end of the file takes bytes away. -/
theorem remaining_readPhysicalRecord (r : Reader) :
    (readPhysicalRecord r).type = kEof ∨ (readPhysicalRecord r).reader.remaining < r.remaining := by
  induction r using readPhysicalRecord.induct with
  | case1 r hbuf heof =>
    rw [readPhysicalRecord, if_pos hbuf, if_pos heof]
    exact .inl rfl
  | case2 r hbuf heof ih =>
    rw [readPhysicalRecord, if_pos hbuf, if_neg heof]
    have hfill : r.fill.remaining ≤ r.remaining := by
      simp only [Reader.remaining, Reader.fill, List.length_take, List.length_drop]
      omega
    exact ih.imp id fun h => h.trans_le hfill
  | case3 r hbuf =>
    rw [readPhysicalRecord, if_neg hbuf]
    exact .inr (remaining_parse (Nat.le_of_not_lt hbuf))

-- `SkipToInitialBlock`; a trailer is not searched
def Reader.skipToInitialBlock (r : Reader) : Reader :=
  let offsetInBlock := r.initialOffset % kBlockSize
  let blockStart := r.initialOffset - offsetInBlock
  let blockStart := if kBlockSize - 6 < offsetInBlock then blockStart + kBlockSize else blockStart
  { r with endOfBufferOffset := blockStart, file := r.file.drop blockStart }

/-- The local variables of `ReadRecord`. -/
structure Assembly where
  inFragmentedRecord : Bool
  scratch : Bytes
  prospectiveRecordOffset : ℕ

inductive Next where
  | stop (record : Option Bytes) (r : Reader)
  | more (r : Reader) (a : Assembly)

-- `if (in_fragmented_record) if (!scratch->empty()) ReportCorruption(...)`
def Reader.reportPartial (r : Reader) (a : Assembly) (reason : String) : Reader :=
  if a.inFragmentedRecord ∧ a.scratch ≠ [] then r.reportCorruption a.scratch.length reason else r

/-- The `switch` of `ReadRecord` on a physical record. -/
def handleRecord (p : Physical) (a : Assembly) : Next :=
  let r := p.reader
  let fragment := p.fragment
  let physicalRecordOffset :=
    toSizeT (r.endOfBufferOffset - r.buffer.length - kHeaderSize - fragment.length)
  if p.type = RecordType.full.code then
    .stop (some fragment)
      { r.reportPartial a "partial record without end(1)" with
        lastRecordOffset := physicalRecordOffset }
  else if p.type = RecordType.first.code then
    .more (r.reportPartial a "partial record without end(2)") ⟨true, fragment, physicalRecordOffset⟩
  else if p.type = RecordType.middle.code then
    if a.inFragmentedRecord then .more r { a with scratch := a.scratch ++ fragment }
    else .more (r.reportCorruption fragment.length "missing start of fragmented record(1)") a
  else if p.type = RecordType.last.code then
    if a.inFragmentedRecord then
      .stop (some (a.scratch ++ fragment)) { r with lastRecordOffset := a.prospectiveRecordOffset }
    else .more (r.reportCorruption fragment.length "missing start of fragmented record(2)") a
  else if p.type = kEof then .stop none r
  else if p.type = kBadRecord then
    if a.inFragmentedRecord then
      .more (r.reportCorruption a.scratch.length "error in middle of record")
        { a with inFragmentedRecord := false, scratch := [] }
    else .more r a
  else
    let type := p.type
    let dropped := fragment.length + if a.inFragmentedRecord then a.scratch.length else 0
    .more (r.reportCorruption dropped s!"unknown record type {type}")
      { a with inFragmentedRecord := false, scratch := [] }

/-- A round of the loop of `ReadRecord`: fragments are skipped while it is resyncing. -/
def readRound (r : Reader) (a : Assembly) : Next :=
  let p := readPhysicalRecord r
  if p.reader.resyncing then
    if p.type = RecordType.middle.code then .more p.reader a
    else if p.type = RecordType.last.code then .more { p.reader with resyncing := false } a
    else handleRecord { p with reader := { p.reader with resyncing := false } } a
  else handleRecord p a

@[simp] theorem remaining_reportPartial (r : Reader) (a : Assembly) (reason : String) :
    (r.reportPartial a reason).remaining = r.remaining := by
  rw [Reader.reportPartial]
  split
  · exact remaining_reportCorruption r _ _
  · rfl

theorem handleRecord_more {p : Physical} {a a' : Assembly} {r' : Reader}
    (h : handleRecord p a = .more r' a') :
    p.type ≠ kEof ∧ r'.remaining = p.reader.remaining := by
  simp only [handleRecord] at h
  split_ifs at h with h1 h2 h3 h4 h5 h6 h7 h8 <;> injection h with hr ha <;> subst hr
  · exact ⟨by rw [h2]; decide, remaining_reportPartial _ _ _⟩
  · exact ⟨by rw [h3]; decide, rfl⟩
  · exact ⟨by rw [h3]; decide, remaining_reportCorruption _ _ _⟩
  · exact ⟨by rw [h5]; decide, remaining_reportCorruption _ _ _⟩
  · exact ⟨h7, remaining_reportCorruption _ _ _⟩
  · exact ⟨h7, rfl⟩
  · exact ⟨h7, remaining_reportCorruption _ _ _⟩
  · exact ⟨h7, remaining_reportCorruption _ _ _⟩

theorem readRound_more {r r' : Reader} {a a' : Assembly} (h : readRound r a = .more r' a') :
    r'.remaining < r.remaining := by
  have hread := remaining_readPhysicalRecord r
  simp only [readRound] at h
  split_ifs at h with h1 h2 h3
  · injection h with hr
    subst hr
    exact hread.resolve_left (by rw [h2]; decide)
  · injection h with hr
    subst hr
    exact hread.resolve_left (by rw [h3]; decide)
  · obtain ⟨htype, hrem⟩ := handleRecord_more h
    rw [hrem]
    exact hread.resolve_left htype
  · obtain ⟨htype, hrem⟩ := handleRecord_more h
    rw [hrem]
    exact hread.resolve_left htype

def readRecordLoop (r : Reader) (a : Assembly) : Option Bytes × Reader :=
  match _h : readRound r a with
  | .stop record r' => (record, r')
  | .more r' a' => readRecordLoop r' a'
termination_by r.remaining
decreasing_by exact readRound_more _h

theorem handleRecord_stop {p : Physical} {a : Assembly} {record : Bytes} {r' : Reader}
    (h : handleRecord p a = .stop (some record) r') :
    p.type ≠ kEof ∧ r'.remaining = p.reader.remaining := by
  simp only [handleRecord] at h
  split_ifs at h with h1 h2 h3 h4 h5 h6 <;> injection h with hrec hr
  · subst hr
    exact ⟨by rw [h1]; decide, remaining_reportPartial _ _ _⟩
  · subst hr
    exact ⟨by rw [h5]; decide, rfl⟩
  · cases hrec

theorem readRound_stop {r r' : Reader} {a : Assembly} {record : Bytes}
    (h : readRound r a = .stop (some record) r') : r'.remaining < r.remaining := by
  have hread := remaining_readPhysicalRecord r
  simp only [readRound] at h
  split_ifs at h with h1 h2 h3
  · obtain ⟨htype, hrem⟩ := handleRecord_stop h
    rw [hrem]
    exact hread.resolve_left htype
  · obtain ⟨htype, hrem⟩ := handleRecord_stop h
    rw [hrem]
    exact hread.resolve_left htype

theorem remaining_readRecordLoop {r r' : Reader} {a : Assembly} {record : Bytes}
    (h : readRecordLoop r a = (some record, r')) : r'.remaining < r.remaining := by
  induction r, a using readRecordLoop.induct with
  | case1 r a result r₁ hround =>
    rw [readRecordLoop, hround] at h
    injection h with hres hr
    subst hres hr
    exact readRound_stop hround
  | case2 r a r₁ a₁ hround ih =>
    rw [readRecordLoop, hround] at h
    exact (ih h).trans (readRound_more hround)

def readRecord (r : Reader) : Option Bytes × Reader :=
  let r := if r.lastRecordOffset < r.initialOffset then r.skipToInitialBlock else r
  readRecordLoop r ⟨false, [], 0⟩

theorem remaining_readRecord {r r' : Reader} {record : Bytes}
    (h : readRecord r = (some record, r')) : r'.remaining < r.remaining := by
  have hlt := remaining_readRecordLoop h
  refine hlt.trans_le ?_
  split
  · simp only [Reader.skipToInitialBlock, Reader.remaining, List.length_drop]
    omega
  · exact le_rfl

/-- A reader that is asked for records until it has no more. -/
def readRecords (r : Reader) : List Bytes × Reader :=
  match _h : readRecord r with
  | (some record, r') => let (records, r'') := readRecords r'; (record :: records, r'')
  | (none, r') => ([], r')
termination_by r.remaining
decreasing_by exact remaining_readRecord _h

end KfkClient.Engine.Log
