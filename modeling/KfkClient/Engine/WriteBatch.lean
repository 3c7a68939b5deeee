import KfkClient.Engine.Coding
import KfkClient.Engine.InternalKey

/-!
# Write batches (`write_batch.cc`, `write_batch_internal.h`)

A batch is the bytes of its updates behind an 8-byte sequence number and a 4-byte count. The
same bytes are what is logged, so that they are read again after a restart.

## Main results

- `WriteBatch.Holds` — a batch that was only changed by its own operations holds a list of
  updates
- `Holds.iterate_eq` — `Iterate` hands out exactly these, in order
-/

namespace KfkClient.Engine

open CLib

/-- What `Iterate` calls on its handler. -/
inductive Update where
  | put (key value : Bytes)
  | delete (key : Bytes)
  deriving DecidableEq, Repr

structure WriteBatch where
  rep : Bytes
  deriving DecidableEq, Repr

namespace WriteBatch

-- an 8-byte sequence number followed by a 4-byte count
def kHeader : ℕ := 12

/-- `Clear`, and a new batch. -/
def empty : WriteBatch := ⟨zeros kHeader⟩

def count (b : WriteBatch) : ℤ := toInt (decodeFixed32 (b.rep.drop 8))

def setCount (b : WriteBatch) (n : ℤ) : WriteBatch :=
  ⟨b.rep.take 8 ++ encodeFixed32 (n % 2 ^ 32).toNat ++ b.rep.drop 12⟩

def sequence (b : WriteBatch) : ℕ := decodeFixed64 b.rep

def setSequence (b : WriteBatch) (seq : ℕ) : WriteBatch :=
  ⟨encodeFixed64 seq ++ b.rep.drop 8⟩

def put (b : WriteBatch) (key value : Bytes) : WriteBatch :=
  let b := b.setCount (b.count + 1)
  ⟨b.rep ++ [.ofNat ValueType.value.code] ++ putLengthPrefixedSlice key ++
    putLengthPrefixedSlice value⟩

def delete (b : WriteBatch) (key : Bytes) : WriteBatch :=
  let b := b.setCount (b.count + 1)
  ⟨b.rep ++ [.ofNat ValueType.deletion.code] ++ putLengthPrefixedSlice key⟩

def append (dst src : WriteBatch) : WriteBatch :=
  let dst := dst.setCount (dst.count + src.count)
  ⟨dst.rep ++ src.rep.drop kHeader⟩

/-- A record after its tag: the update and the bytes that follow, or the text of an error. -/
def readUpdate (tag : UInt8) (input : Bytes) : Except String (Update × Bytes) :=
  if tag.toNat = ValueType.value.code then
    match getLengthPrefixedSlice input with
    | none => .error "bad WriteBatch Put"
    | some (key, input) =>
      match getLengthPrefixedSlice input with
      | none => .error "bad WriteBatch Put"
      | some (value, input) => .ok (.put key value, input)
  else if tag.toNat = ValueType.deletion.code then
    match getLengthPrefixedSlice input with
    | none => .error "bad WriteBatch Delete"
    | some (key, input) => .ok (.delete key, input)
  else .error "unknown WriteBatch tag"

theorem readUpdate_length {tag : UInt8} {input rest : Bytes} {u : Update}
    (h : readUpdate tag input = .ok (u, rest)) : rest.length < input.length := by
  rw [readUpdate] at h
  split at h
  · split at h
    · cases h
    · rename_i hkey
      split at h
      · cases h
      · rename_i hvalue
        cases h
        exact (getLengthPrefixedSlice_length hvalue).trans (getLengthPrefixedSlice_length hkey)
  · split at h
    · split at h
      · cases h
      · rename_i hkey
        cases h
        exact getLengthPrefixedSlice_length hkey
    · cases h

/-- The loop of `Iterate`: the calls on the handler, and the error that ends it early. -/
def iterateLoop : Bytes → List Update × Option String
  | [] => ([], none)
  | tag :: input =>
    match _h : readUpdate tag input with
    | .error e => ([], some e)
    | .ok (u, rest) =>
      let (calls, status) := iterateLoop rest
      (u :: calls, status)
termination_by input => input.length
decreasing_by
  have hlt := readUpdate_length _h
  simp only [List.length_cons]
  omega

/-- `Iterate`: the calls on the handler and the text of the corruption, if there is one. -/
def iterate (b : WriteBatch) : List Update × Option String :=
  if b.rep.length < kHeader then ([], some "malformed WriteBatch (too small)")
  else
    let (calls, status) := iterateLoop (b.rep.drop kHeader)
    match status with
    | some e => (calls, some e)
    | none =>
      if (calls.length : ℤ) ≠ b.count then (calls, some "WriteBatch has wrong count")
      else (calls, none)

end WriteBatch

def Update.bytes : Update → Bytes
  | .put key value =>
    .ofNat ValueType.value.code :: (putLengthPrefixedSlice key ++ putLengthPrefixedSlice value)
  | .delete key => .ofNat ValueType.deletion.code :: putLengthPrefixedSlice key

/-- The lengths of an update fit into 32 bits. -/
def Update.Fits : Update → Prop
  | .put key value => key.length < 2 ^ 32 ∧ value.length < 2 ^ 32
  | .delete key => key.length < 2 ^ 32

namespace WriteBatch

theorem readUpdate_bytes {u : Update} (hu : u.Fits) (rest : Bytes) :
    ∃ tag input, u.bytes ++ rest = tag :: input ∧ readUpdate tag input = .ok (u, rest) := by
  cases u with
  | put key value =>
    refine ⟨_, _, rfl, ?_⟩
    rw [readUpdate, if_pos (by rfl)]
    rw [List.append_eq, List.append_assoc, getLengthPrefixedSlice_put hu.1]
    dsimp only
    rw [getLengthPrefixedSlice_put hu.2]
  | delete key =>
    refine ⟨_, _, rfl, ?_⟩
    rw [readUpdate, if_neg (by decide), if_pos (by rfl)]
    rw [List.append_eq, getLengthPrefixedSlice_put hu]

theorem iterateLoop_cons {tag : UInt8} {input rest : Bytes} {u : Update}
    (h : readUpdate tag input = .ok (u, rest)) :
    iterateLoop (tag :: input) = (u :: (iterateLoop rest).1, (iterateLoop rest).2) := by
  rw [iterateLoop, h]

theorem iterateLoop_bytes {us : List Update} (hus : ∀ u ∈ us, u.Fits) :
    iterateLoop (us.flatMap Update.bytes) = (us, none) := by
  induction us with
  | nil => rw [List.flatMap_nil, iterateLoop]
  | cons u us ih =>
    obtain ⟨tag, input, hbytes, hread⟩ :=
      readUpdate_bytes (hus u List.mem_cons_self) (us.flatMap Update.bytes)
    have hrest := ih fun v hv => hus v (List.mem_cons_of_mem _ hv)
    rw [List.flatMap_cons, hbytes, iterateLoop_cons hread, hrest]

/-- The batch holds the updates `us`. -/
structure Holds (b : WriteBatch) (us : List Update) : Prop where
  rep : ∃ seq : Bytes, seq.length = 8 ∧
    b.rep = seq ++ encodeFixed32 us.length ++ us.flatMap Update.bytes
  fits : ∀ u ∈ us, u.Fits
  few : us.length < 2 ^ 31

theorem holds_empty : empty.Holds [] :=
  ⟨⟨zeros 8, rfl, rfl⟩, fun _ h => absurd h List.not_mem_nil, by decide⟩

section Holds

variable {b : WriteBatch} {us : List Update} (h : b.Holds us)
include h

theorem Holds.count_eq : b.count = us.length := by
  obtain ⟨seq, hseq, hrep⟩ := h.rep
  have hfew := h.few
  rw [count, hrep, List.append_assoc, List.drop_left' hseq,
    decodeFixed32_encodeFixed32 (by omega)]
  exact toInt_of_lt hfew

theorem Holds.iterate_eq : b.iterate = (us, none) := by
  have hcount := h.count_eq
  obtain ⟨seq, hseq, hrep⟩ := h.rep
  have hdrop : b.rep.drop kHeader = us.flatMap Update.bytes := by
    rw [hrep, List.drop_left']
    rw [List.length_append, hseq]
    rfl
  have hsize : ¬ b.rep.length < kHeader := by
    rw [hrep, List.length_append, List.length_append, hseq, length_encodeFixed32]
    simp [kHeader]
  rw [iterate, if_neg hsize, hdrop, iterateLoop_bytes h.fits]
  simp [hcount]

theorem Holds.setCount_rep {n : ℕ} (hn : n < 2 ^ 32) :
    ∃ seq : Bytes, seq.length = 8 ∧
      (b.setCount n).rep = seq ++ encodeFixed32 n ++ us.flatMap Update.bytes := by
  obtain ⟨seq, hseq, hrep⟩ := h.rep
  refine ⟨seq, hseq, ?_⟩
  have hmod : ((n : ℤ) % 2 ^ 32).toNat = n := by omega
  have htake : b.rep.take 8 = seq := by
    rw [hrep, List.append_assoc, List.take_left' hseq]
  have hdrop : b.rep.drop 12 = us.flatMap Update.bytes := by
    rw [hrep, List.drop_left']
    rw [List.length_append, hseq, length_encodeFixed32]
  rw [setCount, hmod, htake, hdrop]

/-- More updates behind those that are there. -/
theorem Holds.extend {vs : List Update} (hvs : ∀ v ∈ vs, v.Fits)
    (hfew : us.length + vs.length < 2 ^ 31) :
    Holds ⟨(b.setCount (us.length + vs.length : ℕ)).rep ++ vs.flatMap Update.bytes⟩
      (us ++ vs) := by
  obtain ⟨seq, hseq, hrep⟩ := h.setCount_rep (n := us.length + vs.length) (by omega)
  refine ⟨⟨seq, hseq, ?_⟩, ?_, ?_⟩
  · rw [hrep, List.length_append, List.flatMap_append]
    simp only [List.append_assoc]
  · intro u hu
    exact (List.mem_append.mp hu).elim (h.fits u) (hvs u)
  · rwa [List.length_append]

theorem Holds.put {key value : Bytes} (hfits : (Update.put key value).Fits)
    (hfew : us.length + 1 < 2 ^ 31) : (b.put key value).Holds (us ++ [.put key value]) := by
  have hone : ∀ v ∈ [Update.put key value], v.Fits := fun v hv => by rwa [List.mem_singleton.mp hv]
  have hext := h.extend hone hfew
  have heq : b.put key value = ⟨(b.setCount (us.length + 1 : ℕ)).rep ++
      [Update.put key value].flatMap Update.bytes⟩ := by
    rw [WriteBatch.put, h.count_eq]
    simp [Update.bytes]
  rw [heq]
  exact hext

theorem Holds.delete {key : Bytes} (hfits : (Update.delete key).Fits)
    (hfew : us.length + 1 < 2 ^ 31) : (b.delete key).Holds (us ++ [.delete key]) := by
  have hone : ∀ v ∈ [Update.delete key], v.Fits := fun v hv => by rwa [List.mem_singleton.mp hv]
  have hext := h.extend hone hfew
  have heq : b.delete key = ⟨(b.setCount (us.length + 1 : ℕ)).rep ++
      [Update.delete key].flatMap Update.bytes⟩ := by
    rw [WriteBatch.delete, h.count_eq]
    simp [Update.bytes]
  rw [heq]
  exact hext

theorem Holds.append {src : WriteBatch} {vs : List Update} (hsrc : src.Holds vs)
    (hfew : us.length + vs.length < 2 ^ 31) : (b.append src).Holds (us ++ vs) := by
  have hext := h.extend hsrc.fits hfew
  have hdrop : src.rep.drop kHeader = vs.flatMap Update.bytes := by
    obtain ⟨seq, hseq, hrep⟩ := hsrc.rep
    rw [hrep, List.drop_left']
    rw [List.length_append, hseq]
    rfl
  have heq : b.append src = ⟨(b.setCount (us.length + vs.length : ℕ)).rep ++
      vs.flatMap Update.bytes⟩ := by
    rw [WriteBatch.append, h.count_eq, hsrc.count_eq, hdrop]
    push_cast
    rfl
  rw [heq]
  exact hext

theorem Holds.setSequence (seq : ℕ) : (b.setSequence seq).Holds us := by
  obtain ⟨old, hold, hrep⟩ := h.rep
  refine ⟨⟨encodeFixed64 seq, length_encodeFixed64 seq, ?_⟩, h.fits, h.few⟩
  rw [WriteBatch.setSequence, hrep, List.append_assoc, List.drop_left' hold, List.append_assoc]

end Holds

theorem sequence_setSequence (b : WriteBatch) {seq : ℕ} (hseq : seq < 2 ^ 64) :
    (b.setSequence seq).sequence = seq := by
  rw [sequence, WriteBatch.setSequence, decodeFixed64_encodeFixed64 hseq]

/-- What is done to a batch. The source of an `Append` is a batch made of updates. -/
inductive Call where
  | put (key value : Bytes)
  | delete (key : Bytes)
  | append (us : List Update)
  | setSequence (seq : ℕ)
  | clear

def update (b : WriteBatch) : Update → WriteBatch
  | .put key value => b.put key value
  | .delete key => b.delete key

def ofUpdates (us : List Update) : WriteBatch := us.foldl update empty

def call (b : WriteBatch) : Call → WriteBatch
  | .put key value => b.put key value
  | .delete key => b.delete key
  | .append us => b.append (ofUpdates us)
  | .setSequence seq => b.setSequence seq
  | .clear => empty

/-- The updates a call adds. -/
def Call.adds : Call → List Update
  | .put key value => [.put key value]
  | .delete key => [.delete key]
  | .append us => us
  | .setSequence _ => []
  | .clear => []

/-- The updates in a batch after a call, when `us` were there before it. -/
def Call.after (us : List Update) : Call → List Update
  | .clear => []
  | c => us ++ c.adds

theorem Holds.update {b : WriteBatch} {us : List Update} (h : b.Holds us) {u : Update}
    (hu : u.Fits) (hfew : us.length + 1 < 2 ^ 31) : (b.update u).Holds (us ++ [u]) := by
  cases u with
  | put key value => exact h.put hu hfew
  | delete key => exact h.delete hu hfew

theorem Holds.foldl_update {b : WriteBatch} {us vs : List Update} (h : b.Holds us)
    (hvs : ∀ v ∈ vs, v.Fits) (hfew : us.length + vs.length < 2 ^ 31) :
    (vs.foldl WriteBatch.update b).Holds (us ++ vs) := by
  induction vs generalizing b us with
  | nil => rwa [List.append_nil]
  | cons v vs ih =>
    rw [List.length_cons] at hfew
    have hone := h.update (hvs v List.mem_cons_self) (by omega)
    have hrest := ih hone (fun u hu => hvs u (List.mem_cons_of_mem _ hu))
      (by rw [List.length_append, List.length_singleton]; omega)
    rwa [List.append_assoc] at hrest

theorem holds_ofUpdates {us : List Update} (hus : ∀ u ∈ us, u.Fits) (hfew : us.length < 2 ^ 31) :
    (ofUpdates us).Holds us := by
  have h := holds_empty.foldl_update hus (by simpa using hfew)
  rwa [List.nil_append] at h

theorem Holds.call {b : WriteBatch} {us : List Update} (h : b.Holds us) {c : Call}
    (hc : ∀ u ∈ c.adds, u.Fits) (hfew : us.length + c.adds.length < 2 ^ 31) :
    (b.call c).Holds (c.after us) := by
  cases c with
  | put key value => exact h.put (hc _ List.mem_cons_self) hfew
  | delete key => exact h.delete (hc _ List.mem_cons_self) hfew
  | append vs =>
    have hlen : vs.length < 2 ^ 31 := (Nat.le_add_left _ _).trans_lt hfew
    exact h.append (holds_ofUpdates hc hlen) hfew
  | setSequence seq =>
    have hseq := h.setSequence seq
    rwa [← List.append_nil us] at hseq
  | clear => exact holds_empty

theorem length_after_le (c : Call) (us : List Update) :
    (c.after us).length ≤ us.length + c.adds.length := by
  cases c <;> simp [Call.after, Call.adds]

theorem Holds.calls {b : WriteBatch} {us : List Update} (h : b.Holds us) {cs : List Call}
    (hcs : ∀ c ∈ cs, ∀ u ∈ c.adds, u.Fits)
    (hfew : us.length + (cs.flatMap Call.adds).length < 2 ^ 31) :
    (cs.foldl WriteBatch.call b).Holds (cs.foldl Call.after us) := by
  induction cs generalizing b us with
  | nil => exact h
  | cons c cs ih =>
    rw [List.flatMap_cons, List.length_append] at hfew
    have hle := length_after_le c us
    exact ih (h.call (hcs c List.mem_cons_self) (by omega))
      (fun d hd => hcs d (List.mem_cons_of_mem _ hd)) (by omega)

/-- After any calls on a batch, `Iterate` succeeds and hands out exactly the updates that
were put into it since it was last cleared, in order, and `Count` is their number. -/
theorem batch_iterates_its_updates (cs : List Call) (hcs : ∀ c ∈ cs, ∀ u ∈ c.adds, u.Fits)
    (hfew : (cs.flatMap Call.adds).length < 2 ^ 31) :
    (cs.foldl call empty).iterate = (cs.foldl Call.after [], none) ∧
      (cs.foldl call empty).count = (cs.foldl Call.after []).length := by
  have h := holds_empty.calls hcs (by simpa using hfew)
  exact ⟨h.iterate_eq, h.count_eq⟩

theorem batch_put_delete_append :
    let cs : List Call := [.put [1] [2], .clear, .delete [3], .append [.put [4] []]]
    (cs.foldl call empty).iterate = ([.delete [3], .put [4] []], none) := by
  intro cs
  exact (batch_iterates_its_updates cs (by simp [cs, Call.adds, Update.Fits])
    (by simp [cs, Call.adds])).1

end WriteBatch

end KfkClient.Engine
