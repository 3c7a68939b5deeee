import KfkClient.Lib.Decimal
import KfkClient.Store.Opdb

/-!
# The storage calls and the message cache of `for_go.cpp`

The exported `storage_*` calls over any `opdb`, and the store part of
`send_msg_with_cache`: the counter record `"~~zz" + topic` is read, the message is
put under `topic` and its number, the counter is put back one higher, and entries
more than `num_max` numbers old are deleted from the front of the database.
-/

namespace KfkClient

open CLib OrderedMap
open Std (ExtTreeMap)

variable {σ : Type}

def storageSetkey (B : Opdb σ) (key : Bytes) (klen : ℤ) (val : Bytes) (vlen : ℤ) : Exec σ ℤ := do
  let keystr ← stdString key klen
  let valuestr ← stdString val vlen
  B.setkey keystr valuestr

/-- `len < vlen - 1 ? len : vlen - 1`, compared as `size_t` and kept as `int`. -/
def copyLen (len : ℕ) (vlen : ℤ) : ℤ :=
  toInt (if len < toSizeT (vlen - 1) then len else toSizeT (vlen - 1))

def storageGetkey (B : Opdb σ) (key : Bytes) (klen : ℤ) (val : Bytes) (vlen : ℤ) :
    Exec σ (ℤ × Bytes) := do
  let keystr ← stdString key klen
  let (rc, val0) ← B.getkey keystr
  if rc = 0 then
    let l := copyLen val0.length vlen
    let val ← memcpy val val0 l
    pure (l, val)
  else pure (-1, val)

def storageDelkey (B : Opdb σ) (key : Bytes) (klen : ℤ) : Exec σ ℤ := do
  let keystr ← stdString key klen
  B.delkey keystr

def storageFirst (B : Opdb σ) (key : Bytes) (klen : ℤ) (val : Bytes) (vlen : ℤ) :
    Exec σ (ℤ × Bytes × Bytes) := do
  let (rc, key0, val0) ← B.getFirst
  if rc = 0 then
    let key ← memcpy key key0 (copyLen key0.length klen)
    let val ← memcpy val val0 (copyLen val0.length vlen)
    pure (rc, key, val)
  else pure (rc, key, val)

def numMax : ℤ := 50000

/-- `"~~zz" + topic`. -/
def counterKey (topic : Bytes) : Bytes := [126, 126, 122, 122] ++ topic

/-- `topic + std::string(id)` for the `id` that `sprintf(id, "%.20lld", num)` prints. -/
def messageKey (topic : Bytes) (num : ℤ) : Bytes := topic ++ fmtLL 20 num

/-- Reads the counter record into a zeroed `desc_tmp[1024]` and decodes it. -/
def readCounter (B : Opdb σ) (topic : CString) : Exec σ (ℤ × Bytes) := do
  let desc := counterKey topic.bytes
  let (l, descTmp) ← storageGetkey B desc (toInt desc.length) (zeros 1024) 1024
  if 0 < l then pure (atol descTmp, descTmp) else pure (0, descTmp)

def putMessage (B : Opdb σ) (msg topic : CString) (num : ℤ) : Exec σ Unit := do
  let key := messageKey topic.bytes num
  let _ ← storageSetkey B key (toInt key.length) msg.bytes (toInt msg.bytes.length)

def putCounter (B : Opdb σ) (topic : CString) (num : ℤ) (descTmp : Bytes) : Exec σ Unit := do
  let desc := counterKey topic.bytes
  let next ← llAdd num 1
  let descTmp ← sprintfInto descTmp (fmtLL 1 next)
  -- all of `desc_tmp` is stored, not only its text
  let _ ← storageSetkey B desc (toInt desc.length) descTmp 1024

/-- The first key, copied into a zeroed `ktmp[256]`, and the number read from it
behind the topic. -/
def firstOffset (B : Opdb σ) (topic : CString) : Exec σ (ℤ × Bytes) := do
  let (_, ktmp, _) ← storageFirst B (zeros 256) 256 (zeros 1024) 1024
  if topic.bytes.length < 256 then pure (atol (ktmp.drop topic.bytes.length), ktmp)
  else throw .outOfBounds

/-- The loop `while (num > num_max)`, for at most as many rounds as its argument. -/
def evictLoop (B : Opdb σ) (topic : CString) (num : ℤ) : ℕ → Exec σ Unit
  | 0 => throw .diverges
  | fuel + 1 =>
    if num > numMax then do
      let (offset, ktmp) ← firstOffset B topic
      let age ← llSub num offset
      if age > numMax then do
        let _ ← storageDelkey B ktmp (toInt (strlen ktmp))
        evictLoop B topic num fuel
      else pure ()
    else pure ()

/-- Lines 209 to 239 of `send_msg_with_cache`: everything before the producer is
called. A loop that is given one round more than there are entries to delete, and
wants another, has deleted nothing in some round and repeats that round for ever. -/
def storeMsg (B : Opdb σ) (msg topic : CString) : Exec σ ℤ := do
  let (num, descTmp) ← readCounter B topic
  putMessage B msg topic num
  putCounter B topic num descTmp
  let db ← get
  evictLoop B topic num (B.deletable db + 1)
  pure num

/-- The part of `storeMsg` before its loop. -/
def storePuts (B : Opdb σ) (msg topic : CString) : Exec σ ℤ := do
  let (num, descTmp) ← readCounter B topic
  putMessage B msg topic num
  putCounter B topic num descTmp
  pure num

/-- One round of the loop; it is false when the round breaks. -/
def evictRound (B : Opdb σ) (topic : CString) (num : ℤ) : Exec σ Bool := do
  let (offset, ktmp) ← firstOffset B topic
  let age ← llSub num offset
  if age > numMax then do
    let _ ← storageDelkey B ktmp (toInt (strlen ktmp))
    pure true
  else pure false

theorem storeMsg_eq (B : Opdb σ) (msg topic : CString) :
    storeMsg B msg topic = storePuts B msg topic >>= fun num => get >>= fun db =>
      evictLoop B topic num (B.deletable db + 1) >>= fun _ => pure num := by
  rw [storeMsg, storePuts]
  simp only [bind_assoc, pure_bind]

/-- Behind its puts a call is its eviction loop. -/
theorem storeMsg_of_puts {B : Opdb σ} {msg topic : CString} {num : ℤ} {s s' : σ}
    (h : (storePuts B msg topic).run s = .ok num s') :
    (storeMsg B msg topic).run s =
      (evictLoop B topic num (B.deletable s' + 1) >>= fun _ => pure num).run s' := by
  rw [storeMsg_eq, run_bind_ok h, run_bind_ok (run_get s')]

theorem storeMsg_eq_ok {B : Opdb σ} {msg topic : CString} {num : ℤ} {s s' : σ}
    (h : (storeMsg B msg topic).run s = .ok num s') :
    ∃ m, (storePuts B msg topic).run s = .ok num m ∧
      (evictLoop B topic num (B.deletable m + 1)).run m = .ok () s' := by
  rw [storeMsg_eq] at h
  obtain ⟨num', m, hputs, h⟩ := run_bind_eq_ok h
  rw [run_bind_ok (run_get m)] at h
  obtain ⟨_, m', hloop, h⟩ := run_bind_eq_ok h
  cases h
  exact ⟨m, hputs, hloop⟩

theorem evictLoop_succ (B : Opdb σ) (topic : CString) (num : ℤ) (fuel : ℕ) :
    evictLoop B topic num (fuel + 1) =
      if num > numMax then evictRound B topic num >>= fun goes =>
        if goes then evictLoop B topic num fuel else pure ()
      else pure () := by
  rw [evictLoop, evictRound]
  split
  · simp only [bind_assoc]
    congr 1
    funext first
    congr 1
    funext age
    split <;> simp
  · rfl

/-- `send_msg_callback`. -/
def sendMsgCallback (B : Opdb σ) (topic : Bytes) (nkey : ℤ) : Exec σ ℤ := do
  let key := messageKey topic nkey
  storageDelkey B key (toInt key.length)

end KfkClient
