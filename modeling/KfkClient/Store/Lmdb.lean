import KfkClient.Store.Opdb

/-!
# The LMDB backend

`opdb.cpp` copies every key into a zeroed `char[256]` and every value into a zeroed
`char[1024]` and stores what `strlen` finds there: keys are cut at 255 bytes,
values at 1023, and both at their first NUL. LMDB itself is an ordered map that
refuses empty keys.
-/

namespace KfkClient

open CLib OrderedMap
open Std (ExtTreeMap)

namespace Lmdb

def mdbNotfound : ℤ := -30798

def mdbBadValsize : ℤ := -30781

-- `mdb_put` with `MDB_NOOVERWRITE`
def mdbPut (key data : Bytes) (db : Map) : ℤ × Map :=
  if key = [] then (mdbBadValsize, db)
  else if key ∈ db then (mdbKeyexist, db)
  else (0, db.insert key data)

def mdbDel (key : Bytes) (db : Map) : ℤ × Map :=
  if key = [] then (mdbBadValsize, db)
  else if key ∈ db then (0, db.erase key)
  else (mdbNotfound, db)

def mdbGet (key data : Bytes) (db : Map) : ℤ × Bytes :=
  if key = [] then (mdbBadValsize, data)
  else match db[key]? with
    | some v => (0, v)
    | none => (mdbNotfound, data)

/-- What a zeroed `char[n]` holds after the source's bounded copy of `s` into it. -/
def fixedBuf (n : ℕ) (s : Bytes) : Bytes :=
  s.take (n - 1) ++ zeros (n - min s.length (n - 1))

def keyText (keystr : Bytes) : Bytes := cstr (fixedBuf 256 keystr)

def valText (valuestr : Bytes) : Bytes := cstr (fixedBuf 1024 valuestr)

def setkey0 (keystr valuestr : Bytes) : Exec Map ℤ :=
  modifyGet (mdbPut (keyText keystr) (valText valuestr))

def delkey (keystr : Bytes) : Exec Map ℤ := modifyGet (mdbDel (keyText keystr))

def getkey (keystr : Bytes) : Exec Map (ℤ × Bytes) := do
  let db ← get
  -- `data` first points at the zeroed `valtmp`
  let (rc, data) := mdbGet (keyText keystr) (zeros 1024) db
  if rc = mdbNotfound then pure (rc, []) else pure (0, data)

-- `MDB_NEXT` on a fresh cursor yields the first entry
def getFirst : Exec Map (ℤ × Bytes × Bytes) := do
  let db ← get
  match first? db with
  | some (key, data) => pure (0, key, data)
  | none => pure (mdbNotfound, [], [])

def cursor (list : Map) : Exec Map (ℤ × Map) := do
  let db ← get
  pure (mdbNotfound, db.toList.foldl (fun l e => l.insert e.1 e.2) list)

/-- The backend of `opdb.cpp`, with every LMDB transaction succeeding. -/
def lmdb : Opdb Map where
  fresh := ∅
  setkey := setkeyWith setkey0 delkey
  delkey := delkey
  getkey := getkey
  getFirst := getFirst
  cursor := cursor
  deletable := ExtTreeMap.size

/-- The keys that `opdb.cpp` stores as they are. -/
def KeyFits (k : Bytes) : Prop := k ≠ [] ∧ k.length ≤ 255 ∧ (0 : UInt8) ∉ k

theorem cstr_fixedBuf {n : ℕ} (hn : 0 < n) (s : Bytes) :
    cstr (fixedBuf n s) = cstr (s.take (n - 1)) := by
  have hpos : 0 < n - min s.length (n - 1) := by
    have : min s.length (n - 1) ≤ n - 1 := min_le_right _ _
    omega
  obtain ⟨m, hm⟩ : ∃ m, n - min s.length (n - 1) = m + 1 := ⟨_, (Nat.succ_pred_eq_of_pos hpos).symm⟩
  rw [fixedBuf, hm, zeros_succ, cstr_append_zero]

theorem keyText_of_fits {k : Bytes} (h : KeyFits k) : keyText k = k := by
  obtain ⟨_, hlen, h0⟩ := h
  have ht : k.take (256 - 1) = k := List.take_of_length_le (by omega)
  rw [keyText, cstr_fixedBuf (by decide), ht, cstr_of_nul_free h0]

theorem valText_of_text {v : Bytes} (hlen : v.length ≤ 1023) (h0 : (0 : UInt8) ∉ v) :
    valText v = v := by
  have ht : v.take (1024 - 1) = v := List.take_of_length_le (by omega)
  rw [valText, cstr_fixedBuf (by decide), ht, cstr_of_nul_free h0]

/-- A value with a NUL among its first 1023 bytes is stored up to that NUL. -/
theorem valText_append_nul {v : Bytes} (hlen : v.length < 1023) (h0 : (0 : UInt8) ∉ v)
    (rest : Bytes) : valText (v ++ 0 :: rest) = v := by
  have ht : (v ++ 0 :: rest).take (1024 - 1) = v ++ 0 :: rest.take (1022 - v.length) := by
    obtain ⟨m, hm⟩ : ∃ m, 1024 - 1 - v.length = m + 1 := ⟨1022 - v.length, by omega⟩
    rw [List.take_append, List.take_of_length_le (by omega), hm, List.take_succ_cons]
    congr 3
    omega
  rw [valText, cstr_fixedBuf (by decide), ht, cstr_append_nul h0]

theorem lmdb_setkey {k : Bytes} (hk : KeyFits k) (v : Bytes) (s : Map) :
    (lmdb.setkey k v).run s = .ok 0 (s.insert k (valText v)) := by
  have hne : k ≠ [] := hk.1
  by_cases hm : k ∈ s
  · -- the old entry is deleted and the new one put in a second transaction
    have he : k ∉ s.erase k := by simp
    have hi : (s.erase k).insert k (valText v) = s.insert k (valText v) := by
      apply ExtTreeMap.ext_getElem?
      intro a
      by_cases ha : k = a
      · subst ha
        simp
      · rw [get_insert_of_ne _ ha, get_insert_of_ne _ ha, get_erase_of_ne ha]
    simp [lmdb, setkeyWith, setkey0, delkey, mdbPut, mdbDel, keyText_of_fits hk, hne, hm, hi]
  · simp [lmdb, setkeyWith, setkey0, mdbPut, mdbKeyexist, keyText_of_fits hk, hne, hm]

theorem lmdb_delkey {k : Bytes} (hk : KeyFits k) (s : Map) :
    ∃ rc, (lmdb.delkey k).run s = .ok rc (s.erase k) := by
  have hne : k ≠ [] := hk.1
  by_cases hm : k ∈ s
  · exact ⟨0, by simp [lmdb, delkey, mdbDel, keyText_of_fits hk, hne, hm]⟩
  · have he : s.erase k = s := erase_of_not_mem (ExtTreeMap.getElem?_eq_none hm)
    exact ⟨mdbNotfound, by simp [lmdb, delkey, mdbDel, keyText_of_fits hk, hne, hm, he]⟩

/-- LMDB keeps the keys that fit as they are and values as their `valText`. -/
theorem lmdb_faithful : lmdb.Faithful KeyFits valText where
  fresh := rfl
  setkey hk v s := lmdb_setkey hk v s
  delkey hk s := lmdb_delkey hk s
  getkey_some {k} hk s v h := by
    have hne : k ≠ [] := hk.1
    simp [lmdb, getkey, mdbGet, keyText_of_fits hk, hne, h, mdbNotfound]
  getkey_none {k} hk s h := by
    have hne : k ≠ [] := hk.1
    exact ⟨mdbNotfound, by decide, by simp [lmdb, getkey, mdbGet, keyText_of_fits hk, hne, h]⟩
  getFirst h := by simp [lmdb, getFirst, h]
  deletable _ := rfl
  enc_text {text rest} h0 hlen := by
    rw [valText_append_nul hlen h0, cstr_of_nul_free h0]
  enc_length v := by
    rw [valText, cstr_fixedBuf (by decide)]
    exact (List.takeWhile_sublist _).length_le.trans (List.take_sublist _ _).length_le

end Lmdb

end KfkClient
