import KfkClient.Cache.Steps
import KfkClient.Store.LevelDb

/-!
# What the store part touches

The operations of `send_msg_with_cache` on a database with any content, its own or
not. Whatever such a call finds, it puts its message and its counter record and
otherwise only takes entries away.
-/

namespace KfkClient

open CLib OrderedMap LevelDb
open Std (ExtTreeMap)

/-- A backend whose state is the content of the database: a put and a delete that
return have happened, and reading changes nothing. -/
structure Opdb.OnMap (B : Opdb Map) : Prop where
  setkey : ∀ {k v s rc s'}, (B.setkey k v).run s = .ok rc s' → s' = s.insert k v
  delkey : ∀ {k s rc s'}, (B.delkey k).run s = .ok rc s' → s' = s.erase k
  getkey : ∀ k, ReadOnly (B.getkey k)
  getFirst : ReadOnly B.getFirst

theorem readOnly_entry {σ : Type} (it : Iterator) :
    ReadOnly (it.entry : Exec σ (Bytes × Bytes)) := by
  rw [Iterator.entry]
  split
  · exact readOnly_pure _
  · exact readOnly_throw _

theorem levelDb_onMap : levelDb.OnMap where
  setkey {k v s rc s'} h := by
    rw [levelDb_setkey] at h
    cases h
    rfl
  delkey {k s rc s'} h := by
    rw [levelDb_delkey] at h
    cases h
    rfl
  getkey k := readOnly_get.bind fun _ => readOnly_pure _
  getFirst := readOnly_get.bind fun _ =>
    (readOnly_entry _).bind fun _ => (readOnly_entry _).bind fun _ => readOnly_pure _

theorem seekingLevelDb_onMap : seekingLevelDb.OnMap where
  setkey {k v s rc s'} h := levelDb_onMap.setkey (h : (levelDb.setkey k v).run s = .ok rc s')
  delkey {k s rc s'} h := levelDb_onMap.delkey (h : (levelDb.delkey k).run s = .ok rc s')
  getkey k := levelDb_onMap.getkey k
  getFirst := levelDb_onMap.getFirst

section OnMap

variable {B : Opdb Map} (hB : B.OnMap)
include hB

theorem storageSetkey_inserts {key val : Bytes} {klen vlen rc : ℤ} {s s' : Map}
    (h : (storageSetkey B key klen val vlen).run s = .ok rc s') :
    s' = s.insert (key.take klen.toNat) (val.take vlen.toNat) := by
  obtain ⟨k, m, hk, h⟩ := run_bind_eq_ok h
  obtain ⟨v, m', hv, h⟩ := run_bind_eq_ok h
  rw [hB.setkey h, stdString_eq_ok hk, stdString_eq_ok hv, readOnly_stdString _ _ _ _ _ hv,
    readOnly_stdString _ _ _ _ _ hk]

theorem storageDelkey_erases {key : Bytes} {klen rc : ℤ} {s s' : Map}
    (h : (storageDelkey B key klen).run s = .ok rc s') : s' = s.erase (key.take klen.toNat) := by
  obtain ⟨k, m, hk, h⟩ := run_bind_eq_ok h
  rw [hB.delkey h, stdString_eq_ok hk, readOnly_stdString _ _ _ _ _ hk]

/-- What is there after a delete was there before. -/
theorem storageDelkey_keeps {key : Bytes} {klen rc : ℤ} {s s' : Map}
    (h : (storageDelkey B key klen).run s = .ok rc s') {k v : Bytes} (hk : s'[k]? = some v) :
    s[k]? = some v := by
  rw [storageDelkey_erases hB h, ExtTreeMap.getElem?_erase] at hk
  split at hk
  · cases hk
  · exact hk

theorem readOnly_storageGetkey (key : Bytes) (klen : ℤ) (val : Bytes) (vlen : ℤ) :
    ReadOnly (storageGetkey B key klen val vlen) :=
  (readOnly_stdString _ _).bind fun _ => (hB.getkey _).bind fun _ =>
    ((readOnly_memcpy _ _ _).bind fun _ => readOnly_pure _).ite (readOnly_pure _)

theorem readOnly_readCounter (topic : CString) : ReadOnly (readCounter B topic) :=
  (readOnly_storageGetkey hB _ _ _ _).bind fun _ => (readOnly_pure _).ite (readOnly_pure _)

theorem readOnly_firstOffset (topic : CString) : ReadOnly (firstOffset B topic) := by
  have hfirst : ReadOnly (storageFirst B (zeros 256) 256 (zeros 1024) 1024) :=
    hB.getFirst.bind fun _ => ((readOnly_memcpy _ _ _).bind fun _ =>
      (readOnly_memcpy _ _ _).bind fun _ => readOnly_pure _).ite (readOnly_pure _)
  exact hfirst.bind fun _ => (readOnly_pure _).ite (readOnly_throw _)

/-- Whatever is in the database, the eviction loop only takes entries away. -/
theorem evictLoop_erases {topic : CString} {num : ℤ} {fuel : ℕ} {s s' : Map}
    (h : (evictLoop B topic num fuel).run s = .ok () s') {k v : Bytes} (hk : s'[k]? = some v) :
    s[k]? = some v := by
  induction fuel generalizing s with
  | zero =>
    rw [evictLoop, run_throw] at h
    cases h
  | succ fuel ih =>
    rw [evictLoop] at h
    split at h
    swap
    · cases h
      exact hk
    obtain ⟨⟨offset, ktmp⟩, m, hfirst, h⟩ := run_bind_eq_ok h
    obtain ⟨age, m', hage, h⟩ := run_bind_eq_ok h
    rw [readOnly_llSub _ _ _ _ _ hage, readOnly_firstOffset hB topic _ _ _ hfirst] at h
    split at h
    swap
    · cases h
      exact hk
    obtain ⟨rc, m, hdel, h⟩ := run_bind_eq_ok h
    exact storageDelkey_keeps hB hdel (ih h)

theorem putMessage_puts {msg topic : CString} {num : ℤ} {s s' : Map}
    (h : (putMessage B msg topic num).run s = .ok () s') {k v : Bytes} (hk : s'[k]? = some v) :
    s[k]? = some v ∨ v = storedBytes msg := by
  obtain ⟨rc, m, hset, h⟩ := run_bind_eq_ok h
  cases h
  rw [storageSetkey_inserts hB hset, ExtTreeMap.getElem?_insert] at hk
  split at hk
  · right
    rw [storedBytes]
    exact (Option.some.inj hk).symm
  · exact .inl hk

theorem putCounter_puts {topic : CString} (htopic : topic.bytes.length < 4096) {num : ℤ}
    {tmp : Bytes} {s s' : Map} (h : (putCounter B topic num tmp).run s = .ok () s') {k v : Bytes}
    (hk : s'[k]? = some v) : s[k]? = some v ∨ k = counterKey topic.bytes := by
  obtain ⟨next, m1, hadd, h⟩ := run_bind_eq_ok h
  obtain ⟨text, m2, hsp, h⟩ := run_bind_eq_ok h
  obtain ⟨rc, m3, hset, h⟩ := run_bind_eq_ok h
  cases h
  have hlen : (counterKey topic.bytes).length < 2 ^ 31 := by
    rw [length_counterKey]
    omega
  have hins := storageSetkey_inserts hB hset
  rw [toInt_of_lt hlen, Int.toNat_natCast, List.take_length, readOnly_sprintfInto _ _ _ _ _ hsp,
    readOnly_llAdd _ _ _ _ _ hadd] at hins
  rw [hins, ExtTreeMap.getElem?_insert] at hk
  split at hk
  · next he => exact .inr (Std.LawfulEqCmp.eq_of_compare he).symm
  · exact .inl hk

/-- An entry that a call leaves was there before, or is its counter record, or has the
bytes of its message. -/
theorem storeMsg_puts {msg topic : CString} (htopic : topic.bytes.length < 4096) {num : ℤ}
    {s s' : Map} (h : (storeMsg B msg topic).run s = .ok num s') {k v : Bytes}
    (hk : s'[k]? = some v) :
    s[k]? = some v ∨ k = counterKey topic.bytes ∨ v = storedBytes msg := by
  rw [storeMsg] at h
  obtain ⟨⟨n, tmp⟩, m, hread, h⟩ := run_bind_eq_ok h
  simp only at h
  obtain ⟨_, m1, hmsg, h⟩ := run_bind_eq_ok h
  obtain ⟨_, m2, hcount, h⟩ := run_bind_eq_ok h
  obtain ⟨_, m3, hget, h⟩ := run_bind_eq_ok h
  obtain ⟨_, m4, hev, h⟩ := run_bind_eq_ok h
  cases h
  have hkept := evictLoop_erases hB hev hk
  rw [readOnly_get _ _ _ hget] at hkept
  rcases putCounter_puts hB htopic hcount hkept with hkept | hcounter
  swap
  · exact .inr (.inl hcounter)
  rcases putMessage_puts hB hmsg hkept with hkept | hstored
  swap
  · exact .inr (.inr hstored)
  rw [readOnly_readCounter hB topic _ _ _ hread] at hkept
  exact .inl hkept

end OnMap

end KfkClient
