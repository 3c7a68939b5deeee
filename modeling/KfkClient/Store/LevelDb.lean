import KfkClient.Store.Opdb

/-!
# The LevelDB backend

LevelDB itself is an ordered map with its documented iterator rule: an iterator
points nowhere until a seek, and `key` and `value` assert that it points somewhere.
On top of it `LDB` (`opdb.h`) and the five calls of `opdb2.cpp` are as in the source.
-/

namespace KfkClient

open CLib OrderedMap
open Std (ExtTreeMap)

namespace LevelDb

inductive Status where
  | ok
  | notFound
  | ioError
  deriving DecidableEq, Repr

-- a write that fails leaves the database alone
def dbPut (fails : Bool) (key data : Bytes) (db : Map) : Status × Map :=
  if fails then (.ioError, db) else (.ok, db.insert key data)

def dbDelete (fails : Bool) (key : Bytes) (db : Map) : Status × Map :=
  if fails then (.ioError, db) else (.ok, db.erase key)

def dbGet (fails : Bool) (key : Bytes) (db : Map) : Status × Bytes :=
  if fails then (.ioError, [])
  else match db[key]? with
    | some v => (.ok, v)
    | none => (.notFound, [])

/-- `leveldb::Iterator`: its snapshot and the entries from its position on. An
iterator that points nowhere has none. -/
structure Iterator where
  snapshot : List (Bytes × Bytes)
  here : List (Bytes × Bytes)

def newIterator (db : Map) : Iterator := ⟨db.toList, []⟩

def Iterator.seekToFirst (it : Iterator) : Iterator := { it with here := it.snapshot }

/-- The entry under the iterator, behind `assert(valid_)`. -/
def Iterator.entry {σ : Type} (it : Iterator) : Exec σ (Bytes × Bytes) :=
  match it.here with
  | e :: _ => pure e
  | [] => throw .assertion

-- `LDB::_put`, `LDB::_del` and `LDB::_get`
def ldbPut (fails : Bool) (key data : Bytes) (db : Map) : ℤ × Map :=
  let (a, db') := dbPut fails key data db
  if a = .ok then (0, db') else (-1, db')

def ldbDel (fails : Bool) (key : Bytes) (db : Map) : ℤ × Map :=
  let (a, db') := dbDelete fails key db
  if a = .ok then (0, db') else (-1, db')

def ldbGet (fails : Bool) (key : Bytes) (db : Map) : ℤ × Bytes :=
  let (a, data) := dbGet fails key db
  if a = .ok then (0, data) else if a = .notFound then (-2, data) else (-1, data)

def ldbGetFirst {σ : Type} (db : Map) : Exec σ (ℤ × Bytes × Bytes) := do
  -- the iterator is never null, and whether it is valid is not asked
  let it1 := (newIterator db).seekToFirst
  let key ← it1.entry
  let val ← it1.entry
  pure (0, key.1, val.2)

-- `list[it1->key()] = it1->value()` while the iterator is valid
def cursorLoop : List (Bytes × Bytes) → Map → Map
  | [], list => list
  | (k, v) :: rest, list => cursorLoop rest (list.insert k v)

/-- `LDB::_cursor`. Its loop starts from a new iterator, without a seek. -/
def ldbCursor (db list : Map) : Map := cursorLoop (newIterator db).here list

def setkey0 (keystr valuestr : Bytes) : Exec Map ℤ := modifyGet (ldbPut false keystr valuestr)

def delkey (keystr : Bytes) : Exec Map ℤ := modifyGet (ldbDel false keystr)

def getkey (keystr : Bytes) : Exec Map (ℤ × Bytes) := do
  let db ← get
  pure (ldbGet false keystr db)

def getFirst : Exec Map (ℤ × Bytes × Bytes) := do
  let db ← get
  ldbGetFirst db

def cursor (list : Map) : Exec Map (ℤ × Map) := do
  let db ← get
  let list := ldbCursor db list
  pure (toInt list.size, list)

/-- The backend of `opdb2.cpp`, with every LevelDB operation succeeding. -/
def levelDb : Opdb Map where
  fresh := ∅
  setkey := setkeyWith setkey0 delkey
  delkey := delkey
  getkey := getkey
  getFirst := getFirst
  cursor := cursor
  deletable := ExtTreeMap.size

theorem levelDb_setkey (k v : Bytes) (s : Map) :
    (levelDb.setkey k v).run s = .ok 0 (s.insert k v) := by
  simp [levelDb, setkeyWith, setkey0, ldbPut, dbPut, mdbKeyexist]

theorem levelDb_delkey (k : Bytes) (s : Map) :
    (levelDb.delkey k).run s = .ok 0 (s.erase k) := by
  simp [levelDb, delkey, ldbDel, dbDelete]

theorem levelDb_getkey_some {k v : Bytes} {s : Map} (h : s[k]? = some v) :
    (levelDb.getkey k).run s = .ok (0, v) s := by
  simp [levelDb, getkey, ldbGet, dbGet, h]

theorem levelDb_getkey_none {k : Bytes} {s : Map} (h : s[k]? = none) :
    (levelDb.getkey k).run s = .ok (-2, []) s := by
  simp [levelDb, getkey, ldbGet, dbGet, h]

theorem ldbGetFirst_cons {σ : Type} {db : Map} {e : Bytes × Bytes} {rest : List (Bytes × Bytes)}
    (h : db.toList = e :: rest) (s : σ) : (ldbGetFirst db).run s = .ok (0, e) s := by
  simp [ldbGetFirst, newIterator, Iterator.seekToFirst, Iterator.entry, h]

theorem ldbGetFirst_nil {σ : Type} {db : Map} (h : db.toList = []) (s : σ) :
    (ldbGetFirst db).run s = .error .assertion s := by
  simp [ldbGetFirst, newIterator, Iterator.seekToFirst, Iterator.entry, h]

theorem levelDb_getFirst_some {s : Map} {k v : Bytes} (h : first? s = some (k, v)) :
    levelDb.getFirst.run s = .ok (0, k, v) s := by
  have hl : s.toList = (k, v) :: s.toList.tail := List.eq_cons_of_mem_head? h
  simpa [levelDb, getFirst] using ldbGetFirst_cons hl s

/-- On an empty database the iterator is read although it points nowhere. -/
theorem levelDb_getFirst_empty : levelDb.getFirst.run ∅ = .error .assertion ∅ := by
  have hl : (∅ : Map).toList = [] := ExtTreeMap.toList_eq_nil_iff.mpr rfl
  simpa [levelDb, getFirst] using ldbGetFirst_nil hl (∅ : Map)

/-- Whatever the database holds, `cursor_` adds nothing to the list it is given. -/
theorem levelDb_cursor (list s : Map) :
    (levelDb.cursor list).run s = .ok (toInt list.size, list) s := by
  simp [levelDb, cursor, ldbCursor, newIterator, cursorLoop]

theorem levelDb_faithful : levelDb.Faithful (fun _ => True) id where
  fresh := rfl
  setkey _ v s := levelDb_setkey _ v s
  delkey _ s := ⟨0, levelDb_delkey _ s⟩
  getkey_some _ _ _ h := levelDb_getkey_some h
  getkey_none _ _ h := ⟨-2, by decide, levelDb_getkey_none h⟩
  getFirst h := levelDb_getFirst_some h
  deletable _ := rfl
  enc_text h0 _ := cstr_append_nul h0 _
  enc_length _ := le_rfl

/-- The backend as it would be if `LDB::_cursor` moved its iterator to the first entry. -/
def seekingLevelDb : Opdb Map :=
  { levelDb with
    cursor := fun list => do
      let db ← get
      let list := cursorLoop (newIterator db).seekToFirst.here list
      pure (toInt list.size, list) }

theorem seekingLevelDb_faithful : seekingLevelDb.Faithful (fun _ => True) id where
  fresh := rfl
  setkey {k} _ v s := (levelDb_setkey k v s : (levelDb.setkey k v).run s = _)
  delkey {k} _ s := ⟨0, (levelDb_delkey k s : (levelDb.delkey k).run s = _)⟩
  getkey_some {k} _ {s v} h := (levelDb_getkey_some h : (levelDb.getkey k).run s = _)
  getkey_none {k} _ {s} h :=
    ⟨-2, by decide, (levelDb_getkey_none h : (levelDb.getkey k).run s = _)⟩
  getFirst {s k v} h := (levelDb_getFirst_some h : levelDb.getFirst.run s = _)
  deletable _ := rfl
  enc_text h0 _ := cstr_append_nul h0 _
  enc_length _ := le_rfl

theorem get_cursorLoop_of_not_mem {l : List (Bytes × Bytes)} {k : Bytes} (h : ∀ e ∈ l, e.1 ≠ k)
    (list : Map) : (cursorLoop l list)[k]? = list[k]? := by
  induction l generalizing list with
  | nil => rfl
  | cons e l ih =>
    rw [cursorLoop, ih fun a ha => h a (List.mem_cons_of_mem _ ha),
      get_insert_of_ne _ (h e List.mem_cons_self)]

theorem get_cursorLoop_of_mem {l : List (Bytes × Bytes)} (hl : l.Pairwise fun a b => a.1 ≠ b.1)
    {k v : Bytes} (h : (k, v) ∈ l) (list : Map) : (cursorLoop l list)[k]? = some v := by
  induction l generalizing list with
  | nil => cases h
  | cons e l ih =>
    obtain ⟨hfirst, hl⟩ := List.pairwise_cons.mp hl
    rcases List.mem_cons.mp h with rfl | h
    · rw [cursorLoop, get_cursorLoop_of_not_mem fun a ha => (hfirst a ha).symm]
      exact ExtTreeMap.getElem?_insert_self
    · exact ih hl h _

/-- From the first entry on, the loop of `_cursor` lists the whole database. -/
theorem cursorLoop_toList (s : Map) : cursorLoop s.toList ∅ = s := by
  have hdistinct : s.toList.Pairwise fun a b => a.1 ≠ b.1 := by
    refine ExtTreeMap.ordered_keys_toList.imp ?_
    intro a b hlt he
    rw [he] at hlt
    simp at hlt
  apply ExtTreeMap.ext_getElem?
  intro k
  cases hk : s[k]? with
  | some v =>
    exact get_cursorLoop_of_mem hdistinct (ExtTreeMap.mem_toList_iff_getElem?_eq_some.mpr hk) ∅
  | none =>
    rw [get_cursorLoop_of_not_mem, ExtTreeMap.getElem?_empty]
    rintro e he rfl
    rw [ExtTreeMap.mem_toList_iff_getElem?_eq_some.mp he] at hk
    cases hk

theorem seekingLevelDb_cursor (s : Map) :
    ∃ rc, (seekingLevelDb.cursor ∅).run s = .ok (rc, s) s := by
  have h : (seekingLevelDb.cursor ∅).run s =
      .ok (toInt (cursorLoop s.toList ∅).size, cursorLoop s.toList ∅) s := rfl
  rw [h, cursorLoop_toList]
  exact ⟨_, rfl⟩

/-! ### A database whose operations fail -/

/-- A database and whether each of the reads, puts and deletes to come fails. Behind
the end of the list all succeed. -/
structure Flaky where
  db : Map
  failures : List Bool

def nextFails : Exec Flaky Bool :=
  modifyGet fun s => (s.failures.headD false, { s with failures := s.failures.tail })

def flakySetkey0 (keystr valuestr : Bytes) : Exec Flaky ℤ := do
  let fails ← nextFails
  modifyGet fun s =>
    let (rc, db) := ldbPut fails keystr valuestr s.db
    (rc, { s with db := db })

def flakyDelkey (keystr : Bytes) : Exec Flaky ℤ := do
  let fails ← nextFails
  modifyGet fun s =>
    let (rc, db) := ldbDel fails keystr s.db
    (rc, { s with db := db })

def flakyGetkey (keystr : Bytes) : Exec Flaky (ℤ × Bytes) := do
  let fails ← nextFails
  let s ← get
  pure (ldbGet fails keystr s.db)

def flakyGetFirst : Exec Flaky (ℤ × Bytes × Bytes) := do
  let s ← get
  ldbGetFirst s.db

def flakyCursor (list : Map) : Exec Flaky (ℤ × Map) := do
  let s ← get
  let list := ldbCursor s.db list
  pure (toInt list.size, list)

/-- The backend of `opdb2.cpp` over a LevelDB that may fail. -/
def flaky : Opdb Flaky where
  fresh := ⟨∅, []⟩
  setkey := setkeyWith flakySetkey0 flakyDelkey
  delkey := flakyDelkey
  getkey := flakyGetkey
  getFirst := flakyGetFirst
  cursor := flakyCursor
  deletable s := s.db.size + s.failures.length

def putUnless (fails : Bool) (k v : Bytes) (db : Map) : Map :=
  if fails then db else db.insert k v

/-- The database behind a delete that the next failure may stop. -/
def Flaky.deleted (s : Flaky) (k : Bytes) : Flaky :=
  ⟨if s.failures.headD false then s.db else s.db.erase k, s.failures.tail⟩

theorem flaky_setkey (k v : Bytes) (db : Map) (f : Bool) (fs : List Bool) :
    ∃ rc, (flaky.setkey k v).run ⟨db, f :: fs⟩ = .ok rc ⟨putUnless f k v db, fs⟩ := by
  cases f with
  | true => exact ⟨-1, rfl⟩
  | false => exact ⟨0, rfl⟩

theorem flaky_delkey (k : Bytes) (s : Flaky) :
    ∃ rc, (flaky.delkey k).run s = .ok rc (s.deleted k) := by
  obtain ⟨db, _ | ⟨f, fs⟩⟩ := s
  · exact ⟨0, rfl⟩
  · cases f with
    | true => exact ⟨-1, rfl⟩
    | false => exact ⟨0, rfl⟩

theorem flaky_getkey_fails (k : Bytes) (db : Map) (fs : List Bool) :
    (flaky.getkey k).run ⟨db, true :: fs⟩ = .ok (-1, []) ⟨db, fs⟩ := rfl

theorem flaky_getkey_some {k v : Bytes} {db : Map} (h : db[k]? = some v) (fs : List Bool) :
    (flaky.getkey k).run ⟨db, false :: fs⟩ = .ok (0, v) ⟨db, fs⟩ := by
  have hget : ldbGet false k db = (0, v) := by simp [ldbGet, dbGet, h]
  show EStateM.Result.ok (ldbGet false k db) (⟨db, fs⟩ : Flaky) = _
  rw [hget]

theorem flaky_getkey_none {k : Bytes} {db : Map} (h : db[k]? = none) (fs : List Bool) :
    (flaky.getkey k).run ⟨db, false :: fs⟩ = .ok (-2, []) ⟨db, fs⟩ := by
  have hget : ldbGet false k db = (-2, []) := by simp [ldbGet, dbGet, h]
  show EStateM.Result.ok (ldbGet false k db) (⟨db, fs⟩ : Flaky) = _
  rw [hget]

theorem flaky_getFirst_some {s : Flaky} {k v : Bytes} (h : first? s.db = some (k, v)) :
    flaky.getFirst.run s = .ok (0, k, v) s := by
  have hl : s.db.toList = (k, v) :: s.db.toList.tail := List.eq_cons_of_mem_head? h
  simpa [flaky, flakyGetFirst] using ldbGetFirst_cons hl s

theorem flaky_getFirst_none {s : Flaky} (h : first? s.db = none) :
    flaky.getFirst.run s = .error .assertion s := by
  have hl : s.db.toList = [] := List.head?_eq_none_iff.mp h
  simpa [flaky, flakyGetFirst] using ldbGetFirst_nil hl s

end LevelDb

end KfkClient
