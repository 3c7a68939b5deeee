import KfkClient.Lib.CString
import KfkClient.Lib.OrderedMap

/-!
# The `opdb` interface

`opdb.h` declares one key-value interface and the build links one of two
implementations of it, `opdb2.cpp` over LevelDB or `opdb.cpp` over LMDB. `Opdb` is
that interface over a database state `σ`; everything above it is written once for
both. `Opdb.Faithful` collects what the layers above rely on.
-/

namespace KfkClient

open CLib OrderedMap
open Std (ExtTreeMap)

/-- The content of a database and of a `std::map<std::string, std::string>`. -/
abbrev Map := ExtTreeMap Bytes Bytes

/-- `struct opdb`. Out-parameters are results: a string the callee leaves alone
comes back as the empty string the caller passed. -/
structure Opdb (σ : Type) where
  /-- a database that `initdb` has just created -/
  fresh : σ
  setkey : Bytes → Bytes → Exec σ ℤ
  delkey : Bytes → Exec σ ℤ
  getkey : Bytes → Exec σ (ℤ × Bytes)
  getFirst : Exec σ (ℤ × Bytes × Bytes)
  cursor : Map → Exec σ (ℤ × Map)
  /-- how many deletes in a row can still change something -/
  deletable : σ → ℕ

def mdbKeyexist : ℤ := -30799

/-- `opdb::setkey`, which reads the same in both files. -/
def setkeyWith {σ : Type} (setkey0 : Bytes → Bytes → Exec σ ℤ) (delkey : Bytes → Exec σ ℤ)
    (keystr valuestr : Bytes) : Exec σ ℤ := do
  let rc ← setkey0 keystr valuestr
  if rc = mdbKeyexist then
    let _ ← delkey keystr
    setkey0 keystr valuestr
  else pure rc

/-- The backend `B` is an ordered map on the keys that `ok` admits, up to the way
`enc` in which it stores a value. -/
structure Opdb.Faithful (B : Opdb Map) (ok : Bytes → Prop) (enc : Bytes → Bytes) : Prop where
  fresh : B.fresh = ∅
  setkey : ∀ {k}, ok k → ∀ v s, (B.setkey k v).run s = .ok 0 (s.insert k (enc v))
  delkey : ∀ {k}, ok k → ∀ s, ∃ rc, (B.delkey k).run s = .ok rc (s.erase k)
  getkey_some : ∀ {k}, ok k → ∀ {s : Map} {v}, s[k]? = some v →
    (B.getkey k).run s = .ok (0, v) s
  getkey_none : ∀ {k}, ok k → ∀ {s : Map}, s[k]? = none →
    ∃ rc, rc ≠ 0 ∧ (B.getkey k).run s = .ok (rc, []) s
  getFirst : ∀ {s : Map} {k v}, first? s = some (k, v) → B.getFirst.run s = .ok (0, k, v) s
  deletable : ∀ s, B.deletable s = s.size
  -- the text at the front of a stored `char[1024]` survives
  enc_text : ∀ {text rest : Bytes}, (0 : UInt8) ∉ text → text.length < 1023 →
    cstr (enc (text ++ 0 :: rest)) = text
  enc_length : ∀ v, (enc v).length ≤ v.length

end KfkClient
