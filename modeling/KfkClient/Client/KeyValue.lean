import KfkClient.Client.World

/-!
# The key-value calls next to the message cache

`storage_init` and `send_msg_with_cache` open their databases through the same
`get_db`, under the same directory. `recover` takes every database directly under
that directory for the cache of a topic.

A database name is any text, so two names may lead to one directory. `FileSystem`
says where a name leads, and `Session` adds the registry `db_list` of the running
process to the `World`. A run here opens a directory under one name only: LevelDB keeps
its locks by the text of the path and would let one process open a directory again under
another spelling, and what two open databases do to one directory is not modelled.
`Client.TopicsOnly` shows that an application that names plain topics only sees the
`World` and nothing of this.

## Main definitions

- `FileSystem`, `Session` — database names, directories and the process that opens them
- `getDb`, `onDb` — the registry, and an operation on a registered database
- `ApiEvent`, `apiStep` — the calls of an application that uses both sides
-/

namespace KfkClient

open CLib OrderedMap
open Std (ExtTreeMap)

/-- The names that a directory can list. -/
def PlainName (name : Bytes) : Prop :=
  name ≠ [] ∧ (47 : UInt8) ∉ name ∧ name ≠ [46] ∧ name ≠ [46, 46]

instance : DecidablePred PlainName := fun _ => inferInstanceAs (Decidable (_ ∧ _))

/-- Where the path `topic_cache/<name>` leads. The directories that `topic_cache` lists
stand for themselves; any other place may have any other text. -/
structure FileSystem where
  place : Bytes → Bytes
  -- whether a directory of that name can be made
  creatable : Bytes → Bool
  plain : ∀ {name}, PlainName name → place name = name
  -- `PATH_MAX`
  short : ∀ {name}, creatable name = true → name.length < 4096

/-- A process over the databases it shares with the processes before and after it. -/
structure Session (F : FileSystem) (σ : Type) where
  world : World σ
  -- the names in `db_list`
  opened : List Bytes
  creatable : ∀ name ∈ opened, F.creatable name = true

def Session.init {F : FileSystem} {σ : Type} : Session F σ := ⟨World.init, [], by simp⟩

section Session

variable {F : FileSystem} {σ : Type} (B : Opdb σ) (accepts : ℕ → Bool)

def onWorld {α : Type} (x : Exec (World σ) α) : Exec (Session F σ) α := fun s =>
  match x.run s.world with
  | .ok a w => .ok a { s with world := w }
  | .error e w => .error e { s with world := w }

/-- `get_db`. The first use of a name opens its directory, which fails when there can
be no such directory. A run ends here as well when the directory is open under another
spelling of its path, where the source goes on with the directory open twice. -/
def getDb (dbname : Bytes) : Exec (Session F σ) Unit := fun s =>
  if dbname ∈ s.opened then .ok () s
  else if h : F.creatable dbname = true ∧ ∀ other ∈ s.opened, F.place other ≠ F.place dbname then
    .ok () {
      world := s.world.setDb (F.place dbname) (s.world.db B (F.place dbname))
      opened := dbname :: s.opened
      creatable := by
        intro name hname
        rcases List.mem_cons.mp hname with rfl | hname
        · exact h.1
        · exact s.creatable name hname }
  else .error .assertion s

/-- `get_db(dbname)` and an operation on the database it returns. -/
def onDb {α : Type} (dbname : Bytes) (x : Exec σ α) : Exec (Session F σ) α := do
  getDb B dbname
  onWorld (withDb B (F.place dbname) x)

namespace Session

def sendMsgWithCache (msg topic : CString) : Exec (Session F σ) ℤ := do
  let num ← onDb B topic.bytes (storeMsg B msg topic)
  let _ ← onWorld (producerSendMsg accepts msg.bytes topic.bytes num)
  pure 0

def messageReceiptCbk (wire : Wire) (err : Bool) : Exec (Session F σ) Unit :=
  if err then pure ()
  else do
    let _ ← onDb B wire.topic (sendMsgCallback B wire.topic (receiptNumber wire.key))

def reSend (topic : Bytes) : Exec (Session F σ) Unit := do
  let (_, v) ← onDb B topic (B.cursor ∅)
  onWorld (reSendListed accepts topic v)

def recoverPath (path : Bytes) : Exec (Session F σ) Unit :=
  match strFind [47] path with
  | some i => reSend B accepts (path.drop (i + 1))
  | none => pure ()

def recover : List Bytes → Exec (Session F σ) Unit
  | [] => pure ()
  | name :: rest => do
    recoverPath B accepts (cacheDir ++ 47 :: name)
    recover rest

/-- What `directory_iterator` may list: every database directly under `topic_cache`,
and any other directories there. -/
def Lists (s : Session F σ) (order : List Bytes) : Prop :=
  order.Nodup ∧ (∀ name ∈ order, PlainName name) ∧
    ∀ name ∈ s.world.dirs.keys, PlainName name → name ∈ order

instance (s : Session F σ) (order : List Bytes) : Decidable (s.Lists order) :=
  inferInstanceAs (Decidable (_ ∧ _))

end Session

/-- The calls of an application that uses both sides, and what happens around them. -/
inductive ApiEvent where
  | addTopic (topic : CString)
  | sendMsg (msg topic : CString)
  | sendMsgWithCache (msg topic : CString)
  | receipt (i : ℕ) (err : Bool)
  | restart
  | recover (order : List Bytes)
  | storageInit (dbname : CString)
  -- on the handle that `storage_init` returned for the name
  | storageSetkey (dbname : CString) (key : Bytes) (klen : ℤ) (val : Bytes) (vlen : ℤ)
  | storageDelkey (dbname : CString) (key : Bytes) (klen : ℤ)

def outcomeIn {α : Type} (x : Exec (Session F σ) α) (s : Session F σ) : Option (Session F σ) :=
  (returned x s).map Prod.snd

def apiStep (s : Session F σ) : ApiEvent → Option (Session F σ)
  | .addTopic topic => outcomeIn (onWorld (addProduceTopic topic.bytes)) s
  | .sendMsg msg topic => outcomeIn (onWorld (sendMsg accepts msg topic)) s
  | .sendMsgWithCache msg topic => outcomeIn (Session.sendMsgWithCache B accepts msg topic) s
  | .receipt i err =>
    match s.world.inflight[i]? with
    | some wire => outcomeIn (Session.messageReceiptCbk B wire err)
        { s with world := { s.world with inflight := s.world.inflight.eraseIdx i } }
    | none => none
  | .restart => some ⟨{ s.world with topics := [], inflight := [] }, [], by simp⟩
  | .recover order =>
    if s.Lists order then outcomeIn (Session.recover B accepts order) s else none
  | .storageInit dbname => outcomeIn (getDb B dbname.bytes) s
  | .storageSetkey dbname key klen val vlen =>
    if dbname.bytes ∈ s.opened then
      outcomeIn (onWorld (withDb B (F.place dbname.bytes) (storageSetkey B key klen val vlen))) s
    else none
  | .storageDelkey dbname key klen =>
    if dbname.bytes ∈ s.opened then
      outcomeIn (onWorld (withDb B (F.place dbname.bytes) (storageDelkey B key klen))) s
    else none

/-! ### What the calls do to the databases -/

theorem outcomeIn_eq_some {α : Type} {x : Exec (Session F σ) α} {s s' : Session F σ} :
    outcomeIn x s = some s' ↔ ∃ a, x.run s = .ok a s' := by
  rw [outcomeIn, Option.map_eq_some_iff]
  constructor
  · rintro ⟨⟨a, r⟩, hr, rfl⟩
    exact ⟨a, returned_eq_some.mp hr⟩
  · rintro ⟨a, h⟩
    exact ⟨(a, s'), returned_eq_some.mpr h, rfl⟩

theorem Session.recoverPath_name (name : Bytes) :
    Session.recoverPath (F := F) B accepts (cacheDir ++ 47 :: name) =
      Session.reSend B accepts name := by
  rw [Session.recoverPath, strFind_cacheDir]
  simp only
  rw [drop_cacheDir]

variable {B} {s s' : Session F σ} {α : Type}

theorem onWorld_eq_ok {x : Exec (World σ) α} {a : α} (h : (onWorld x).run s = .ok a s') :
    ∃ w, x.run s.world = .ok a w ∧ s' = { s with world := w } := by
  change onWorld x s = _ at h
  rw [onWorld] at h
  split at h
  · next w hw =>
      cases h
      exact ⟨w, hw, rfl⟩
  · cases h

theorem onWorld_ok {x : Exec (World σ) α} {a : α} {w : World σ} (h : x.run s.world = .ok a w) :
    (onWorld x).run s = .ok a { s with world := w } := by
  show onWorld x s = _
  rw [onWorld, h]

theorem World.db_setDb (w : World σ) (topic other : Bytes) (d : σ) :
    (w.setDb topic d).db B other = if other = topic then d else w.db B other := by
  split
  · next h =>
      rw [h]
      exact World.db_setDb_self B w topic d
  · next h => exact World.db_setDb_of_ne B w d (Ne.symm h)

theorem getDb_eq_ok {dbname : Bytes} (h : (getDb B dbname).run s = .ok () s') :
    F.creatable dbname = true ∧ (∀ p, s'.world.db B p = s.world.db B p) ∧
      s'.world.produced = s.world.produced := by
  change getDb B dbname s = _ at h
  rw [getDb] at h
  split at h
  · next hin =>
      cases h
      exact ⟨s.creatable dbname hin, fun _ => rfl, rfl⟩
  · split at h
    · next hc =>
        cases h
        refine ⟨hc.1, ?_, rfl⟩
        intro p
        rw [World.db_setDb]
        split
        · next hp => rw [hp]
        · rfl
    · cases h

theorem onDb_eq_ok {dbname : Bytes} {x : Exec σ α} {a : α}
    (h : (onDb B dbname x).run s = .ok a s') :
    F.creatable dbname = true ∧ ∃ d, x.run (s.world.db B (F.place dbname)) = .ok a d ∧
      (∀ p, s'.world.db B p = if p = F.place dbname then d else s.world.db B p) ∧
      s'.world.produced = s.world.produced := by
  rw [onDb] at h
  obtain ⟨_, m, hget, h⟩ := run_bind_eq_ok h
  obtain ⟨hc, hdb, hprod⟩ := getDb_eq_ok hget
  obtain ⟨w, hw, rfl⟩ := onWorld_eq_ok h
  obtain ⟨d, hd, rfl⟩ := withDb_eq_ok B hw
  rw [hdb] at hd
  refine ⟨hc, d, hd, ?_, hprod⟩
  intro p
  rw [World.db_setDb, hdb]

theorem onDb_ok {dbname : Bytes} {x : Exec σ α} {a : α} {d : σ} {m : Session F σ}
    (hget : (getDb B dbname).run s = .ok () m)
    (hx : x.run (m.world.db B (F.place dbname)) = .ok a d) :
    (onDb B dbname x).run s = .ok a { m with world := m.world.setDb (F.place dbname) d } := by
  rw [onDb, run_bind_ok hget]
  exact onWorld_ok (withDb_ok B hx)

/-- The first use of a name whose directory nobody holds. -/
theorem getDb_opens {dbname : Bytes} (hout : dbname ∉ s.opened) (hc : F.creatable dbname = true)
    (hfree : ∀ other ∈ s.opened, F.place other ≠ F.place dbname) :
    ∃ m : Session F σ, (getDb B dbname).run s = .ok () m ∧
      m.world = s.world.setDb (F.place dbname) (s.world.db B (F.place dbname)) ∧
      m.opened = dbname :: s.opened := by
  show ∃ m, getDb B dbname s = .ok () m ∧ _
  rw [getDb, if_neg hout, dif_pos ⟨hc, hfree⟩]
  exact ⟨_, rfl, rfl, rfl⟩

theorem apiStep_sends (accepts : ℕ → Bool) {msg topic : CString} {num : ℤ} {d : σ}
    {m : Session F σ}
    (hget : (getDb B topic.bytes).run s = .ok () m)
    (hstore : (storeMsg B msg topic).run (m.world.db B (F.place topic.bytes)) = .ok num d) :
    apiStep B accepts s (.sendMsgWithCache msg topic) = some { m with
      world :=
        (m.world.setDb (F.place topic.bytes) d).handOver accepts msg.bytes topic.bytes num } := by
  obtain ⟨rc, hsend⟩ := producerSendMsg_run accepts msg.bytes topic.bytes num
    (m.world.setDb (F.place topic.bytes) d)
  have hworld := onWorld_ok
    (s := { m with world := m.world.setDb (F.place topic.bytes) d }) hsend
  apply outcomeIn_eq_some.mpr
  refine ⟨0, ?_⟩
  rw [Session.sendMsgWithCache, run_bind_ok (onDb_ok hget hstore), run_bind_ok hworld]
  rfl

/-- A call whose operation cannot fail stops at `get_db`, with nothing done. -/
theorem onDb_eq_error {dbname : Bytes} {x : Exec σ α} (hx : ∀ d, ∃ a d', x.run d = .ok a d')
    {e : Fault} (h : (onDb B dbname x).run s = .error e s') : s' = s := by
  rw [onDb] at h
  cases hget : (getDb B dbname).run s with
  | ok u m =>
    obtain ⟨a, d, hd⟩ := hx (m.world.db B (F.place dbname))
    rw [run_bind_ok hget, onWorld_ok (withDb_ok B hd)] at h
    cases h
  | error e' m =>
    rw [run_bind_error hget] at h
    cases h
    change getDb B dbname s = _ at hget
    rw [getDb] at hget
    split at hget
    · cases hget
    · split at hget
      · cases hget
      · cases hget
        rfl

end Session

end KfkClient
