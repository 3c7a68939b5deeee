import KfkClient.Lib.Transition
import KfkClient.Cache.Frame
import KfkClient.Client.KeyValue
import KfkClient.Client.Recovery
import KfkClient.Client.Resend

/-!
# What recovery publishes

Every entry of a database that `recover` lists is one it skips, or has a call of
`send_msg_with_cache` to show for it, as long as the key-value side stays out of the
databases that are named as topics are. `apiStep_explained` is that invariant, and
`recovery_publishes_cached` what it says of the messages that `recover` hands over.
-/

namespace KfkClient

open CLib OrderedMap LevelDb
open Std (ExtTreeMap)

/-! ### What recovery hands over -/

section Recovery

variable {F : FileSystem} (accepts : ℕ → Bool) {s s' : Session F Map}

/-- From `s` to `s'` no database changed, and every message handed over is the value of
an entry that recovery does not skip, sent on the topic named as its database. -/
def HandsEntries (s s' : Session F Map) : Prop :=
  (∀ p, s'.world.db seekingLevelDb p = s.world.db seekingLevelDb p) ∧
  ∃ handed, s'.world.produced = s.world.produced ++ handed ∧
    ∀ wire ∈ handed, ∃ name k v, PlainName name ∧
      (s.world.db seekingLevelDb name)[k]? = some v ∧ skips k = false ∧ v ≠ [] ∧
      wire = ⟨name, payloadOf v, none⟩

theorem HandsEntries.refl (s : Session F Map) : HandsEntries s s :=
  ⟨fun _ => rfl, [], by simp, by simp⟩

theorem HandsEntries.trans {s'' : Session F Map} (h : HandsEntries s s')
    (h' : HandsEntries s' s'') : HandsEntries s s'' := by
  obtain ⟨hdb, handed, hprod, hall⟩ := h
  obtain ⟨hdb', handed', hprod', hall'⟩ := h'
  refine ⟨fun p => (hdb' p).trans (hdb p), handed ++ handed', ?_, ?_⟩
  · rw [hprod', hprod, List.append_assoc]
  · intro wire hw
    rcases List.mem_append.mp hw with hw | hw
    · exact hall wire hw
    · obtain ⟨name, k, v, hname, hget, hrest⟩ := hall' wire hw
      rw [hdb] at hget
      exact ⟨name, k, v, hname, hget, hrest⟩

/-- `re_send` on a listed name, whether it returns or stops at `get_db`. -/
theorem reSend_handsEntries {name : Bytes} (hname : PlainName name) (s : Session F Map) :
    HandsEntries s (stateAfter (Session.reSend seekingLevelDb accepts name) s) := by
  rw [Session.reSend]
  have hcursor : ∀ d : Map, ∃ a d', (seekingLevelDb.cursor ∅).run d = .ok a d' := by
    intro d
    obtain ⟨rc, h⟩ := seekingLevelDb_cursor d
    exact ⟨_, _, h⟩
  cases hdb : (onDb seekingLevelDb name (seekingLevelDb.cursor ∅)).run s with
  | error e m =>
    rw [stateAfter_error (run_bind_error hdb), onDb_eq_error hcursor hdb]
    exact .refl s
  | ok a m =>
    obtain ⟨-, d, hcur, hdbs, hprod⟩ := onDb_eq_ok hdb
    obtain ⟨rc, hlist⟩ := seekingLevelDb_cursor (s.world.db seekingLevelDb name)
    rw [F.plain hname, hlist] at hcur
    cases hcur
    obtain ⟨topics, hget, -⟩ := getProducer_run name m.world
    obtain ⟨w', handed, hrun, hdirs, hprod', hall⟩ := reSendLoop_hands accepts name
      (s.world.db seekingLevelDb name).toList { m.world with topics := topics }
    have hlisted : (reSendListed accepts name (s.world.db seekingLevelDb name)).run m.world =
        .ok () w' := by
      rw [reSendListed, run_bind_ok hget, hrun]
    have hsame : ∀ p, w'.db seekingLevelDb p = s.world.db seekingLevelDb p := by
      intro p
      rw [World.db, hdirs]
      exact (hdbs p).trans (by split <;> simp_all [F.plain hname])
    rw [stateAfter_congr (run_bind_ok hdb), stateAfter_ok (onWorld_ok hlisted)]
    refine ⟨hsame, handed, ?_, ?_⟩
    · exact hprod'.trans (by rw [hprod])
    · intro wire hw
      obtain ⟨e, he, hskip, hne, rfl⟩ := hall wire hw
      exact ⟨name, e.1, e.2, hname, ExtTreeMap.mem_toList_iff_getElem?_eq_some.mp he, hskip, hne,
        rfl⟩

theorem recover_handsEntries {order : List Bytes} (hplain : ∀ name ∈ order, PlainName name)
    (s : Session F Map) :
    HandsEntries s (stateAfter (Session.recover seekingLevelDb accepts order) s) := by
  induction order generalizing s with
  | nil => exact .refl s
  | cons name rest ih =>
    have hfirst := reSend_handsEntries accepts (hplain name List.mem_cons_self) s
    rw [Session.recover, Session.recoverPath_name]
    cases hrun : (Session.reSend seekingLevelDb accepts name).run s with
    | error e m =>
      rw [stateAfter_error hrun] at hfirst
      rwa [stateAfter_error (run_bind_error hrun)]
    | ok u m =>
      rw [stateAfter_ok hrun] at hfirst
      rw [stateAfter_congr (run_bind_ok hrun)]
      exact hfirst.trans (ih (fun x hx => hplain x (List.mem_cons_of_mem _ hx)) m)

end Recovery

/-! ### Where the entries come from -/

/-- The step does not put anything under a topic's name that was not cached on that
topic: what the key-value side stores, recovery does not list or skips, and a message is
cached whole, in the directory of its own topic. -/
def KeepsApart (F : FileSystem) : ApiEvent → Prop
  | .storageSetkey dbname key klen val vlen =>
    skips (key.take klen.toNat) = true ∨ val.take vlen.toNat = [] ∨
      ¬ PlainName (F.place dbname.bytes)
  | .sendMsgWithCache msg topic =>
    msg.bytes.length < 2 ^ 31 ∧
      (F.place topic.bytes = topic.bytes ∨ ¬ PlainName (F.place topic.bytes))
  | _ => True

/-- Recovery will skip the entry, or has a call to show for it. -/
def EntryExplained (es : List ApiEvent) (name k v : Bytes) : Prop :=
  skips k = true ∨ v = [] ∨
    ∃ msg topic, .sendMsgWithCache msg topic ∈ es ∧ topic.bytes = name ∧ msg.bytes = v

def Explained {F : FileSystem} (es : List ApiEvent) (s : Session F Map) : Prop :=
  ∀ name, PlainName name → ∀ k v : Bytes,
    (s.world.db seekingLevelDb name)[k]? = some v → EntryExplained es name k v

section Steps

variable {F : FileSystem} {accepts : ℕ → Bool} {es : List ApiEvent} {s s' : Session F Map}
  {e : ApiEvent}

theorem EntryExplained.snoc {name k v : Bytes} (h : EntryExplained es name k v) :
    EntryExplained (es ++ [e]) name k v := by
  rcases h with h | h | ⟨msg, topic, hmem, h⟩
  · exact .inl h
  · exact .inr (.inl h)
  · exact .inr (.inr ⟨msg, topic, List.mem_append_left _ hmem, h⟩)

theorem Explained.of_same (h : Explained es s)
    (hdb : ∀ p, s'.world.db seekingLevelDb p = s.world.db seekingLevelDb p) :
    Explained (es ++ [e]) s' := by
  intro name hname k v hk
  rw [hdb] at hk
  exact (h name hname k v hk).snoc

/-- A step that replaces one database, each of whose entries it can explain. -/
theorem Explained.of_replaced (h : Explained es s) {place : Bytes} {d : Map}
    (hdb : ∀ p, s'.world.db seekingLevelDb p = if p = place then d else s.world.db seekingLevelDb p)
    (hd : PlainName place → ∀ k v : Bytes, d[k]? = some v →
      (s.world.db seekingLevelDb place)[k]? = some v ∨ EntryExplained (es ++ [e]) place k v) :
    Explained (es ++ [e]) s' := by
  intro name hname k v hk
  rw [hdb] at hk
  split at hk
  · next hp =>
      subst hp
      rcases hd hname k v hk with hk | hk
      · exact (h name hname k v hk).snoc
      · exact hk
  · exact (h name hname k v hk).snoc

theorem apiStep_sendMsgWithCache {msg topic : CString} (h : Explained es s)
    (hapart : KeepsApart F (.sendMsgWithCache msg topic))
    (hs : apiStep seekingLevelDb accepts s (.sendMsgWithCache msg topic) = some s') :
    Explained (es ++ [.sendMsgWithCache msg topic]) s' := by
  obtain ⟨rc, hrun⟩ := outcomeIn_eq_some.mp hs
  rw [Session.sendMsgWithCache] at hrun
  obtain ⟨num, m, hstore, hrun⟩ := run_bind_eq_ok hrun
  obtain ⟨rc', m', hsend, hrun⟩ := run_bind_eq_ok hrun
  cases hrun
  obtain ⟨hc, d, hd, hdb, -⟩ := onDb_eq_ok hstore
  obtain ⟨w, hw, rfl⟩ := onWorld_eq_ok hsend
  obtain ⟨rc'', hhand⟩ := producerSendMsg_run accepts msg.bytes topic.bytes num m.world
  rw [hhand] at hw
  cases hw
  have hdb' : ∀ p, (m.world.handOver accepts msg.bytes topic.bytes num).db seekingLevelDb p =
      if p = F.place topic.bytes then d else s.world.db seekingLevelDb p := by
    intro p
    rw [World.handOver_db]
    exact hdb p
  refine h.of_replaced hdb' ?_
  intro hplain k v hk
  rcases storeMsg_puts seekingLevelDb_onMap (F.short hc) hd hk with hk | hk | hk
  · exact .inl hk
  · right; left
    rw [hk, skips_counterKey]
  · right; right; right
    refine ⟨msg, topic, by simp, (hapart.2.resolve_right fun hn => hn hplain).symm, ?_⟩
    rw [hk, storedBytes_of_lt hapart.1]

theorem apiStep_receipt {i : ℕ} {err : Bool} (h : Explained es s)
    (hs : apiStep seekingLevelDb accepts s (.receipt i err) = some s') :
    Explained (es ++ [e]) s' := by
  rw [apiStep] at hs
  split at hs
  swap
  · cases hs
  next wire hwire =>
    obtain ⟨_, hrun⟩ := outcomeIn_eq_some.mp hs
    cases err with
    | true =>
      cases hrun
      exact h.of_same fun _ => rfl
    | false =>
      obtain ⟨rc, m, hdel, hrun⟩ := run_bind_eq_ok hrun
      cases hrun
      obtain ⟨-, d, hd, hdb, -⟩ := onDb_eq_ok hdel
      refine h.of_replaced hdb ?_
      intro _ k v hk
      exact .inl (storageDelkey_keeps seekingLevelDb_onMap hd hk)

theorem apiStep_storageSetkey {dbname : CString} {key val : Bytes} {klen vlen : ℤ}
    (h : Explained es s) (hapart : KeepsApart F (.storageSetkey dbname key klen val vlen))
    (hs : apiStep seekingLevelDb accepts s (.storageSetkey dbname key klen val vlen) = some s') :
    Explained (es ++ [e]) s' := by
  rw [apiStep] at hs
  split at hs
  swap
  · cases hs
  obtain ⟨rc, hrun⟩ := outcomeIn_eq_some.mp hs
  obtain ⟨w, hw, rfl⟩ := onWorld_eq_ok hrun
  obtain ⟨d, hd, rfl⟩ := withDb_eq_ok _ hw
  refine h.of_replaced (fun p => World.db_setDb ..) ?_
  intro hplain k v hk
  rw [storageSetkey_inserts seekingLevelDb_onMap hd, ExtTreeMap.getElem?_insert] at hk
  split at hk
  · next he =>
      right
      have hkey : key.take klen.toNat = k := Std.LawfulEqCmp.eq_of_compare he
      have hval : val.take vlen.toNat = v := Option.some.inj hk
      rcases hapart with hskip | hemp | hno
      · exact .inl (hkey ▸ hskip)
      · exact .inr (.inl (hval ▸ hemp))
      · exact absurd hplain hno
  · exact .inl hk

theorem apiStep_storageDelkey {dbname : CString} {key : Bytes} {klen : ℤ} (h : Explained es s)
    (hs : apiStep seekingLevelDb accepts s (.storageDelkey dbname key klen) = some s') :
    Explained (es ++ [e]) s' := by
  rw [apiStep] at hs
  split at hs
  swap
  · cases hs
  obtain ⟨rc, hrun⟩ := outcomeIn_eq_some.mp hs
  obtain ⟨w, hw, rfl⟩ := onWorld_eq_ok hrun
  obtain ⟨d, hd, rfl⟩ := withDb_eq_ok _ hw
  refine h.of_replaced (fun p => World.db_setDb ..) ?_
  intro _ k v hk
  exact .inl (storageDelkey_keeps seekingLevelDb_onMap hd hk)

/-- Every step that keeps the two sides apart leaves only entries that recovery skips or
that a call put there. -/
theorem apiStep_explained (h : Explained es s) (hapart : KeepsApart F e)
    (hs : apiStep seekingLevelDb accepts s e = some s') : Explained (es ++ [e]) s' := by
  cases e with
  | addTopic topic =>
    obtain ⟨rc, hrun⟩ := outcomeIn_eq_some.mp hs
    obtain ⟨w, hw, rfl⟩ := onWorld_eq_ok hrun
    change addProduceTopic topic.bytes s.world = _ at hw
    rw [addProduceTopic] at hw
    split at hw
    · cases hw
      exact h.of_same fun _ => rfl
    · cases hw
      exact h.of_same fun _ => rfl
  | sendMsg msg topic =>
    obtain ⟨_, hrun⟩ := outcomeIn_eq_some.mp hs
    obtain ⟨w, hw, rfl⟩ := onWorld_eq_ok hrun
    obtain ⟨rc, hsend⟩ := producerSendMsg_run accepts msg.bytes topic.bytes (-1) s.world
    rw [sendMsg, run_bind_ok hsend] at hw
    cases hw
    exact h.of_same fun p => World.handOver_db ..
  | sendMsgWithCache msg topic => exact apiStep_sendMsgWithCache h hapart hs
  | receipt i err => exact apiStep_receipt h hs
  | restart =>
    cases hs
    exact h.of_same fun _ => rfl
  | recover order =>
    rw [apiStep] at hs
    split at hs
    swap
    · cases hs
    next hlist =>
      obtain ⟨_, hrun⟩ := outcomeIn_eq_some.mp hs
      have hhands := recover_handsEntries accepts hlist.2.1 s
      rw [stateAfter_ok hrun] at hhands
      exact h.of_same hhands.1
  | storageInit dbname =>
    obtain ⟨_, hrun⟩ := outcomeIn_eq_some.mp hs
    exact h.of_same (getDb_eq_ok hrun).2.1
  | storageSetkey dbname key klen val vlen => exact apiStep_storageSetkey h hapart hs
  | storageDelkey dbname key klen => exact apiStep_storageDelkey h hs

theorem run_explained (hapart : ∀ e ∈ es, KeepsApart F e)
    (h : Transition.run (apiStep seekingLevelDb accepts) Session.init es = some s) :
    Explained es s := by
  have hinit : Explained [] (Session.init : Session F Map) := by
    intro name _ k v hk
    simp [Session.init, World.init, World.db, seekingLevelDb, levelDb] at hk
  have hsim := Transition.Along.simulates (R := fun s es => Explained es s)
    (g := fun es e => es ++ [e]) (fun s es e s' hR hP hs => apiStep_explained hR hP hs)
    (Transition.along_of_forall hapart Session.init) hinit h
  have hfold : ∀ l acc : List ApiEvent, l.foldl (fun es e => es ++ [e]) acc = acc ++ l := by
    intro l
    induction l with
    | nil => simp
    | cons a l ih => simp [ih]
  rw [hfold, List.nil_append] at hsim
  exact hsim

end Steps

/-- Follows the parts of a path. -/
def follow (dir : List Bytes) : List Bytes → List Bytes
  | [] => dir
  | part :: rest =>
    if part = [] ∨ part = [46] then follow dir rest
    else if part = [46, 46] then follow dir.dropLast rest
    else follow (dir ++ [part]) rest

/-- The last part of a path that ends directly under `dir`, and any other path whole. -/
def placeText (dir path : List Bytes) : Bytes :=
  if path.dropLast = dir then path.getLastD [] else path.flatMap (47 :: ·)

/-- Names are followed from `topic_cache` in the working directory, part by part. -/
def lexical (cwd : List Bytes) : FileSystem where
  place name := placeText (cwd ++ [cacheDir]) (follow (cwd ++ [cacheDir]) (name.splitOn 47))
  creatable name := name.length < 4096
  plain := by
    intro name ⟨hne, hslash, hdot, hdots⟩
    have hsplit : name.splitOn 47 = [name] := by
      apply List.splitOnP_eq_singleton
      intro b hb
      simpa using fun h47 : b = 47 => hslash (h47 ▸ hb)
    rw [hsplit, follow, if_neg (by simp [hne, hdot]), if_neg hdots, follow, placeText,
      if_pos (by simp)]
    simp
  short := by
    intro name h
    simpa using h

/-- The value `v`, stored under the key `k` in the database `t`. -/
def storeValue : List ApiEvent :=
  [.storageInit Topic.sample.name, .storageSetkey Topic.sample.name [107] 1 [118] 1]

/-- The value is kept in the database `t/k`, away from the topics. -/
def storeApart : List ApiEvent :=
  [.storageInit ⟨[116, 47, 107], by decide⟩,
    .storageSetkey ⟨[116, 47, 107], by decide⟩ [107] 1 [118] 1]

theorem storeApart_run : ∃ s : Session (lexical []) Map,
    Transition.run (apiStep seekingLevelDb fun _ => true) Session.init storeApart = some s ∧
      s.opened = [[116, 47, 107]] ∧ s.world.topics = [] ∧
      s.world.db seekingLevelDb [116] = ∅ ∧
      ∀ name ∈ s.world.dirs.keys, name = (lexical []).place [116, 47, 107] := by
  refine ⟨_, rfl, rfl, rfl, rfl, ?_⟩
  intro name hname
  exact List.mem_singleton.mp hname

end KfkClient
