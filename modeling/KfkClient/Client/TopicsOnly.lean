import KfkClient.Lib.Transition
import KfkClient.Client.KeyValue

/-!
# A session that uses topics only

A `World` has no registry and no paths: the database of a topic is there whenever it is asked
for. That is what a `Session` shows to an application that makes no call of the key-value
side, as long as the directories of its topics can be made. `Follows` says so of one
computation, `apiStep_follows` of one event and `run_follows` of whole runs.

## Main definitions

- `FileSystem.Holds` — the names of which no two lead to one directory
- `Follows` — a computation on a session does what one on its world does
-/

namespace KfkClient

open CLib OrderedMap
open Std (ExtTreeMap)

/-- A name that stands for itself and whose directory can be made. -/
def FileSystem.Holds (F : FileSystem) (name : Bytes) : Prop :=
  PlainName name ∧ F.creatable name = true

theorem Topic.plainName (t : Topic) : PlainName t.name.bytes := by
  refine ⟨t.legal.nonempty, fun hslash => ?_, t.legal.not_dots⟩
  exact absurd (t.legal.legal 47 hslash) (by decide)

section Sessions

variable {F : FileSystem} {σ α β : Type} {B : Opdb σ} {accepts : ℕ → Bool}

/-- All databases are those of topics, and so are the messages in flight. -/
structure World.Plain (F : FileSystem) (w : World σ) : Prop where
  dirs : ∀ name ∈ w.dirs, F.Holds name
  inflight : ∀ wire ∈ w.inflight, F.Holds wire.topic

structure Session.TopicsOnly (s : Session F σ) : Prop where
  opened : ∀ name ∈ s.opened, PlainName name
  world : s.world.Plain F

/-- Whenever the computation on the world returns, the one on the session does so too, with the
same result and the same world. -/
def Follows (x : Exec (World σ) α) (y : Exec (Session F σ) α) : Prop :=
  ∀ (s : Session F σ) (a : α) (w : World σ), s.TopicsOnly → x.run s.world = .ok a w →
    ∃ s', y.run s = .ok a s' ∧ s'.world = w ∧ s'.TopicsOnly

theorem Follows.pure (a : α) :
    Follows (Pure.pure a : Exec (World σ) α) (Pure.pure a : Exec (Session F σ) α) := by
  intro s b w hs h
  cases h
  exact ⟨s, rfl, rfl, hs⟩

theorem Follows.bind {x : Exec (World σ) α} {y : Exec (Session F σ) α}
    {f : α → Exec (World σ) β} {g : α → Exec (Session F σ) β} (hx : Follows x y)
    (hf : ∀ a, Follows (f a) (g a)) : Follows (x >>= f) (y >>= g) := by
  intro s b w hs h
  obtain ⟨a, m, hm, hrest⟩ := run_bind_eq_ok h
  obtain ⟨t, ht, rfl, hplain⟩ := hx s a m hs hm
  obtain ⟨s', hs', hw, hplain'⟩ := hf a t b w hplain hrest
  exact ⟨s', by rw [run_bind_ok ht, hs'], hw, hplain'⟩

/-- What stays among the topics can be done on the world of the session. -/
theorem onWorld_follows {x : Exec (World σ) α}
    (hx : ∀ w a w', w.Plain F → x.run w = .ok a w' → w'.Plain F) :
    Follows x (onWorld x : Exec (Session F σ) α) := by
  intro s a w hs h
  exact ⟨_, onWorld_ok h, rfl, hs.opened, hx _ a w hs.world h⟩

theorem World.Plain.setDb {w : World σ} (h : w.Plain F) {name : Bytes} (hname : F.Holds name)
    (d : σ) : (w.setDb name d).Plain F := by
  refine ⟨fun x hx => ?_, h.inflight⟩
  rcases ExtTreeMap.mem_insert.mp hx with heq | hx
  · rwa [← Std.LawfulEqCmp.eq_of_compare heq]
  · exact h.dirs x hx

/-- Two plain names never lead to one directory, so `get_db` opens the database of a topic. -/
theorem onDb_follows {name : Bytes} (hname : F.Holds name) (x : Exec σ α) :
    Follows (withDb B name x) (onDb B name x : Exec (Session F σ) α) := by
  intro s a w hs h
  obtain ⟨d, hd, rfl⟩ := withDb_eq_ok B h
  have hplace : F.place name = name := F.plain hname.1
  by_cases hopen : name ∈ s.opened
  · have hget : (getDb B name).run s = .ok () s := by
      show getDb B name s = _
      rw [getDb, if_pos hopen]
    have hrun := onDb_ok hget (hplace.symm ▸ hd)
    rw [hplace] at hrun
    exact ⟨_, hrun, rfl, hs.opened, hs.world.setDb hname d⟩
  · have hfree : ∀ other ∈ s.opened, F.place other ≠ F.place name := by
      intro other hother heq
      rw [F.plain (hs.opened other hother), hplace] at heq
      exact hopen (heq ▸ hother)
    obtain ⟨m, hget, hworld, hopened⟩ := getDb_opens (B := B) hopen hname.2 hfree
    rw [hplace] at hworld
    have hd' : x.run (m.world.db B (F.place name)) = .ok a d := by
      rw [hworld, hplace, World.db_setDb_self, hd]
    have hrun := onDb_ok hget hd'
    refine ⟨_, hrun, ?_, ?_, ?_⟩
    · rw [hplace, hworld, World.setDb_setDb]
    · intro other hother
      rw [hopened] at hother
      rcases List.mem_cons.mp hother with rfl | hother
      · exact hname.1
      · exact hs.opened other hother
    · rw [hplace, hworld, World.setDb_setDb]
      exact hs.world.setDb hname d

/-! ### The calls -/

theorem World.Plain.handOver {w : World σ} (h : w.Plain F) {topic : Bytes} (htopic : F.Holds topic)
    (message : Bytes) (nkey : ℤ) : (w.handOver accepts message topic nkey).Plain F := by
  refine ⟨fun name hname => ?_, fun wire hwire => ?_⟩
  · rw [World.handOver_dirs] at hname
    exact h.dirs name hname
  · rw [World.handOver] at hwire
    split at hwire
    · rcases List.mem_append.mp hwire with hwire | hwire
      · exact h.inflight wire hwire
      · split at hwire
        · rw [List.mem_singleton.mp hwire]
          exact htopic
        · cases hwire
    · exact h.inflight wire hwire

theorem producerSendMsg_plain {topic : Bytes} (htopic : F.Holds topic) {message : Bytes}
    {nkey rc : ℤ} {w w' : World σ} (h : w.Plain F)
    (hrun : (producerSendMsg accepts message topic nkey).run w = .ok rc w') : w'.Plain F := by
  obtain ⟨rc', hsend⟩ := producerSendMsg_run accepts message topic nkey w
  cases hsend.symm.trans hrun
  exact h.handOver htopic message nkey

theorem addProduceTopic_plain {topic : Bytes} {rc : ℤ} {w w' : World σ} (h : w.Plain F)
    (hrun : (addProduceTopic topic).run w = .ok rc w') : w'.Plain F := by
  change addProduceTopic topic w = _ at hrun
  rw [addProduceTopic] at hrun
  split at hrun
  · cases hrun
    exact h
  · cases hrun
    exact ⟨h.dirs, h.inflight⟩

theorem getProducer_plain {topic : Bytes} {w w' : World σ} (h : w.Plain F)
    (hrun : (getProducer topic).run w = .ok () w') : w'.Plain F := by
  rw [getProducer] at hrun
  split at hrun
  · cases hrun
    exact h
  · obtain ⟨rc, m, hadd, hend⟩ := run_bind_eq_ok hrun
    cases hend
    exact addProduceTopic_plain h hadd

theorem reSendLoop_plain {topic : Bytes} (htopic : F.Holds topic) {l : List (Bytes × Bytes)}
    {w w' : World σ} (h : w.Plain F) (hrun : (reSendLoop accepts topic l).run w = .ok () w') :
    w'.Plain F := by
  induction l generalizing w with
  | nil =>
    cases hrun
    exact h
  | cons node rest ih =>
    rw [reSendLoop] at hrun
    split at hrun
    · exact ih h hrun
    · obtain ⟨rc, m, hsend, hrest⟩ := run_bind_eq_ok hrun
      exact ih (producerSendMsg_plain htopic h hsend) hrest

theorem reSendListed_plain {topic : Bytes} (htopic : F.Holds topic) {v : Map} {w w' : World σ}
    (h : w.Plain F) (hrun : (reSendListed accepts topic v).run w = .ok () w') : w'.Plain F := by
  obtain ⟨_, m, hget, hloop⟩ := run_bind_eq_ok hrun
  exact reSendLoop_plain htopic (getProducer_plain h hget) hloop

theorem sendMsgWithCache_follows {topic : CString} (htopic : F.Holds topic.bytes) (msg : CString) :
    Follows (sendMsgWithCache B accepts msg topic)
      (Session.sendMsgWithCache B accepts msg topic : Exec (Session F σ) ℤ) :=
  (onDb_follows htopic _).bind fun _ =>
    (onWorld_follows fun _ _ _ hw hrun => producerSendMsg_plain htopic hw hrun).bind fun _ =>
      .pure 0

theorem messageReceiptCbk_follows {wire : Wire} (hwire : F.Holds wire.topic) (err : Bool) :
    Follows (messageReceiptCbk B wire err)
      (Session.messageReceiptCbk B wire err : Exec (Session F σ) Unit) := by
  cases err with
  | true => exact .pure ()
  | false => exact (onDb_follows hwire _).bind fun _ => .pure ()

theorem reSend_follows {topic : Bytes} (htopic : F.Holds topic) :
    Follows (reSend B accepts topic)
      (Session.reSend B accepts topic : Exec (Session F σ) Unit) :=
  (onDb_follows htopic _).bind fun _ =>
    onWorld_follows fun _ _ _ hw hrun => reSendListed_plain htopic hw hrun

theorem recover_follows {order : List Bytes} (horder : ∀ name ∈ order, F.Holds name) :
    Follows (recover B accepts order)
      (Session.recover B accepts order : Exec (Session F σ) Unit) := by
  induction order with
  | nil => exact .pure ()
  | cons name rest ih =>
    rw [recover, Session.recover, recoverPath_name, Session.recoverPath_name]
    exact (reSend_follows (horder name List.mem_cons_self)).bind fun _ =>
      ih fun x hx => horder x (List.mem_cons_of_mem _ hx)

/-! ### Events and runs -/

/-- The event, as a call of an application that may use the key-value side too. -/
def Event.api : Event → ApiEvent
  | .addTopic topic => .addTopic topic.name
  | .sendMsg msg topic => .sendMsg msg topic.name
  | .sendMsgWithCache msg topic => .sendMsgWithCache msg topic.name
  | .receipt i err => .receipt i err
  | .restart => .restart
  | .recover order => .recover order

theorem Follows.outcome {x : Exec (World σ) α} {y : Exec (Session F σ) α} (h : Follows x y)
    {s : Session F σ} (hs : s.TopicsOnly) {w : World σ} (hw : outcome x s.world = some w) :
    ∃ s', outcomeIn y s = some s' ∧ s'.world = w ∧ s'.TopicsOnly := by
  obtain ⟨a, hx⟩ := outcome_eq_some.mp hw
  obtain ⟨s', hy, hworld, honly⟩ := h s a w hs hx
  exact ⟨s', outcomeIn_eq_some.mpr ⟨a, hy⟩, hworld, honly⟩

/-- One event of the client does to a session what it does to its world. -/
theorem apiStep_follows (hF : ∀ t : Topic, F.creatable t.name.bytes = true) {s : Session F σ}
    (hs : s.TopicsOnly) {e : Event} {w : World σ} (h : step B accepts s.world e = some w) :
    ∃ s', apiStep B accepts s e.api = some s' ∧ s'.world = w ∧ s'.TopicsOnly := by
  have htopic : ∀ t : Topic, F.Holds t.name.bytes := fun t => ⟨t.plainName, hF t⟩
  cases e with
  | addTopic topic =>
    exact (onWorld_follows fun _ _ _ hw hrun => addProduceTopic_plain hw hrun).outcome hs h
  | sendMsg msg topic =>
    have hsend : Follows (sendMsg accepts msg topic.name)
        (onWorld (sendMsg accepts msg topic.name) : Exec (Session F σ) Unit) := by
      refine onWorld_follows fun w a w' hw hrun => ?_
      obtain ⟨rc, m, hprod, hend⟩ := run_bind_eq_ok hrun
      cases hend
      exact producerSendMsg_plain (htopic topic) hw hprod
    exact hsend.outcome hs h
  | sendMsgWithCache msg topic => exact (sendMsgWithCache_follows (htopic topic) msg).outcome hs h
  | receipt i err =>
    rw [step] at h
    rw [Event.api, apiStep]
    cases hwire : s.world.inflight[i]? with
    | none =>
      rw [hwire] at h
      cases h
    | some wire =>
      rw [hwire] at h
      have hholds := hs.world.inflight wire (List.mem_of_getElem? hwire)
      set served : Session F σ :=
        { s with world := { s.world with inflight := s.world.inflight.eraseIdx i } }
      have hserved : served.TopicsOnly := ⟨hs.opened, hs.world.dirs, fun x hx =>
        hs.world.inflight x (List.mem_of_mem_eraseIdx hx)⟩
      exact (messageReceiptCbk_follows hholds err).outcome hserved h
  | restart =>
    cases h
    exact ⟨_, rfl, rfl, by simp, hs.world.dirs, by simp⟩
  | recover order =>
    rw [step] at h
    split at h
    · next hperm =>
      have horder : ∀ name ∈ order, F.Holds name := fun name hname =>
        hs.world.dirs name (ExtTreeMap.mem_keys.mp (hperm.mem_iff.mp hname))
      have hlists : s.Lists order := ⟨hperm.nodup_iff.mpr (nodup_keys _),
        fun name hname => (horder name hname).1, fun name hname _ => hperm.mem_iff.mpr hname⟩
      rw [Event.api, apiStep, if_pos hlists]
      exact (recover_follows horder).outcome hs h
    · cases h

/-- Every run of the client is one of a session over any file system that can hold the
directories of its topics. -/
theorem run_follows (hF : ∀ t : Topic, F.creatable t.name.bytes = true) {es : List Event}
    {w : World σ} (h : Transition.run (step B accepts) World.init es = some w) :
    ∃ s : Session F σ, Transition.run (apiStep B accepts) Session.init (es.map Event.api) = some s ∧
      s.world = w := by
  have hinit : (Session.init : Session F σ).TopicsOnly := by
    refine ⟨by simp [Session.init], ⟨?_, ?_⟩⟩
    · simp [Session.init, World.init]
    · simp [Session.init, World.init]
  obtain ⟨s, hs, hw, -⟩ := Transition.run_forward
    (R := fun (w : World σ) (s : Session F σ) => s.world = w ∧ s.TopicsOnly)
    (fun a b e a' hab hstep => apiStep_follows hF hab.2 (hab.1 ▸ hstep)) ⟨rfl, hinit⟩ h
  exact ⟨s, hs, hw⟩

end Sessions

end KfkClient
