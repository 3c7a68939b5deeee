import KfkClient.Lib.Transition
import KfkClient.Client.World
import KfkClient.Store.LevelDb

/-!
# Recovery after a restart

`recover` walks the directories and re-sends what `cursor_` lists of each. On the
LevelDB backend `cursor_` lists nothing, so a recovery adds the topics to the
producer and hands over no message.
-/

namespace KfkClient

open CLib OrderedMap LevelDb
open Std (ExtTreeMap)

variable (accepts : ℕ → Bool)

/-- From `w` to `w'` the producer got to know the names and nothing else changed. -/
structure OnlyAdds (names : List Bytes) (w w' : World Map) : Prop where
  db : ∀ x, w'.db levelDb x = w.db levelDb x
  dirs : ∀ x, x ∈ w.dirs → x ∈ w'.dirs
  inflight : w'.inflight = w.inflight
  produced : w'.produced = w.produced
  topics : ∀ x, x ≠ [] → (x ∈ w'.topics ↔ x ∈ w.topics ∨ x ∈ names)

theorem OnlyAdds.trans {names more : List Bytes} {w w' w'' : World Map} (h : OnlyAdds names w w')
    (h' : OnlyAdds more w' w'') : OnlyAdds (names ++ more) w w'' := by
  refine ⟨fun x => (h'.db x).trans (h.db x), fun x hx => h'.dirs x (h.dirs x hx),
    h'.inflight.trans h.inflight, h'.produced.trans h.produced, ?_⟩
  intro x hx
  rw [h'.topics x hx, h.topics x hx, List.mem_append, or_assoc]

theorem getProducer_run (name : Bytes) (w : World Map) :
    ∃ topics, (getProducer name).run w = .ok () { w with topics := topics } ∧
      ∀ x, x ≠ [] → (x ∈ topics ↔ x ∈ w.topics ∨ x = name) := by
  rw [getProducer]
  by_cases hn : name = []
  · refine ⟨w.topics, by simp [hn], ?_⟩
    intro x hx
    simp [hn, hx]
  have hemp : ¬ name.isEmpty = true := by simpa using hn
  rw [if_neg hemp]
  by_cases hm : name ∈ w.topics
  · have hadd : (addProduceTopic name).run w = .ok (-1) w := by
      show addProduceTopic name w = _
      rw [addProduceTopic, if_pos hm]
    refine ⟨w.topics, by rw [run_bind_ok hadd]; rfl, ?_⟩
    intro x _
    constructor
    · exact Or.inl
    · rintro (hx | rfl)
      · exact hx
      · exact hm
  · have hadd : (addProduceTopic name).run w =
        .ok 0 { w with topics := w.topics ++ [name] } := by
      show addProduceTopic name w = _
      rw [addProduceTopic, if_neg hm]
    exact ⟨_, by rw [run_bind_ok hadd]; rfl, fun x _ => by simp⟩

/-- `re_send` on the LevelDB backend re-sends nothing. -/
theorem reSend_levelDb (name : Bytes) (w : World Map) :
    ∃ w', (reSend levelDb accepts name).run w = .ok () w' ∧ OnlyAdds [name] w w' := by
  have hcur : (withDb levelDb name (levelDb.cursor ∅)).run w = _ :=
    withDb_ok levelDb (levelDb_cursor ∅ (w.db levelDb name))
  obtain ⟨topics, hget, htop⟩ := getProducer_run name (w.setDb name (w.db levelDb name))
  refine ⟨{ w.setDb name (w.db levelDb name) with topics := topics }, ?_, ?_, ?_, rfl, rfl, ?_⟩
  · rw [reSend, run_bind_ok hcur]
    simp only
    rw [reSendListed, run_bind_ok hget]
    have hnil : (∅ : Map).toList = [] := ExtTreeMap.toList_eq_nil_iff.mpr rfl
    rw [hnil]
    rfl
  · intro x
    by_cases hx : name = x
    · subst hx
      exact World.db_setDb_self levelDb w name _
    · exact World.db_setDb_of_ne levelDb w _ hx
  · intro x hx
    exact ExtTreeMap.mem_insert.mpr (.inr hx)
  · intro x hx
    rw [List.mem_singleton]
    exact htop x hx

/-- On the LevelDB backend `recover` returns, whatever the order of the directories,
and hands over no message. -/
theorem recover_levelDb (order : List Bytes) (w : World Map) :
    ∃ w', (recover levelDb accepts order).run w = .ok () w' ∧ OnlyAdds order w w' := by
  induction order generalizing w with
  | nil => exact ⟨w, rfl, fun _ => rfl, fun _ h => h, rfl, rfl, fun x _ => by simp⟩
  | cons name rest ih =>
    obtain ⟨m, hm, hadd⟩ := reSend_levelDb accepts name w
    obtain ⟨w', hw', hrest⟩ := ih m
    refine ⟨w', ?_, hadd.trans hrest⟩
    rw [recover, recoverPath_name, run_bind_ok hm, hw']

variable {accepts}

theorem step_recover_levelDb {w w' : World Map} {order : List Bytes}
    (h : step levelDb accepts w (.recover order) = some w') : OnlyAdds order w w' := by
  obtain ⟨-, hrun⟩ := step_recover h
  obtain ⟨m, hm, hadd⟩ := recover_levelDb accepts order w
  rw [hrun] at hm
  cases hm
  exact hadd

/-! ### What a recovery owes -/

/-- What was handed over for a topic is every non-empty message entry of its cache,
once each, with its bytes and in the order of the numbers. -/
def RecoversTopic (name : Bytes) (db : Map) (handed : List Wire) : Prop :=
  ∃ nums : List ℕ, nums.Pairwise (· < ·) ∧
    (∀ i, i ∈ nums ↔ IsNumber i ∧ ∃ v, v ≠ [] ∧ db[messageKey name i]? = some v) ∧
    (handed.filter (·.topic = name)).map (fun x => some x.payload) =
      nums.map fun i : ℕ => db[messageKey name i]?

/-- From `w` to `w'` every topic directory was recovered and nothing else handed over. -/
def RecoversAll (w w' : World Map) : Prop :=
  ∃ handed, w'.produced = w.produced ++ handed ∧ (∀ x ∈ handed, x.topic ∈ w.dirs) ∧
    ∀ name ∈ w.dirs, RecoversTopic name (w.db levelDb name) handed

/-- No cache holds a message that is not empty. -/
def NoneOwed (w : World Map) : Prop :=
  ∀ name ∈ w.dirs, ∀ i v, IsNumber i →
    (w.db levelDb name)[messageKey name i]? = some v → v = []

theorem OnlyAdds.recoversAll_iff {names : List Bytes} {w w' : World Map}
    (h : OnlyAdds names w w') : RecoversAll w w' ↔ NoneOwed w := by
  constructor
  · rintro ⟨handed, hprod, -, hall⟩ name hname i v hi hv
    have hnil : handed = [] := by simpa [h.produced] using hprod
    obtain ⟨nums, -, hmem, hmap⟩ := hall name hname
    have hnums : nums = [] := by
      rw [hnil] at hmap
      exact List.map_eq_nil_iff.mp hmap.symm
    by_contra hne
    have hin := (hmem i).mpr ⟨hi, v, hne, hv⟩
    rw [hnums] at hin
    cases hin
  · intro hnone
    refine ⟨[], by simp [h.produced], by simp, ?_⟩
    intro name hname
    refine ⟨[], List.Pairwise.nil, ?_, rfl⟩
    intro i
    constructor
    · intro hi
      cases hi
    · rintro ⟨hi, v, hne, hv⟩
      exact absurd (hnone name hname i v hi hv) hne

/-- The world when the process has stopped and the next one has started. -/
def World.stopped (w : World Map) : World Map := { w with topics := [], inflight := [] }

theorem recover_stopped (accepts : ℕ → Bool) (w : World Map) {order : List Bytes}
    (hord : order.Perm w.dirs.keys) :
    ∃ w', step levelDb accepts w.stopped (.recover order) = some w' ∧
      OnlyAdds order w.stopped w' := by
  obtain ⟨w', hrun, hadd⟩ := recover_levelDb accepts order w.stopped
  have hord' : order.Perm w.stopped.dirs.keys := hord
  refine ⟨w', ?_, hadd⟩
  rw [step, if_pos hord']
  exact outcome_eq_some.mpr ⟨(), hrun⟩

/-- Whatever the caches hold when the process stops: `recover` in the next process
returns, and hands over what it owes exactly when it owes nothing. -/
theorem recover_recovers_iff (accepts : ℕ → Bool) (w : World Map) (order : List Bytes)
    (hord : order.Perm w.dirs.keys) :
    ∃ w', step levelDb accepts w.stopped (.recover order) = some w' ∧
      (RecoversAll w.stopped w' ↔ NoneOwed w) := by
  obtain ⟨w', hstep, hadd⟩ := recover_stopped accepts w hord
  exact ⟨w', hstep, hadd.recoversAll_iff⟩

/-- The first message on a topic. -/
theorem first_send (accepts : ℕ → Bool) {t : Topic} (hfit : t.name.bytes.length ≤ 235)
    {w : World Map} (hdb : w.db levelDb t.name.bytes = ∅) (msg : CString)
    (hm : 0 ≤ toInt msg.bytes.length) :
    ∃ s, Stored t.name (storedBytes msg) 0 ∅ s ∧
      step levelDb accepts w (.sendMsgWithCache msg t) =
        some ((w.setDb t.name.bytes s).handOver accepts msg.bytes t.name.bytes 0) := by
  have hn : IsNumber (0 + 1) := isNumber_of_lt (by decide)
  have hc : Counts t.name ∅ 0 := by simp [Counts]
  have hsh := shaped_empty t.name
  have ht := t.legal.cacheable
  have hK := keysOk_all t.name
  obtain ⟨s, hs⟩ := storeMsg_returns levelDb_faithful ht (.inl hfit) hK hn hsh hc hm
  obtain ⟨-, -, hst⟩ := storeMsg_stores levelDb_faithful ht hK (hn.mono (Nat.zero_le _)) hsh hc hs
  rw [id_eq] at hst
  rw [← hdb, Nat.cast_zero] at hs
  exact ⟨s, hst, step_sendMsgWithCache_iff.mpr ⟨0, s, hs, rfl⟩⟩

/-- A cache with only its counter record, as it is when its one message was delivered. -/
def countsOne : Map := (∅ : Map).insert (counterKey Topic.sample.name.bytes) (49 :: zeros 1023)

theorem recover_recovers_delivered_cache :
    ∃ w', step levelDb (fun _ => true)
        ((World.init : World Map).setDb Topic.sample.name.bytes countsOne).stopped
        (.recover [Topic.sample.name.bytes]) = some w' ∧
      RecoversAll ((World.init : World Map).setDb Topic.sample.name.bytes countsOne).stopped
        w' := by
  obtain ⟨w', hs, hiff⟩ := recover_recovers_iff (fun _ => true)
    ((World.init : World Map).setDb Topic.sample.name.bytes countsOne) [Topic.sample.name.bytes]
    (by rfl)
  refine ⟨w', hs, hiff.mpr ?_⟩
  intro name hname i v _ hv
  by_cases hn : Topic.sample.name.bytes = name
  · subst hn
    rw [World.db_setDb_self, countsOne,
      get_insert_of_ne _ (messageKey_ne_counterKey _ _).symm] at hv
    simp at hv
  · rw [World.db_setDb_of_ne levelDb _ _ hn] at hv
    simp [World.db, World.init, levelDb] at hv

/-- One cached message, a stop, and a recovery that does not hand it over. -/
theorem recover_loses_cached_message :
    ∃ w w', Transition.run (step levelDb fun _ => true) World.init
        [.sendMsgWithCache ⟨[109], by decide⟩ Topic.sample] = some w ∧
      step levelDb (fun _ => true) w.stopped (.recover w.dirs.keys) = some w' ∧
      ¬ RecoversAll w.stopped w' := by
  have hdb : (World.init : World Map).db levelDb Topic.sample.name.bytes = ∅ := by
    simp [World.db, World.init, levelDb]
  obtain ⟨s, hst, hsend⟩ := first_send (fun _ => true) (t := Topic.sample) (by decide) hdb
    ⟨[109], by decide⟩ (toInt_length_nonneg (by decide))
  set w := ((World.init : World Map).setDb Topic.sample.name.bytes s).handOver (fun _ => true)
    [109] Topic.sample.name.bytes 0 with hw
  obtain ⟨w', hstep, hadd⟩ := recover_stopped (fun _ => true) w (List.Perm.refl _)
  refine ⟨w, w', ?_, hstep, ?_⟩
  · exact Transition.run_cons_some hsend []
  · rw [hadd.recoversAll_iff]
    intro hnone
    have hdir : Topic.sample.name.bytes ∈ w.dirs := by
      rw [hw, World.handOver_dirs]
      exact ExtTreeMap.mem_insert_self
    have hentry : (w.db levelDb Topic.sample.name.bytes)[messageKey Topic.sample.name.bytes
        (0 : ℕ)]? = some [109] := by
      rw [hw, World.handOver_db, World.db_setDb_self, hst.message, storedBytes_of_lt (by decide)]
    exact absurd (hnone _ hdir 0 _ (isNumber_of_lt (by decide)) hentry) (by decide)

end KfkClient
