import KfkClient.Lib.Transition
import KfkClient.Client.Content
import KfkClient.Client.Resend

/-!
# Receipts of messages without a key

Plain `send_msg` and `re_send` hand their messages over without a Kafka key. The
receipt callback reads the missing key as number zero and deletes that entry of the
topic, whichever message it was.
-/

namespace KfkClient

open CLib OrderedMap LevelDb
open Std (ExtTreeMap)

variable {accepts : ℕ → Bool}

/-- Every message in flight is on a topic with a legal name. -/
def InflightLegal (w : World Map) : Prop :=
  ∀ wire ∈ w.inflight, ∃ t : Topic, wire.topic = t.name.bytes

theorem InflightLegal.handOver {w : World Map} (h : InflightLegal w) (message : Bytes) (t : Topic)
    (nkey : ℤ) : InflightLegal (w.handOver accepts message t.name.bytes nkey) := by
  intro wire hw
  rw [World.handOver] at hw
  split at hw
  · rcases List.mem_append.mp hw with hw | hw
    · exact h wire hw
    · split at hw
      · rw [List.mem_singleton.mp hw]
        exact ⟨t, rfl⟩
      · cases hw
  · exact h wire hw

theorem step_inflightLegal {w w' : World Map} {e : Event} (h : InflightLegal w)
    (hs : step levelDb accepts w e = some w') : InflightLegal w' := by
  cases e with
  | addTopic topic =>
    obtain ⟨topics, rfl, -⟩ := step_addTopic hs
    exact h
  | sendMsg msg topic =>
    rw [step_sendMsg hs]
    exact h.handOver msg.bytes topic (-1)
  | sendMsgWithCache msg topic =>
    obtain ⟨num, s, -, rfl⟩ := step_sendMsgWithCache_iff.mp hs
    have hset : InflightLegal (w.setDb topic.name.bytes s) := h
    exact hset.handOver msg.bytes topic num
  | receipt i err =>
    obtain ⟨wire, -, ⟨-, rfl⟩ | ⟨-, rc, s, -, rfl⟩⟩ := step_receipt hs
    · exact fun x hx => h x (List.mem_of_mem_eraseIdx hx)
    · exact fun x hx => h x (List.mem_of_mem_eraseIdx hx)
  | restart =>
    rw [step_restart hs]
    intro wire hw
    cases hw
  | recover order =>
    intro wire hw
    rw [(step_recover_levelDb hs).inflight] at hw
    exact h wire hw

theorem run_inflightLegal {es : List Event} {w : World Map}
    (h : Transition.run (step levelDb accepts) World.init es = some w) : InflightLegal w := by
  refine Transition.run_invariant ?_ ?_ h
  · intro s e s' hs hstep
    exact step_inflightLegal hs hstep
  · intro wire hw
    cases hw

/-- The successful receipt of a message without a key erases entry number zero of
its topic and nothing else. -/
theorem step_keyless_receipt {w : World Map} {i : ℕ} {wire : Wire} {t : Topic}
    (hw : w.inflight[i]? = some wire) (htop : wire.topic = t.name.bytes) (hkey : wire.key = none) :
    step levelDb accepts w (.receipt i false) =
      some ({ w with inflight := w.inflight.eraseIdx i }.setDb t.name.bytes
        ((w.db levelDb t.name.bytes).erase (messageKey t.name.bytes 0))) := by
  have h0 : IsNumber 0 := isNumber_of_lt (by decide)
  obtain ⟨rc, hrun⟩ := sendMsgCallback_run levelDb_faithful h0 t.legal.cacheable.length_le
    trivial (w.db levelDb t.name.bytes)
  rw [Nat.cast_zero, ← receiptNumber_none, ← hkey, ← htop] at hrun
  rw [step_receipt_ok hw hrun, htop, hkey, receiptNumber_none]

/-- Every message entry of every topic is in `w'` as it is in `w`. -/
def SameEntries (w w' : World Map) : Prop :=
  ∀ (t : Topic) (n : ℕ), IsNumber n →
    (w'.db levelDb t.name.bytes)[messageKey t.name.bytes n]? =
      (w.db levelDb t.name.bytes)[messageKey t.name.bytes n]?

theorem sameEntries_erase_iff {w : World Map} {t : Topic} {l : List Wire} :
    SameEntries w ({ w with inflight := l }.setDb t.name.bytes
        ((w.db levelDb t.name.bytes).erase (messageKey t.name.bytes 0))) ↔
      (w.db levelDb t.name.bytes)[messageKey t.name.bytes 0]? = none := by
  constructor
  · intro h
    have h0 := h t 0 (isNumber_of_lt (by decide))
    rw [World.db_setDb_self, Nat.cast_zero, ExtTreeMap.getElem?_erase_self] at h0
    exact h0.symm
  · intro hnone t' n _
    rw [erase_of_not_mem hnone]
    by_cases htt : t.name.bytes = t'.name.bytes
    · rw [← htt, World.db_setDb_self]
    · rw [World.db_setDb_of_ne levelDb _ _ htt]
      rfl

/-- In every reachable state, the successful receipt of a message sent without a key
leaves all message entries as they are exactly when its topic's cache has no entry
number zero. -/
theorem plain_receipt_keeps_entries_iff (es : List Event) (w : World Map) (i : ℕ) (wire : Wire)
    (h : Transition.run (step levelDb accepts) World.init es = some w)
    (hw : w.inflight[i]? = some wire) (hkey : wire.key = none) :
    ∃ w', step levelDb accepts w (.receipt i false) = some w' ∧
      (SameEntries w w' ↔
        (w.db levelDb wire.topic)[messageKey wire.topic 0]? = none) := by
  obtain ⟨t, htop⟩ := run_inflightLegal h wire (List.mem_of_getElem? hw)
  refine ⟨_, step_keyless_receipt hw htop hkey, ?_⟩
  rw [htop]
  exact sameEntries_erase_iff

/-- The plain message `p` on the topic `t`, in flight. -/
def plainWire : Wire := ⟨[116], [112], none⟩

theorem plain_send_run :
    Transition.run (step levelDb fun _ => true) World.init
      [.addTopic Topic.sample, .sendMsg ⟨[112], by decide⟩ Topic.sample] =
      some ⟨∅, [[116]], [plainWire], [plainWire]⟩ := rfl

/-- The cache holds number 1 but not number 0, and a plain message is in flight. -/
theorem plain_receipt_keeps_second_entry :
    ∃ w w', Transition.run (step levelDb fun _ => true) World.init
        (deliveredFirst ++ [.sendMsg ⟨[112], by decide⟩ Topic.sample]) = some w ∧
      w.inflight[1]? = some plainWire ∧
      (w.db levelDb Topic.sample.name.bytes)[messageKey Topic.sample.name.bytes (1 : ℕ)]? =
        some msgB.bytes ∧
      step levelDb (fun _ => true) w (.receipt 1 false) = some w' ∧ SameEntries w w' := by
  obtain ⟨w₁, hrun, hR⟩ := deliveredFirst_run
  set w := w₁.handOver (fun _ => true) [112] Topic.sample.name.bytes (-1) with hw
  have hsend : step levelDb (fun _ => true) w₁ (.sendMsg ⟨[112], by decide⟩ Topic.sample) =
      some w := by
    obtain ⟨rc, hprod⟩ := producerSendMsg_run (fun _ => true) [112] Topic.sample.name.bytes (-1) w₁
    refine outcome_eq_some.mpr ⟨rc, ?_⟩
    rw [sendMsg, run_bind_ok hprod]
    rfl
  have hadded : Topic.sample.name.bytes ∈ w₁.topics :=
    (hR.topics _ Topic.sample.ne_nil).mpr List.mem_cons_self
  have hflight : w.inflight[1]? = some plainWire := by
    obtain ⟨wire, hone⟩ := List.length_eq_one_iff.mp hR.flight.length_eq
    rw [hw, World.handOver, if_pos ⟨hadded, by decide⟩, hone]
    rfl
  have hdb : w.db levelDb Topic.sample.name.bytes = w₁.db levelDb Topic.sample.name.bytes := by
    rw [hw, World.handOver_db]
  obtain ⟨w', hstep, hiff⟩ := plain_receipt_keeps_entries_iff _ w 1 plainWire
    (Transition.run_snoc hrun hsend) hflight rfl
  refine ⟨w, w', Transition.run_snoc hrun hsend, hflight, ?_, hstep, hiff.mpr ?_⟩
  · rw [hdb, hR.caches.entry 1 (isNumber_of_lt (by decide))]
    exact congrArg some (storedBytes_of_lt (by decide))
  · have hzero := hR.caches.entry 0 (isNumber_of_lt (by decide))
    rw [← hdb] at hzero
    exact hzero

/-- The receipt of the plain message `p` deletes the message `m`, which was cached
after it and is not confirmed. -/
theorem plain_receipt_deletes_cached_message :
    ∃ w w', Transition.run (step levelDb fun _ => true) World.init
        [.addTopic Topic.sample, .sendMsg ⟨[112], by decide⟩ Topic.sample,
          .sendMsgWithCache ⟨[109], by decide⟩ Topic.sample] = some w ∧
      w.inflight[0]? = some plainWire ∧
      step levelDb (fun _ => true) w (.receipt 0 false) = some w' ∧ ¬ SameEntries w w' := by
  have hdb : (⟨∅, [[116]], [plainWire], [plainWire]⟩ : World Map).db levelDb
      Topic.sample.name.bytes = ∅ := by
    simp [World.db, levelDb]
  obtain ⟨s, hst, hsend⟩ := first_send (fun _ => true) (t := Topic.sample) (by decide) hdb
    ⟨[109], by decide⟩ (toInt_length_nonneg (by decide))
  have hrun := Transition.run_snoc plain_send_run hsend
  refine ⟨_, _, hrun, rfl, step_keyless_receipt (t := Topic.sample) rfl rfl rfl, ?_⟩
  have hentry := hst.message
  rw [Nat.cast_zero] at hentry
  rw [sameEntries_erase_iff, World.handOver_db, World.db_setDb_self, hentry]
  exact Option.some_ne_none _

/-! ### Receipts of re-sent messages -/

/-- The entries of a listing that `re_send` gets into flight, when `n` messages were
produced before. -/
def resends (accepts : ℕ → Bool) (n : ℕ) : List (Bytes × Bytes) → List (Bytes × Bytes)
  | [] => []
  | e :: rest =>
    if skips e.1 ∨ e.2 = [] then resends accepts n rest
    else (if accepts n then [e] else []) ++ resends accepts (n + 1) rest

def resentWire (topic : Bytes) (e : Bytes × Bytes) : Wire := ⟨topic, payloadOf e.2, none⟩

theorem resends_subset {n : ℕ} {l : List (Bytes × Bytes)} {e : Bytes × Bytes}
    (h : e ∈ resends accepts n l) : e ∈ l := by
  induction l generalizing n with
  | nil => cases h
  | cons a l ih =>
    rw [resends] at h
    split at h
    · exact List.mem_cons_of_mem _ (ih h)
    · rcases List.mem_append.mp h with h | h
      · split at h
        · rw [List.mem_singleton.mp h]
          exact List.mem_cons_self
        · cases h
      · exact List.mem_cons_of_mem _ (ih h)

theorem reSendLoop_run (accepts : ℕ → Bool) {topic : Bytes} (l : List (Bytes × Bytes))
    {w : World Map} (htop : topic ∈ w.topics) :
    ∃ w', (reSendLoop accepts topic l).run w = .ok () w' ∧ w'.dirs = w.dirs ∧
      w'.inflight =
        w.inflight ++ (resends accepts w.produced.length l).map (resentWire topic) := by
  induction l generalizing w with
  | nil => exact ⟨w, rfl, rfl, by simp [resends]⟩
  | cons e l ih =>
    by_cases hskip : skips e.1 = true
    · obtain ⟨w', hrun, hdirs, hin⟩ := ih htop
      refine ⟨w', ?_, hdirs, ?_⟩
      · rw [reSendLoop, if_pos hskip]
        exact hrun
      · rw [resends, if_pos (.inl hskip)]
        exact hin
    · obtain ⟨rc, hsend⟩ := producerSendMsg_run accepts e.2 topic (-1) w
      have htop' : topic ∈ (w.handOver accepts e.2 topic (-1)).topics := by
        rw [World.handOver_topics]
        exact htop
      obtain ⟨w', hrun, hdirs, hin⟩ := ih htop'
      refine ⟨w', ?_, ?_, ?_⟩
      · rw [reSendLoop, if_neg hskip]
        rw [run_bind_ok hsend]
        exact hrun
      · rw [hdirs, World.handOver_dirs]
      · rw [hin, World.handOver]
        by_cases hemp : e.2 = []
        · have hno : ¬ (topic ∈ w.topics ∧ e.2 ≠ []) := fun hp => hp.2 hemp
          rw [if_neg hno, resends, if_pos (.inr hemp)]
        · have hyes : topic ∈ w.topics ∧ e.2 ≠ [] := ⟨htop, hemp⟩
          have hno : ¬ (skips e.1 = true ∨ e.2 = []) := fun hp => hp.elim hskip hemp
          rw [if_pos hyes, resends, if_neg hno, List.map_append, List.append_assoc,
            List.length_append]
          cases accepts w.produced.length <;> rfl

/-- Each of the receipts at the places `js`, processed in that order, erases exactly
the entry its message was read from. -/
def ClearsOwn (accepts : ℕ → Bool) (topic : Bytes) :
    World Map → List (Bytes × Bytes) → List ℕ → Prop
  | _, _, [] => True
  | w, es, j :: js => ∀ e, es[j]? = some e →
    ∃ w', step levelDb accepts w (.receipt j false) = some w' ∧
      w'.db levelDb topic = (w.db levelDb topic).erase e.1 ∧
      ClearsOwn accepts topic w' (es.eraseIdx j) js

/-- Once nothing is in flight any more, none of the entries is in the cache. -/
def LeavesNone (accepts : ℕ → Bool) (topic : Bytes) (w : World Map) (es : List (Bytes × Bytes)) :
    Prop :=
  ∀ (js : List ℕ) w',
    Transition.run (step levelDb accepts) w (js.map fun j => .receipt j false) = some w' →
    w'.inflight = [] → ∀ e ∈ es, e.1 ∉ w'.db levelDb topic

section Resent

variable {t : Topic} {w : World Map} {es : List (Bytes × Bytes)}
  (hin : w.inflight = es.map (resentWire t.name.bytes))
include hin

theorem step_resent_receipt (accepts : ℕ → Bool) {j : ℕ} {e : Bytes × Bytes}
    (hj : es[j]? = some e) :
    ∃ w', step levelDb accepts w (.receipt j false) = some w' ∧
      w'.db levelDb t.name.bytes =
        (w.db levelDb t.name.bytes).erase (messageKey t.name.bytes 0) ∧
      w'.inflight = (es.eraseIdx j).map (resentWire t.name.bytes) := by
  have hw : w.inflight[j]? = some (resentWire t.name.bytes e) := by
    rw [hin, List.getElem?_map, hj]
    rfl
  refine ⟨_, step_keyless_receipt (t := t) hw rfl rfl, World.db_setDb_self .., ?_⟩
  rw [World.setDb_inflight, hin, List.eraseIdx_map]

theorem clearsOwn_of_zero (hzero : ∀ e ∈ es, e.1 = messageKey t.name.bytes 0) (js : List ℕ) :
    ClearsOwn accepts t.name.bytes w es js := by
  induction js generalizing w es with
  | nil => trivial
  | cons j js ih =>
    intro e he
    obtain ⟨w', hs, hdb, hin'⟩ := step_resent_receipt hin accepts he
    refine ⟨w', hs, ?_, ?_⟩
    · rw [hdb, hzero e (List.mem_of_getElem? he)]
    · exact ih hin' fun a ha => hzero a (List.mem_of_mem_eraseIdx ha)

/-- When all of them were number zero and one was in flight, its receipt erased it. -/
theorem zero_erased (js : List ℕ) {w' : World Map}
    (hrun : Transition.run (step levelDb accepts) w (js.map fun j => .receipt j false) = some w')
    (hdone : w'.inflight = [])
    (hz : es ≠ [] ∨ messageKey t.name.bytes 0 ∉ w.db levelDb t.name.bytes) :
    messageKey t.name.bytes 0 ∉ w'.db levelDb t.name.bytes := by
  induction js generalizing w es with
  | nil =>
    cases hrun
    rw [hin, List.map_eq_nil_iff] at hdone
    exact hz.resolve_left fun hne => hne hdone
  | cons j js ih =>
    obtain ⟨m, hm, hrest⟩ := Transition.run_cons_eq_some hrun
    obtain ⟨wire, hw, -⟩ := step_receipt hm
    rw [hin, List.getElem?_map, Option.map_eq_some_iff] at hw
    obtain ⟨e, he, -⟩ := hw
    obtain ⟨m', hm', hdb, hin'⟩ := step_resent_receipt hin accepts he
    rw [hm] at hm'
    cases hm'
    refine ih hin' hrest (.inr ?_)
    rw [hdb]
    simp

/-- A receipt that erases its own entry of the cache was for number zero. -/
theorem zero_of_clearsOwn (hclear : ∀ js, ClearsOwn accepts t.name.bytes w es js)
    (hmem : ∀ e ∈ es, e.1 ∈ w.db levelDb t.name.bytes) :
    ∀ e ∈ es, e.1 = messageKey t.name.bytes 0 := by
  intro e he
  obtain ⟨j, hj⟩ := List.mem_iff_getElem?.mp he
  obtain ⟨w1, hs1, hown, -⟩ := hclear [j] e hj
  obtain ⟨w2, hs2, hdb, -⟩ := step_resent_receipt hin accepts hj
  rw [hs1] at hs2
  cases hs2
  by_contra hne
  have hin2 : e.1 ∈ (w.db levelDb t.name.bytes).erase (messageKey t.name.bytes 0) := by
    rw [ExtTreeMap.mem_erase]
    exact ⟨by simpa using fun he => hne (Eq.symm he), hmem e he⟩
  rw [← hdb, hown] at hin2
  simp at hin2

end Resent

theorem reSendListed_run (accepts : ℕ → Bool) (t : Topic) (v : Map) {w : World Map}
    (hin : w.inflight = []) :
    ∃ w', (reSendListed accepts t.name.bytes v).run w = .ok () w' ∧
      w'.db levelDb t.name.bytes = w.db levelDb t.name.bytes ∧
      w'.inflight =
        (resends accepts w.produced.length v.toList).map (resentWire t.name.bytes) := by
  obtain ⟨topics, hget, htop⟩ := getProducer_run t.name.bytes w
  have hmem : t.name.bytes ∈ topics := (htop _ t.legal.nonempty).mpr (.inr rfl)
  obtain ⟨w', hrun, hdirs, hfl⟩ := reSendLoop_run accepts v.toList
    (w := { w with topics := topics }) hmem
  refine ⟨w', ?_, ?_, ?_⟩
  · rw [reSendListed, run_bind_ok hget, hrun]
  · rw [World.db, hdirs, World.db]
  · rw [hfl]
    simp [hin]

theorem resends_mem_db {n : ℕ} {v db : Map} (hsub : ∀ k x : Bytes, v[k]? = some x → db[k]? = some x)
    {e : Bytes × Bytes} (he : e ∈ resends accepts n v.toList) : e.1 ∈ db := by
  have hv := ExtTreeMap.mem_toList_iff_getElem?_eq_some.mp (resends_subset he)
  exact mem_iff_exists_get.mpr ⟨e.2, hsub e.1 e.2 hv⟩

/-- Whatever the cache holds and `re_send` lists of it: the receipts of the re-sent
messages erase their own entries, in every order, exactly when no other entry than
number zero was re-sent. -/
theorem resent_receipts_clear_iff (accepts : ℕ → Bool) (t : Topic) (w : World Map) (v : Map)
    (hin : w.inflight = [])
    (hsub : ∀ k x : Bytes, v[k]? = some x → (w.db levelDb t.name.bytes)[k]? = some x) :
    ∃ w', (reSendListed accepts t.name.bytes v).run w = .ok () w' ∧
      w'.inflight = (resends accepts w.produced.length v.toList).map (resentWire t.name.bytes) ∧
      (((∀ js, ClearsOwn accepts t.name.bytes w' (resends accepts w.produced.length v.toList) js) ∧
          LeavesNone accepts t.name.bytes w' (resends accepts w.produced.length v.toList)) ↔
        ∀ e ∈ resends accepts w.produced.length v.toList, e.1 = messageKey t.name.bytes 0) := by
  obtain ⟨w', hrun, hdb, hin'⟩ := reSendListed_run accepts t v hin
  refine ⟨w', hrun, hin', ?_, ?_⟩
  · rintro ⟨hclear, -⟩
    refine zero_of_clearsOwn hin' hclear ?_
    intro e he
    rw [hdb]
    exact resends_mem_db hsub he
  · intro hzero
    refine ⟨clearsOwn_of_zero hin' hzero, ?_⟩
    intro js w'' hjs hdone e he
    rw [hzero e he]
    exact zero_erased hin' js hjs hdone (.inl (List.ne_nil_of_mem he))

/-! A cache with one entry, as `re_send` would list it. -/

theorem mem_resends {n : ℕ} {l : List (Bytes × Bytes)} {e : Bytes × Bytes} (h : e ∈ l)
    (hskip : skips e.1 = false) (hne : e.2 ≠ []) : e ∈ resends (fun _ => true) n l := by
  have hno : ¬ (skips e.1 = true ∨ e.2 = []) := by simp [hskip, hne]
  induction l generalizing n with
  | nil => cases h
  | cons a l ih =>
    rw [resends]
    rcases List.mem_cons.mp h with rfl | h
    · rw [if_neg hno]
      simp
    · split
      · exact ih h
      · exact List.mem_append_right _ (ih h)

def oneEntry (i : ℕ) : Map := (∅ : Map).insert (messageKey Topic.sample.name.bytes i) [109]

def oneEntryWorld (i : ℕ) : World Map := World.init.setDb Topic.sample.name.bytes (oneEntry i)

theorem oneEntryWorld_db (i : ℕ) :
    (oneEntryWorld i).db levelDb Topic.sample.name.bytes = oneEntry i :=
  World.db_setDb_self ..

theorem resent_receipts_clear_number_zero :
    ∃ w', (reSendListed (fun _ => true) Topic.sample.name.bytes (oneEntry 0)).run
        (oneEntryWorld 0) = .ok () w' ∧
      (∀ js, ClearsOwn (fun _ => true) Topic.sample.name.bytes w'
        (resends (fun _ => true) 0 (oneEntry 0).toList) js) ∧
      LeavesNone (fun _ => true) Topic.sample.name.bytes w'
        (resends (fun _ => true) 0 (oneEntry 0).toList) := by
  obtain ⟨w', hrun, -, hiff⟩ := resent_receipts_clear_iff (fun _ => true) Topic.sample
    (oneEntryWorld 0) (oneEntry 0) rfl (by rw [oneEntryWorld_db]; exact fun _ _ h => h)
  refine ⟨w', hrun, hiff.mpr ?_⟩
  intro e he
  have hv := ExtTreeMap.mem_toList_iff_getElem?_eq_some.mp (resends_subset he)
  by_contra hne
  rw [oneEntry, Nat.cast_zero, get_insert_of_ne _ (Ne.symm hne)] at hv
  simp at hv

/-- The receipt of a re-sent message number one does not erase its entry. -/
theorem resent_message_not_cleared :
    ∃ w', (reSendListed (fun _ => true) Topic.sample.name.bytes (oneEntry 1)).run
        (oneEntryWorld 1) = .ok () w' ∧
      ¬ ∀ js, ClearsOwn (fun _ => true) Topic.sample.name.bytes w'
        (resends (fun _ => true) 0 (oneEntry 1).toList) js := by
  have h1 : IsNumber 1 := isNumber_of_lt (by decide)
  obtain ⟨w', hrun, hdb, hin⟩ := reSendListed_run (fun _ => true) Topic.sample (oneEntry 1)
    (w := oneEntryWorld 1) rfl
  refine ⟨w', hrun, ?_⟩
  intro hclear
  have hget : (oneEntry 1)[messageKey Topic.sample.name.bytes (1 : ℕ)]? = some [109] := by
    simp [oneEntry]
  have hmem := mem_resends (n := 0) (ExtTreeMap.mem_toList_iff_getElem?_eq_some.mpr hget)
    (skips_messageKey Topic.sample h1) (List.cons_ne_nil _ _)
  have hzero := zero_of_clearsOwn hin hclear (fun e he => by
    rw [hdb, oneEntryWorld_db]
    exact resends_mem_db (fun _ _ h => h) he) _ hmem
  have h10 := (messageKey_inj h1 (h1.mono (Nat.zero_le 1))).mp hzero
  exact absurd h10 (by decide)

end KfkClient
