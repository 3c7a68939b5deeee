import KfkClient.Client.Outbox

/-!
# What a topic's cache holds

The exact content of the LevelDB database of a topic after any run, and when a run
whose messages were all delivered leaves it empty.
-/

namespace KfkClient

open CLib Lists OrderedMap LevelDb
open Std (ExtTreeMap)

/-- The message an event caches on the topic. -/
def cachedOn (t : Topic) : Event → Option CString
  | .sendMsgWithCache msg topic => if topic.name.bytes = t.name.bytes then some msg else none
  | _ => none

theorem Outbox.step_sent (t : Topic) (accepts : ℕ → Bool) (o : Outbox) (e : Event) :
    (o.step t accepts e).sent = o.sent ++ (cachedOn t e).toList := by
  cases e with
  | sendMsgWithCache msg topic =>
    by_cases h : topic.name.bytes = t.name.bytes
    · simp [step, cachedOn, h, cache]
    · simp [step, cachedOn, h]
  | receipt i err =>
    rw [step]
    cases err with
    | true => simp [cachedOn]
    | false => cases (o.flight[i]?).join <;> simp [cachedOn, confirm, ack]
  | _ => simp [step, cachedOn]

/-- The account has the messages of the calls on the topic, in their order. -/
theorem Outbox.after_sent (t : Topic) (accepts : ℕ → Bool) (es : List Event) :
    (after t accepts es).sent = es.filterMap (cachedOn t) := by
  have hgen : ∀ o : Outbox, (es.foldl (step t accepts) o).sent =
      o.sent ++ es.filterMap (cachedOn t) := by
    induction es with
    | nil => simp
    | cons e es ih =>
      intro o
      rw [List.foldl_cons, ih, step_sent, List.append_assoc]
      cases h : cachedOn t e <;> simp [h]
  exact (hgen init).trans (List.nil_append _)

/-- The database holds the counter record and exactly the messages it should. -/
structure ExactCache (t : CString) (o : Outbox) (db : Map) : Prop where
  no_counter : o.sent = [] → db[counterKey t.bytes]? = none
  counter : o.sent ≠ [] → ∃ v, db[counterKey t.bytes]? = some v ∧ atol v = o.sent.length
  entry : ∀ i m, o.held i = some m → db[messageKey t.bytes i]? = some m.bytes
  only : ∀ k ∈ db, k = counterKey t.bytes ∨ ∃ i m, o.held i = some m ∧ k = messageKey t.bytes i

theorem Caches.exact {t : CString} {o : Outbox} {db : Map} (h : Caches t o db)
    (hshort : ∀ m ∈ o.sent, m.bytes.length < 2 ^ 31) : ExactCache t o db := by
  refine ⟨h.fresh, ?_, ?_, ?_⟩
  · intro hne
    have hc := h.counts
    rw [Counts] at hc
    split at hc
    · exact absurd (List.length_eq_zero_iff.mp hc) hne
    · next v hv => exact ⟨v, hv, hc.atol_eq h.number⟩
  · intro i m hi
    have hlt := Outbox.held_lt hi
    have hm : m ∈ o.sent := by
      rw [Outbox.held] at hi
      split at hi
      · cases hi
      · exact List.mem_of_getElem? hi
    rw [h.entry i (h.number.mono hlt.le), hi, Option.map_some, storedBytes_of_lt (hshort m hm)]
  · intro k hk
    rcases h.shaped k hk with rfl | ⟨i, hi, rfl⟩
    · exact .inl rfl
    · obtain ⟨v, hv⟩ := mem_iff_exists_get.mp hk
      rw [h.entry i hi, Option.map_eq_some_iff] at hv
      obtain ⟨m, hm, -⟩ := hv
      exact .inr ⟨i, m, hm, rfl⟩

theorem Refines.send_returns {t : Topic} {w : World Map} {o : Outbox}
    (hfit : t.name.bytes.length ≤ 235 ∨ o.sent.length ≤ 50000) (h : Refines t.name w o)
    (accepts : ℕ → Bool) {msg : CString} (hm : 0 ≤ toInt msg.bytes.length)
    (hn : IsNumber (o.sent.length + 1)) :
    ∃ w', step levelDb accepts w (.sendMsgWithCache msg t) = some w' := by
  obtain ⟨s, hs⟩ := storeMsg_returns levelDb_faithful t.legal.cacheable hfit
    (keysOk_all t.name) hn h.caches.shaped h.caches.counts hm
  exact ⟨_, step_sendMsgWithCache_iff.mpr ⟨_, s, hs, rfl⟩⟩

/-- After every run in which the messages cached on the topic are shorter than 2 GiB,
its database holds exactly what it should, and the next call on it returns. -/
theorem cache_content_exact (t : Topic) (hfit : t.name.bytes.length ≤ 235) (accepts : ℕ → Bool)
    (es : List Event) (w : World Map)
    (hplain : ∀ msg topic, .sendMsg msg topic ∈ es → topic.name.bytes ≠ t.name.bytes)
    (hshort : ∀ m ∈ es.filterMap (cachedOn t), m.bytes.length < 2 ^ 31)
    (h : Transition.run (step levelDb accepts) World.init es = some w) :
    ExactCache t.name (Outbox.after t accepts es) (w.db levelDb t.name.bytes) ∧
      ∀ msg : CString, msg.bytes.length < 2 ^ 31 →
        (es.filterMap (cachedOn t)).length + 1 < 2 ^ 63 →
        ∃ w', step levelDb accepts w (.sendMsgWithCache msg t) = some w' := by
  have hR := run_refines t hplain h
  rw [← Outbox.after_sent t accepts] at hshort
  refine ⟨hR.caches.exact hshort, ?_⟩
  intro msg hmsg hcount
  apply hR.send_returns (.inl hfit) accepts
  · rw [toInt_of_lt hmsg]
    omega
  · rw [Outbox.after_sent]
    exact isNumber_of_lt hcount

theorem first_send_returns (msg : CString) (hm : 0 ≤ toInt msg.bytes.length)
    (accepts : ℕ → Bool) :
    ∃ w, Transition.run (step levelDb accepts) World.init
      [.sendMsgWithCache msg Topic.sample] = some w := by
  have hR := refines_init Topic.sample.name
  have hn : IsNumber (Outbox.init.sent.length + 1) := isNumber_of_lt (by decide)
  obtain ⟨w, hw⟩ := hR.send_returns (.inl (by decide)) accepts hm hn
  exact ⟨w, Transition.run_cons_some hw []⟩

/-- The successful receipt of a message of the topic is processed. -/
theorem Refines.receipt_returns {t : Topic} {w : World Map} {o : Outbox} (h : Refines t.name w o)
    (accepts : ℕ → Bool) {i n : ℕ} (hi : o.flight[i]? = some (some n)) :
    ∃ w', step levelDb accepts w (.receipt i false) = some w' := by
  obtain ⟨wire, hw, htop, hkey, hlt⟩ := forall₂_getElem h.flight.flip hi
  have hn : IsNumber n := h.caches.number.mono hlt.le
  obtain ⟨rc, hrun⟩ := sendMsgCallback_run levelDb_faithful hn t.legal.cacheable.length_le
    trivial (w.db levelDb t.name.bytes)
  rw [← receiptNumber_keystr hn, ← hkey, ← htop] at hrun
  exact ⟨_, step_receipt_ok hw hrun⟩

/-- Two messages are cached, and the first is delivered. -/
def deliveredFirst : List Event :=
  [.addTopic Topic.sample, .sendMsgWithCache msgA Topic.sample,
    .sendMsgWithCache msgB Topic.sample, .receipt 0 false]

theorem deliveredFirst_run :
    ∃ w, Transition.run (step levelDb fun _ => true) World.init deliveredFirst = some w ∧
      Refines Topic.sample.name w (Outbox.after Topic.sample (fun _ => true) deliveredFirst) := by
  have hshort : ∀ msg ∈ [msgA, msgB], 0 ≤ toInt msg.bytes.length := by
    intro msg hmsg
    refine toInt_length_nonneg ?_
    rcases List.mem_pair.mp hmsg with rfl | rfl <;> decide
  have hfit : Topic.sample.name.bytes.length ≤ 235 := by decide
  have hinit := refines_init Topic.sample.name
  obtain ⟨w₀, h₀⟩ : ∃ w₀, step levelDb (fun _ => true) World.init (.addTopic Topic.sample) =
      some w₀ := ⟨_, rfl⟩
  have hR₀ := step_refines hinit (by simp) h₀
  obtain ⟨w₁, h₁⟩ := hR₀.send_returns (.inl hfit) (fun _ => true) (hshort msgA (by simp))
    (isNumber_of_lt (by decide))
  have hR₁ := step_refines hR₀ (by simp) h₁
  obtain ⟨w₂, h₂⟩ := hR₁.send_returns (.inl hfit) (fun _ => true) (hshort msgB (by simp))
    (isNumber_of_lt (by decide))
  have hR₂ := step_refines hR₁ (by simp) h₂
  obtain ⟨w₃, h₃⟩ := hR₂.receipt_returns (fun _ => true) (i := 0) (n := 0) (by decide)
  refine ⟨w₃, ?_, step_refines hR₂ (by simp) h₃⟩
  rw [deliveredFirst, Transition.run_cons_some h₀, Transition.run_cons_some h₁,
    Transition.run_cons_some h₂]
  exact Transition.run_cons_some h₃ []

theorem cache_content_exact_delivered :
    ∃ w, Transition.run (step levelDb fun _ => true) World.init deliveredFirst = some w ∧
      (Outbox.after Topic.sample (fun _ => true) deliveredFirst).held 0 = none ∧
      (Outbox.after Topic.sample (fun _ => true) deliveredFirst).held 1 = some msgB ∧
      ExactCache Topic.sample.name (Outbox.after Topic.sample (fun _ => true) deliveredFirst)
        (w.db levelDb Topic.sample.name.bytes) := by
  obtain ⟨w, hw, -⟩ := deliveredFirst_run
  refine ⟨w, hw, rfl, rfl, ?_⟩
  refine (cache_content_exact Topic.sample (by decide) _ _ w ?_ ?_ hw).1
  · simp [deliveredFirst]
  · intro m hm
    have hsent : deliveredFirst.filterMap (cachedOn Topic.sample) = [msgA, msgB] := rfl
    rw [hsent, List.mem_pair] at hm
    rcases hm with rfl | rfl <;> decide

/-- The message of `n` times `x`. -/
def xMessage (n : ℕ) : CString where
  bytes := List.replicate n 120
  nul_free := fun h => absurd (List.eq_of_mem_replicate h) (by decide)

theorem length_xMessage (n : ℕ) : (xMessage n).bytes.length = n := List.length_replicate

theorem toInt_xMessage_huge : toInt (xMessage (2 ^ 32)).bytes.length = 0 := by
  rw [length_xMessage, toInt]
  decide

/-- A message of 4 GiB is cached as the empty string. -/
theorem huge_message_not_cached :
    ∃ w, Transition.run (step levelDb fun _ => true) World.init
        [.sendMsgWithCache (xMessage (2 ^ 32)) Topic.sample] = some w ∧
      ¬ ExactCache Topic.sample.name
        (Outbox.after Topic.sample (fun _ => true)
          [.sendMsgWithCache (xMessage (2 ^ 32)) Topic.sample])
        (w.db levelDb Topic.sample.name.bytes) := by
  obtain ⟨w, hw⟩ := first_send_returns (xMessage (2 ^ 32)) toInt_xMessage_huge.ge fun _ => true
  refine ⟨w, hw, ?_⟩
  intro hexact
  have hR := run_refines Topic.sample (by simp) hw
  set o := Outbox.after Topic.sample (fun _ => true)
    [.sendMsgWithCache (xMessage (2 ^ 32)) Topic.sample] with ho
  have hheld : o.held 0 = some (xMessage (2 ^ 32)) := by
    have hsent : o.sent = [xMessage (2 ^ 32)] := by
      rw [ho, Outbox.after_sent]
      simp [cachedOn]
    have hack : o.acked = ∅ := by simp [ho, Outbox.after, Outbox.step, Outbox.cache, Outbox.init]
    simp [Outbox.held, hsent, hack]
  have hentry := hexact.entry 0 (xMessage (2 ^ 32)) hheld
  have hstored := hR.caches.entry 0 (hR.caches.number.mono (Nat.zero_le _))
  rw [hheld, Option.map_some, storedBytes, toInt_xMessage_huge, Nat.cast_zero] at hstored
  rw [Nat.cast_zero, hstored] at hentry
  have hlen := congrArg List.length (Option.some.inj hentry)
  rw [length_xMessage] at hlen
  exact absurd hlen (by decide)

/-! ### Runs whose messages were all delivered -/

/-- Every non-empty message is confirmed or in flight, and no empty one ever is. -/
structure Draining (t : Topic) (o : Outbox) : Prop where
  added : t.name.bytes ∈ o.topics
  pending : ∀ i m, o.sent[i]? = some m → m.bytes ≠ [] → i ∈ o.acked ∨ some i ∈ o.flight
  acked : ∀ i ∈ o.acked, ∃ m, o.sent[i]? = some m ∧ m.bytes ≠ []
  flight : ∀ i, some i ∈ o.flight → ∃ m, o.sent[i]? = some m ∧ m.bytes ≠ []

theorem Draining.send {t : Topic} {o : Outbox} (h : Draining t o) (msg : CString) :
    Draining t (o.step t (fun _ => true) (.sendMsgWithCache msg t)) := by
  set o' := o.step t (fun _ => true) (.sendMsgWithCache msg t) with ho'
  have hsent : o'.sent = o.sent ++ [msg] := by
    rw [Outbox.step_sent, cachedOn, if_pos rfl]
    rfl
  have hacked : o'.acked = o.acked := by simp [ho', Outbox.step, Outbox.cache]
  have hadded : t.name.bytes ∈ o'.topics ∧ o'.flight =
      o.flight ++ if msg.bytes = [] then [] else [some o.sent.length] := by
    have hin : t.name.bytes ∈ (o.cache msg).topics := h.added
    rw [ho', Outbox.step, if_pos rfl, Outbox.handOver]
    by_cases hm : msg.bytes = []
    · simp only [hin, hm, ne_eq, not_true_eq_false, and_false, if_false, if_true,
        List.append_nil]
      exact ⟨trivial, rfl⟩
    · simp only [hin, hm, ne_eq, not_false_eq_true, and_self, if_true, if_false]
      exact ⟨trivial, rfl⟩
  obtain ⟨hadded, hflight⟩ := hadded
  refine ⟨hadded, ?_, ?_, ?_⟩
  · intro i m hi hne
    rw [hsent, getElem?_snoc] at hi
    rw [hacked, hflight, List.mem_append]
    rcases hi with hi | ⟨rfl, rfl⟩
    · exact (h.pending i m hi hne).imp_right .inl
    · exact .inr (.inr (by simp [hne]))
  · intro i hi
    rw [hacked] at hi
    obtain ⟨m, hs, hne⟩ := h.acked i hi
    exact ⟨m, by rw [hsent, getElem?_snoc]; exact .inl hs, hne⟩
  · intro i hi
    rw [hflight, List.mem_append] at hi
    rcases hi with hf | hl
    · obtain ⟨m, hs, hne⟩ := h.flight i hf
      exact ⟨m, by rw [hsent, getElem?_snoc]; exact .inl hs, hne⟩
    · by_cases hm : msg.bytes = []
      · simp [hm] at hl
      · simp only [hm, if_false, List.mem_singleton, Option.some.injEq] at hl
        exact ⟨msg, by rw [hsent, getElem?_snoc]; exact .inr ⟨hl, rfl⟩, hm⟩

theorem Draining.receipt {t : Topic} {o : Outbox} (h : Draining t o) (i : ℕ) :
    Draining t (o.step t (fun _ => true) (.receipt i false)) := by
  simp only [Outbox.step, Bool.false_eq_true, if_false]
  have hkeep : ∀ {j}, some j ∈ o.flight → (o.flight[i]?).join ≠ some j →
      some j ∈ o.flight.eraseIdx i := by
    intro j hj hne
    obtain ⟨l, hl⟩ := List.mem_iff_getElem?.mp hj
    apply List.mem_eraseIdx_iff_getElem?.mpr
    refine ⟨l, ?_, hl⟩
    rintro rfl
    rw [hl] at hne
    exact hne rfl
  have hsub : ∀ {j}, some j ∈ o.flight.eraseIdx i → some j ∈ o.flight :=
    fun hj => List.mem_of_mem_eraseIdx hj
  cases htag : (o.flight[i]?).join with
  | none =>
    rw [htag] at hkeep
    refine ⟨h.added, ?_, h.acked, fun j hj => h.flight j (hsub hj)⟩
    intro j m hj hne
    exact (h.pending j m hj hne).imp_right fun hf => hkeep hf (by simp)
  | some n =>
    rw [htag] at hkeep
    have hn : some n ∈ o.flight := by
      rw [Option.join_eq_some_iff] at htag
      exact List.mem_of_getElem? htag
    refine ⟨h.added, ?_, ?_, fun j hj => h.flight j (hsub hj)⟩
    · intro j m hj hne
      show j ∈ insert n o.acked ∨ some j ∈ o.flight.eraseIdx i
      by_cases hjn : j = n
      · exact .inl (by simp [hjn])
      rcases h.pending j m hj hne with ha | hf
      · exact .inl (Finset.mem_insert_of_mem ha)
      · exact .inr (hkeep hf (by simpa using fun he : n = j => hjn he.symm))
    · intro j hj
      rcases Finset.mem_insert.mp hj with rfl | hj
      · exact h.flight j hn
      · exact h.acked j hj

theorem after_draining {t : Topic} {es : List Event}
    (hes : ∀ e ∈ es, (∃ msg, e = .sendMsgWithCache msg t) ∨ ∃ i, e = .receipt i false) :
    Draining t (Outbox.after t (fun _ => true) (.addTopic t :: es)) := by
  have hgen : ∀ o, Draining t o → Draining t (es.foldl (Outbox.step t fun _ => true) o) := by
    induction es with
    | nil => exact fun o ho => ho
    | cons e es ih =>
      intro o ho
      refine ih (fun e' he' => hes e' (List.mem_cons_of_mem _ he')) _ ?_
      rcases hes e List.mem_cons_self with ⟨msg, rfl⟩ | ⟨i, rfl⟩
      · exact ho.send msg
      · exact ho.receipt i
  apply hgen
  refine ⟨by simp [Outbox.step], ?_, ?_, ?_⟩ <;> simp [Outbox.step, Outbox.init]

/-- When nothing is in flight any more, what the account still holds is exactly the
empty messages among the latest. -/
theorem Draining.held_iff {t : Topic} {o : Outbox} (h : Draining t o) (hdone : o.flight = [])
    {i : ℕ} {m : CString} :
    o.held i = some m ↔
      o.sent[i]? = some m ∧ m.bytes = [] ∧ o.sent.length ≤ i + 50001 := by
  rw [Outbox.held]
  constructor
  · intro hi
    split at hi
    · cases hi
    · next hno =>
        refine ⟨hi, ?_, by omega⟩
        by_contra hne
        rcases h.pending i m hi hne with ha | hf
        · exact hno (.inl ha)
        · rw [hdone] at hf
          cases hf
  · rintro ⟨hi, hm, hlen⟩
    rw [if_neg, hi]
    rintro (ha | hlt)
    · obtain ⟨m', hm', hne⟩ := h.acked i ha
      rw [hi] at hm'
      cases hm'
      exact hne hm
    · omega

/-- A run of accepted sends and their successful receipts leaves no message entry
exactly when none of its 50001 latest messages is empty. -/
theorem delivered_run_drains_iff (t : Topic) (es : List Event) (w : World Map)
    (hes : ∀ e ∈ es, (∃ msg, e = .sendMsgWithCache msg t) ∨ ∃ i, e = .receipt i false)
    (h : Transition.run (step levelDb fun _ => true) World.init (.addTopic t :: es) = some w)
    (hdone : w.inflight = []) :
    (∀ k ∈ w.db levelDb t.name.bytes, k = counterKey t.name.bytes) ↔
      ∀ i m, (es.filterMap (cachedOn t))[i]? = some m →
        (es.filterMap (cachedOn t)).length ≤ i + 50001 → m.bytes ≠ [] := by
  have hplain : ∀ msg topic, .sendMsg msg topic ∈ Event.addTopic t :: es →
      topic.name.bytes ≠ t.name.bytes := by
    intro msg topic hm
    rcases List.mem_cons.mp hm with he | hm
    · cases he
    · rcases hes _ hm with ⟨_, he⟩ | ⟨_, he⟩ <;> cases he
  have hR := run_refines t hplain h
  have hsent := Outbox.after_sent t (fun _ => true) (.addTopic t :: es)
  simp only [List.filterMap_cons, cachedOn] at hsent
  have hdrain := after_draining hes
  set o := Outbox.after t (fun _ => true) (.addTopic t :: es) with ho
  have hflight : o.flight = [] := by
    have hf := hR.flight
    rw [hdone] at hf
    exact List.forall₂_nil_left_iff.mp hf
  have hnum := hR.caches.number
  rw [← hsent]
  constructor
  · intro honly i m hi hlen hm
    have hheld := (hdrain.held_iff hflight).mpr ⟨hi, hm, hlen⟩
    have hin : IsNumber i := hnum.mono (Outbox.held_lt hheld).le
    have hmem : messageKey t.name.bytes i ∈ w.db levelDb t.name.bytes := by
      apply mem_iff_exists_get.mpr
      exact ⟨storedBytes m, by rw [hR.caches.entry i hin, hheld]; rfl⟩
    exact messageKey_ne_counterKey _ _ (honly _ hmem)
  · intro hne k hk
    rcases hR.caches.shaped k hk with hc | ⟨i, hi, rfl⟩
    · exact hc
    · obtain ⟨v, hv⟩ := mem_iff_exists_get.mp hk
      rw [hR.caches.entry i hi, Option.map_eq_some_iff] at hv
      obtain ⟨m, hm, -⟩ := hv
      obtain ⟨hs, hemp, hlen⟩ := (hdrain.held_iff hflight).mp hm
      exact absurd hemp (hne i m hs hlen)

theorem addTopic_send_returns (msg : CString) (hm : 0 ≤ toInt msg.bytes.length)
    (accepts : ℕ → Bool) :
    ∃ w, Transition.run (step levelDb accepts) World.init
      [.addTopic Topic.sample, .sendMsgWithCache msg Topic.sample] = some w := by
  have hadd : Transition.run (step levelDb accepts) World.init [.addTopic Topic.sample] =
    some ⟨∅, [[116]], [], []⟩ := rfl
  have hR := run_refines Topic.sample (by simp) hadd
  have hn : IsNumber
      ((Outbox.after Topic.sample accepts [.addTopic Topic.sample]).sent.length + 1) := by
    show IsNumber 1
    exact isNumber_of_lt (by decide)
  obtain ⟨w, hw⟩ := hR.send_returns (.inl (by decide)) accepts hm hn
  have hrun := Transition.run_snoc hadd hw
  exact ⟨w, hrun⟩

/-- One message, sent and delivered. -/
theorem delivered_run_drains_one_message :
    ∃ w, Transition.run (step levelDb fun _ => true) World.init
        [.addTopic Topic.sample, .sendMsgWithCache ⟨[109], by decide⟩ Topic.sample,
          .receipt 0 false] = some w ∧
      ∀ k ∈ w.db levelDb Topic.sample.name.bytes, k = counterKey Topic.sample.name.bytes := by
  have hm : toInt ([109] : Bytes).length = (1 : ℕ) := toInt_of_lt (by decide)
  obtain ⟨w1, hw1⟩ := addTopic_send_returns ⟨[109], by decide⟩ (by rw [hm]; decide) fun _ => true
  have hR1 := run_refines Topic.sample (by simp) hw1
  obtain ⟨w, hw⟩ := hR1.receipt_returns (i := 0) (n := 0) (fun _ => true) rfl
  have hrun : Transition.run (step levelDb fun _ => true) World.init
      [.addTopic Topic.sample, .sendMsgWithCache ⟨[109], by decide⟩ Topic.sample,
        .receipt 0 false] = some w := by
    have hrun := Transition.run_snoc hw1 hw
    exact hrun
  refine ⟨w, hrun, ?_⟩
  have hflight := (run_refines Topic.sample (by simp) hrun).flight
  refine (delivered_run_drains_iff Topic.sample
    [.sendMsgWithCache ⟨[109], by decide⟩ Topic.sample, .receipt 0 false] w ?_ hrun
    (List.forall₂_nil_right_iff.mp hflight)).mpr ?_
  · simp
  · intro i m hi _
    have hmem := List.mem_of_getElem? hi
    simp only [cachedOn, List.filterMap_cons, if_true, List.filterMap_nil,
      List.mem_singleton] at hmem
    simp [hmem]

/-- An empty message is cached and never leaves the cache. -/
theorem empty_message_stays :
    ∃ w, Transition.run (step levelDb fun _ => true) World.init
        [.addTopic Topic.sample, .sendMsgWithCache ⟨[], by decide⟩ Topic.sample] = some w ∧
      w.inflight = [] ∧
      ¬ ∀ k ∈ w.db levelDb Topic.sample.name.bytes, k = counterKey Topic.sample.name.bytes := by
  have hm : toInt ([] : Bytes).length = (0 : ℕ) := toInt_of_lt (by decide)
  obtain ⟨w, hw⟩ := addTopic_send_returns ⟨[], by decide⟩ (by rw [hm]; decide) fun _ => true
  have hR := run_refines Topic.sample (by simp) hw
  refine ⟨w, hw, List.forall₂_nil_right_iff.mp hR.flight, ?_⟩
  intro honly
  have h0 : IsNumber 0 := hR.caches.number.mono (Nat.zero_le _)
  have hentry := hR.caches.entry 0 h0
  exact messageKey_ne_counterKey _ _ (honly _ (mem_iff_exists_get.mpr ⟨_, hentry⟩))

end KfkClient
