import KfkClient.Client.Content

/-!
# Whether the eviction loop ends

On a topic of at most 235 bytes every round of the loop that does not break deletes an
entry. The key of a longer topic does not fit into `ktmp[256]`: the round deletes nothing,
and since nothing has changed the loop repeats it for ever.
-/

namespace KfkClient

open CLib OrderedMap LevelDb
open Std (ExtTreeMap)

/-- A round of the loop that does not break. -/
def Round (topic : CString) (num : ℤ) (s s' : Map) : Prop :=
  num > numMax ∧ (evictRound levelDb topic num).run s = .ok true s'

structure LoopEnds (topic : CString) (num : ℤ) (s : Map) : Prop where
  returns : ∃ fuel s', (evictLoop levelDb topic num fuel).run s = .ok () s'
  deletes : ∀ r r', Relation.ReflTransGen (Round topic num) s r → Round topic num r r' →
    ∃ k ∈ r, r' = r.erase k

/-- A database in the loop of number `n`: its own message is in it. -/
structure InLoop (topic : CString) (n : ℕ) (s : Map) : Prop where
  number : IsNumber n
  shaped : Shaped topic s
  own : messageKey topic.bytes n ∈ s

section Loop

variable {topic : CString} (ht : Cacheable topic) {n : ℕ} {s : Map}

theorem loopEnds_of_small (h : n ≤ 50000) : LoopEnds topic n s := by
  refine ⟨⟨1, s, evictLoop_small levelDb h 0 s⟩, ?_⟩
  rintro r r' - ⟨hmax, -⟩
  simp only [numMax] at hmax
  omega

include ht

/-- The digits of the oldest number that fit into the buffer decide the round. -/
theorem InLoop.round (h : InLoop topic n s) :
    ∃ i, IsNumber i ∧ i ≤ n ∧ messageKey topic.bytes i ∈ s ∧
      (∀ j, IsNumber j → messageKey topic.bytes j ∈ s → i ≤ j) ∧
      (evictRound levelDb topic n).run s =
        if i / 10 ^ (topic.bytes.length - 235) + 50000 < n then
          .ok true (if topic.bytes.length ≤ 235 then s.erase (messageKey topic.bytes i) else s)
        else .ok false s := by
  obtain ⟨i, v, hi, hf, hmin⟩ := h.shaped.first_message ht h.number h.own
  have hin := hmin n h.number h.own
  refine ⟨i, hi, hin, mem_iff_exists_get.mpr ⟨v, (first?_spec hf).1⟩, hmin, ?_⟩
  rw [evictRound_run levelDb_faithful ht (keysOk_all topic) h.number hi hin hf,
    h.shaped.erase_cut ht hi]

theorem InLoop.erases (hfit : topic.bytes.length ≤ 235) (h : InLoop topic n s) {s' : Map}
    (hr : Round topic n s s') : InLoop topic n s' ∧ ∃ k ∈ s, s' = s.erase k := by
  obtain ⟨i, hi, -, hmem, -, hround⟩ := h.round ht
  rw [hr.2, offset_of_fits hfit, if_pos hfit] at hround
  split at hround
  swap
  · cases hround
  next hold =>
    have hs' : s' = s.erase (messageKey topic.bytes i) := by
      injection hround
    refine ⟨⟨h.number, ?_, ?_⟩, _, hmem, hs'⟩
    · rw [hs']
      exact h.shaped.erase _
    · rw [hs']
      exact mem_erase_older hi h.number (by omega) h.own

theorem loopEnds_of_fits (hfit : topic.bytes.length ≤ 235) (h : InLoop topic n s) :
    LoopEnds topic n s := by
  obtain ⟨s', hs'⟩ := evictLoop_returns levelDb_faithful ht hfit (keysOk_all topic) h.number
    h.shaped h.own (Nat.lt_succ_self s.size)
  refine ⟨⟨_, s', hs'⟩, ?_⟩
  have hreach : ∀ r, Relation.ReflTransGen (Round topic n) s r → InLoop topic n r := by
    intro r hr
    induction hr with
    | refl => exact h
    | tail _ hstep ih => exact (ih.erases ht hfit hstep).1
  exact fun r r' hr hround => ((hreach r hr).erases ht hfit hround).2

/-- A loop whose first round breaks ends there. -/
theorem loopEnds_of_recent (hmax : 50000 < n) (h : InLoop topic n s)
    (hrecent : ∀ i, IsNumber i → messageKey topic.bytes i ∈ s →
      n ≤ i / 10 ^ (topic.bytes.length - 235) + 50000) : LoopEnds topic n s := by
  obtain ⟨i, hi, -, hmem, -, hround⟩ := h.round ht
  rw [if_neg (not_lt.mpr (hrecent i hi hmem))] at hround
  refine ⟨⟨1, s, evictLoop_breaks levelDb hmax hround 0⟩, ?_⟩
  have hno : ∀ r, ¬ Round topic n s r := by
    rintro r ⟨-, hr⟩
    rw [hround] at hr
    cases hr
  intro r r' hreach hr
  rcases hreach.cases_head with rfl | ⟨m, hm, -⟩
  · exact absurd hr (hno r')
  · exact absurd hm (hno m)

/-- A loop whose first round goes on without deleting anything never ends. -/
theorem evictLoop_diverges (hlong : 235 < topic.bytes.length) (hmax : 50000 < n)
    (h : InLoop topic n s) {j : ℕ} (hj : IsNumber j) (hmem : messageKey topic.bytes j ∈ s)
    (hold : j / 10 ^ (topic.bytes.length - 235) + 50000 < n) (fuel : ℕ) :
    (evictLoop levelDb topic n fuel).run s = .error .diverges s := by
  obtain ⟨i, -, -, -, hmin, hround⟩ := h.round ht
  have hij : i / 10 ^ (topic.bytes.length - 235) ≤ j / 10 ^ (topic.bytes.length - 235) :=
    Nat.div_le_div_right (hmin j hj hmem)
  rw [if_pos (by omega), if_neg (by omega)] at hround
  induction fuel with
  | zero => rfl
  | succ fuel ih => rw [evictLoop_goes levelDb hmax hround, ih]

theorem loopEnds_iff (h : InLoop topic n s) :
    LoopEnds topic n s ↔ n ≤ 50000 ∨ topic.bytes.length ≤ 235 ∨
      ∀ i, IsNumber i → messageKey topic.bytes i ∈ s →
        n ≤ i / 10 ^ (topic.bytes.length - 235) + 50000 := by
  constructor
  · intro hends
    by_contra hno
    push Not at hno
    obtain ⟨hmax, hlong, j, hj, hmem, hold⟩ := hno
    obtain ⟨fuel, s', hs'⟩ := hends.returns
    rw [evictLoop_diverges ht hlong hmax h hj hmem hold] at hs'
    cases hs'
  · rintro (hsmall | hfit | hrecent)
    · exact loopEnds_of_small hsmall
    · exact loopEnds_of_fits ht hfit h
    · by_cases hmax : 50000 < n
      · exact loopEnds_of_recent ht hmax h hrecent
      · exact loopEnds_of_small (by omega)

end Loop

/-! ### Reachable states -/

/-- The database that the loop starts on holds the entries it held before the call and the
message of the call. -/
theorem Caches.inLoop {t : CString} (ht : Cacheable t) {o : Outbox} {db : Map}
    (h : Caches t o db) {msg : CString} {num : ℤ} {s : Map}
    (hputs : (storePuts levelDb msg t).run db = .ok num s) :
    num = o.sent.length ∧ InLoop t o.sent.length s ∧
      ∀ i, IsNumber i →
        (messageKey t.bytes i ∈ s ↔ messageKey t.bytes i ∈ db ∨ i = o.sent.length) := by
  obtain ⟨hnum, -, v, -, hs⟩ := storePuts_eq_ok levelDb_faithful ht.length_le (keysOk_all t)
    h.number h.counts hputs
  have hmem : ∀ i, IsNumber i →
      (messageKey t.bytes i ∈ s ↔ messageKey t.bytes i ∈ db ∨ i = o.sent.length) := by
    intro i hi
    have hne := messageKey_ne_counterKey t.bytes i
    rw [hs, mem_insert_iff, mem_insert_iff, or_iff_right hne, messageKey_inj hi h.number, or_comm]
  refine ⟨hnum, ⟨h.number, ?_, (hmem _ h.number).mpr (.inr rfl)⟩, hmem⟩
  rw [hs]
  exact (h.shaped.insert _ (.inr ⟨_, h.number, rfl⟩)).insert _ (.inl rfl)

/-- In every state reached, the loop of a call ends, every round that does not break
deleting an entry, exactly when the number of the call is at most 50000, or the topic has
at most 235 bytes, or no entry looks old by the digits of its number that fit into
`ktmp[256]`. -/
theorem eviction_ends_iff (t : Topic) (accepts : ℕ → Bool) (es : List Event) (w : World Map)
    (hplain : ∀ msg topic, .sendMsg msg topic ∈ es → topic.name.bytes ≠ t.name.bytes)
    (h : Transition.run (step levelDb accepts) World.init es = some w) (msg : CString) (num : ℤ)
    (s : Map) (hputs : (storePuts levelDb msg t.name).run (w.db levelDb t.name.bytes) = .ok num s) :
    LoopEnds t.name num s ↔
      (es.filterMap (cachedOn t)).length ≤ 50000 ∨ t.name.bytes.length ≤ 235 ∨
        ∀ i, IsNumber i →
          messageKey t.name.bytes i ∈ w.db levelDb t.name.bytes ∨
            i = (es.filterMap (cachedOn t)).length →
          (es.filterMap (cachedOn t)).length ≤
            i / 10 ^ (t.name.bytes.length - 235) + 50000 := by
  have ht := t.legal.cacheable
  have hR := run_refines t hplain h
  obtain ⟨rfl, hloop, hmem⟩ := hR.caches.inLoop ht hputs
  rw [loopEnds_iff ht hloop, ← Outbox.after_sent t accepts]
  refine or_congr_right (or_congr_right (forall₂_congr fun i hi => ?_))
  rw [hmem i hi]

/-! ### Sending the message `m` again and again -/

def sendsOn (t : Topic) (k : ℕ) : List Event :=
  List.replicate k (.sendMsgWithCache ⟨[109], by decide⟩ t)

section SendsOn

variable (t : Topic) {k : ℕ}

theorem cachedOn_sendsOn (k : ℕ) : ((sendsOn t k).filterMap (cachedOn t)).length = k := by
  simp [sendsOn, cachedOn]

theorem not_plain_sendsOn (k : ℕ) :
    ∀ msg topic, .sendMsg msg topic ∈ sendsOn t k → topic.name.bytes ≠ t.name.bytes := by
  intro msg topic hmem
  cases List.eq_of_mem_replicate hmem

theorem sendsOn_return (hk : k ≤ 50001) :
    ∃ w, Transition.run (step levelDb fun _ => true) World.init (sendsOn t k) = some w := by
  induction k with
  | zero => exact ⟨World.init, rfl⟩
  | succ k ih =>
    obtain ⟨w, hw⟩ := ih (by omega)
    have hR := run_refines t (not_plain_sendsOn t k) hw
    have hlen : (Outbox.after t (fun _ => true) (sendsOn t k)).sent.length = k := by
      rw [Outbox.after_sent, cachedOn_sendsOn]
    have hm : 0 ≤ toInt (⟨[109], by decide⟩ : CString).bytes.length :=
      toInt_length_nonneg (by decide)
    obtain ⟨w', hw'⟩ := hR.send_returns (.inr (by omega)) (fun _ => true) hm
      (isNumber_of_lt (by omega))
    refine ⟨w', ?_⟩
    rw [sendsOn, List.replicate_succ']
    exact Transition.run_snoc hw hw'

/-- The puts of the next call, which uses number `k`. -/
theorem sendsOn_puts (hk : k ≤ 50001) {w : World Map}
    (hw : Transition.run (step levelDb fun _ => true) World.init (sendsOn t k) = some w) :
    ∃ s, (storePuts levelDb ⟨[109], by decide⟩ t.name).run (w.db levelDb t.name.bytes) =
      .ok k s := by
  have hcounts := (run_refines t (not_plain_sendsOn t k) hw).caches.counts
  rw [Outbox.after_sent, cachedOn_sendsOn] at hcounts
  obtain ⟨v, -, hputs⟩ := storePuts_run levelDb_faithful t.legal.cacheable.length_le
    (keysOk_all _) (isNumber_of_lt (by omega)) hcounts
    (toInt_length_nonneg (by decide) : 0 ≤ toInt (⟨[109], by decide⟩ : CString).bytes.length)
  exact ⟨_, hputs⟩

end SendsOn

/-- After 50001 messages on the topic `t` the loop of the next call is entered, and it
ends. -/
theorem eviction_ends_after_50001 :
    ∃ w s, Transition.run (step levelDb fun _ => true) World.init
        (sendsOn Topic.sample 50001) = some w ∧
      (storePuts levelDb ⟨[109], by decide⟩ Topic.sample.name).run
        (w.db levelDb Topic.sample.name.bytes) = .ok (50001 : ℕ) s ∧
      LoopEnds Topic.sample.name (50001 : ℕ) s := by
  obtain ⟨w, hw⟩ := sendsOn_return Topic.sample le_rfl
  obtain ⟨s, hs⟩ := sendsOn_puts Topic.sample le_rfl hw
  exact ⟨w, s, hw, hs, (eviction_ends_iff Topic.sample (fun _ => true) _ w
    (not_plain_sendsOn Topic.sample 50001) hw _ _ s hs).mpr (.inr (.inl (by decide)))⟩

/-! ### A topic of 249 bytes -/

def Topic.longest : Topic where
  name := ⟨List.replicate 249 97, fun h => absurd (List.eq_of_mem_replicate h) (by decide)⟩
  legal := by
    have hlen : (List.replicate 249 (97 : UInt8)).length = 249 := List.length_replicate
    refine ⟨?_, hlen.le, ?_, ?_, ?_⟩
    · exact List.ne_nil_of_length_pos (by rw [hlen]; decide)
    · intro b hb
      rw [List.eq_of_mem_replicate hb]
      decide
    · exact fun h => absurd (congrArg List.length h) (by rw [hlen]; decide)
    · exact fun h => absurd (congrArg List.length h) (by rw [hlen]; decide)

/-- After 50001 messages on a topic of 249 bytes the loop of the next call never ends. -/
theorem eviction_diverges_on_longest_topic :
    ∃ w s, Transition.run (step levelDb fun _ => true) World.init
        (sendsOn Topic.longest 50001) = some w ∧
      (storePuts levelDb ⟨[109], by decide⟩ Topic.longest.name).run
        (w.db levelDb Topic.longest.name.bytes) = .ok (50001 : ℕ) s ∧
      ∀ fuel, (evictLoop levelDb Topic.longest.name (50001 : ℕ) fuel).run s =
        .error .diverges s := by
  have ht := Topic.longest.legal.cacheable
  obtain ⟨w, hw⟩ := sendsOn_return Topic.longest le_rfl
  obtain ⟨s, hs⟩ := sendsOn_puts Topic.longest le_rfl hw
  obtain ⟨-, hloop, -⟩ :=
    (run_refines Topic.longest (not_plain_sendsOn Topic.longest 50001) hw).caches.inLoop ht hs
  rw [Outbox.after_sent, cachedOn_sendsOn] at hloop
  have hlong : Topic.longest.name.bytes.length = 249 := List.length_replicate
  refine ⟨w, s, hw, hs, fun fuel => ?_⟩
  refine evictLoop_diverges ht (by omega) (by decide) hloop hloop.number hloop.own ?_ fuel
  rw [hlong]
  decide

end KfkClient
