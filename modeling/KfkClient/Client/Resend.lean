import KfkClient.Lib.Lists
import KfkClient.Client.World

/-!
# What `re_send` sends

`re_send` walks the listing of a database in the order of its keys, leaves out the
keys with `"~~zz"` at their front and sends the values of the others. On the cache of
a topic that is every message once, in the order of the numbers.
-/

namespace KfkClient

open CLib Lists OrderedMap
open Std (ExtTreeMap)

theorem skips_counterKey (topic : Bytes) : skips (counterKey topic) = true := by
  have hfind : strFind [126, 126, 122, 122] (counterKey topic) = some 0 := by
    rw [counterKey, List.cons_append, strFind, if_pos]
    exact List.prefix_append [126, 126, 122, 122] topic
  rw [skips, hfind]
  rfl

/-- A legal name holds no `'~'`, so no message of its topic is left out. -/
theorem skips_messageKey (t : Topic) {i : ℕ} (hi : IsNumber i) :
    skips (messageKey t.name.bytes i) = false := by
  have hno : (126 : UInt8) ∉ messageKey t.name.bytes i := by
    rw [messageKey_eq hi, List.mem_append, not_or]
    constructor
    · exact fun hm => absurd (t.legal.legal _ hm) (by decide)
    · exact fun hm => absurd (isDigit_of_mem_decPad hm) (by decide)
  rw [skips, strFind_eq_none hno]

section Loop

variable {σ : Type}

/-- The loop of `re_send` around any `send_msg`. -/
def reSendLoopWith (send : Bytes → Bytes → ℤ → Exec σ ℤ) (topic : Bytes) :
    List (Bytes × Bytes) → Exec σ Unit
  | [] => pure ()
  | node :: rest => do
    if skips node.1 then pure ()
    else
      let _ ← send node.2 topic (-1)
    reSendLoopWith send topic rest

theorem reSendLoop_eq_with (accepts : ℕ → Bool) (topic : Bytes) (l : List (Bytes × Bytes)) :
    (reSendLoop accepts topic l : Exec (World σ) Unit) =
      reSendLoopWith (producerSendMsg accepts) topic l := by
  induction l with
  | nil => rfl
  | cons node rest ih => rw [reSendLoop, reSendLoopWith, ih]

/-- One call of `send_msg` without a key for each message. -/
def sendEach (send : Bytes → Bytes → ℤ → Exec σ ℤ) (topic : Bytes) : List Bytes → Exec σ Unit
  | [] => pure ()
  | message :: rest => do
    let _ ← send message topic (-1)
    sendEach send topic rest

/-- The values of the entries that are not skipped. -/
def messagesOf (l : List (Bytes × Bytes)) : List Bytes :=
  (l.filter fun e => !skips e.1).map Prod.snd

/-- The calls that the loop makes: one for each entry whose key is not skipped. -/
theorem reSendLoopWith_calls (send : Bytes → Bytes → ℤ → Exec σ ℤ) (topic : Bytes)
    (l : List (Bytes × Bytes)) :
    reSendLoopWith send topic l = sendEach send topic (messagesOf l) := by
  induction l with
  | nil => rfl
  | cons node rest ih =>
    rw [reSendLoopWith, ih, messagesOf, messagesOf]
    cases hs : skips node.1 with
    | true => simp [hs]
    | false => simp [hs, sendEach]

theorem reSendListed_calls (accepts : ℕ → Bool) (topic : Bytes) (v : Map) :
    (reSendListed accepts topic v : Exec (World σ) Unit) =
      getProducer topic >>= fun _ =>
        sendEach (producerSendMsg accepts) topic (messagesOf v.toList) := by
  rw [reSendListed, reSendLoop_eq_with, reSendLoopWith_calls]

/-- Whatever is listed, the loop returns, and all it hands over are values of entries
that it does not skip. -/
theorem reSendLoop_hands (accepts : ℕ → Bool) (topic : Bytes) (l : List (Bytes × Bytes))
    (w : World σ) :
    ∃ w' handed, (reSendLoop accepts topic l).run w = .ok () w' ∧ w'.dirs = w.dirs ∧
      w'.produced = w.produced ++ handed ∧
      ∀ wire ∈ handed, ∃ e ∈ l, skips e.1 = false ∧ e.2 ≠ [] ∧
        wire = ⟨topic, payloadOf e.2, none⟩ := by
  induction l generalizing w with
  | nil => exact ⟨w, [], rfl, rfl, by simp, by simp⟩
  | cons e l ih =>
    cases hs : skips e.1 with
    | true =>
      obtain ⟨w', handed, hrun, hdirs, hprod, hall⟩ := ih w
      refine ⟨w', handed, ?_, hdirs, hprod, ?_⟩
      · rw [reSendLoop, if_pos hs]
        exact hrun
      · intro wire hw
        obtain ⟨a, ha, h⟩ := hall wire hw
        exact ⟨a, List.mem_cons_of_mem _ ha, h⟩
    | false =>
      obtain ⟨rc, hsend⟩ := producerSendMsg_run accepts e.2 topic (-1) w
      obtain ⟨w', handed, hrun, hdirs, hprod, hall⟩ := ih (w.handOver accepts e.2 topic (-1))
      obtain ⟨first, hfirst, hone⟩ : ∃ first,
          (w.handOver accepts e.2 topic (-1)).produced = w.produced ++ first ∧
          ∀ wire ∈ first, e.2 ≠ [] ∧ wire = ⟨topic, payloadOf e.2, none⟩ := by
        rw [World.handOver]
        split
        · next hp => exact ⟨_, rfl, fun wire hw => ⟨hp.2, List.mem_singleton.mp hw⟩⟩
        · exact ⟨[], by simp, by simp⟩
      refine ⟨w', first ++ handed, ?_, ?_, ?_, ?_⟩
      · have hno : ¬ skips e.1 = true := by simp [hs]
        rw [reSendLoop, if_neg hno, run_bind_ok hsend]
        exact hrun
      · rw [hdirs, World.handOver_dirs]
      · rw [hprod, hfirst, List.append_assoc]
      · intro wire hw
        rcases List.mem_append.mp hw with hw | hw
        · exact ⟨e, List.mem_cons_self, hs, hone wire hw⟩
        · obtain ⟨a, ha, h⟩ := hall wire hw
          exact ⟨a, List.mem_cons_of_mem _ ha, h⟩

end Loop

/-! ### The listing of a topic's cache -/

/-- The entries that are not skipped are those of increasing message numbers. -/
theorem exists_numbers (t : Topic) {l : List (Bytes × Bytes)}
    (hord : l.Pairwise fun a b => compare a.1 b.1 = .lt)
    (hshape : ∀ e ∈ l, e.1 = counterKey t.name.bytes ∨
      ∃ i, IsNumber i ∧ e.1 = messageKey t.name.bytes i) :
    ∃ nums : List ℕ, nums.Pairwise (· < ·) ∧
      List.Forall₂ (fun i e => IsNumber i ∧ e.1 = messageKey t.name.bytes i) nums
        (l.filter fun e => !skips e.1) := by
  induction l with
  | nil => exact ⟨[], .nil, .nil⟩
  | cons e l ih =>
    obtain ⟨hfirst, hord⟩ := List.pairwise_cons.mp hord
    obtain ⟨nums, hinc, hall⟩ := ih hord fun a ha => hshape a (List.mem_cons_of_mem _ ha)
    rcases hshape e List.mem_cons_self with he | ⟨i, hi, he⟩
    · refine ⟨nums, hinc, ?_⟩
      have hs : skips e.1 = true := by rw [he, skips_counterKey]
      rw [List.filter_cons_of_neg (by simp [hs])]
      exact hall
    · refine ⟨i :: nums, List.pairwise_cons.mpr ⟨?_, hinc⟩, ?_⟩
      · -- every later number has a later key
        intro j hj
        obtain ⟨n, hn⟩ := List.mem_iff_getElem?.mp hj
        obtain ⟨b, hb, hjn, hkey⟩ := forall₂_getElem hall hn
        have hlt := hfirst b (List.mem_of_mem_filter (List.mem_of_getElem? hb))
        rw [he, hkey, compare_messageKey hi hjn] at hlt
        exact Nat.compare_eq_lt.mp hlt
      · have hs : skips e.1 = false := by rw [he, skips_messageKey t hi]
        rw [List.filter_cons_of_pos (by simp [hs])]
        exact .cons ⟨hi, he⟩ hall

/-- The values of listed entries are what the map has under their keys. -/
theorem values_of_keys {t : Topic} {v : Map} {nums : List ℕ} {l : List (Bytes × Bytes)}
    (h : List.Forall₂ (fun i e => IsNumber i ∧ e.1 = messageKey t.name.bytes i) nums l)
    (hv : ∀ e ∈ l, v[e.1]? = some e.2) :
    (l.map Prod.snd).map some = nums.map fun i : ℕ => v[messageKey t.name.bytes i]? := by
  induction h with
  | nil => rfl
  | cons hie _ ih =>
    rw [List.map_cons, List.map_cons, List.map_cons,
      ih fun a ha => hv a (List.mem_cons_of_mem _ ha), ← hie.2, hv _ List.mem_cons_self]

theorem mem_numbers_iff {t : Topic} {v : Map} {nums : List ℕ}
    (hall : List.Forall₂ (fun i e => IsNumber i ∧ e.1 = messageKey t.name.bytes i) nums
      (v.toList.filter fun e => !skips e.1)) (i : ℕ) :
    i ∈ nums ↔ IsNumber i ∧ messageKey t.name.bytes i ∈ v := by
  constructor
  · intro hi
    obtain ⟨n, hn⟩ := List.mem_iff_getElem?.mp hi
    obtain ⟨e, he, hnum, hkey⟩ := forall₂_getElem hall hn
    have hv := List.mem_of_mem_filter (List.mem_of_getElem? he)
    refine ⟨hnum, mem_iff_exists_get.mpr ⟨e.2, ?_⟩⟩
    rw [← hkey]
    exact ExtTreeMap.mem_toList_iff_getElem?_eq_some.mp hv
  · rintro ⟨hi, hmem⟩
    obtain ⟨x, hx⟩ := mem_iff_exists_get.mp hmem
    have hlist : (messageKey t.name.bytes i, x) ∈ v.toList.filter fun e => !skips e.1 := by
      rw [List.mem_filter, ExtTreeMap.mem_toList_iff_getElem?_eq_some]
      exact ⟨hx, by simp [skips_messageKey t hi]⟩
    obtain ⟨n, hn⟩ := List.mem_iff_getElem?.mp hlist
    obtain ⟨j, hj, hnum, hkey⟩ := forall₂_getElem hall.flip hn
    rw [(messageKey_inj hi hnum).mp hkey]
    exact List.mem_of_getElem? hj

/-- What is not skipped in the cache of a topic are its messages, in the order of their
numbers. -/
theorem messagesOf_numbers (t : Topic) {v : Map} (hv : Shaped t.name v) :
    ∃ nums : List ℕ, nums.Pairwise (· < ·) ∧
      (∀ i, i ∈ nums ↔ IsNumber i ∧ messageKey t.name.bytes i ∈ v) ∧
      ((messagesOf v.toList).map some = nums.map fun i : ℕ => v[messageKey t.name.bytes i]?) := by
  have hget : ∀ e ∈ v.toList, v[e.1]? = some e.2 :=
    fun e he => ExtTreeMap.mem_toList_iff_getElem?_eq_some.mp he
  have hshape : ∀ e ∈ v.toList, e.1 = counterKey t.name.bytes ∨
      ∃ i, IsNumber i ∧ e.1 = messageKey t.name.bytes i := by
    intro e he
    exact hv e.1 (mem_iff_exists_get.mpr ⟨e.2, hget e he⟩)
  obtain ⟨nums, hinc, hall⟩ := exists_numbers t ExtTreeMap.ordered_keys_toList hshape
  exact ⟨nums, hinc, mem_numbers_iff hall,
    values_of_keys hall fun e he => hget e (List.mem_of_mem_filter he)⟩

/-- On the full content of a topic's cache the calls of `re_send` to `send_msg` are the
values of the message entries, one call for each, in the order of the numbers. -/
theorem reSend_sends_messages (t : Topic) (v : Map) (hv : Shaped t.name v) :
    ∃ (nums : List ℕ) (messages : List Bytes), nums.Pairwise (· < ·) ∧
      (∀ i, i ∈ nums ↔ IsNumber i ∧ messageKey t.name.bytes i ∈ v) ∧
      (messages.map some = nums.map fun i : ℕ => v[messageKey t.name.bytes i]?) ∧
      (∀ (σ : Type) (send : Bytes → Bytes → ℤ → Exec σ ℤ),
        reSendLoopWith send t.name.bytes v.toList = sendEach send t.name.bytes messages) ∧
      ∀ (σ : Type) (accepts : ℕ → Bool),
        (reSendListed accepts t.name.bytes v : Exec (World σ) Unit) =
          getProducer t.name.bytes >>= fun _ =>
            sendEach (producerSendMsg accepts) t.name.bytes messages := by
  obtain ⟨nums, hinc, hmem, hval⟩ := messagesOf_numbers t hv
  exact ⟨nums, messagesOf v.toList, hinc, hmem, hval,
    fun σ send => reSendLoopWith_calls send _ _, fun σ accepts => reSendListed_calls accepts _ v⟩

/-- The cache of the topic `t` with messages number 2 and 10. -/
def twoMessages : Map :=
  ((∅ : Map).insert (messageKey Topic.sample.name.bytes (10 : ℕ)) [98]).insert
    (messageKey Topic.sample.name.bytes (2 : ℕ)) [97]

theorem reSend_sends_two_messages :
    ∃ (nums : List ℕ) (messages : List Bytes), nums.Pairwise (· < ·) ∧ 2 ∈ nums ∧ 10 ∈ nums ∧
      (messages.map some =
        nums.map fun i : ℕ => twoMessages[messageKey Topic.sample.name.bytes i]?) ∧
      ∀ (σ : Type) (send : Bytes → Bytes → ℤ → Exec σ ℤ),
        reSendLoopWith send Topic.sample.name.bytes twoMessages.toList =
          sendEach send Topic.sample.name.bytes messages := by
  have h2 : IsNumber 2 := isNumber_of_lt (by decide)
  have h10 : IsNumber 10 := isNumber_of_lt (by decide)
  have hshaped : Shaped Topic.sample.name twoMessages :=
    ((shaped_empty Topic.sample.name).insert _ (.inr ⟨10, h10, rfl⟩)).insert _ (.inr ⟨2, h2, rfl⟩)
  obtain ⟨nums, messages, hinc, hmem, hval, hcalls, -⟩ :=
    reSend_sends_messages Topic.sample twoMessages hshaped
  refine ⟨nums, messages, hinc, (hmem 2).mpr ⟨h2, ?_⟩, (hmem 10).mpr ⟨h10, ?_⟩, hval, hcalls⟩
  · exact ExtTreeMap.mem_insert_self
  · exact ExtTreeMap.mem_insert.mpr (.inr ExtTreeMap.mem_insert_self)

/-- On a backend whose `cursor_` lists the cache of the topic, `re_send` itself makes these
calls, on the database that the listing leaves. -/
theorem reSend_of_cursor {σ : Type} (B : Opdb σ) (accepts : ℕ → Bool) (t : Topic) {w : World σ}
    {rc : ℤ} {v : Map} {d : σ} (hv : Shaped t.name v)
    (hcur : (B.cursor ∅).run (w.db B t.name.bytes) = .ok (rc, v) d) :
    ∃ (nums : List ℕ) (messages : List Bytes), nums.Pairwise (· < ·) ∧
      (∀ i, i ∈ nums ↔ IsNumber i ∧ messageKey t.name.bytes i ∈ v) ∧
      (messages.map some = nums.map fun i : ℕ => v[messageKey t.name.bytes i]?) ∧
      (reSend B accepts t.name.bytes).run w =
        (getProducer t.name.bytes >>= fun _ =>
          sendEach (producerSendMsg accepts) t.name.bytes messages).run
            (w.setDb t.name.bytes d) := by
  obtain ⟨nums, hinc, hmem, hval⟩ := messagesOf_numbers t hv
  refine ⟨nums, messagesOf v.toList, hinc, hmem, hval, ?_⟩
  rw [reSend, run_bind_ok (withDb_ok B hcur)]
  change (reSendListed accepts t.name.bytes v).run _ = _
  rw [reSendListed_calls]

end KfkClient
