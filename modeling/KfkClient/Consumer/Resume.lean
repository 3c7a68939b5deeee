import KfkClient.Consumer.Probe

/-!
# Where a consumer resumes

`start_consumer` probes the last offset of every topic and compares the requested offset
with it. Between the probe and the start producers go on, and a requested offset right
behind the last message the probe saw is taken for one that is too large: consumption
then starts at the end of the log as it is by that time.
-/

namespace KfkClient

open CLib OrderedMap
open Std (ExtTreeMap)

/-- Whatever the topics, the rounds and the appended messages are: a start of `t` follows
its probe, and it skips nothing from the requested offset on exactly when that offset is
before the end that the probe saw, or nothing was appended since. -/
theorem resume_skips_nothing_iff (hashcode : ℕ) (subs : List (Bytes × ℤ)) (t : Bytes) (o : ℕ)
    (ht : (subscribed hashcode subs).topics[t]? = some (o : ℤ)) (tick tick' : Bytes → Tick)
    (rounds : List (Bytes → Tick)) (b : Broker) (hb : (b t 0).starts = []) (eof : EofTable)
    (starts : List (Bytes × ℤ)) (calls : List CgoCall) (b' : Broker)
    (h : startConsumer broker (subscribed hashcode subs) tick tick' rounds b =
      .consuming eof starts calls b') :
    ∃ probed started : Start, (b' t 0).starts = [probed, started] ∧
      (1 ≤ probed.logEnd → o ≤ probed.logEnd →
        (started.position ≤ o ↔ o < probed.logEnd ∨ started.logEnd = probed.logEnd)) := by
  set c := subscribed hashcode subs with hc
  have hfresh : c.Fresh := subscribed_fresh hashcode subs
  obtain ⟨b1, b2, b3, rest, h1, h2, h3, -, h4⟩ := startConsumer_consuming h
  have hkey : t ∈ c.topics.keys := ExtTreeMap.mem_keys.mpr (mem_iff_exists_get.mpr ⟨_, ht⟩)
  obtain ⟨n, hprobing, hprobed⟩ := probe_begins hfresh h1
  obtain ⟨hprobed, hend⟩ := hprobed t hkey
  obtain ⟨started, hstarted⟩ := topics_started h3 ht
  refine ⟨⟨n t, n t - 1⟩, started, ?_, ?_⟩
  · have hrest := (consumeLoop_keeps c rest [] b3 t 0).1
    rw [h4] at hrest
    rw [hrest, hstarted.starts, (getEofLoop_keeps h2 t 0).1, hprobed, hb]
    rfl
  · intro hn hon
    simp only at hn hon ⊢
    have hres := hstarted.resolved
    rw [startOffset, getD_eq (hprobing.ended h2 hkey).1] at hres
    by_cases hbefore : o < n t
    · rw [if_neg (by omega), resolveOffset_absolute] at hres
      simp only [hbefore, true_or, iff_true]
      exact (Option.some.inj hres).ge
    · -- the requested offset is the end of then: it counts as too large
      rw [if_pos (by omega), ← sub_zero offsetTailBase, ← Nat.cast_zero, resolveOffset_tail] at hres
      have hgrow : n t ≤ started.logEnd := by
        have hlog := (getEofLoop_keeps h2 t 0).2.length_le
        exact hend.trans (hlog.trans hstarted.logEnd.1)
      rw [← Option.some.inj hres]
      omega

/-! The topic `t` with one message, resumed behind it. -/

def oneMessage : Broker := fun _ _ => ⟨[[97]], 0, []⟩

/-- The message `b` is appended to the topic `t`. -/
def appending : Bytes → Tick := fun _ => ⟨[([116], 0, [98])], true⟩

theorem resume_skips_nothing_without_appends :
    ∃ eof starts calls b' probed started,
      startConsumer broker (subscribed 0 [([116], 1)]) arriving arriving [arriving] oneMessage =
        .consuming eof starts calls b' ∧
      (b' [116] 0).starts = [probed, started] ∧ started.position ≤ 1 := by
  have hrun : ∃ eof starts calls b',
      startConsumer broker (subscribed 0 [([116], 1)]) arriving arriving [arriving] oneMessage =
        .consuming eof starts calls b' ∧ (b' [116] 0).starts = [⟨1, 0⟩, ⟨1, 1⟩] :=
    ⟨_, _, _, _, rfl, rfl⟩
  obtain ⟨eof, starts, calls, b', h, hstarts⟩ := hrun
  obtain ⟨probed, started, heq, hiff⟩ := resume_skips_nothing_iff 0 [([116], 1)] [116] 1 rfl
    arriving arriving [arriving] oneMessage rfl eof starts calls b' h
  rw [hstarts] at heq
  cases heq
  exact ⟨eof, starts, calls, b', _, _, h, hstarts, (hiff (by decide) (by decide)).mpr (by decide)⟩

/-- Resumed at offset 1, behind its only message, the topic starts at offset 2: the message
that was appended after the probe is skipped. -/
theorem resume_skips_appended_message :
    ∃ eof starts calls b',
      startConsumer broker (subscribed 0 [([116], 1)]) arriving appending [arriving] oneMessage =
        .consuming eof starts calls b' ∧
      (b' [116] 0).log = [[97], [98]] ∧ (b' [116] 0).starts = [⟨1, 0⟩, ⟨2, 2⟩] :=
  ⟨_, _, _, _, rfl, rfl, rfl⟩

end KfkClient
