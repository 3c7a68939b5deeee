import KfkClient.Concurrent.Numbering

/-!
# Lost updates and overwritten messages

What the numbering invariant gives for threads that share a topic, and for one
thread whose process may stop at any store operation. The two hazards that the
invariant excludes are shown on concrete runs.
-/

namespace KfkClient

open CLib Lists OrderedMap LevelDb
open Std (ExtTreeMap)

/-! ### Concurrent senders -/

/-- No two calls use the same number. -/
def NumbersDistinct (s : Sys Map) : Prop :=
  ∀ (i j : ℕ) (c d : Call) (x : ℤ), s.calls[i]? = some c → s.calls[j]? = some d →
    c.number = some x → d.number = some x → i = j

/-- A message is in the cache under its own number, with its own bytes, when its call
has returned, its successful receipt has not been processed and no number is more than
50000 ahead of its own. -/
def MessagesPresent (t : CString) (s : Sys Map) : Prop :=
  ∀ (i : ℕ) (c : Call) (num : ℤ), s.calls[i]? = some c → c.pc = .returned num → i ∉ s.acked →
    (∀ d ∈ s.calls, ∀ x, d.number = some x → x ≤ num + 50000) →
    s.db[messageKey t.bytes num]? = some c.msg.bytes

theorem Numbered.messagesPresent {t : CString} {n : ℕ} {s : Sys Map} (h : Numbered t n s)
    (hshort : ∀ c ∈ s.calls, c.msg.bytes.length < 2 ^ 31) : MessagesPresent t s := by
  intro i c num hi hpc hna hrec
  obtain ⟨m, hm, rfl, hpres⟩ := (h.call i c hi).held (x := num) (by rw [hpc]; rfl)
  rw [hpres hna ?_, storedBytes_of_lt (hshort c (List.mem_of_getElem? hi))]
  -- the call with the latest number bounds the counter
  obtain ⟨j, d, hj, hd⟩ := h.covered (n - 1) (by omega)
  have hle := hrec d (List.mem_of_getElem? hj) _ (Call.number_of_settled hd)
  omega

theorem sysStep_msgs {t : CString} {s s' : Sys Map} {e : SysEvent}
    (hs : sysStep levelDb t s e = some s') :
    ∀ c' ∈ s'.calls, (∃ c ∈ s.calls, c.msg = c'.msg) ∨ e = .call c'.msg := by
  have hmove : ∀ {i : ℕ} {c : Call}, s.calls[i]? = some c → ∀ (pc : Pc) (db : Map),
      ∀ c' ∈ (s.move i c pc db).calls, ∃ d ∈ s.calls, d.msg = c'.msg := by
    intro i c hi pc db c' hc'
    rcases List.mem_or_eq_of_mem_set hc' with hc' | rfl
    · exact ⟨c', hc', rfl⟩
    · exact ⟨c, List.mem_of_getElem? hi, rfl⟩
  intro c' hc'
  cases e with
  | call msg =>
    cases hs
    rcases List.mem_append.mp hc' with hc' | hc'
    · exact .inl ⟨c', hc', rfl⟩
    · rw [List.mem_singleton.mp hc']
      exact .inr rfl
  | act i =>
    obtain ⟨c, op, pc, db, hi, -, -, -, rfl⟩ := sysStep_act_iff.mp hs
    exact .inl (hmove hi pc db c' hc')
  | produce i taken =>
    obtain ⟨c, num, hi, -, -, -, rfl⟩ := sysStep_produce_iff.mp hs
    exact .inl (hmove hi (.returned num) s.db c' hc')
  | receipt j err =>
    obtain ⟨p, -, ⟨-, rfl⟩ | ⟨-, rc, db, -, rfl⟩⟩ := sysStep_receipt hs
    · exact .inl ⟨c', hc', rfl⟩
    · exact .inl ⟨c', hc', rfl⟩
  | crash =>
    cases hs
    obtain ⟨c, hc, rfl⟩ := List.mem_map.mp hc'
    exact .inl ⟨c, hc, rfl⟩

theorem run_msgs_short {t : CString} {es : List SysEvent} {s : Sys Map}
    (hshort : ∀ msg, .call msg ∈ es → msg.bytes.length < 2 ^ 31)
    (h : Transition.run (sysStep levelDb t) (Sys.fresh levelDb) es = some s) :
    ∀ c ∈ s.calls, c.msg.bytes.length < 2 ^ 31 := by
  have hP : ∀ e ∈ es, ∀ msg, e = .call msg → msg.bytes.length < 2 ^ 31 := by
    rintro e he msg rfl
    exact hshort msg he
  have h0 : ∀ c ∈ (Sys.fresh levelDb).calls, c.msg.bytes.length < 2 ^ 31 := by
    intro c hc
    cases hc
  refine Transition.Along.invariant (I := fun s => ∀ c ∈ s.calls, c.msg.bytes.length < 2 ^ 31) ?_
    (Transition.along_of_forall hP _) h0 h
  intro s e s' hI he hs c' hc'
  rcases sysStep_msgs hs c' hc' with ⟨c, hc, hmsg⟩ | hcall
  · rw [← hmsg]
    exact hI c hc
  · exact he _ hcall

/-- In every run of careful steps with messages shorter than 2 GiB, no two calls use
the same number and no recent unconfirmed message of a returned call is missing. -/
theorem careful_run_loses_nothing (t : Topic) (es : List SysEvent) (s : Sys Map)
    (hcare : Transition.Along (sysStep levelDb t.name) (Careful t.name) (Sys.fresh levelDb) es)
    (hshort : ∀ msg, .call msg ∈ es → msg.bytes.length < 2 ^ 31)
    (h : Transition.run (sysStep levelDb t.name) (Sys.fresh levelDb) es = some s) :
    NumbersDistinct s ∧ MessagesPresent t.name s := by
  obtain ⟨n, hn⟩ := numbered_run hcare h
  exact ⟨hn.unique, hn.messagesPresent (run_msgs_short hshort h)⟩

/-! Two calls on the topic `t`, step by step. -/

def twoCalls (db : Map) (a b : Pc) : Sys Map := ⟨db, [⟨msgA, a, true⟩, ⟨msgB, b, true⟩], [], ∅⟩

section TwoCalls

variable {db db' : Map} {a b pc : Pc} {op : Exec Map Pc}

theorem twoCalls_first (hop : storeOp levelDb Topic.sample.name msgA a = some op)
    (hrun : op.run db = .ok pc db') :
    sysStep levelDb Topic.sample.name (twoCalls db a b) (.act 0) = some (twoCalls db' pc b) :=
  sysStep_act_iff.mpr ⟨_, op, pc, db', rfl, rfl, hop, hrun, rfl⟩

theorem twoCalls_second (hop : storeOp levelDb Topic.sample.name msgB b = some op)
    (hrun : op.run db = .ok pc db') :
    sysStep levelDb Topic.sample.name (twoCalls db a b) (.act 1) = some (twoCalls db' a pc) :=
  sysStep_act_iff.mpr ⟨_, op, pc, db', rfl, rfl, hop, hrun, rfl⟩

theorem careful_first (ha : a = .start → b.between = false)
    (hl : ∀ num, a = .loop num → ¬ num > numMax) :
    Careful Topic.sample.name (twoCalls db a b) (.act 0) := by
  intro c hc
  cases hc
  refine ⟨?_, fun num hpc hgt => absurd hgt (hl num hpc)⟩
  rintro rfl d hd ⟨-, hb⟩
  rcases List.mem_pair.mp hd with rfl | rfl
  · cases hb
  · rw [ha rfl] at hb
    cases hb

theorem careful_second (hb : b = .start → a.between = false)
    (hl : ∀ num, b = .loop num → ¬ num > numMax) :
    Careful Topic.sample.name (twoCalls db a b) (.act 1) := by
  intro c hc
  cases hc
  refine ⟨?_, fun num hpc hgt => absurd hgt (hl num hpc)⟩
  rintro rfl d hd ⟨-, ha⟩
  rcases List.mem_pair.mp hd with rfl | rfl
  · rw [hb rfl] at ha
    cases ha
  · cases ha

end TwoCalls

theorem read_uncounted (msg : CString) {db : Map}
    (hdb : db[counterKey Topic.sample.name.bytes]? = none) :
    ∃ op, storeOp levelDb Topic.sample.name msg .start = some op ∧
      op.run db = .ok (.read 0 (zeros 1024)) db := by
  have hread := readCounter_none levelDb_faithful (by decide : Topic.sample.name.bytes.length ≤ 255)
    trivial hdb
  exact ⟨_, rfl, by rw [run_bind_ok hread]; rfl⟩

theorem read_fresh (msg : CString) :
    ∃ op, storeOp levelDb Topic.sample.name msg .start = some op ∧
      op.run ∅ = .ok (.read 0 (zeros 1024)) ∅ :=
  read_uncounted msg ExtTreeMap.getElem?_empty

theorem put_zero (msg : CString) (hm : msg.bytes.length < 2 ^ 31) (tmp : Bytes) (db : Map) :
    ∃ op, storeOp levelDb Topic.sample.name msg (.read 0 tmp) = some op ∧
      op.run db = .ok (.wrote 0 tmp)
        (db.insert (messageKey Topic.sample.name.bytes 0) msg.bytes) := by
  have hm' : 0 ≤ toInt msg.bytes.length := by
    rw [toInt_of_lt hm]
    omega
  have h0 : IsNumber 0 := isNumber_of_lt (by decide)
  have hput := putMessage_run levelDb_faithful h0
    (by decide : Topic.sample.name.bytes.length ≤ 255) trivial hm' db
  rw [id_eq, storedBytes_of_lt hm, Nat.cast_zero] at hput
  exact ⟨_, rfl, by rw [run_bind_ok hput]; rfl⟩

theorem count_zero (msg : CString) {tmp : Bytes} (htmp : tmp.length = 1024) (db : Map) :
    ∃ op v, CounterValue v 1 ∧
      storeOp levelDb Topic.sample.name msg (.wrote 0 tmp) = some op ∧
      op.run db = .ok (.loop 0) (db.insert (counterKey Topic.sample.name.bytes) v) := by
  have h1 : IsNumber (0 + 1) := isNumber_of_lt (by decide)
  obtain ⟨v, hv, hput⟩ := putCounter_run levelDb_faithful
    (by decide : Topic.sample.name.bytes.length ≤ 255) trivial h1 htmp db
  rw [Nat.cast_zero] at hput
  exact ⟨_, v, hv, rfl, by rw [run_bind_ok hput]; rfl⟩

theorem loop_zero (msg : CString) (db : Map) :
    ∃ op, storeOp levelDb Topic.sample.name msg (.loop 0) = some op ∧
      op.run db = .ok (.produce 0) db :=
  ⟨_, rfl, rfl⟩

theorem read_counted (msg : CString) {v : Bytes} (hv : CounterValue v 1) (db : Map) :
    ∃ op tmp, storeOp levelDb Topic.sample.name msg .start = some op ∧
      op.run (db.insert (counterKey Topic.sample.name.bytes) v) =
        .ok (.read 1 tmp) (db.insert (counterKey Topic.sample.name.bytes) v) := by
  have h1 : IsNumber (0 + 1) := isNumber_of_lt (by decide)
  obtain ⟨tmp, -, hread⟩ := readCounter_some levelDb_faithful
    (by decide : Topic.sample.name.bytes.length ≤ 255) trivial h1
    (ExtTreeMap.getElem?_insert_self (t := db) (v := v)) hv
  exact ⟨_, tmp, rfl, by rw [run_bind_ok hread]; rfl⟩

/-- The second call reads the counter while the first is past its counter put. -/
theorem careful_run_two_calls :
    ∃ s, Transition.run (sysStep levelDb Topic.sample.name) (Sys.fresh levelDb)
        [.call msgA, .call msgB, .act 0, .act 0, .act 0, .act 1] = some s ∧
      NumbersDistinct s ∧ MessagesPresent Topic.sample.name s := by
  obtain ⟨_, ho1, hr1⟩ := read_fresh msgA
  obtain ⟨_, ho2, hr2⟩ := put_zero msgA (by decide) (zeros 1024) ∅
  obtain ⟨_, v, hv, ho3, hr3⟩ := count_zero msgA (length_zeros 1024)
    ((∅ : Map).insert (messageKey Topic.sample.name.bytes 0) msgA.bytes)
  obtain ⟨_, tmp, ho4, hr4⟩ := read_counted msgB hv
    ((∅ : Map).insert (messageKey Topic.sample.name.bytes 0) msgA.bytes)
  have h1 := twoCalls_first (b := .start) ho1 hr1
  have h2 := twoCalls_first (b := .start) ho2 hr2
  have h3 := twoCalls_first (b := .start) ho3 hr3
  have h4 := twoCalls_second (a := .loop 0) ho4 hr4
  have h0 : Transition.run (sysStep levelDb Topic.sample.name) (Sys.fresh levelDb)
    [.call msgA, .call msgB] = some (twoCalls ∅ .start .start) := rfl
  have hrun := Transition.run_snoc (Transition.run_snoc (Transition.run_snoc
    (Transition.run_snoc h0 h1) h2) h3) h4
  refine ⟨_, hrun, careful_run_loses_nothing Topic.sample _ _ ?_ ?_ hrun⟩
  · refine .cons trivial rfl (.cons trivial rfl (.cons ?_ h1 (.cons ?_ h2 (.cons ?_ h3
      (.cons ?_ h4 trivial)))))
    · show Careful Topic.sample.name (twoCalls ∅ .start .start) (.act 0)
      exact careful_first (fun _ => rfl) (by simp)
    · exact careful_first (by simp) (by simp)
    · exact careful_first (by simp) (by simp)
    · exact careful_second (fun _ => rfl) (by simp)
  · intro msg hmsg
    simp only [List.cons_append, List.nil_append, List.mem_cons, SysEvent.call.injEq,
      reduceCtorEq, List.not_mem_nil, or_false] at hmsg
    rcases hmsg with rfl | rfl <;> decide

/-- Two calls read the counter before either puts it back: both use number zero, and
the message of the first is gone although its call has returned. -/
theorem interleaved_calls_lose_message :
    ∃ s, Transition.run (sysStep levelDb Topic.sample.name) (Sys.fresh levelDb)
        [.call msgA, .call msgB, .act 0, .act 1, .act 0, .act 0, .act 1, .act 1, .act 0, .act 1,
          .produce 0 false, .produce 1 false] = some s ∧
      ¬ NumbersDistinct s ∧ ¬ MessagesPresent Topic.sample.name s := by
  obtain ⟨_, ho1, hr1⟩ := read_fresh msgA
  obtain ⟨_, ho2, hr2⟩ := read_fresh msgB
  obtain ⟨_, ho3, hr3⟩ := put_zero msgA (by decide) (zeros 1024) ∅
  set d1 := (∅ : Map).insert (messageKey Topic.sample.name.bytes 0) msgA.bytes
  obtain ⟨_, v, -, ho4, hr4⟩ := count_zero msgA (length_zeros 1024) d1
  set d2 := d1.insert (counterKey Topic.sample.name.bytes) v
  obtain ⟨_, ho5, hr5⟩ := put_zero msgB (by decide) (zeros 1024) d2
  set d3 := d2.insert (messageKey Topic.sample.name.bytes 0) msgB.bytes with hd3
  obtain ⟨_, w, -, ho6, hr6⟩ := count_zero msgB (length_zeros 1024) d3
  set d4 := d3.insert (counterKey Topic.sample.name.bytes) w with hd4
  obtain ⟨_, ho7, hr7⟩ := loop_zero msgA d4
  obtain ⟨_, ho8, hr8⟩ := loop_zero msgB d4
  have h0 : Transition.run (sysStep levelDb Topic.sample.name) (Sys.fresh levelDb)
    [.call msgA, .call msgB] = some (twoCalls ∅ .start .start) := rfl
  have h2 := Transition.run_snoc (Transition.run_snoc h0 (twoCalls_first ho1 hr1))
    (twoCalls_second ho2 hr2)
  have h4 := Transition.run_snoc (Transition.run_snoc h2 (twoCalls_first ho3 hr3))
    (twoCalls_first ho4 hr4)
  have h6 := Transition.run_snoc (Transition.run_snoc h4 (twoCalls_second ho5 hr5))
    (twoCalls_second ho6 hr6)
  have h8 := Transition.run_snoc (Transition.run_snoc h6 (twoCalls_first ho7 hr7))
    (twoCalls_second ho8 hr8)
  have h9 : sysStep levelDb Topic.sample.name (twoCalls d4 (.produce 0) (.produce 0))
      (.produce 0 false) = some (twoCalls d4 (.returned 0) (.produce 0)) := rfl
  have h10 : sysStep levelDb Topic.sample.name (twoCalls d4 (.returned 0) (.produce 0))
      (.produce 1 false) = some (twoCalls d4 (.returned 0) (.returned 0)) := rfl
  have hrun := Transition.run_snoc (Transition.run_snoc h8 h9) h10
  refine ⟨twoCalls d4 (.returned 0) (.returned 0), hrun, ?_, ?_⟩
  · intro hdist
    exact absurd (hdist 0 1 _ _ 0 rfl rfl rfl rfl) (by decide)
  · intro hpres
    have hget := hpres 0 ⟨msgA, .returned 0, true⟩ 0 rfl rfl (by simp [twoCalls]) ?_
    · have hne := (messageKey_ne_counterKey Topic.sample.name.bytes 0).symm
      have hdb : d4[messageKey Topic.sample.name.bytes 0]? = some msgB.bytes := by
        rw [hd4, get_insert_of_ne _ hne, hd3, ExtTreeMap.getElem?_insert_self]
      have hab := Option.some.inj (hdb.symm.trans hget)
      exact absurd hab (by decide)
    · intro d hd x hx
      simp only [twoCalls, List.mem_cons, List.not_mem_nil, or_false] at hd
      rcases hd with rfl | rfl
      · cases hx
        decide
      · cases hx
        decide

/-! ### One thread whose process may stop -/

def Call.busy (c : Call) : Prop := c.alive = true ∧ ∀ m, c.pc ≠ .returned m

/-- A call begins only when no other call is under way. -/
def SingleThreaded (s : Sys Map) : SysEvent → Prop
  | .call _ => ∀ c ∈ s.calls, ¬ c.busy
  | _ => True

/-- The process does not stop between the message put and the counter put of a call. -/
def StopsOutside (s : Sys Map) : SysEvent → Prop
  | .crash => ∀ c ∈ s.calls, c.alive = true → ∀ num tmp, c.pc ≠ .wrote num tmp
  | _ => True

/-- A call that is about to put its message finds no entry under its number. -/
def NextPutIsFresh (t : CString) (s : Sys Map) : Prop :=
  ∀ (i : ℕ) (c : Call) (num : ℤ) (tmp : Bytes), s.calls[i]? = some c → c.alive = true →
    c.pc = .read num tmp → messageKey t.bytes num ∉ s.db

theorem Numbered.nextPutIsFresh {t : CString} {n : ℕ} {s : Sys Map} (h : Numbered t n s) :
    NextPutIsFresh t s := by
  intro i c num tmp hi halive hpc hmem
  have hok := h.call i c hi
  simp only [CallOk, hpc] at hok
  obtain ⟨rfl, -, hnone⟩ := hok halive
  obtain ⟨v, hv⟩ := mem_iff_exists_get.mp hmem
  rw [hnone] at hv
  cases hv

/-- At most one call is under way, and once it has put the counter its number is the
latest. -/
structure Alone (n : ℕ) (s : Sys Map) : Prop where
  one : ∀ (i j : ℕ) (c d : Call), s.calls[i]? = some c → s.calls[j]? = some d →
    c.busy → d.busy → i = j
  last : ∀ (i : ℕ) (c : Call) (x : ℤ), s.calls[i]? = some c → c.busy →
    c.pc.settled = some x → x + 1 = (n : ℤ)

/-- The call under way still has its message in the cache when it evicts. -/
theorem Alone.careful {t : CString} {n : ℕ} {s s' : Sys Map} (h : Numbered t n s)
    (ha : Alone n s) {e : SysEvent} (hstop : StopsOutside s e)
    (hs : sysStep levelDb t s e = some s') : Careful t s e := by
  cases e with
  | act i =>
    obtain ⟨c, op, pc, db, hi, halive, hop, -, -⟩ := sysStep_act_iff.mp hs
    have hbusy : c.busy := by
      refine ⟨halive, fun m hm => ?_⟩
      rw [hm] at hop
      cases hop
    intro c' hc'
    rw [hi] at hc'
    cases hc'
    constructor
    · intro hpc d hd hcrit
      obtain ⟨j, hj⟩ := List.mem_iff_getElem?.mp hd
      have hdbusy : d.busy := by
        refine ⟨hcrit.1, fun m hm => ?_⟩
        have hb := hcrit.2
        rw [hm] at hb
        cases hb
      have hji := ha.one j i d c hj hi hdbusy hbusy
      subst hji
      rw [hi] at hj
      cases hj
      have hb := hcrit.2
      rw [hpc] at hb
      cases hb
    · intro num hpc _
      have hset : c.pc.settled = some num := by rw [hpc]; rfl
      have hlast := ha.last i c num hi hbusy hset
      obtain ⟨m, hm, rfl, hpres⟩ := (h.call i c hi).held hset
      have hna : i ∉ s.acked := by
        intro hack
        obtain ⟨d, m', hd, hret⟩ := h.acked i hack
        rw [hi] at hd
        cases hd
        exact hbusy.2 m' hret
      exact ⟨m, h.number.mono hm.le,
        mem_iff_exists_get.mpr ⟨_, hpres hna (by omega)⟩⟩
  | crash => exact hstop
  | call msg => trivial
  | produce i taken => trivial
  | receipt j err => trivial

theorem Alone.move {n n' : ℕ} {s s' : Sys Map} (ha : Alone n s) {i : ℕ} {c : Call}
    (hi : s.calls[i]? = some c) (hbusy : c.busy) {pc : Pc}
    (hset : ∀ x, pc.settled = some x → (∃ m, pc = .returned m) ∨ x + 1 = (n' : ℤ))
    (hcalls : s'.calls = s.calls.set i { c with pc := pc }) : Alone n' s' := by
  have honly : ∀ (j : ℕ) (d : Call), s'.calls[j]? = some d → d.busy →
      j = i ∧ d = { c with pc := pc } := by
    intro j d hj hd
    rw [hcalls] at hj
    rcases getElem?_set_cases hj with hself | ⟨hji, hj⟩
    · exact hself
    · exact absurd (ha.one j i d c hj hi hd hbusy) hji
  refine ⟨?_, ?_⟩
  · intro j l d e hj hl hd he
    rw [(honly j d hj hd).1, (honly l e hl he).1]
  · intro j d x hj hd hx
    obtain ⟨-, rfl⟩ := honly j d hj hd
    rcases hset x hx with ⟨m, hm⟩ | hlast
    · exact absurd hm (hd.2 m)
    · exact hlast

theorem alone_step {t : Topic} {n : ℕ} {s s' : Sys Map} (h : Numbered t.name n s) (ha : Alone n s)
    {e : SysEvent} (hsingle : SingleThreaded s e) (hstop : StopsOutside s e)
    (hs : sysStep levelDb t.name s e = some s') :
    ∃ n', Numbered t.name n' s' ∧ Alone n' s' := by
  have hcare := ha.careful h hstop hs
  cases e with
  | call msg =>
    cases hs
    refine ⟨n, h.newCall msg, ?_, ?_⟩
    · intro i j c d hi hj hc hd
      rcases getElem?_snoc.mp hi with hi | ⟨rfl, -⟩
      · exact absurd hc (hsingle c (List.mem_of_getElem? hi))
      · rcases getElem?_snoc.mp hj with hj | ⟨rfl, -⟩
        · exact absurd hd (hsingle d (List.mem_of_getElem? hj))
        · rfl
    · intro i c x hi hc hx
      rcases getElem?_snoc.mp hi with hi | ⟨-, rfl⟩
      · exact absurd hc (hsingle c (List.mem_of_getElem? hi))
      · cases hx
  | act i =>
    obtain ⟨n', c, pc, db, hN, hi, rfl, hset⟩ := h.act hcare hs
    obtain ⟨c', op, -, -, hi', halive, hop, -, -⟩ := sysStep_act_iff.mp hs
    rw [hi] at hi'
    cases hi'
    have hbusy : c.busy := by
      refine ⟨halive, fun m hm => ?_⟩
      rw [hm] at hop
      cases hop
    refine ⟨n', hN, ha.move hi hbusy ?_ rfl⟩
    intro x hx
    rcases hset x hx with ⟨hc, rfl⟩ | hlast
    · exact .inr (ha.last i c x hi hbusy hc)
    · exact .inr hlast
  | produce i taken =>
    obtain ⟨c, num, hi, halive, hpc, -, rfl⟩ := sysStep_produce_iff.mp hs
    have hbusy : c.busy := ⟨halive, by simp [hpc]⟩
    exact ⟨n, h.produce hi hpc taken, ha.move hi hbusy (fun _ _ => .inl ⟨num, rfl⟩) rfl⟩
  | receipt j err =>
    refine ⟨n, h.receipt hs, ?_⟩
    obtain ⟨p, -, ⟨-, rfl⟩ | ⟨-, rc, db, -, rfl⟩⟩ := sysStep_receipt hs
    · exact ⟨ha.one, ha.last⟩
    · exact ⟨ha.one, ha.last⟩
  | crash =>
    cases hs
    have hdead : ∀ (i : ℕ) (c : Call), (s.calls.map Call.die)[i]? = some c → ¬ c.busy := by
      intro i c hi hb
      rw [List.getElem?_map, Option.map_eq_some_iff] at hi
      obtain ⟨d, -, rfl⟩ := hi
      exact absurd hb.1 (by simp [Call.die])
    exact ⟨n, h.crash hcare, fun i j c d hi _ hc _ => absurd hc (hdead i c hi),
      fun i c x hi hc _ => absurd hc (hdead i c hi)⟩

/-- In every single-threaded run whose process never stops between a message put and
its counter put, no put of a message overwrites an entry. -/
theorem single_thread_never_overwrites (t : Topic) (es : List SysEvent) (s : Sys Map)
    (hrules : Transition.Along (sysStep levelDb t.name)
      (fun s e => SingleThreaded s e ∧ StopsOutside s e) (Sys.fresh levelDb) es)
    (h : Transition.run (sysStep levelDb t.name) (Sys.fresh levelDb) es = some s) :
    NextPutIsFresh t.name s := by
  have h0 : ∃ n, Numbered t.name n (Sys.fresh levelDb) ∧ Alone n (Sys.fresh levelDb) :=
    ⟨0, numbered_fresh t.name, by simp [Sys.fresh], by simp [Sys.fresh]⟩
  obtain ⟨n, hn, -⟩ := Transition.Along.invariant
    (I := fun s => ∃ n, Numbered t.name n s ∧ Alone n s)
    (fun s e s' hI hP hs => by
      obtain ⟨n, hn, ha⟩ := hI
      exact alone_step hn ha hP.1 hP.2 hs) hrules h0 h
  exact hn.nextPutIsFresh

/-- The first call of a topic, alone. -/
def oneCall (db : Map) (a : Pc) : Sys Map := ⟨db, [⟨msgA, a, true⟩], [], ∅⟩

/-- The first call ended with its process; the second is under way. -/
def afterStop (db : Map) (a b : Pc) : Sys Map :=
  ⟨db, [⟨msgA, a, false⟩, ⟨msgB, b, true⟩], [], ∅⟩

section OneThread

variable {db db' : Map} {a b pc : Pc} {op : Exec Map Pc}

theorem oneCall_act (hop : storeOp levelDb Topic.sample.name msgA a = some op)
    (hrun : op.run db = .ok pc db') :
    sysStep levelDb Topic.sample.name (oneCall db a) (.act 0) = some (oneCall db' pc) :=
  sysStep_act_iff.mpr ⟨_, op, pc, db', rfl, rfl, hop, hrun, rfl⟩

theorem afterStop_act (hop : storeOp levelDb Topic.sample.name msgB b = some op)
    (hrun : op.run db = .ok pc db') :
    sysStep levelDb Topic.sample.name (afterStop db a b) (.act 1) = some (afterStop db' a pc) :=
  sysStep_act_iff.mpr ⟨_, op, pc, db', rfl, rfl, hop, hrun, rfl⟩

end OneThread

/-- The process stops behind the counter put of the first call. After the restart the second
call is about to put its message under number one, beside the first message. -/
theorem single_thread_restarted_call :
    ∃ s tmp, Transition.run (sysStep levelDb Topic.sample.name) (Sys.fresh levelDb)
        [.call msgA, .act 0, .act 0, .act 0, .crash, .call msgB, .act 1] = some s ∧
      s.calls[1]? = some ⟨msgB, .read 1 tmp, true⟩ ∧
      s.db[messageKey Topic.sample.name.bytes 0]? = some msgA.bytes ∧
      NextPutIsFresh Topic.sample.name s := by
  obtain ⟨_, ho1, hr1⟩ := read_fresh msgA
  obtain ⟨_, ho2, hr2⟩ := put_zero msgA (by decide) (zeros 1024) ∅
  set key := messageKey Topic.sample.name.bytes 0 with hkey
  set d1 := (∅ : Map).insert key msgA.bytes with hd1
  obtain ⟨_, v, hv, ho3, hr3⟩ := count_zero msgA (length_zeros 1024) d1
  obtain ⟨_, tmp, ho4, hr4⟩ := read_counted msgB hv d1
  set d2 := d1.insert (counterKey Topic.sample.name.bytes) v with hd2
  have h0 : Transition.run (sysStep levelDb Topic.sample.name) (Sys.fresh levelDb)
    [.call msgA] = some (oneCall ∅ .start) := rfl
  have h1 := oneCall_act ho1 hr1
  have h2 := oneCall_act ho2 hr2
  have h3 := oneCall_act ho3 hr3
  have hstop : sysStep levelDb Topic.sample.name (oneCall d2 (.loop 0)) .crash =
    some ⟨d2, [⟨msgA, .loop 0, false⟩], [], ∅⟩ := rfl
  have hcall : sysStep levelDb Topic.sample.name ⟨d2, [⟨msgA, .loop 0, false⟩], [], ∅⟩
    (.call msgB) = some (afterStop d2 (.loop 0) .start) := rfl
  have h4 := afterStop_act (a := .loop 0) ho4 hr4
  have hrun := Transition.run_snoc (Transition.run_snoc (Transition.run_snoc
    (Transition.run_snoc (Transition.run_snoc (Transition.run_snoc h0 h1) h2) h3) hstop) hcall) h4
  refine ⟨_, tmp, hrun, rfl, ?_, single_thread_never_overwrites Topic.sample _ _ ?_ hrun⟩
  · show d2[key]? = some msgA.bytes
    rw [hd2, get_insert_of_ne _ (messageKey_ne_counterKey _ 0).symm, hd1,
      ExtTreeMap.getElem?_insert_self]
  · refine .cons ⟨by simp [SingleThreaded, Sys.fresh], trivial⟩ rfl (.cons ⟨trivial, trivial⟩ h1
      (.cons ⟨trivial, trivial⟩ h2 (.cons ⟨trivial, trivial⟩ h3 (.cons ⟨trivial, ?_⟩ hstop
      (.cons ⟨?_, trivial⟩ hcall (.cons ⟨trivial, trivial⟩ h4 trivial))))))
    · simp [StopsOutside, oneCall]
    · simp [SingleThreaded, Call.busy]

/-- The process stops after the message put of the first call: the next call reads no
counter and puts its own message over the first. -/
theorem stopped_call_overwritten :
    ∃ s s', Transition.run (sysStep levelDb Topic.sample.name) (Sys.fresh levelDb)
        [.call msgA, .act 0, .act 0, .crash, .call msgB, .act 1] = some s ∧
      Transition.Along (sysStep levelDb Topic.sample.name) SingleThreaded (Sys.fresh levelDb)
        [.call msgA, .act 0, .act 0, .crash, .call msgB, .act 1] ∧
      ¬ NextPutIsFresh Topic.sample.name s ∧
      sysStep levelDb Topic.sample.name s (.act 1) = some s' ∧
      s.db[messageKey Topic.sample.name.bytes 0]? = some msgA.bytes ∧
      s'.db[messageKey Topic.sample.name.bytes 0]? = some msgB.bytes := by
  set key := messageKey Topic.sample.name.bytes 0 with hkey
  obtain ⟨_, ho1, hr1⟩ := read_fresh msgA
  obtain ⟨_, ho2, hr2⟩ := put_zero msgA (by decide) (zeros 1024) ∅
  set d1 := (∅ : Map).insert key msgA.bytes with hd1
  have hnone : d1[counterKey Topic.sample.name.bytes]? = none := by
    rw [hd1, hkey, ExtTreeMap.getElem?_insert, if_neg, ExtTreeMap.getElem?_empty]
    decide
  obtain ⟨_, ho3, hr3⟩ := read_uncounted msgB hnone
  obtain ⟨_, ho4, hr4⟩ := put_zero msgB (by decide) (zeros 1024) d1
  have h0 : Transition.run (sysStep levelDb Topic.sample.name) (Sys.fresh levelDb)
    [.call msgA] = some (oneCall ∅ .start) := rfl
  have h1 := oneCall_act ho1 hr1
  have h2 := oneCall_act ho2 hr2
  have h4 := afterStop_act (a := .wrote 0 (zeros 1024)) ho3 hr3
  have h5 := afterStop_act (a := .wrote 0 (zeros 1024)) ho4 hr4
  have hget : d1[key]? = some msgA.bytes := ExtTreeMap.getElem?_insert_self
  have hstop : sysStep levelDb Topic.sample.name (oneCall d1 (.wrote 0 (zeros 1024))) .crash =
    some ⟨d1, [⟨msgA, .wrote 0 (zeros 1024), false⟩], [], ∅⟩ := rfl
  have hcall : sysStep levelDb Topic.sample.name
      ⟨d1, [⟨msgA, .wrote 0 (zeros 1024), false⟩], [], ∅⟩ (.call msgB) =
    some (afterStop d1 (.wrote 0 (zeros 1024)) .start) := rfl
  have hrun := Transition.run_snoc (Transition.run_snoc (Transition.run_snoc
    (Transition.run_snoc (Transition.run_snoc h0 h1) h2) hstop) hcall) h4
  refine ⟨_, _, hrun, ?_, ?_, h5, hget, ExtTreeMap.getElem?_insert_self⟩
  · refine .cons (by simp [SingleThreaded, Sys.fresh]) rfl (.cons trivial h1 (.cons trivial h2
      (.cons trivial hstop (.cons ?_ hcall (.cons trivial h4 trivial)))))
    simp [SingleThreaded, Call.busy]
  · intro hfresh
    exact hfresh 1 _ 0 _ rfl rfl rfl (mem_iff_exists_get.mpr ⟨_, hget⟩)

end KfkClient
