import KfkClient.Client.World
import KfkClient.Lib.Transition

/-!
# Calls of `send_msg_with_cache` cut at their store operations

The calls that any number of threads make on one topic, each at the point of its
next store operation. Every store operation is atomic; between two of them other
calls, receipts and the end of the process may come. `storeMsg_solo` ties the
machine to `storeMsg`: a call that is left alone does what the function does.

## Main definitions

- `Pc` — where a call is, with the local variables it still needs
- `storeOp` — the next store operation of a call
- `Sys`, `SysEvent`, `sysStep` — the machine
-/

namespace KfkClient

open CLib OrderedMap
open Std (ExtTreeMap)

inductive Pc where
  | start
  -- the counter was read
  | read (num : ℤ) (descTmp : Bytes)
  -- the message was put
  | wrote (num : ℤ) (descTmp : Bytes)
  -- the counter was put, or a round of the eviction loop is over
  | loop (num : ℤ)
  -- the first key is old enough to go
  | evict (num : ℤ) (ktmp : Bytes)
  | produce (num : ℤ)
  | returned (num : ℤ)
  deriving DecidableEq

structure Call where
  msg : CString
  pc : Pc
  -- its process still runs
  alive : Bool

structure Sys (σ : Type) where
  db : σ
  calls : List Call
  -- the call whose message it is, and the key bytes
  inflight : List (ℕ × Option Bytes)
  -- the calls whose successful receipt was processed
  acked : Finset ℕ

inductive SysEvent where
  | call (msg : CString)
  | act (i : ℕ)
  | produce (i : ℕ) (taken : Bool)
  | receipt (j : ℕ) (err : Bool)
  | crash

section Machine

variable {σ : Type} (B : Opdb σ) (topic : CString)

/-- The next store operation of a call and the point it leads to. -/
def storeOp (msg : CString) : Pc → Option (Exec σ Pc)
  | .start => some do
    let (num, descTmp) ← readCounter B topic
    pure (.read num descTmp)
  | .read num descTmp => some do
    putMessage B msg topic num
    pure (.wrote num descTmp)
  | .wrote num descTmp => some do
    putCounter B topic num descTmp
    pure (.loop num)
  | .loop num => some do
    if num > numMax then
      let (offset, ktmp) ← firstOffset B topic
      let age ← llSub num offset
      if age > numMax then pure (.evict num ktmp) else pure (.produce num)
    else pure (.produce num)
  | .evict num ktmp => some do
    let _ ← storageDelkey B ktmp (toInt (strlen ktmp))
    pure (.loop num)
  | .produce _ => none
  | .returned _ => none

def Sys.fresh : Sys σ := ⟨B.fresh, [], [], ∅⟩

def Call.die (c : Call) : Call := { c with alive := false }

/-- The call at place `i` comes to `pc` and leaves the database `db` behind. -/
def Sys.move (s : Sys σ) (i : ℕ) (c : Call) (pc : Pc) (db : σ) : Sys σ :=
  { s with db := db, calls := s.calls.set i { c with pc := pc } }

def sysStep (s : Sys σ) : SysEvent → Option (Sys σ)
  | .call msg => some { s with calls := s.calls ++ [⟨msg, .start, true⟩] }
  | .act i =>
    (s.calls[i]?).bind fun c =>
      if c.alive then
        (storeOp B topic c.msg c.pc).bind fun op =>
          (returned op s.db).map fun r => s.move i c r.1 r.2
      else none
  | .produce i taken =>
    (s.calls[i]?).bind fun c =>
      match c.pc with
      | .produce num =>
        -- an empty message is never handed to librdkafka
        if c.alive ∧ (taken = true → c.msg.bytes ≠ []) then
          let s' := s.move i c (.returned num) s.db
          some { s' with inflight := s.inflight ++ if taken then [(i, keystr num)] else [] }
        else none
      | _ => none
  | .receipt j err =>
    (s.inflight[j]?).bind fun p =>
      if err then some { s with inflight := s.inflight.eraseIdx j }
      else
        (returned (sendMsgCallback B topic.bytes (receiptNumber p.2)) s.db).map fun r =>
          { s with db := r.2, inflight := s.inflight.eraseIdx j, acked := insert p.1 s.acked }
  | .crash => some { s with calls := s.calls.map Call.die, inflight := [] }

variable {B topic} {s s' : Sys σ}

theorem sysStep_act_iff {i : ℕ} :
    sysStep B topic s (.act i) = some s' ↔
      ∃ c op pc db, s.calls[i]? = some c ∧ c.alive = true ∧ storeOp B topic c.msg c.pc = some op ∧
        op.run s.db = .ok pc db ∧ s' = s.move i c pc db := by
  rw [sysStep, Option.bind_eq_some_iff]
  constructor
  · rintro ⟨c, hc, h⟩
    split at h
    · next halive =>
        rw [Option.bind_eq_some_iff] at h
        obtain ⟨op, hop, h⟩ := h
        rw [Option.map_eq_some_iff] at h
        obtain ⟨⟨pc, db⟩, hret, rfl⟩ := h
        exact ⟨c, op, pc, db, hc, halive, hop, returned_eq_some.mp hret, rfl⟩
    · cases h
  · rintro ⟨c, op, pc, db, hc, halive, hop, hrun, rfl⟩
    refine ⟨c, hc, ?_⟩
    rw [if_pos halive, hop, Option.bind_some, returned_eq_some.mpr hrun, Option.map_some]

theorem sysStep_produce_iff {i : ℕ} {taken : Bool} :
    sysStep B topic s (.produce i taken) = some s' ↔
      ∃ c num, s.calls[i]? = some c ∧ c.alive = true ∧ c.pc = .produce num ∧
        (taken = true → c.msg.bytes ≠ []) ∧
        s' = { s.move i c (.returned num) s.db with
          inflight := s.inflight ++ if taken then [(i, keystr num)] else [] } := by
  rw [sysStep, Option.bind_eq_some_iff]
  constructor
  · rintro ⟨c, hc, h⟩
    split at h
    · next num hpc =>
        split at h
        · next hp =>
            cases h
            exact ⟨c, num, hc, hp.1, hpc, hp.2, rfl⟩
        · cases h
    · cases h
  · rintro ⟨c, num, hc, halive, hpc, htaken, rfl⟩
    refine ⟨c, hc, ?_⟩
    rw [hpc]
    simp only
    rw [if_pos ⟨halive, htaken⟩]

theorem sysStep_receipt {j : ℕ} {err : Bool} (h : sysStep B topic s (.receipt j err) = some s') :
    ∃ p, s.inflight[j]? = some p ∧
      ((err = true ∧ s' = { s with inflight := s.inflight.eraseIdx j }) ∨
        (err = false ∧ ∃ rc db,
          (sendMsgCallback B topic.bytes (receiptNumber p.2)).run s.db = .ok rc db ∧
          s' = { s with
            db := db, inflight := s.inflight.eraseIdx j, acked := insert p.1 s.acked })) := by
  rw [sysStep, Option.bind_eq_some_iff] at h
  obtain ⟨p, hp, h⟩ := h
  refine ⟨p, hp, ?_⟩
  cases err with
  | true =>
    cases h
    exact .inl ⟨rfl, rfl⟩
  | false =>
    rw [if_neg Bool.false_ne_true, Option.map_eq_some_iff] at h
    obtain ⟨⟨rc, db⟩, hret, rfl⟩ := h
    exact .inr ⟨rfl, rc, db, returned_eq_some.mp hret, rfl⟩

/-! ### A call that is left alone -/

theorem Sys.getElem?_move_self {i : ℕ} {c : Call} (hc : s.calls[i]? = some c) (pc : Pc) (db : σ) :
    (s.move i c pc db).calls[i]? = some { c with pc := pc } :=
  List.getElem?_set_self (List.getElem?_eq_some_iff.mp hc).1

theorem Sys.getElem?_move_of_ne {i j : ℕ} (h : j ≠ i) (c : Call) (pc : Pc) (db : σ) :
    (s.move i c pc db).calls[j]? = s.calls[j]? :=
  List.getElem?_set_ne (Ne.symm h)

theorem Sys.move_move (i : ℕ) (c : Call) (pc pc' : Pc) (db db' : σ) :
    (s.move i c pc db).move i { c with pc := pc } pc' db' = s.move i c pc' db' := by
  simp [Sys.move]

theorem sysStep_moved {i : ℕ} {c : Call} (hc : s.calls[i]? = some c) (halive : c.alive = true)
    {pc pc' : Pc} {db db' : σ} {op : Exec σ Pc} (hop : storeOp B topic c.msg pc = some op)
    (hrun : op.run db = .ok pc' db') :
    sysStep B topic (s.move i c pc db) (.act i) = some (s.move i c pc' db') := by
  rw [sysStep_act_iff]
  refine ⟨{ c with pc := pc }, op, pc', db', s.getElem?_move_self hc pc db, halive, hop, hrun, ?_⟩
  rw [Sys.move_move]

theorem evictLoop_solo {i : ℕ} {c : Call} (hc : s.calls[i]? = some c) (halive : c.alive = true)
    {num : ℤ} {fuel : ℕ} {db db' : σ} (h : (evictLoop B topic num fuel).run db = .ok () db') :
    ∃ k, Transition.run (sysStep B topic) (s.move i c (.loop num) db)
      (List.replicate k (.act i)) = some (s.move i c (.produce num) db') := by
  induction fuel generalizing db with
  | zero =>
    rw [evictLoop, run_throw] at h
    cases h
  | succ fuel ih =>
    rw [evictLoop] at h
    by_cases hmax : num > numMax
    swap
    · -- the loop is not entered
      rw [if_neg hmax] at h
      cases h
      refine ⟨1, ?_⟩
      have hstep : sysStep B topic (s.move i c (.loop num) db') (.act i) =
          some (s.move i c (.produce num) db') := by
        refine sysStep_moved hc halive rfl ?_
        rw [if_neg hmax]
        rfl
      exact Transition.run_snoc (Transition.run_nil _) hstep
    rw [if_pos hmax] at h
    obtain ⟨⟨offset, ktmp⟩, m1, hfirst, h⟩ := run_bind_eq_ok h
    obtain ⟨age, m2, hage, h⟩ := run_bind_eq_ok h
    by_cases hold : age > numMax
    · rw [if_pos hold] at h
      obtain ⟨rc, m3, hdel, h⟩ := run_bind_eq_ok h
      obtain ⟨k, hk⟩ := ih h
      have h1 : sysStep B topic (s.move i c (.loop num) db) (.act i) =
          some (s.move i c (.evict num ktmp) m2) := by
        refine sysStep_moved hc halive rfl ?_
        rw [if_pos hmax, run_bind_ok hfirst]
        simp only
        rw [run_bind_ok hage, if_pos hold]
        rfl
      have h2 : sysStep B topic (s.move i c (.evict num ktmp) m2) (.act i) =
          some (s.move i c (.loop num) m3) := by
        refine sysStep_moved hc halive rfl ?_
        rw [run_bind_ok hdel]
        rfl
      refine ⟨k + 2, ?_⟩
      rw [List.replicate_succ, List.replicate_succ, Transition.run_cons_some h1,
        Transition.run_cons_some h2, hk]
    · rw [if_neg hold] at h
      cases h
      refine ⟨1, ?_⟩
      have hstep : sysStep B topic (s.move i c (.loop num) db) (.act i) =
          some (s.move i c (.produce num) db') := by
        refine sysStep_moved hc halive rfl ?_
        rw [if_pos hmax, run_bind_ok hfirst]
        simp only
        rw [run_bind_ok hage, if_neg hold]
        rfl
      exact Transition.run_snoc (Transition.run_nil _) hstep

/-- A call that nothing interrupts does what `storeMsg` does. -/
theorem storeMsg_solo {i : ℕ} {c : Call} (hc : s.calls[i]? = some c) (halive : c.alive = true)
    (hpc : c.pc = .start) {num : ℤ} {db : σ}
    (h : (storeMsg B c.msg topic).run s.db = .ok num db) :
    ∃ k, Transition.run (sysStep B topic) s (List.replicate k (.act i)) =
      some (s.move i c (.produce num) db) := by
  rw [storeMsg] at h
  obtain ⟨⟨n, tmp⟩, m1, hread, h⟩ := run_bind_eq_ok h
  obtain ⟨_, m2, hmsg, h⟩ := run_bind_eq_ok h
  obtain ⟨_, m3, hcnt, h⟩ := run_bind_eq_ok h
  obtain ⟨_, m4, hget, h⟩ := run_bind_eq_ok h
  cases hget
  obtain ⟨_, m5, hev, h⟩ := run_bind_eq_ok h
  cases h
  have h1 : sysStep B topic s (.act i) = some (s.move i c (.read num tmp) m1) := by
    rw [sysStep_act_iff]
    refine ⟨c, _, _, m1, hc, halive, by rw [hpc]; rfl, ?_, rfl⟩
    rw [run_bind_ok hread]
    rfl
  have h2 : sysStep B topic (s.move i c (.read num tmp) m1) (.act i) =
      some (s.move i c (.wrote num tmp) m2) := by
    refine sysStep_moved hc halive rfl ?_
    rw [run_bind_ok hmsg]
    rfl
  have h3 : sysStep B topic (s.move i c (.wrote num tmp) m2) (.act i) =
      some (s.move i c (.loop num) m3) := by
    refine sysStep_moved hc halive rfl ?_
    rw [run_bind_ok hcnt]
    rfl
  obtain ⟨k, hk⟩ := evictLoop_solo hc halive hev
  refine ⟨k + 3, ?_⟩
  rw [List.replicate_succ, List.replicate_succ, List.replicate_succ, Transition.run_cons_some h1,
    Transition.run_cons_some h2, Transition.run_cons_some h3, hk]

end Machine

end KfkClient
