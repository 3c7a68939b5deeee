import KfkClient.Lib.Lists
import KfkClient.Concurrent.Machine
import KfkClient.Store.LevelDb

/-!
# Numbers under interleaving and crashes

`Numbered t n s` is the invariant of a topic's cache whose counter record holds `n`:
the call between its counter read and its counter put, if there is one, has number
`n`, and every call past that point has a smaller number of its own. It is kept by
every step that `Careful` allows, and so along every run of such steps. What that means for
threads that share a topic and for a process that stops is in `Concurrent.Safety`.
-/

namespace KfkClient

open CLib Lists OrderedMap LevelDb
open Std (ExtTreeMap)

/-- The number of a call whose counter put is done. -/
def Pc.settled : Pc → Option ℤ
  | .loop num => some num
  | .evict num _ => some num
  | .produce num => some num
  | .returned num => some num
  | _ => none

/-- Between the counter read and the counter put. -/
def Pc.between : Pc → Bool
  | .read _ _ => true
  | .wrote _ _ => true
  | _ => false

def Call.critical (c : Call) : Prop := c.alive = true ∧ c.pc.between = true

/-- The number a call uses. One that died before its counter put uses none. -/
def Call.number (c : Call) : Option ℤ :=
  match c.pc with
  | .start => none
  | .read num _ => if c.alive then some num else none
  | .wrote num _ => if c.alive then some num else none
  | pc => pc.settled

/-- The message of a call with number `num` is in the cache unless it was confirmed
or is older than the 50001 latest of `n`. -/
def Held (t : CString) (n : ℕ) (db : Map) (acked : Prop) (msg : CString) (num : ℤ) : Prop :=
  ∃ m : ℕ, m < n ∧ num = m ∧
    (¬ acked → n ≤ m + 50001 → db[messageKey t.bytes m]? = some (storedBytes msg))

def CallOk (t : CString) (n : ℕ) (db : Map) (acked : Prop) (c : Call) : Prop :=
  match c.pc with
  | .start => True
  | .read num descTmp => c.alive = true →
    num = n ∧ descTmp.length = 1024 ∧ db[messageKey t.bytes n]? = none
  | .wrote num descTmp => c.alive = true →
    num = n ∧ descTmp.length = 1024 ∧ db[messageKey t.bytes n]? = some (storedBytes c.msg)
  | .evict num ktmp => Held t n db acked c.msg num ∧
    ∃ j : ℕ, IsNumber j ∧ cstr ktmp = (messageKey t.bytes j).take 255 ∧
      (t.bytes.length ≤ 235 → (j : ℤ) + 50000 < num)
  | .loop num => Held t n db acked c.msg num
  | .produce num => Held t n db acked c.msg num
  | .returned num => Held t n db acked c.msg num

structure Numbered (t : CString) (n : ℕ) (s : Sys Map) : Prop where
  shaped : Shaped t s.db
  counts : Counts t s.db n
  number : IsNumber n
  entry : ∀ k, IsNumber k → messageKey t.bytes k ∈ s.db →
    k < n ∨ k = n ∧ ∃ (i : ℕ) (c : Call) (num : ℤ) (tmp : Bytes),
      s.calls[i]? = some c ∧ c.alive = true ∧ c.pc = .wrote num tmp
  call : ∀ (i : ℕ) (c : Call), s.calls[i]? = some c → CallOk t n s.db (i ∈ s.acked) c
  unique : ∀ (i j : ℕ) (c d : Call) (x : ℤ), s.calls[i]? = some c → s.calls[j]? = some d →
    c.number = some x → d.number = some x → i = j
  covered : ∀ k : ℕ, k < n →
    ∃ (i : ℕ) (c : Call), s.calls[i]? = some c ∧ c.pc.settled = some (k : ℤ)
  inflight : ∀ p ∈ s.inflight, ∃ c, ∃ m : ℕ, s.calls[p.1]? = some c ∧ c.pc = .returned m ∧
    IsNumber m ∧ p.2 = keystr m
  acked : ∀ i ∈ s.acked, ∃ c m, s.calls[i]? = some c ∧ c.pc = .returned m

/-- What a step needs: a counter is read while no other call is between its counter
read and its counter put, an eviction looks at a cache with a message in it, and the
process does not stop between a message put and its counter put. -/
def Careful (t : CString) (s : Sys Map) : SysEvent → Prop
  | .act i => ∀ c, s.calls[i]? = some c →
    (c.pc = .start → ∀ d ∈ s.calls, ¬ d.critical) ∧
    (∀ num, c.pc = .loop num → num > numMax →
      ∃ k, IsNumber k ∧ messageKey t.bytes k ∈ s.db)
  | .crash => ∀ c ∈ s.calls, c.alive = true → ∀ num tmp, c.pc ≠ .wrote num tmp
  | _ => True

/-! ### Calls that a step leaves alone -/

theorem Call.number_of_settled {c : Call} {x : ℤ} (h : c.pc.settled = some x) :
    c.number = some x := by
  rw [Call.number]
  cases hpc : c.pc <;> rw [hpc] at h <;> first | exact h | cases h

/-- A call that uses a number is between its counter read and put, or past both. -/
theorem Call.number_cases {c : Call} {x : ℤ} (h : c.number = some x) :
    c.critical ∨ c.pc.settled = some x := by
  rw [Call.number] at h
  cases hpc : c.pc with
  | start =>
    rw [hpc] at h
    cases h
  | read num tmp | wrote num tmp =>
    rw [hpc] at h
    by_cases halive : c.alive = true
    · exact .inl ⟨halive, by rw [hpc]; rfl⟩
    · simp [halive] at h
  | _ =>
    rw [hpc] at h
    exact .inr h

theorem CallOk.number_critical {t : CString} {n : ℕ} {db : Map} {a : Prop} {c : Call}
    (h : CallOk t n db a c) (hc : c.critical) : c.number = some (n : ℤ) := by
  obtain ⟨halive, hb⟩ := hc
  rw [CallOk] at h
  rw [Call.number]
  cases hpc : c.pc with
  | read num tmp =>
    rw [hpc] at h
    simp only [halive, if_true, (h halive).1]
  | wrote num tmp =>
    rw [hpc] at h
    simp only [halive, if_true, (h halive).1]
  | _ =>
    rw [hpc] at hb
    cases hb

theorem CallOk.held {t : CString} {n : ℕ} {db : Map} {a : Prop} {c : Call} {x : ℤ}
    (h : CallOk t n db a c) (hx : c.pc.settled = some x) : Held t n db a c.msg x := by
  rw [CallOk] at h
  cases hpc : c.pc with
  | start | read _ _ | wrote _ _ =>
    rw [hpc] at hx
    cases hx
  | evict num ktmp =>
    rw [hpc] at h hx
    cases hx
    exact h.1
  | loop num | produce num | returned num =>
    rw [hpc] at h hx
    cases hx
    exact h

/-- A call stays as it should be when the step raises the counter only past calls
that are done with it, and keeps the entries that matter. -/
theorem CallOk.frame {t : CString} {n n' : ℕ} {db db' : Map} {a a' : Prop} {c : Call}
    (h : CallOk t n db a c) (hnn : n ≤ n')
    (hcrit : c.critical → n' = n ∧ db'[messageKey t.bytes n]? = db[messageKey t.bytes n]?)
    (ha : a → a')
    (hset : ∀ m : ℕ, c.pc.settled = some (m : ℤ) → m < n → ¬ a' → n' ≤ m + 50001 →
      db'[messageKey t.bytes m]? = db[messageKey t.bytes m]?) : CallOk t n' db' a' c := by
  have hheld : ∀ {x}, c.pc.settled = some x → Held t n' db' a' c.msg x := by
    intro x hx
    obtain ⟨m, hm, rfl, hpres⟩ := h.held hx
    refine ⟨m, hm.trans_le hnn, rfl, ?_⟩
    intro hna hrec
    rw [hset m hx hm hna hrec]
    exact hpres (fun hac => hna (ha hac)) (hnn.trans hrec)
  rw [CallOk] at h ⊢
  cases hpc : c.pc with
  | start => trivial
  | read num tmp =>
    intro halive
    rw [hpc] at h
    obtain ⟨hn, hl, hk⟩ := h halive
    obtain ⟨rfl, hdb⟩ := hcrit ⟨halive, by rw [hpc]; rfl⟩
    exact ⟨hn, hl, hdb.trans hk⟩
  | wrote num tmp =>
    intro halive
    rw [hpc] at h
    obtain ⟨hn, hl, hk⟩ := h halive
    obtain ⟨rfl, hdb⟩ := hcrit ⟨halive, by rw [hpc]; rfl⟩
    exact ⟨hn, hl, hdb.trans hk⟩
  | evict num ktmp =>
    rw [hpc] at h
    exact ⟨hheld (by rw [hpc]; rfl), h.2⟩
  | loop num => exact hheld (by rw [hpc]; rfl)
  | produce num => exact hheld (by rw [hpc]; rfl)
  | returned num => exact hheld (by rw [hpc]; rfl)

theorem Numbered.not_critical {t : CString} {n : ℕ} {s : Sys Map} (h : Numbered t n s) {i j : ℕ}
    {c d : Call} (hi : s.calls[i]? = some c) (hc : c.critical) (hj : s.calls[j]? = some d)
    (hne : j ≠ i) : ¬ d.critical := by
  intro hd
  exact hne (h.unique j i d c n hj hi ((h.call j d hj).number_critical hd)
    ((h.call i c hi).number_critical hc))

/-- The number of a settled call is below the counter. -/
theorem Numbered.settled_lt {t : CString} {n : ℕ} {s : Sys Map} (h : Numbered t n s) {i : ℕ}
    {c : Call} {x : ℤ} (hi : s.calls[i]? = some c) (hx : c.pc.settled = some x) :
    ∃ m : ℕ, m < n ∧ x = m := by
  obtain ⟨m, hm, rfl, -⟩ := (h.call i c hi).held hx
  exact ⟨m, hm, rfl⟩

/-- The call at place `i` moves on: what has to be shown for the whole system. -/
theorem Numbered.move {t : CString} {n n' : ℕ} {s : Sys Map} (h : Numbered t n s) {i : ℕ} {c : Call}
    (hi : s.calls[i]? = some c) (hnot : ∀ m, c.pc ≠ .returned m) {pc : Pc} {db : Map}
    (hshaped : Shaped t db) (hcounts : Counts t db n') (hnumber : IsNumber n')
    (hentry : ∀ k, IsNumber k → messageKey t.bytes k ∈ db → k < n' ∨ k = n' ∧
      ∃ (j : ℕ) (d : Call) (num : ℤ) (tmp : Bytes), (s.move i c pc db).calls[j]? = some d ∧
        d.alive = true ∧ d.pc = .wrote num tmp)
    (hself : CallOk t n' db (i ∈ s.acked) { c with pc := pc })
    (hother : ∀ (j : ℕ) (d : Call), j ≠ i → s.calls[j]? = some d → CallOk t n' db (j ∈ s.acked) d)
    (hnum : ∀ x, ({ c with pc := pc } : Call).number = some x →
      c.number = some x ∨ ∀ (j : ℕ) (d : Call), j ≠ i → s.calls[j]? = some d → d.number ≠ some x)
    (hset : ∀ x, c.pc.settled = some x → pc.settled = some x)
    (hcov : ∀ k : ℕ, k < n' → k < n ∨ pc.settled = some (k : ℤ)) :
    Numbered t n' (s.move i c pc db) := by
  have hget : ∀ (j : ℕ) (d : Call), (s.move i c pc db).calls[j]? = some d →
      (j = i ∧ d = { c with pc := pc }) ∨ (j ≠ i ∧ s.calls[j]? = some d) :=
    fun _ _ hj => getElem?_set_cases hj
  have hkeep : ∀ {j : ℕ} {d : Call} {m : ℤ}, s.calls[j]? = some d → d.pc = .returned m →
      (s.move i c pc db).calls[j]? = some d := by
    intro j d m hj hd
    have hji : j ≠ i := by
      rintro rfl
      rw [hi] at hj
      cases hj
      exact hnot m hd
    rw [s.getElem?_move_of_ne hji, hj]
  have hothernum : ∀ {j : ℕ} {d : Call} {x : ℤ}, j ≠ i → s.calls[j]? = some d → d.number = some x →
      ({ c with pc := pc } : Call).number ≠ some x := by
    intro j d x hji hj hd hx
    rcases hnum x hx with hc | hno
    · exact hji (h.unique j i d c x hj hi hd hc)
    · exact hno j d hji hj hd
  refine ⟨hshaped, hcounts, hnumber, hentry, ?_, ?_, ?_, ?_, ?_⟩
  · intro j d hj
    rcases hget j d hj with ⟨rfl, rfl⟩ | ⟨hji, hj⟩
    · exact hself
    · exact hother j d hji hj
  · intro j l d e x hj hl hd he
    rcases hget j d hj with ⟨rfl, rfl⟩ | ⟨hji, hj'⟩
    · rcases hget l e hl with ⟨rfl, -⟩ | ⟨hli, hl'⟩
      · rfl
      · exact absurd hd (hothernum hli hl' he)
    · rcases hget l e hl with ⟨rfl, rfl⟩ | ⟨-, hl'⟩
      · exact absurd he (hothernum hji hj' hd)
      · exact h.unique j l d e x hj' hl' hd he
  · intro k hk
    rcases hcov k hk with hkn | hks
    · obtain ⟨j, d, hj, hd⟩ := h.covered k hkn
      by_cases hji : j = i
      · subst hji
        rw [hi] at hj
        cases hj
        exact ⟨j, _, s.getElem?_move_self hi pc db, hset _ hd⟩
      · exact ⟨j, d, by rw [s.getElem?_move_of_ne hji, hj], hd⟩
    · exact ⟨i, _, s.getElem?_move_self hi pc db, hks⟩
  · intro p hp
    obtain ⟨d, m, hd, hpc, hm⟩ := h.inflight p hp
    exact ⟨d, m, hkeep hd hpc, hpc, hm⟩
  · intro j hj
    obtain ⟨d, m, hd, hpc⟩ := h.acked j hj
    exact ⟨d, m, hkeep hd hpc, hpc⟩

/-- A settled call moves on with its number, and the cache keeps what matters. -/
theorem Numbered.moveSettled {t : CString} {n : ℕ} {s : Sys Map} (h : Numbered t n s) {i : ℕ}
    {c : Call} (hi : s.calls[i]? = some c) (hnot : ∀ m, c.pc ≠ .returned m) {pc : Pc} {x : ℤ}
    (hx : c.pc.settled = some x) (hx' : pc.settled = some x) {db : Map} (hshaped : Shaped t db)
    (hcounts : Counts t db n)
    (hsub : ∀ k, messageKey t.bytes k ∈ db → messageKey t.bytes k ∈ s.db)
    (hself : CallOk t n db (i ∈ s.acked) { c with pc := pc })
    (hframe : ∀ (j : ℕ) (d : Call), s.calls[j]? = some d → CallOk t n db (j ∈ s.acked) d) :
    Numbered t n (s.move i c pc db) := by
  have hnum : c.number = some x := Call.number_of_settled hx
  have hnum' : ({ c with pc := pc } : Call).number = some x := Call.number_of_settled hx'
  refine h.move hi hnot hshaped hcounts h.number ?_ hself (fun j d _ hj => hframe j d hj) ?_ ?_ ?_
  · intro k hk hmem
    rcases h.entry k hk (hsub k hmem) with hkn | ⟨hkn, j, d, num, tmp, hj, hal, hd⟩
    · exact .inl hkn
    · refine .inr ⟨hkn, j, d, num, tmp, ?_, hal, hd⟩
      rw [s.getElem?_move_of_ne _, hj]
      rintro rfl
      rw [hi] at hj
      cases hj
      rw [hd] at hx
      cases hx
  · intro y hy
    rw [hnum'] at hy
    exact .inl (hnum.trans hy)
  · intro y hy
    rw [hx] at hy
    exact hx'.trans hy
  · exact fun k hk => .inl hk

/-! ### One step -/

section Step

variable {t : Topic} {n : ℕ} {s : Sys Map} (h : Numbered t.name n s) {i : ℕ} {c : Call}
  (hi : s.calls[i]? = some c)
include h hi

/-- The counter is read while nobody is about to raise it. -/
theorem Numbered.readCounter (halive : c.alive = true) (hpc : c.pc = .start)
    (hcare : ∀ d ∈ s.calls, ¬ d.critical) :
    ∃ tmp, (KfkClient.readCounter levelDb t.name).run s.db = .ok ((n : ℤ), tmp) s.db ∧
      Numbered t.name n (s.move i c (.read n tmp) s.db) := by
  have hlen := t.legal.cacheable.length_le
  obtain ⟨tmp, htmp, hrun⟩ := readCounter_counts levelDb_faithful hlen trivial h.number h.counts
  have hlt : ∀ k, IsNumber k → messageKey t.name.bytes k ∈ s.db → k < n := by
    intro k hk hmem
    rcases h.entry k hk hmem with hkn | ⟨-, j, d, num, tmp', hj, hal, hd⟩
    · exact hkn
    · exact absurd ⟨hal, by rw [hd]; rfl⟩ (hcare d (List.mem_of_getElem? hj))
  have hnone : s.db[messageKey t.name.bytes n]? = none := by
    by_contra hne
    obtain ⟨v, hv⟩ := Option.ne_none_iff_exists'.mp hne
    exact absurd (hlt n h.number (mem_iff_exists_get.mpr ⟨v, hv⟩)) (lt_irrefl n)
  refine ⟨tmp, hrun, h.move hi (by simp [hpc]) h.shaped h.counts h.number ?_ ?_ ?_ ?_ ?_ ?_⟩
  · exact fun k hk hmem => .inl (hlt k hk hmem)
  · exact fun _ => ⟨rfl, htmp, hnone⟩
  · exact fun j d _ hj => h.call j d hj
  · intro x hx
    refine .inr fun j d _ hj hd => ?_
    simp only [Call.number, halive, if_true, Option.some.injEq] at hx
    subst hx
    rcases Call.number_cases hd with hcrit | hset
    · exact hcare d (List.mem_of_getElem? hj) hcrit
    · obtain ⟨m, hm, hnm⟩ := h.settled_lt hj hset
      omega
  · simp [hpc, Pc.settled]
  · exact fun k hk => .inl hk

/-- The message goes under a key that nothing is under. -/
theorem Numbered.putMessage (halive : c.alive = true) {num : ℤ} {tmp : Bytes}
    (hpc : c.pc = .read num tmp) {db : Map}
    (hrun : (KfkClient.putMessage levelDb c.msg t.name num).run s.db = .ok () db) :
    Numbered t.name n (s.move i c (.wrote num tmp) db) := by
  have hlen := t.legal.cacheable.length_le
  have hcrit : c.critical := ⟨halive, by rw [hpc]; rfl⟩
  have hok := h.call i c hi
  simp only [CallOk, hpc] at hok
  obtain ⟨rfl, htmp, -⟩ := hok halive
  have hm : 0 ≤ toInt c.msg.bytes.length := by
    by_contra hneg
    rw [putMessage_error levelDb h.number hlen (by omega)] at hrun
    cases hrun
  rw [putMessage_run levelDb_faithful h.number hlen trivial hm, id_eq] at hrun
  cases hrun
  have hne : ∀ {m : ℕ}, m < n → messageKey t.name.bytes n ≠ messageKey t.name.bytes m := by
    intro m hm he
    have := (messageKey_inj h.number (h.number.mono hm.le)).mp he
    omega
  refine h.move hi (by simp [hpc]) (h.shaped.insert _ (.inr ⟨n, h.number, rfl⟩)) ?_ h.number
    ?_ ?_ ?_ ?_ ?_ ?_
  · rw [Counts, get_insert_of_ne _ (messageKey_ne_counterKey _ _)]
    exact h.counts
  · intro k hk hmem
    by_cases hkn : k = n
    · exact .inr ⟨hkn, i, _, n, tmp, s.getElem?_move_self hi _ _, halive, rfl⟩
    · rw [ExtTreeMap.mem_insert] at hmem
      have hold : messageKey t.name.bytes k ∈ s.db := by
        refine hmem.resolve_left fun he => hkn ?_
        exact ((messageKey_inj h.number hk).mp (Std.LawfulEqCmp.eq_of_compare he)).symm
      rcases h.entry k hk hold with hlt | ⟨he, -⟩
      · exact .inl hlt
      · exact absurd he hkn
  · exact fun _ => ⟨rfl, htmp, by simp⟩
  · intro j d hji hj
    have hnc := h.not_critical hi hcrit hj hji
    refine (h.call j d hj).frame le_rfl (fun hd => absurd hd hnc) id ?_
    intro m _ hm _ _
    exact get_insert_of_ne _ (hne hm)
  · intro x hx
    left
    rw [Call.number, hpc]
    simpa [Call.number] using hx
  · simp [hpc, Pc.settled]
  · exact fun k hk => .inl hk

/-- The counter goes up by one. -/
theorem Numbered.putCounter (halive : c.alive = true) {num : ℤ} {tmp : Bytes}
    (hpc : c.pc = .wrote num tmp) {db : Map}
    (hrun : (KfkClient.putCounter levelDb t.name num tmp).run s.db = .ok () db) :
    Numbered t.name (n + 1) (s.move i c (.loop num) db) := by
  have hlen := t.legal.cacheable.length_le
  have hcrit : c.critical := ⟨halive, by rw [hpc]; rfl⟩
  have hok := h.call i c hi
  simp only [CallOk, hpc] at hok
  obtain ⟨rfl, htmp, hmsg⟩ := hok halive
  have hn1 : IsNumber (n + 1) := by
    by_contra hov
    rw [putCounter_overflow levelDb hov] at hrun
    cases hrun
  obtain ⟨v, hv, hput⟩ := putCounter_run levelDb_faithful hlen trivial hn1 htmp s.db
  rw [hput] at hrun
  cases hrun
  have hkeep : ∀ m : ℕ, IsNumber m → (s.db.insert (counterKey t.name.bytes) v)[messageKey
      t.name.bytes m]? = s.db[messageKey t.name.bytes m]? :=
    fun m hm => get_insert_of_ne _ (messageKey_ne_counterKey _ _).symm
  refine h.move hi (by simp [hpc]) (h.shaped.insert _ (.inl rfl)) ?_ hn1 ?_ ?_ ?_ ?_ ?_ ?_
  · rw [Counts, ExtTreeMap.getElem?_insert_self]
    exact hv
  · intro k hk hmem
    left
    obtain ⟨w, hw⟩ := mem_iff_exists_get.mp hmem
    rw [hkeep k hk] at hw
    rcases h.entry k hk (mem_iff_exists_get.mpr ⟨w, hw⟩) with hlt | ⟨he, -⟩ <;> omega
  · exact ⟨n, Nat.lt_succ_self n, rfl, fun _ _ => (hkeep n h.number).trans hmsg⟩
  · intro j d hji hj
    have hnc := h.not_critical hi hcrit hj hji
    refine (h.call j d hj).frame (Nat.le_succ n) (fun hd => absurd hd hnc) id ?_
    intro m _ hm _ _
    exact hkeep m (h.number.mono hm.le)
  · intro x hx
    left
    rw [Call.number, hpc]
    simpa [Call.number, Pc.settled, halive] using hx
  · simp [hpc, Pc.settled]
  · intro k hk
    rcases Nat.lt_succ_iff_lt_or_eq.mp hk with hlt | rfl
    · exact .inl hlt
    · exact .inr rfl

/-- A look at the first key leads to the end of the loop, or to the delete of a
message that is old enough. -/
theorem Numbered.look {num : ℤ} (hpc : c.pc = .loop num)
    (hcare : num > numMax → ∃ k, IsNumber k ∧ messageKey t.name.bytes k ∈ s.db)
    {op : Exec Map Pc} (hop : storeOp levelDb t.name c.msg (.loop num) = some op) {pc : Pc}
    {db : Map} (hrun : op.run s.db = .ok pc db) :
    Numbered t.name n (s.move i c pc db) ∧ pc.settled = some num := by
  have ht := t.legal.cacheable
  have hset : c.pc.settled = some num := by rw [hpc]; rfl
  have hheld := (h.call i c hi).held hset
  have hnot : ∀ m, c.pc ≠ .returned m := by simp [hpc]
  have hdone : Numbered t.name n (s.move i c (.produce num) s.db) :=
    h.moveSettled hi hnot hset rfl h.shaped h.counts (fun _ hk => hk) hheld h.call
  cases hop
  by_cases hmax : num > numMax
  swap
  · rw [if_neg hmax] at hrun
    cases hrun
    exact ⟨hdone, rfl⟩
  obtain ⟨k, hk, hmem⟩ := hcare hmax
  obtain ⟨j, v, hj, hf, -⟩ := h.shaped.first_message ht hk hmem
  have hfo := firstOffset_run levelDb_faithful ht.length_le hf
  rw [atol_keyBuf hj ht.length_le] at hfo
  rw [if_pos hmax, run_bind_ok hfo] at hrun
  obtain ⟨age, m, hage, hrun⟩ := run_bind_eq_ok hrun
  obtain ⟨rfl, rfl⟩ := llSub_eq_ok hage
  split at hrun
  · next hold =>
      cases hrun
      refine ⟨h.moveSettled hi hnot hset rfl h.shaped h.counts (fun _ hk => hk) ?_ h.call, rfl⟩
      refine ⟨hheld, j, hj, cstr_keyBuf (nul_not_mem_messageKey hj t.name), ?_⟩
      intro hfit
      rw [offset_of_fits hfit] at hold
      simp only [numMax] at hold
      omega
  · cases hrun
    exact ⟨hdone, rfl⟩

/-- The delete of the eviction takes an entry that is no longer recent, or none. -/
theorem Numbered.evict {num : ℤ} {ktmp : Bytes} (hpc : c.pc = .evict num ktmp) {rc : ℤ} {db : Map}
    (hrun : (storageDelkey levelDb ktmp (toInt (strlen ktmp))).run s.db = .ok rc db) :
    Numbered t.name n (s.move i c (.loop num) db) := by
  have ht := t.legal.cacheable
  have hset : c.pc.settled = some num := by rw [hpc]; rfl
  have hok := h.call i c hi
  simp only [CallOk, hpc] at hok
  obtain ⟨⟨m, hm, rfl, -⟩, j, hj, hktmp, hold⟩ := hok
  have hcut : ((messageKey t.name.bytes j).take 255).length < 2 ^ 31 := by
    rw [List.length_take]
    omega
  obtain ⟨rc', hdel⟩ := storageDelkey_run levelDb_faithful hcut hktmp trivial s.db
  rw [hdel, h.shaped.erase_cut ht hj] at hrun
  cases hrun
  by_cases hfit : t.name.bytes.length ≤ 235
  swap
  · rw [if_neg hfit]
    exact h.moveSettled hi (by simp [hpc]) hset rfl h.shaped h.counts (fun _ hk => hk)
      ((h.call i c hi).held hset) h.call
  rw [if_pos hfit]
  have hjm : j + 50000 < m := by
    have := hold hfit
    omega
  have hkeep : ∀ l : ℕ, IsNumber l → j < l →
      (s.db.erase (messageKey t.name.bytes j))[messageKey t.name.bytes l]? =
        s.db[messageKey t.name.bytes l]? := by
    intro l hl hjl
    refine get_erase_of_ne fun he => ?_
    have := (messageKey_inj hj hl).mp he
    omega
  have hframe : ∀ (l : ℕ) (d : Call), s.calls[l]? = some d →
      CallOk t.name n (s.db.erase (messageKey t.name.bytes j)) (l ∈ s.acked) d := by
    intro l d hl
    refine (h.call l d hl).frame le_rfl (fun _ => ⟨rfl, hkeep n h.number (by omega)⟩) id ?_
    intro m' _ hm' _ hrec
    exact hkeep m' (h.number.mono hm'.le) (by omega)
  refine h.moveSettled hi (by simp [hpc]) hset rfl (h.shaped.erase _) ?_ ?_ ?_ hframe
  · rw [Counts, get_erase_of_ne (messageKey_ne_counterKey _ _)]
    exact h.counts
  · exact fun k hk => ExtTreeMap.mem_of_mem_erase hk
  · exact (hframe i c hi).held hset

end Step

/-- What a store operation does: the call comes to a point with the number it had, or
with the number before the new counter. -/
theorem Numbered.act {t : Topic} {n : ℕ} {s s' : Sys Map} (h : Numbered t.name n s) {i : ℕ}
    (hcare : Careful t.name s (.act i)) (hs : sysStep levelDb t.name s (.act i) = some s') :
    ∃ n' c pc db, Numbered t.name n' s' ∧ s.calls[i]? = some c ∧ s' = s.move i c pc db ∧
      ∀ x, pc.settled = some x → (c.pc.settled = some x ∧ n' = n) ∨ x + 1 = (n' : ℤ) := by
  obtain ⟨c, op, pc, db, hi, halive, hop, hrun, rfl⟩ := sysStep_act_iff.mp hs
  obtain ⟨hread, hlook⟩ := hcare c hi
  cases hpc : c.pc with
  | start =>
    rw [hpc, storeOp, Option.some.injEq] at hop
    subst hop
    obtain ⟨tmp, hr, hN⟩ := h.readCounter hi halive hpc (hread hpc)
    rw [run_bind_ok hr] at hrun
    cases hrun
    exact ⟨n, c, _, _, hN, hi, rfl, by simp [Pc.settled]⟩
  | read num tmp =>
    rw [hpc, storeOp, Option.some.injEq] at hop
    subst hop
    obtain ⟨_, m, hput, hrun⟩ := run_bind_eq_ok hrun
    cases hrun
    exact ⟨n, c, _, _, h.putMessage hi halive hpc hput, hi, rfl, by simp [Pc.settled]⟩
  | wrote num tmp =>
    rw [hpc, storeOp, Option.some.injEq] at hop
    subst hop
    obtain ⟨_, m, hput, hrun⟩ := run_bind_eq_ok hrun
    cases hrun
    have hok := h.call i c hi
    simp only [CallOk, hpc] at hok
    refine ⟨n + 1, c, _, _, h.putCounter hi halive hpc hput, hi, rfl, ?_⟩
    intro x hx
    cases hx
    right
    rw [(hok halive).1]
    push_cast
    ring
  | loop num =>
    rw [hpc] at hop
    obtain ⟨hN, hnum⟩ := h.look hi hpc (hlook num hpc) hop hrun
    refine ⟨n, c, pc, db, hN, hi, rfl, ?_⟩
    intro x hx
    rw [hnum] at hx
    exact .inl ⟨by rw [hpc]; exact hx, rfl⟩
  | evict num ktmp =>
    rw [hpc, storeOp, Option.some.injEq] at hop
    subst hop
    obtain ⟨rc, m, hdel, hrun⟩ := run_bind_eq_ok hrun
    cases hrun
    exact ⟨n, c, _, _, h.evict hi hpc hdel, hi, rfl,
      fun x hx => .inl ⟨by rw [hpc]; exact hx, rfl⟩⟩
  | produce num =>
    rw [hpc] at hop
    cases hop
  | returned num =>
    rw [hpc] at hop
    cases hop

theorem Numbered.newCall {t : Topic} {n : ℕ} {s : Sys Map} (h : Numbered t.name n s)
    (msg : CString) :
    Numbered t.name n { s with calls := s.calls ++ [⟨msg, .start, true⟩] } := by
  have hold : ∀ {i : ℕ} {c : Call}, s.calls[i]? = some c →
      (s.calls ++ [⟨msg, .start, true⟩])[i]? = some c :=
    fun hc => getElem?_snoc.mpr (.inl hc)
  refine ⟨h.shaped, h.counts, h.number, ?_, ?_, ?_, ?_, ?_, ?_⟩
  · intro k hk hmem
    refine (h.entry k hk hmem).imp_right ?_
    rintro ⟨hkn, i, c, num, tmp, hi, hc⟩
    exact ⟨hkn, i, c, num, tmp, hold hi, hc⟩
  · intro i c hi
    rcases getElem?_snoc.mp hi with hi | ⟨-, rfl⟩
    · exact h.call i c hi
    · trivial
  · intro i j c d x hi hj hc hd
    rcases getElem?_snoc.mp hi with hi | ⟨-, rfl⟩
    · rcases getElem?_snoc.mp hj with hj | ⟨-, rfl⟩
      · exact h.unique i j c d x hi hj hc hd
      · cases hd
    · cases hc
  · intro k hk
    obtain ⟨i, c, hi, hc⟩ := h.covered k hk
    exact ⟨i, c, hold hi, hc⟩
  · intro p hp
    obtain ⟨c, m, hi, hc⟩ := h.inflight p hp
    exact ⟨c, m, hold hi, hc⟩
  · intro i hi
    obtain ⟨c, m, hi, hc⟩ := h.acked i hi
    exact ⟨c, m, hold hi, hc⟩

theorem Numbered.produce {t : Topic} {n : ℕ} {s : Sys Map} (h : Numbered t.name n s) {i : ℕ}
    {c : Call} {num : ℤ} (hi : s.calls[i]? = some c) (hpc : c.pc = .produce num) (taken : Bool) :
    Numbered t.name n { s.move i c (.returned num) s.db with
      inflight := s.inflight ++ if taken then [(i, keystr num)] else [] } := by
  have hset : c.pc.settled = some num := by rw [hpc]; rfl
  have hheld := (h.call i c hi).held hset
  have hN : Numbered t.name n (s.move i c (.returned num) s.db) :=
    h.moveSettled hi (by simp [hpc]) hset rfl h.shaped h.counts (fun _ hk => hk) hheld h.call
  refine ⟨hN.shaped, hN.counts, hN.number, hN.entry, hN.call, hN.unique, hN.covered, ?_, hN.acked⟩
  intro p hp
  rcases List.mem_append.mp hp with hp | hp
  · exact hN.inflight p hp
  · cases taken with
    | false => cases hp
    | true =>
      obtain ⟨m, hm, rfl, -⟩ := hheld
      rw [List.mem_singleton.mp hp]
      exact ⟨_, m, s.getElem?_move_self hi (.returned m) s.db, rfl, h.number.mono hm.le, rfl⟩

theorem Numbered.receipt {t : Topic} {n : ℕ} {s s' : Sys Map} (h : Numbered t.name n s) {j : ℕ}
    {err : Bool} (hs : sysStep levelDb t.name s (.receipt j err) = some s') :
    Numbered t.name n s' := by
  obtain ⟨p, hp, hcase⟩ := sysStep_receipt hs
  have hsub : ∀ q ∈ s.inflight.eraseIdx j, q ∈ s.inflight := fun q hq =>
    List.mem_of_mem_eraseIdx hq
  rcases hcase with ⟨-, rfl⟩ | ⟨-, rc, db, hrun, rfl⟩
  · exact ⟨h.shaped, h.counts, h.number, h.entry, h.call, h.unique, h.covered,
      fun q hq => h.inflight q (hsub q hq), h.acked⟩
  obtain ⟨c, m, hi, hpc, hm, hkey⟩ := h.inflight p (List.mem_of_getElem? hp)
  have hset : c.pc.settled = some (m : ℤ) := by rw [hpc]; rfl
  have hmn : m < n := by
    obtain ⟨m', hm', he⟩ := h.settled_lt hi hset
    omega
  obtain ⟨rc', hdel⟩ := sendMsgCallback_run levelDb_faithful hm t.legal.cacheable.length_le
    trivial s.db
  rw [hkey, receiptNumber_keystr hm, hdel] at hrun
  cases hrun
  have hkeep : ∀ l : ℕ, IsNumber l → l ≠ m →
      (s.db.erase (messageKey t.name.bytes m))[messageKey t.name.bytes l]? =
        s.db[messageKey t.name.bytes l]? :=
    fun l hl hlm => get_erase_of_ne fun he => hlm ((messageKey_inj hm hl).mp he).symm
  refine ⟨h.shaped.erase _, ?_, h.number, ?_, ?_, h.unique, h.covered,
    fun q hq => h.inflight q (hsub q hq), ?_⟩
  · rw [Counts, get_erase_of_ne (messageKey_ne_counterKey _ _)]
    exact h.counts
  · exact fun k hk hmem => h.entry k hk (ExtTreeMap.mem_of_mem_erase hmem)
  · intro l d hl
    refine (h.call l d hl).frame le_rfl (fun _ => ⟨rfl, hkeep n h.number hmn.ne'⟩)
      (fun ha => Finset.mem_insert_of_mem ha) ?_
    intro m' hd hm' hna _
    refine hkeep m' (h.number.mono hm'.le) ?_
    rintro rfl
    -- another call with that number would be the call of the receipt
    have hlp := h.unique l p.1 d c _ hl hi (Call.number_of_settled hd) (Call.number_of_settled hset)
    exact hna (by rw [hlp]; exact Finset.mem_insert_self _ _)
  · intro l hl
    rcases Finset.mem_insert.mp hl with rfl | hl
    · exact ⟨c, m, hi, hpc⟩
    · exact h.acked l hl

theorem Call.number_die {c : Call} {x : ℤ} (h : c.die.number = some x) :
    c.pc.settled = some x := by
  rcases Call.number_cases h with hcrit | hset
  · exact absurd hcrit.1 (by simp [Call.die])
  · exact hset

theorem Numbered.crash {t : Topic} {n : ℕ} {s : Sys Map} (h : Numbered t.name n s)
    (hcare : Careful t.name s .crash) :
    Numbered t.name n { s with calls := s.calls.map Call.die, inflight := [] } := by
  have hget : ∀ {i : ℕ} {c : Call}, (s.calls.map Call.die)[i]? = some c →
      ∃ d, s.calls[i]? = some d ∧ c = d.die := by
    intro i c hi
    rw [List.getElem?_map, Option.map_eq_some_iff] at hi
    obtain ⟨d, hd, rfl⟩ := hi
    exact ⟨d, hd, rfl⟩
  have hmap : ∀ {i : ℕ} {c : Call}, s.calls[i]? = some c →
      (s.calls.map Call.die)[i]? = some c.die := by
    intro i c hi
    rw [List.getElem?_map, hi]
    rfl
  refine ⟨h.shaped, h.counts, h.number, ?_, ?_, ?_, ?_, by simp, ?_⟩
  · intro k hk hmem
    rcases h.entry k hk hmem with hlt | ⟨-, i, c, num, tmp, hi, halive, hpc⟩
    · exact .inl hlt
    · exact absurd hpc (hcare c (List.mem_of_getElem? hi) halive num tmp)
  · intro i c hi
    obtain ⟨d, hd, rfl⟩ := hget hi
    have hok := h.call i d hd
    simp only [CallOk, Call.die] at hok ⊢
    cases hpc : d.pc with
    | read num tmp | wrote num tmp => simp
    | _ =>
      rw [hpc] at hok
      exact hok
  · intro i j c d x hi hj hc hd
    obtain ⟨c', hc', rfl⟩ := hget hi
    obtain ⟨d', hd', rfl⟩ := hget hj
    exact h.unique i j c' d' x hc' hd' (Call.number_of_settled (Call.number_die hc))
      (Call.number_of_settled (Call.number_die hd))
  · intro k hk
    obtain ⟨i, c, hi, hc⟩ := h.covered k hk
    exact ⟨i, c.die, hmap hi, hc⟩
  · intro i hi
    obtain ⟨c, m, hi, hc⟩ := h.acked i hi
    exact ⟨c.die, m, hmap hi, hc⟩

/-- **Step lemma**: every careful step keeps the numbering. -/
theorem numbered_step {t : Topic} {n : ℕ} {s s' : Sys Map} (h : Numbered t.name n s)
    {e : SysEvent} (hcare : Careful t.name s e)
    (hs : sysStep levelDb t.name s e = some s') : ∃ n', Numbered t.name n' s' := by
  cases e with
  | call msg =>
    cases hs
    exact ⟨n, h.newCall msg⟩
  | act i =>
    obtain ⟨n', -, -, -, hN, -⟩ := h.act hcare hs
    exact ⟨n', hN⟩
  | produce i taken =>
    obtain ⟨c, num, hi, -, hpc, -, rfl⟩ := sysStep_produce_iff.mp hs
    exact ⟨n, h.produce hi hpc taken⟩
  | receipt j err => exact ⟨n, h.receipt hs⟩
  | crash =>
    cases hs
    exact ⟨n, h.crash hcare⟩

theorem numbered_fresh (t : CString) : Numbered t 0 (Sys.fresh levelDb) where
  shaped := shaped_empty t
  counts := by simp [Counts, Sys.fresh, levelDb]
  number := isNumber_of_lt (by decide)
  entry := by simp [Sys.fresh, levelDb]
  call := by simp [Sys.fresh]
  unique := by simp [Sys.fresh]
  covered := by simp
  inflight := by simp [Sys.fresh]
  acked := by simp [Sys.fresh]

/-- **Run lemma**: every run of careful steps keeps the numbering. -/
theorem numbered_run {t : Topic} {es : List SysEvent} {s : Sys Map}
    (hcare : Transition.Along (sysStep levelDb t.name) (Careful t.name) (Sys.fresh levelDb) es)
    (h : Transition.run (sysStep levelDb t.name) (Sys.fresh levelDb) es = some s) :
    ∃ n, Numbered t.name n s := by
  have h0 : ∃ n, Numbered t.name n (Sys.fresh levelDb) := ⟨0, numbered_fresh t.name⟩
  refine Transition.Along.invariant (I := fun s => ∃ n, Numbered t.name n s) ?_ hcare h0 h
  rintro s e s' ⟨n, hn⟩ hc hs
  exact numbered_step hn hc hs

end KfkClient
