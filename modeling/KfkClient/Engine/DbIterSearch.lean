import KfkClient.Engine.DbIter

/-!
# The two searches of the user's iterator

`FindNextUserEntry` goes forward over the internal entries until the newest visible entry of a
key is a value; `FindPrevUserEntry` goes backward and keeps the newest entry that it has seen of
a key, until it meets an earlier key.

## Main results

- `findNextLoop_spec` — the first visible key that is wanted is found
- `findPrevLoop_spec` — the last visible key that is wanted is found
- `leaveLoop_spec`, `advance_spec` — the changes of direction
-/

namespace KfkClient.Engine

open MultiVersion Cursors

variable {ι K V : Type} [LinearOrder K]

section Position

variable [Iter ι (Entry K V) (InternalKey K)] {S : Set (Entry K V)} {Ok : ι → Prop}
  {it : ι} {e y : Entry K V}

/-- The entry lies before the one that the iterator stands at. -/
def Past (it : ι) (y : Entry K V) : Prop :=
  ∀ e, Iter.entry it = some e → Entry.ikey y < Entry.ikey e

/-- The entry lies after the one that the iterator stands at. -/
def Ahead (it : ι) (y : Entry K V) : Prop :=
  ∀ e, Iter.entry it = some e → Entry.ikey e < Entry.ikey y

theorem passed_iff (h : Iter.entry it = some e) :
    Past it y ↔ Entry.ikey y < Entry.ikey e := by
  constructor
  · exact fun hp => hp e h
  · intro hlt e' he'
    cases h.symm.trans he'
    exact hlt

theorem ahead_iff (h : Iter.entry it = some e) :
    Ahead it y ↔ Entry.ikey e < Entry.ikey y := by
  constructor
  · exact fun hp => hp e h
  · intro hlt e' he'
    cases h.symm.trans he'
    exact hlt

/-- An iterator at the first entry from somewhere on has passed what is before that. -/
theorem passed_of_least {P : InternalKey K → Prop}
    (hleast : Least {y | y ∈ S ∧ P (Entry.ikey y)} (Iter.entry it))
    (hP : ∀ a b, P a → a ≤ b → P b) (hy : y ∈ S) : Past it y ↔ ¬ P (Entry.ikey y) := by
  cases he : Iter.entry it with
  | none =>
    rw [he] at hleast
    refine ⟨fun _ hPy => hleast y ⟨hy, hPy⟩, fun _ e' he' => ?_⟩
    rw [he] at he'
    cases he'
  | some e =>
    rw [he] at hleast
    rw [passed_iff he]
    constructor
    · exact fun hlt hPy => absurd (hleast.2 y ⟨hy, hPy⟩) (not_le.mpr hlt)
    · exact fun hno => not_le.mp fun hle => hno (hP _ _ hleast.1.2 hle)

theorem ahead_of_greatest {P : InternalKey K → Prop}
    (hgreatest : Greatest {y | y ∈ S ∧ P (Entry.ikey y)} (Iter.entry it))
    (hP : ∀ a b, P a → b ≤ a → P b) (hy : y ∈ S) : Ahead it y ↔ ¬ P (Entry.ikey y) := by
  cases he : Iter.entry it with
  | none =>
    rw [he] at hgreatest
    refine ⟨fun _ hPy => hgreatest y ⟨hy, hPy⟩, fun _ e' he' => ?_⟩
    rw [he] at he'
    cases he'
  | some e =>
    rw [he] at hgreatest
    rw [ahead_iff he]
    constructor
    · exact fun hlt hPy => absurd (hgreatest.2 y ⟨hy, hPy⟩) (not_le.mpr hlt)
    · exact fun hno => not_le.mp fun hle => hno (hP _ _ hgreatest.1.2 hle)

variable (hiter : Iterates S Ok)

include hiter

theorem passed_next (hok : Ok it) (he : Iter.entry it = some e) (hy : y ∈ S) :
    Past (Iter.next it) y ↔ Entry.ikey y ≤ Entry.ikey e := by
  have hnext := (hiter.next hok he).2
  rw [passed_of_least (P := (Entry.ikey e < ·)) hnext (fun _ _ h hle => h.trans_le hle) hy,
    not_lt]

theorem ahead_prev (hok : Ok it) (he : Iter.entry it = some e) (hy : y ∈ S) :
    Ahead (Iter.prev it) y ↔ Entry.ikey e ≤ Entry.ikey y := by
  have hprev := (hiter.prev hok he).2
  rw [ahead_of_greatest (P := (· < Entry.ikey e)) hprev (fun _ _ h hle => hle.trans_lt h) hy,
    not_lt]

theorem not_passed_first (hok : Ok it) (hy : y ∈ S) : ¬ Past (Iter.seekToFirst it) y := by
  have hfirst := (hiter.seekToFirst hok).2
  have hleast : Least {y | y ∈ S ∧ True} (Iter.entry (Iter.seekToFirst it)) :=
    hfirst.congr fun _ => (and_iff_left trivial).symm
  rw [passed_of_least (P := fun _ => True) hleast (fun _ _ _ _ => trivial) hy]
  exact not_not.mpr trivial

theorem not_ahead_last (hok : Ok it) (hy : y ∈ S) : ¬ Ahead (Iter.seekToLast it) y := by
  have hlast := (hiter.seekToLast hok).2
  have hgreatest : Greatest {y | y ∈ S ∧ True} (Iter.entry (Iter.seekToLast it)) :=
    hlast.congr fun _ => (and_iff_left trivial).symm
  rw [ahead_of_greatest (P := fun _ => True) hgreatest (fun _ _ _ _ => trivial) hy]
  exact not_not.mpr trivial

theorem passed_seek (hok : Ok it) (t : InternalKey K) (hy : y ∈ S) :
    Past (Iter.seek t it) y ↔ Entry.ikey y < t := by
  have hseek := (hiter.seek t hok).2
  rw [passed_of_least (P := (t ≤ ·)) hseek (fun _ _ h hle => h.trans hle) hy, not_le]

/-- The entries that are left become fewer with every step forward. -/
theorem left_lt (hfin : S.Finite) (hok : Ok it) (he : Iter.entry it = some e) :
    {y | y ∈ S ∧ ¬ Past (Iter.next it) y}.ncard < {y | y ∈ S ∧ ¬ Past it y}.ncard := by
  have hmem := hiter.mem hok he
  refine Set.ncard_lt_ncard (Set.ssubset_iff_of_subset ?_ |>.mpr ⟨e, ?_, ?_⟩)
    (hfin.subset fun _ hy => hy.1)
  · rintro y ⟨hy, hnot⟩
    refine ⟨hy, fun hpass => hnot ?_⟩
    exact (passed_next hiter hok he hy).mpr ((passed_iff he).mp hpass).le
  · exact ⟨hmem, fun hpass => lt_irrefl _ ((passed_iff he).mp hpass)⟩
  · exact fun hno => hno.2 ((passed_next hiter hok he hmem).mpr le_rfl)

theorem right_lt (hfin : S.Finite) (hok : Ok it) (he : Iter.entry it = some e) :
    {y | y ∈ S ∧ ¬ Ahead (Iter.prev it) y}.ncard < {y | y ∈ S ∧ ¬ Ahead it y}.ncard := by
  have hmem := hiter.mem hok he
  refine Set.ncard_lt_ncard (Set.ssubset_iff_of_subset ?_ |>.mpr ⟨e, ?_, ?_⟩)
    (hfin.subset fun _ hy => hy.1)
  · rintro y ⟨hy, hnot⟩
    refine ⟨hy, fun hahead => hnot ?_⟩
    exact (ahead_prev hiter hok he hy).mpr ((ahead_iff he).mp hahead).le
  · exact ⟨hmem, fun hahead => lt_irrefl _ ((ahead_iff he).mp hahead)⟩
  · exact fun hno => hno.2 ((ahead_prev hiter hok he hmem).mpr le_rfl)

end Position

section Forward

variable [Iter ι (Entry K V) (InternalKey K)] {S : Set (Entry K V)} {Ok : ι → Prop} {s : ℕ}

/-- What `FindNextUserEntry` relies on while it looks for the first visible key that `Q` wants:
of the keys that are wanted `skip` hides those passed, and no entry to come is before it. -/
structure NextScan (S : Set (Entry K V)) (s : ℕ) (Q : K → Prop) (skip : Option K) (it : ι) :
    Prop where
  passed : ∀ y ∈ S, y.seq ≤ s → Q y.key → Past it y → hidden skip y.key = true
  wanted : ∀ p ∈ visible S s, Q p.1 → hidden skip p.1 = false
  least : ∀ y ∈ S, y.seq ≤ s → ¬ Past it y → ∀ k, skip = some k → k ≤ y.key
  rest : ∀ y ∈ S, y.seq ≤ s → ¬ Past it y → hidden skip y.key = false → Q y.key

/-- What it finds. -/
def NextFound (S : Set (Entry K V)) (s : ℕ) (Q : K → Prop) : Option (Entry K V) → Prop
  | some e => IsNewest S s e.key e ∧ e.val.isSome = true ∧ Q e.key ∧
      ∀ p ∈ visible S s, Q p.1 → e.key ≤ p.1
  | none => ∀ p ∈ visible S s, ¬ Q p.1

variable {Q : K → Prop} {skip : Option K} {it : ι} {e : Entry K V}

/-- The newest entry of a key that is wanted is still to come. -/
theorem NextScan.to_come (h : NextScan S s Q skip it) {p : K × V} (hp : p ∈ visible S s)
    (hQ : Q p.1) : ∃ y, IsNewest S s p.1 y ∧ y.val = some p.2 ∧ ¬ Past it y := by
  obtain ⟨y, hy, hval⟩ := mem_visible.mp hp
  refine ⟨y, hy, hval, fun hpass => ?_⟩
  have hhid := h.passed y hy.mem hy.le (hy.key.symm ▸ hQ) hpass
  rw [hy.key, h.wanted p hp hQ] at hhid
  cases hhid

theorem NextScan.stop (h : NextScan S s Q skip it) (hmem : e ∈ S) (he : Iter.entry it = some e)
    (hseq : e.seq ≤ s) (hval : e.val.isSome = true) (hshown : hidden skip e.key = false) :
    NextFound S s Q (some e) := by
  have hQe : Q e.key :=
    h.rest e hmem hseq (fun hp => lt_irrefl _ ((passed_iff he).mp hp)) hshown
  refine ⟨⟨hmem, rfl, hseq, fun y hy hk hys => ?_⟩, hval, hQe, fun p hp hQ => ?_⟩
  · -- an entry of the same key that is visible does not come before `e`
    rcases lt_trichotomy (Entry.ikey y) (Entry.ikey e) with hlt | heq | hlt
    · have hhid := h.passed y hy hys (hk.symm ▸ hQe) ((passed_iff he).mpr hlt)
      rw [hk, hshown] at hhid
      cases hhid
    · exact (congrArg InternalKey.sequence heq).le
    · exact seq_le_of_ikey_lt hlt hk.symm
  · obtain ⟨y, hy, _, hcome⟩ := h.to_come hp hQ
    rw [← hy.key]
    exact InternalKey.userKey_le_of_le (not_lt.mp fun hlt => hcome ((passed_iff he).mpr hlt))

/-- `Next` in the forward direction skips the key that is shown. -/
theorem current_scan (he : Iter.entry it = some e) :
    NextScan S s (e.key < ·) (some e.key) it := by
  have hcome : ∀ y ∈ S, ¬ Past it y → e.key ≤ y.key := fun y _ hnot =>
    InternalKey.userKey_le_of_le (not_lt.mp fun hlt => hnot ((passed_iff he).mpr hlt))
  refine ⟨fun y _ _ _ hp => ?_, fun p _ hQ => decide_eq_false (not_le.mpr hQ),
    fun y hy _ hnot k' hk' => ?_, fun y _ _ _ hshown => not_le.mp (of_decide_eq_false hshown)⟩
  · exact decide_eq_true (InternalKey.userKey_le_of_le ((passed_iff he).mp hp).le)
  · cases hk'
    exact hcome y hy hnot

variable (hiter : Iterates S Ok)

include hiter

/-- An entry that is not visible, or is hidden, is left behind. -/
theorem NextScan.pass (h : NextScan S s Q skip it) (hok : Ok it) (he : Iter.entry it = some e)
    (hhid : e.seq ≤ s → hidden skip e.key = true) : NextScan S s Q skip (Iter.next it) := by
  have hnext : ∀ y ∈ S, ¬ Past (Iter.next it) y → ¬ Past it y := by
    intro y hy hnot hpass
    exact hnot ((passed_next hiter hok he hy).mpr ((passed_iff he).mp hpass).le)
  refine ⟨fun y hy hys hQ hpass => ?_, h.wanted, fun y hy hys hnot => h.least y hy hys
    (hnext y hy hnot), fun y hy hys hnot => h.rest y hy hys (hnext y hy hnot)⟩
  rcases ((passed_next hiter hok he hy).mp hpass).lt_or_eq with hlt | heq
  · exact h.passed y hy hys hQ ((passed_iff he).mpr hlt)
  · have hk : y.key = e.key := congrArg InternalKey.userKey heq
    have hseq : y.seq = e.seq := congrArg InternalKey.sequence heq
    rw [hk]
    exact hhid (hseq ▸ hys)

/-- After a deletion its key is the one to skip. -/
theorem NextScan.deletion (hd : Distinct S) (h : NextScan S s Q skip it) (hok : Ok it)
    (he : Iter.entry it = some e) (hseq : e.seq ≤ s) (hval : e.val = none) :
    NextScan S s Q (some e.key) (Iter.next it) := by
  have hmem := hiter.mem hok he
  have hself : ¬ Past it e := fun hp => lt_irrefl _ ((passed_iff he).mp hp)
  have hlater : ∀ y ∈ S, ¬ Past (Iter.next it) y → Entry.ikey e < Entry.ikey y :=
    fun y hy hnot => not_le.mp fun hle => hnot ((passed_next hiter hok he hy).mpr hle)
  refine ⟨fun y hy _ _ hpass => ?_, fun p hp hQ => ?_, fun y hy _ hnot k hk => ?_,
    fun y hy hys hnot hshown => ?_⟩
  · have hle := InternalKey.userKey_le_of_le ((passed_next hiter hok he hy).mp hpass)
    exact decide_eq_true hle
  · -- an older entry of the deleted key is not the newest one
    obtain ⟨y, hy, hyval, hcome⟩ := h.to_come hp hQ
    have hle : Entry.ikey e ≤ Entry.ikey y :=
      not_lt.mp fun hlt => hcome ((passed_iff he).mpr hlt)
    have hkey : e.key ≤ y.key := InternalKey.userKey_le_of_le hle
    refine decide_eq_false fun hkle => ?_
    have hk : e.key = y.key := hkey.antisymm (hy.key ▸ hkle)
    have hnew := hy.newest e hmem (hk.trans hy.key) hseq
    have hold : y.seq ≤ e.seq := by
      rcases hle.eq_or_lt with heq | hlt
      · exact (congrArg InternalKey.sequence heq).ge
      · exact seq_le_of_ikey_lt hlt hk
    have heq := hd e hmem y hy.mem hk (le_antisymm hnew hold)
    rw [heq, hyval] at hval
    cases hval
  · cases hk
    exact InternalKey.userKey_le_of_le (hlater y hy hnot).le
  · have hlt := hlater y hy hnot
    have hcome : ¬ Past it y := fun hp => absurd ((passed_iff he).mp hp) hlt.asymm
    have hkey : e.key < y.key := not_le.mp (of_decide_eq_false hshown)
    refine h.rest y hy hys hcome ?_
    cases skip with
    | none => rfl
    | some k =>
      exact decide_eq_false fun hle => absurd (hle.trans (h.least e hmem hseq hself k rfl))
        (not_le.mpr hkey)

/-- `FindNextUserEntry` finds the first visible key that is wanted. -/
theorem findNextLoop_spec (hd : Distinct S) (hfin : S.Finite) {limit : ℕ} (hok : Ok it)
    (h : NextScan S s Q skip it) (hlimit : {y | y ∈ S ∧ ¬ Past it y}.ncard < limit) :
    ∃ it', findNextLoop s limit skip it = some it' ∧ Ok it' ∧
      NextFound S s Q (Iter.entry it') := by
  induction limit generalizing skip it with
  | zero => exact absurd hlimit (Nat.not_lt_zero _)
  | succ limit ih =>
    rw [findNextLoop]
    cases he : Iter.entry it with
    | none =>
      refine ⟨it, rfl, hok, ?_⟩
      rw [he]
      intro p hp hQ
      obtain ⟨y, _, _, hcome⟩ := h.to_come hp hQ
      refine hcome fun e' he' => ?_
      rw [he] at he'
      cases he'
    | some e =>
      have hmem := hiter.mem hok he
      have hoknext := (hiter.next hok he).1
      have hleft := left_lt hiter hfin hok he
      dsimp only
      split
      · rename_i hseq
        cases hval : e.val with
        | none => exact ih hoknext (h.deletion hiter hd hok he hseq hval) (by omega)
        | some v =>
          dsimp only
          split
          · rename_i hhid
            exact ih hoknext (h.pass hiter hok he fun _ => hhid) (by omega)
          · rename_i hshown
            refine ⟨it, rfl, hok, ?_⟩
            rw [he]
            exact h.stop hmem he hseq (by rw [hval]; rfl) (by simpa using hshown)
      · rename_i hseq
        exact ih hoknext (h.pass hiter hok he fun hle => absurd hle hseq) (by omega)

end Forward

section Backward

variable [Iter ι (Entry K V) (InternalKey K)] {S : Set (Entry K V)} {Ok : ι → Prop} {s : ℕ}

/-- The entries that a search backward has seen. -/
def seen (S : Set (Entry K V)) (it : ι) : Set (Entry K V) := {y | y ∈ S ∧ Ahead it y}

/-- What `FindPrevUserEntry` relies on while it looks for the last visible key that `Q` wants:
what it has seen of the keys after the saved one are deletions, and the saved binding is the
newest one seen of its key. -/
structure PrevScan (S : Set (Entry K V)) (s : ℕ) (Q : K → Prop) (saved : Option (K × V))
    (it : ι) : Prop where
  rest : ∀ y ∈ S, ¬ Ahead it y → Q y.key
  dead : ∀ k, Q k → (∀ p, saved = some p → p.1 < k) →
    ∀ y, IsNewest (seen S it) s k y → y.val = none
  kept : ∀ p, saved = some p → Q p.1 ∧ (∃ y, IsNewest (seen S it) s p.1 y ∧ y.val = some p.2) ∧
    ∀ y ∈ seen S it, y.seq ≤ s → Q y.key → p.1 ≤ y.key

/-- The iterator stands before the key, and nothing visible lies between. -/
structure Behind (S : Set (Entry K V)) (s : ℕ) (k : K) (it : ι) : Prop where
  lt : ∀ e, Iter.entry it = some e → e.key < k
  gap : ∀ y ∈ seen S it, y.key < k → s < y.seq

/-- What it finds. -/
def PrevFound (S : Set (Entry K V)) (s : ℕ) (Q : K → Prop) (saved : Option (K × V)) (it : ι) :
    Prop :=
  match saved with
  | some p => p ∈ visible S s ∧ Q p.1 ∧ (∀ p' ∈ visible S s, Q p'.1 → p'.1 ≤ p.1) ∧
      Behind S s p.1 it
  | none => ∀ p ∈ visible S s, ¬ Q p.1

variable {Q : K → Prop} {saved : Option (K × V)} {it : ι} {e : Entry K V}

theorem newest_seen {k : K} {y : Entry K V} (h : IsNewest S s k y) (hy : Ahead it y) :
    IsNewest (seen S it) s k y :=
  ⟨⟨h.mem, hy⟩, h.key, h.le, fun y' hy' => h.newest y' hy'.1⟩

theorem newest_of_seen {k : K} {y : Entry K V} (h : IsNewest (seen S it) s k y)
    (hall : ∀ y' ∈ S, y'.key = k → Ahead it y') : IsNewest S s k y :=
  ⟨h.mem.1, h.key, h.le, fun y' hy' hk => h.newest y' ⟨hy', hall y' hy' hk⟩ hk⟩

/-- The search stops at the front, or at an entry before the key of the saved binding. -/
theorem PrevScan.stop (hQ : ∀ a b, Q a → b < a → Q b) (h : PrevScan S s Q saved it)
    (hstop : ∀ e, Iter.entry it = some e → ∃ p, saved = some p ∧ e.key < p.1) :
    PrevFound S s Q saved it := by
  -- an entry from the saved key on has been seen
  have hseen : ∀ y : Entry K V, (∀ p, saved = some p → p.1 ≤ y.key) → Ahead it y := by
    intro y hy e he
    obtain ⟨p, hp, hlt⟩ := hstop e he
    exact InternalKey.lt_iff.mpr (.inl (hlt.trans_le (hy p hp)))
  have hdead : ∀ p ∈ visible S s, Q p.1 → ¬ ∀ p', saved = some p' → p'.1 < p.1 := by
    intro p hp hQp hlt
    obtain ⟨y, hy, hval⟩ := mem_visible.mp hp
    have hahead := hseen y fun p' hp' => hy.key ▸ (hlt p' hp').le
    have hnone := h.dead p.1 hQp hlt y (newest_seen hy hahead)
    rw [hnone] at hval
    cases hval
  cases saved with
  | none => exact fun p hp hQp => hdead p hp hQp fun _ hp' => by cases hp'
  | some p =>
    obtain ⟨hQp, ⟨y, hy, hval⟩, hleast⟩ := h.kept p rfl
    refine ⟨mem_visible.mpr ⟨y, newest_of_seen hy ?_, hval⟩, hQp, fun p' hp' hQ' => ?_, ?_, ?_⟩
    · intro y' _ hk
      refine hseen y' fun p' hp' => ?_
      cases hp'
      exact hk.ge
    · refine not_lt.mp fun hlt => hdead p' hp' hQ' fun p'' hp'' => ?_
      cases hp''
      exact hlt
    · intro e he
      obtain ⟨p', hp', hlt⟩ := hstop e he
      cases hp'
      exact hlt
    · intro y' hy' hlt
      refine not_le.mp fun hys => ?_
      exact absurd (hleast y' hy' hys (hQ _ _ hQp hlt)) (not_le.mpr hlt)

theorem Behind.scan {k : K} (hbehind : Behind S s k it) :
    PrevScan S s (· < k) none it := by
  refine ⟨fun y hy hnot => ?_, fun k' hk' _ y hy => ?_, fun _ hp => by cases hp⟩
  · by_contra hge
    refine hnot fun e he => ?_
    exact InternalKey.lt_iff.mpr (.inl ((hbehind.lt e he).trans_le (not_lt.mp hge)))
  · have hgap := hbehind.gap y hy.mem (hy.key.symm ▸ hk')
    exact absurd hy.le (not_le.mpr hgap)

variable (hiter : Iterates S Ok)

include hiter

theorem mem_seen_prev (hok : Ok it) (he : Iter.entry it = some e) {y : Entry K V} :
    y ∈ seen S (Iter.prev it) ↔ y ∈ S ∧ Entry.ikey e ≤ Entry.ikey y :=
  and_congr_right fun hy => ahead_prev hiter hok he hy

theorem seen_subset (hok : Ok it) (he : Iter.entry it = some e) :
    seen S it ⊆ seen S (Iter.prev it) := fun _ hy =>
  (mem_seen_prev hiter hok he).mpr ⟨hy.1, ((ahead_iff he).mp hy.2).le⟩

theorem PrevScan.rest_prev (h : PrevScan S s Q saved it) (hok : Ok it)
    (he : Iter.entry it = some e) : ∀ y ∈ S, ¬ Ahead (Iter.prev it) y → Q y.key :=
  fun y hy hnot => h.rest y hy fun hahead => hnot (seen_subset hiter hok he ⟨hy, hahead⟩).2

/-- An entry that is not visible is left behind. -/
theorem PrevScan.pass (h : PrevScan S s Q saved it) (hok : Ok it) (he : Iter.entry it = some e)
    (hseq : s < e.seq) : PrevScan S s Q saved (Iter.prev it) := by
  have hsub := seen_subset hiter hok he
  have hback : ∀ y ∈ seen S (Iter.prev it), y.seq ≤ s → y ∈ seen S it := by
    intro y hy hys
    obtain ⟨hyS, hle⟩ := (mem_seen_prev hiter hok he).mp hy
    refine ⟨hyS, (ahead_iff he).mpr (hle.lt_of_ne fun heq => ?_)⟩
    have hsame : e.seq = y.seq := congrArg InternalKey.sequence heq
    omega
  have hnewest : ∀ k y, IsNewest (seen S (Iter.prev it)) s k y ↔ IsNewest (seen S it) s k y := by
    intro k y
    constructor
    · exact fun hy => ⟨hback y hy.mem hy.le, hy.key, hy.le, fun y' hy' => hy.newest y' (hsub hy')⟩
    · exact fun hy => ⟨hsub hy.mem, hy.key, hy.le,
        fun y' hy' hk hs => hy.newest y' (hback y' hy' hs) hk hs⟩
  refine ⟨h.rest_prev hiter hok he, fun k hQk hlt y hy => h.dead k hQk hlt y ((hnewest k y).mp hy),
    fun p hp => ?_⟩
  obtain ⟨hQp, ⟨y, hy, hval⟩, hleast⟩ := h.kept p hp
  exact ⟨hQp, ⟨y, (hnewest p.1 y).mpr hy, hval⟩,
    fun y' hy' hs => hleast y' (hback y' hy' hs) hs⟩

/-- A visible entry that does not end the search is the newest one seen of its key. -/
theorem PrevScan.take (hd : Distinct S) (h : PrevScan S s Q saved it) (hok : Ok it)
    (he : Iter.entry it = some e) (hseq : e.seq ≤ s) (hgo : passes saved e.key = false) :
    PrevScan S s Q (e.val.map fun v => (e.key, v)) (Iter.prev it) := by
  have hmem := hiter.mem hok he
  have hself : e ∈ seen S (Iter.prev it) := (mem_seen_prev hiter hok he).mpr ⟨hmem, le_rfl⟩
  have hafter : ∀ y ∈ seen S (Iter.prev it), e.key ≤ y.key := fun y hy =>
    InternalKey.userKey_le_of_le ((mem_seen_prev hiter hok he).mp hy).2
  have hnewest : IsNewest (seen S (Iter.prev it)) s e.key e := by
    refine ⟨hself, rfl, hseq, fun y hy hk _ => ?_⟩
    rcases ((mem_seen_prev hiter hok he).mp hy).2.eq_or_lt with heq | hlt
    · exact (congrArg InternalKey.sequence heq).ge
    · exact seq_le_of_ikey_lt hlt hk.symm
  -- the saved binding, if there is one, is of the same key
  have hsame : ∀ p, saved = some p → p.1 = e.key := by
    intro p hp
    obtain ⟨_, ⟨y, hy, _⟩, _⟩ := h.kept p hp
    rw [hp] at hgo
    have hle : p.1 ≤ e.key := not_lt.mp (of_decide_eq_false hgo)
    have hge : e.key ≤ p.1 := hy.key ▸ hafter y (seen_subset hiter hok he hy.mem)
    exact hle.antisymm hge
  refine ⟨h.rest_prev hiter hok he, fun k hQk hlt y hy => ?_, fun p hp => ?_⟩
  · by_cases hk : k = e.key
    · subst hk
      obtain rfl := hy.unique (hd.mono fun _ hz => hz.1) hnewest
      cases hval : y.val with
      | none => rfl
      | some v => exact absurd (hlt (y.key, v) (by rw [hval]; rfl)) (lt_irrefl _)
    · have hne : Entry.ikey e ≠ Entry.ikey y := fun heq =>
        hk (hy.key.symm.trans (congrArg InternalKey.userKey heq).symm)
      have hle := ((mem_seen_prev hiter hok he).mp hy.mem).2
      have hahead : Ahead it y := (ahead_iff he).mpr (hle.lt_of_ne hne)
      refine h.dead k hQk (fun p hp => ?_) y ⟨⟨hy.mem.1, hahead⟩, hy.key, hy.le,
        fun y' hy' => hy.newest y' (seen_subset hiter hok he hy')⟩
      rw [hsame p hp]
      exact (hy.key ▸ hafter y hy.mem).lt_of_ne (Ne.symm hk)
  · obtain ⟨v, hval, rfl⟩ := Option.map_eq_some_iff.mp hp
    refine ⟨?_, ⟨e, hnewest, hval⟩, fun y hy _ _ => hafter y hy⟩
    exact h.rest e hmem fun hahead => lt_irrefl _ ((ahead_iff he).mp hahead)

/-- `FindPrevUserEntry` finds the last visible key that is wanted. -/
theorem findPrevLoop_spec (hd : Distinct S) (hfin : S.Finite) (hQ : ∀ a b, Q a → b < a → Q b)
    {limit : ℕ} (hok : Ok it) (h : PrevScan S s Q saved it)
    (hlimit : {y | y ∈ S ∧ ¬ Ahead it y}.ncard < limit) :
    ∃ saved' it', findPrevLoop s limit saved it = some (saved', it') ∧ Ok it' ∧
      PrevFound S s Q saved' it' := by
  induction limit generalizing saved it with
  | zero => exact absurd hlimit (Nat.not_lt_zero _)
  | succ limit ih =>
    rw [findPrevLoop]
    cases he : Iter.entry it with
    | none =>
      refine ⟨saved, it, rfl, hok, h.stop hQ fun e he' => ?_⟩
      rw [he] at he'
      cases he'
    | some e =>
      have hokprev := (hiter.prev hok he).1
      have hright := right_lt hiter hfin hok he
      dsimp only
      split
      · rename_i hseq
        split
        · rename_i hstop
          refine ⟨saved, it, rfl, hok, h.stop hQ fun e' he' => ?_⟩
          cases he.symm.trans he'
          cases saved with
          | none => cases hstop
          | some p => exact ⟨p, rfl, of_decide_eq_true hstop⟩
        · rename_i hgo
          exact ih hokprev (h.take hiter hd hok he hseq (by simpa using hgo)) (by omega)
      · rename_i hseq
        exact ih hokprev (h.pass hiter hok he (not_le.mp hseq)) (by omega)

/-- `Prev` leaves the entries of the current key. -/
theorem leaveLoop_spec (hfin : S.Finite) {limit : ℕ} (hok : Ok it) (he : Iter.entry it = some e)
    {k : K} (hk : k ≤ e.key) (hlimit : {y | y ∈ S ∧ ¬ Ahead it y}.ncard < limit) :
    ∃ it', leaveLoop limit k it = some it' ∧ Ok it' ∧ (∀ y ∈ seen S it', k ≤ y.key) ∧
      ∀ e', Iter.entry it' = some e' → e'.key < k := by
  induction limit generalizing it e with
  | zero => exact absurd hlimit (Nat.not_lt_zero _)
  | succ limit ih =>
    have hokprev := (hiter.prev hok he).1
    have hright := right_lt hiter hfin hok he
    have hseen : ∀ y ∈ seen S (Iter.prev it), k ≤ y.key := fun y hy =>
      hk.trans (InternalKey.userKey_le_of_le ((mem_seen_prev hiter hok he).mp hy).2)
    rw [leaveLoop]
    cases he' : Iter.entry (Iter.prev it) with
    | none =>
      refine ⟨_, rfl, hokprev, hseen, fun e'' he'' => ?_⟩
      rw [he'] at he''
      cases he''
    | some e' =>
      dsimp only
      split
      · rename_i hlt
        refine ⟨_, rfl, hokprev, hseen, fun e'' he'' => ?_⟩
        cases he'.symm.trans he''
        exact hlt
      · rename_i hge
        exact ih hokprev he' (not_lt.mp hge) (by omega)

/-- `Next` out of the reverse direction passes only keys that are not after the current one. -/
theorem advance_spec {k : K} (hok : Ok it) (hbehind : Behind S s k it) :
    Ok (DBIter.advance it) ∧ NextScan S s (k < ·) (some k) (DBIter.advance it) := by
  have hpass : Ok (DBIter.advance it) ∧
      ∀ y ∈ S, y.seq ≤ s → (Past (DBIter.advance it) y ↔ y.key < k) := by
    rw [DBIter.advance]
    split
    · rename_i hsome
      obtain ⟨e, he⟩ := Option.isSome_iff_exists.mp hsome
      refine ⟨(hiter.next hok he).1, fun y hy hys => ?_⟩
      rw [passed_next hiter hok he hy]
      constructor
      · exact fun hle => (InternalKey.userKey_le_of_le hle).trans_lt (hbehind.lt e he)
      · intro hlt
        refine not_lt.mp fun hahead => ?_
        exact absurd hys (not_le.mpr (hbehind.gap y ⟨hy, (ahead_iff he).mpr hahead⟩ hlt))
    · rename_i hend
      refine ⟨(hiter.seekToFirst hok).1, fun y hy hys => ?_⟩
      refine iff_of_false (not_passed_first hiter hok hy) fun hlt => ?_
      have hahead : Ahead it y := fun e he => by
        rw [he] at hend
        exact absurd rfl hend
      exact absurd hys (not_le.mpr (hbehind.gap y ⟨hy, hahead⟩ hlt))
  refine ⟨hpass.1, fun y hy hys _ hp => ?_, fun p _ hQ => decide_eq_false (not_le.mpr hQ),
    fun y hy hys hnot k' hk' => ?_, fun y _ _ _ hshown => not_le.mp (of_decide_eq_false hshown)⟩
  · exact decide_eq_true ((hpass.2 y hy hys).mp hp).le
  · cases hk'
    exact not_lt.mp fun hlt => hnot ((hpass.2 y hy hys).mpr hlt)

end Backward

end KfkClient.Engine
