import KfkClient.Engine.DbIterSearch

/-!
# The calls of the user's iterator

One lemma for each call, from any state that calls can lead to and in either direction.

## Main results

- `DBIter.presents` — the calls show the visible bindings in the order of their keys
-/

namespace KfkClient.Engine

open MultiVersion Cursors

variable {ι K V : Type} [LinearOrder K]

namespace DBIter

variable [Iter ι (Entry K V) (InternalKey K)] {S : Set (Entry K V)} {Okc : ι → Prop} {s limit : ℕ}
  {Q : K → Prop} {d : DBIter ι K V}

/-- Where the internal iterator stands while a binding is shown. -/
def Placed (S : Set (Entry K V)) (s : ℕ) (d : DBIter ι K V) : Prop :=
  match d.direction with
  | .forward => ∃ e, Iter.entry d.iter = some e ∧ IsNewest S s e.key e ∧ e.val.isSome = true
  | .reverse => ∃ k v, d.savedKey = some k ∧ d.savedValue = some v ∧ (k, v) ∈ visible S s ∧
      Behind S s k d.iter

structure Ok (S : Set (Entry K V)) (s : ℕ) (Okc : ι → Prop) (d : DBIter ι K V) : Prop where
  iter : Okc d.iter
  sequence : d.sequence = s
  placed : d.valid = true → d.Placed S s

theorem placed_forward (hdir : d.direction = .forward) : d.Placed S s ↔
    ∃ e, Iter.entry d.iter = some e ∧ IsNewest S s e.key e ∧ e.val.isSome = true := by
  rw [Placed, hdir]

theorem placed_reverse (hdir : d.direction = .reverse) : d.Placed S s ↔
    ∃ k v, d.savedKey = some k ∧ d.savedValue = some v ∧ (k, v) ∈ visible S s ∧
      Behind S s k d.iter := by
  rw [Placed, hdir]

omit [LinearOrder K] in
theorem entry_invalid (h : d.valid = false) : d.entry = none := by
  rw [entry, h]
  rfl

omit [LinearOrder K] in
theorem valid_of_entry {p : K × V} (h : d.entry = some p) : d.valid = true := by
  cases hv : d.valid with
  | true => rfl
  | false =>
    rw [entry_invalid hv] at h
    cases h

omit [LinearOrder K] in
theorem entry_forward {e : Entry K V} {v : V} (hvalid : d.valid = true)
    (hdir : d.direction = .forward) (he : Iter.entry d.iter = some e) (hval : e.val = some v) :
    d.entry = some (e.key, v) := by
  rw [entry, if_pos hvalid, hdir]
  dsimp only
  rw [he, Option.bind_some, hval]
  rfl

omit [LinearOrder K] in
theorem entry_reverse {k : K} {v : V} (hvalid : d.valid = true) (hdir : d.direction = .reverse)
    (hk : d.savedKey = some k) (hv : d.savedValue = some v) : d.entry = some (k, v) := by
  rw [entry, if_pos hvalid, hdir]
  dsimp only
  rw [hk, hv]
  rfl

/-- A valid iterator has a binding to show. -/
theorem Ok.invalid (h : Ok S s Okc d) (hnone : d.entry = none) : d.valid = false := by
  cases hvalid : d.valid with
  | false => rfl
  | true =>
    have hplaced := h.placed hvalid
    cases hdir : d.direction with
    | forward =>
      obtain ⟨e, he, _, hsome⟩ := (placed_forward hdir).mp hplaced
      obtain ⟨v, hval⟩ := Option.isSome_iff_exists.mp hsome
      rw [entry_forward hvalid hdir he hval] at hnone
      cases hnone
    | reverse =>
      obtain ⟨k, v, hk, hv, _⟩ := (placed_reverse hdir).mp hplaced
      rw [entry_reverse hvalid hdir hk hv] at hnone
      cases hnone

omit [LinearOrder K] in
theorem ncard_le_limit (hfin : S.Finite) (hlimit : S.ncard < limit) (P : Entry K V → Prop) :
    {y | y ∈ S ∧ P y}.ncard < limit :=
  (Set.ncard_le_ncard (fun _ hy => hy.1) hfin).trans_lt hlimit

variable (hiter : Iterates S Okc) (hd : Distinct S) (hfin : S.Finite) (hlimit : S.ncard < limit)

include hiter hd hfin hlimit

theorem findNextUserEntry_spec {skip : Option K} (hok : Okc d.iter) (hs : d.sequence = s)
    (hdir : d.direction = .forward) (hscan : NextScan S s Q skip d.iter) :
    ∃ d', d.findNextUserEntry limit skip = some d' ∧ Ok S s Okc d' ∧
      Least {p | p ∈ visible S s ∧ Q p.1} d'.entry := by
  obtain ⟨it, hloop, hokit, hfound⟩ :=
    findNextLoop_spec hiter hd hfin hok hscan (ncard_le_limit hfin hlimit _)
  subst hs
  rw [findNextUserEntry, hloop]
  refine ⟨_, rfl, ⟨hokit, rfl, fun hvalid => ?_⟩, ?_⟩
  · obtain ⟨e, he⟩ := Option.isSome_iff_exists.mp hvalid
    rw [he] at hfound
    exact (placed_forward (d := d.settleNext it) hdir).mpr ⟨e, he, hfound.1, hfound.2.1⟩
  · cases he : Iter.entry it with
    | none =>
      have hinvalid : (d.settleNext it).valid = false := by
        show (Iter.entry it).isSome = false
        rw [he]
        rfl
      rw [he] at hfound
      rw [entry_invalid hinvalid]
      exact fun p hp => hfound p hp.1 hp.2
    | some e =>
      rw [he] at hfound
      obtain ⟨hnewest, hsome, hQ, hleast⟩ := hfound
      obtain ⟨v, hval⟩ := Option.isSome_iff_exists.mp hsome
      have hvalid : (d.settleNext it).valid = true := by
        show (Iter.entry it).isSome = true
        rw [he]
        rfl
      rw [entry_forward hvalid hdir he hval]
      exact ⟨⟨mem_visible.mpr ⟨e, hnewest, hval⟩, hQ⟩, fun p hp => hleast p hp.1 hp.2⟩

theorem findPrevUserEntry_spec (hok : Okc d.iter) (hs : d.sequence = s)
    (hdir : d.direction = .reverse) (hQ : ∀ a b, Q a → b < a → Q b)
    (hscan : PrevScan S s Q none d.iter) :
    ∃ d', d.findPrevUserEntry limit = some d' ∧ Ok S s Okc d' ∧
      Greatest {p | p ∈ visible S s ∧ Q p.1} d'.entry := by
  obtain ⟨saved, it, hloop, hokit, hfound⟩ :=
    findPrevLoop_spec hiter hd hfin hQ hok hscan (ncard_le_limit hfin hlimit _)
  subst hs
  rw [findPrevUserEntry, hloop]
  cases saved with
  | none =>
    refine ⟨_, rfl, ⟨hokit, rfl, fun hvalid => by cases hvalid⟩, ?_⟩
    rw [entry_invalid rfl]
    exact fun p hp => hfound p hp.1 hp.2
  | some p =>
    obtain ⟨hmem, hQp, hgreatest, hbehind⟩ := hfound
    refine ⟨_, rfl, ⟨hokit, rfl, fun _ => ?_⟩, ?_⟩
    · exact (placed_reverse (d := d.settlePrev (some p, it)) hdir).mpr
        ⟨p.1, p.2, rfl, rfl, hmem, hbehind⟩
    · rw [entry_reverse (d := d.settlePrev (some p, it)) rfl hdir rfl rfl]
      exact ⟨⟨hmem, hQp⟩, fun p' hp' => hgreatest p' hp'.1 hp'.2⟩

/-- `Seek` and `SeekToFirst` stop at once when the internal iterator is at its end. -/
theorem startForward_spec (hok : Okc d.iter) (hs : d.sequence = s)
    (hdir : d.direction = .forward) (hscan : NextScan S s Q none d.iter) :
    ∃ d', (if (Iter.entry d.iter).isSome then d.findNextUserEntry limit none
        else some { d with valid := false }) = some d' ∧ Ok S s Okc d' ∧
      Least {p | p ∈ visible S s ∧ Q p.1} d'.entry := by
  split
  · exact findNextUserEntry_spec hiter hd hfin hlimit hok hs hdir hscan
  · rename_i hend
    refine ⟨_, rfl, ⟨hok, hs, fun hvalid => by cases hvalid⟩, ?_⟩
    rw [entry_invalid rfl]
    rintro p ⟨hp, hQ⟩
    obtain ⟨y, _, _, hcome⟩ := hscan.to_come hp hQ
    refine hcome fun e he => ?_
    rw [he] at hend
    exact absurd rfl hend

theorem seekToFirst_spec (h : Ok S s Okc d) :
    ∃ d', d.seekToFirst limit = some d' ∧ Ok S s Okc d' ∧ Least (visible S s) d'.entry := by
  have hpass := fun y (hy : y ∈ S) => not_passed_first hiter h.iter hy
  obtain ⟨d', hrun, hok, hleast⟩ := startForward_spec (Q := fun _ => True)
    (d := { d with iter := Iter.seekToFirst d.iter, direction := .forward, savedValue := none })
    hiter hd hfin hlimit (hiter.seekToFirst h.iter).1 h.sequence rfl
    ⟨fun y hy _ _ hp => absurd hp (hpass y hy), fun _ _ _ => rfl, (fun _ _ _ _ _ hk => by cases hk),
      fun _ _ _ _ _ => trivial⟩
  exact ⟨d', hrun, hok, hleast.congr fun _ => and_iff_left trivial⟩

theorem seek_spec (h : Ok S s Okc d) (t : K) :
    ∃ d', d.seek limit t = some d' ∧ Ok S s Okc d' ∧
      Least (atOrAfter (visible S s) t) d'.entry := by
  have hseq := h.sequence
  have hpass : ∀ y ∈ S, Past (Iter.seek (lookupKey t d.sequence) d.iter) y ↔
      ¬ (t < y.key ∨ t = y.key ∧ y.seq ≤ s) := by
    intro y hy
    rw [passed_seek hiter h.iter _ hy, ← not_le, lookupKey_le, hseq]
  refine startForward_spec (Q := (t ≤ ·))
    (d := { d with iter := Iter.seek (lookupKey t d.sequence) d.iter, direction := .forward,
                   savedKey := none, savedValue := none })
    hiter hd hfin hlimit (hiter.seek _ h.iter).1 hseq rfl ?_
  refine ⟨fun y hy hys hQ hp => ?_, fun _ _ _ => rfl, (fun _ _ _ _ _ hk => by cases hk),
    fun y hy _ hnot _ => ?_⟩
  · exact absurd (hQ.lt_or_eq.imp_right fun heq => ⟨heq, hys⟩) ((hpass y hy).mp hp)
  · rcases not_not.mp ((hpass y hy).not.mp hnot) with hlt | ⟨heq, _⟩
    · exact hlt.le
    · exact heq.le

theorem seekToLast_spec (h : Ok S s Okc d) :
    ∃ d', d.seekToLast limit = some d' ∧ Ok S s Okc d' ∧ Greatest (visible S s) d'.entry := by
  have hseen : ∀ y, y ∉ seen S (Iter.seekToLast d.iter) := fun y hy =>
    not_ahead_last hiter h.iter hy.1 hy.2
  obtain ⟨d', hrun, hok, hgreatest⟩ := findPrevUserEntry_spec (Q := fun _ => True)
    (d := { d with iter := Iter.seekToLast d.iter, direction := .reverse, savedValue := none })
    hiter hd hfin hlimit (hiter.seekToLast h.iter).1 h.sequence rfl (fun _ _ _ _ => trivial)
    ⟨fun _ _ _ => trivial, fun _ _ _ y hy => absurd hy.mem (hseen y), fun _ hp => by cases hp⟩
  exact ⟨d', hrun, hok, hgreatest.congr fun _ => and_iff_left trivial⟩

theorem next_spec (h : Ok S s Okc d) {p : K × V} (hp : d.entry = some p) :
    ∃ d', d.next limit = some d' ∧ Ok S s Okc d' ∧ Least (after (visible S s) p.1) d'.entry := by
  have hvalid := valid_of_entry hp
  have hplaced := h.placed hvalid
  rw [next, if_pos hvalid]
  cases hdir : d.direction with
  | forward =>
    obtain ⟨e, he, hnewest, hsome⟩ := (placed_forward hdir).mp hplaced
    obtain ⟨v, hval⟩ := Option.isSome_iff_exists.mp hsome
    cases hp.symm.trans (entry_forward hvalid hdir he hval)
    dsimp only
    rw [he]
    exact findNextUserEntry_spec hiter hd hfin hlimit h.iter h.sequence hdir
      (current_scan he)
  | reverse =>
    obtain ⟨k, v, hk, hv, hmem, hbehind⟩ := (placed_reverse hdir).mp hplaced
    cases hp.symm.trans (entry_reverse hvalid hdir hk hv)
    obtain ⟨hok, hscan⟩ := advance_spec hiter h.iter hbehind
    dsimp only
    split
    · rw [hk]
      exact findNextUserEntry_spec (d := { d with iter := advance d.iter, direction := .forward })
        hiter hd hfin hlimit hok h.sequence rfl hscan
    · rename_i hend
      refine ⟨_, rfl, ⟨hok, h.sequence, fun hvalid => by cases hvalid⟩, ?_⟩
      rw [entry_invalid rfl]
      rintro q ⟨hq, hQ⟩
      obtain ⟨y, _, _, hcome⟩ := hscan.to_come hq hQ
      refine hcome fun e he => ?_
      rw [he] at hend
      exact absurd rfl hend

theorem prev_spec (h : Ok S s Okc d) {p : K × V} (hp : d.entry = some p) :
    ∃ d', d.prev limit = some d' ∧ Ok S s Okc d' ∧
      Greatest (before (visible S s) p.1) d'.entry := by
  have hvalid := valid_of_entry hp
  have hplaced := h.placed hvalid
  rw [prev, if_pos hvalid]
  cases hdir : d.direction with
  | forward =>
    obtain ⟨e, he, hnewest, hsome⟩ := (placed_forward hdir).mp hplaced
    obtain ⟨v, hval⟩ := Option.isSome_iff_exists.mp hsome
    cases hp.symm.trans (entry_forward hvalid hdir he hval)
    obtain ⟨it, hloop, hok, hseen, hlt⟩ :=
      leaveLoop_spec hiter hfin h.iter he le_rfl (ncard_le_limit hfin hlimit _)
    have hbehind : Behind S s e.key it :=
      ⟨hlt, fun y hy hless => absurd (hseen y hy) (not_le.mpr hless)⟩
    dsimp only
    rw [he]
    dsimp only
    rw [hloop, Option.bind_some]
    split
    · exact findPrevUserEntry_spec
        (d := { d with iter := it, direction := .reverse, savedKey := some e.key })
        hiter hd hfin hlimit hok h.sequence rfl (fun _ _ h hlt => hlt.trans h) hbehind.scan
    · rename_i hend
      refine ⟨_, rfl, ⟨hok, h.sequence, fun hvalid => by cases hvalid⟩, ?_⟩
      rw [entry_invalid rfl]
      rintro q ⟨hq, hless⟩
      obtain ⟨y, hy, _⟩ := mem_visible.mp hq
      have hahead : Ahead it y := fun e' he' => by
        rw [he'] at hend
        exact absurd rfl hend
      have hge := hseen y ⟨hy.mem, hahead⟩
      rw [hy.key] at hge
      exact absurd hge (not_le.mpr hless)
  | reverse =>
    obtain ⟨k, v, hk, hv, hmem, hbehind⟩ := (placed_reverse hdir).mp hplaced
    cases hp.symm.trans (entry_reverse hvalid hdir hk hv)
    exact findPrevUserEntry_spec hiter hd hfin hlimit h.iter h.sequence hdir
      (fun _ _ h hlt => hlt.trans h) hbehind.scan

/-- The calls of `DBIter` show the visible bindings in the order of their keys. -/
theorem presents : Presents (move limit) entry (visible S s)
    (Ok S s Okc : DBIter ι K V → Prop) := by
  intro d m h
  cases m with
  | seekToFirst => exact .inl (seekToFirst_spec hiter hd hfin hlimit h)
  | seekToLast => exact .inl (seekToLast_spec hiter hd hfin hlimit h)
  | seek t => exact .inl (seek_spec hiter hd hfin hlimit h t)
  | next =>
    cases hp : d.entry with
    | some p =>
      obtain ⟨d', hrun, hok, hleast⟩ := next_spec hiter hd hfin hlimit h hp
      exact .inl ⟨d', hrun, hok, p, rfl, hleast⟩
    | none =>
      have hvalid := h.invalid hp
      exact .inr ⟨by rw [move, next, hvalid]; rfl, .inl rfl, rfl⟩
  | prev =>
    cases hp : d.entry with
    | some p =>
      obtain ⟨d', hrun, hok, hgreatest⟩ := prev_spec hiter hd hfin hlimit h hp
      exact .inl ⟨d', hrun, hok, p, rfl, hgreatest⟩
    | none =>
      have hvalid := h.invalid hp
      exact .inr ⟨by rw [move, prev, hvalid]; rfl, .inr rfl, rfl⟩

end DBIter

end KfkClient.Engine
