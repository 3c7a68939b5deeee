import Mathlib

/-!
# Stores that keep several versions of a key

An entry binds a key to a value, or to nothing, at a sequence number. What a set of entries
says about a key at a snapshot is what the newest entry that is not newer than the
snapshot says.

## Main definitions

- `Entry`, `Distinct` — entries, and sets in which a key and a sequence number occur once
- `Reads`, `Answers` — what is read of a key at a snapshot, and what one source says of it
- `Above` — one source is newer than another
- `Compacted` — some entries are left out because a newer one hides them, or because they
  delete a key of which nothing older is left

## Main results

- `Reads.unique` — there is at most one answer
- `Answers.or` — of two sources the newer one is asked first
- `Reads.insert_self`, `Reads.insert_ne`, `Reads.insert_later` — what a new entry changes
- `Compacted.reads` — leaving entries out changes no answer from the snapshot `m` on
-/

namespace MultiVersion

@[ext] structure Entry (K V : Type) where
  key : K
  seq : ℕ
  val : Option V
  deriving DecidableEq, Repr

variable {K V : Type} {E A B R I O : Set (Entry K V)} {s m : ℕ} {k : K} {e : Entry K V}
  {o : Option V}

def Distinct (E : Set (Entry K V)) : Prop :=
  ∀ e ∈ E, ∀ e' ∈ E, e.key = e'.key → e.seq = e'.seq → e = e'

structure IsNewest (E : Set (Entry K V)) (s : ℕ) (k : K) (e : Entry K V) : Prop where
  mem : e ∈ E
  key : e.key = k
  le : e.seq ≤ s
  newest : ∀ e' ∈ E, e'.key = k → e'.seq ≤ s → e'.seq ≤ e.seq

/-- Every entry for the key is newer than the snapshot. -/
def Unseen (E : Set (Entry K V)) (s : ℕ) (k : K) : Prop := ∀ e ∈ E, e.key = k → s < e.seq

def Reads (E : Set (Entry K V)) (s : ℕ) (k : K) (o : Option V) : Prop :=
  (∃ e, IsNewest E s k e ∧ e.val = o) ∨ Unseen E s k ∧ o = none

theorem Distinct.mono (h : Distinct B) (hsub : A ⊆ B) : Distinct A :=
  fun e he e' he' => h e (hsub he) e' (hsub he')

theorem IsNewest.unique {e' : Entry K V} (hd : Distinct E) (h : IsNewest E s k e)
    (h' : IsNewest E s k e') : e = e' := by
  apply hd e h.mem e' h'.mem (h.key.trans h'.key.symm)
  exact Nat.le_antisymm (h'.newest e h.mem h.key h.le) (h.newest e' h'.mem h'.key h'.le)

theorem IsNewest.not_unseen (h : IsNewest E s k e) : ¬ Unseen E s k := by
  intro hu
  have hlt := hu e h.mem h.key
  have hle := h.le
  omega

theorem Reads.unique {o' : Option V} (hd : Distinct E) (h : Reads E s k o)
    (h' : Reads E s k o') : o = o' := by
  rcases h with ⟨e, he, rfl⟩ | ⟨hu, rfl⟩
  · rcases h' with ⟨e', he', rfl⟩ | ⟨hu, _⟩
    · rw [he.unique hd he']
    · exact absurd hu he.not_unseen
  · rcases h' with ⟨e', he', _⟩ | ⟨_, rfl⟩
    · exact absurd hu he'.not_unseen
    · rfl

theorem IsNewest.reads (h : IsNewest E s k e) : Reads E s k e.val := .inl ⟨e, h, rfl⟩

theorem Unseen.reads (h : Unseen E s k) : Reads E s k none := .inr ⟨h, rfl⟩

theorem reads_empty : Reads (∅ : Set (Entry K V)) s k none :=
  Unseen.reads fun _ he => absurd he (Set.notMem_empty _)

/-- Whatever `A` has of a key is newer than what `B` has of it. -/
def Above (A B : Set (Entry K V)) : Prop :=
  ∀ a ∈ A, ∀ b ∈ B, a.key = b.key → b.seq < a.seq

theorem Above.mono {A' B' : Set (Entry K V)} (h : Above A B) (hA : A' ⊆ A) (hB : B' ⊆ B) :
    Above A' B' := fun a ha b hb => h a (hA ha) b (hB hb)

theorem above_of_newer (h : ∀ a ∈ A, ∀ b ∈ B, b.seq < a.seq) : Above A B :=
  fun a ha b hb _ => h a ha b hb

/-- What a source of entries answers: the newest entry the snapshot sees, or that it sees
none. -/
def Answers (E : Set (Entry K V)) (s : ℕ) (k : K) : Option (Option V) → Prop
  | some o => ∃ e, IsNewest E s k e ∧ e.val = o
  | none => Unseen E s k

theorem Answers.reads {r : Option (Option V)} (h : Answers E s k r) : Reads E s k r.join := by
  cases r with
  | none => exact .inr ⟨h, rfl⟩
  | some o => exact .inl h

/-- Of two sources the newer one is asked first. -/
theorem Answers.or {r r' : Option (Option V)} (h : Answers A s k r) (h' : Answers B s k r')
    (habove : Above A B) : Answers (A ∪ B) s k (r.or r') := by
  cases r with
  | some o =>
    obtain ⟨e, he, hval⟩ := h
    refine ⟨e, ⟨.inl he.mem, he.key, he.le, ?_⟩, hval⟩
    rintro e' (ha | hb) hk hs
    · exact he.newest e' ha hk hs
    · exact (habove e he.mem e' hb (he.key.trans hk.symm)).le
  | none =>
    cases r' with
    | some o =>
      obtain ⟨e, he, hval⟩ := h'
      refine ⟨e, ⟨.inr he.mem, he.key, he.le, ?_⟩, hval⟩
      rintro e' (ha | hb) hk hs
      · exact absurd (h e' ha hk) (by omega)
      · exact he.newest e' hb hk hs
    | none =>
      rintro e' (ha | hb) hk
      · exact h e' ha hk
      · exact h' e' hb hk

/-- Entries that the snapshot does not see need not be asked for. -/
theorem Answers.widen {r : Option (Option V)} (h : Answers A s k r) (hsub : A ⊆ B)
    (hrest : ∀ e ∈ B, e ∉ A → e.key = k → s < e.seq) : Answers B s k r := by
  cases r with
  | some o =>
    obtain ⟨e, he, hval⟩ := h
    refine ⟨e, ⟨hsub he.mem, he.key, he.le, fun e' hB hk hs => ?_⟩, hval⟩
    by_cases hA : e' ∈ A
    · exact he.newest e' hA hk hs
    · have := hrest e' hB hA hk
      omega
  | none =>
    intro e hB hk
    by_cases hA : e ∈ A
    · exact h e hA hk
    · exact hrest e hB hA hk

/-- Where `A` has nothing of the key to show, `B` is read. -/
theorem Reads.of_below (h : Unseen A s k) (hr : Reads B s k o) : Reads (A ∪ B) s k o := by
  rcases hr with ⟨e, he, rfl⟩ | ⟨hu, rfl⟩
  · refine .inl ⟨e, ⟨.inr he.mem, he.key, he.le, ?_⟩, rfl⟩
    rintro e' (ha | hb) hk hs
    · exact absurd (h e' ha hk) (by omega)
    · exact he.newest e' hb hk hs
  · refine .inr ⟨?_, rfl⟩
    rintro e' (ha | hb) hk
    · exact h e' ha hk
    · exact hu e' hb hk

/-- Between two snapshots with no entry for the key in between, nothing changes. -/
theorem Reads.later {s' : ℕ} (h : Reads E s k o) (hle : s ≤ s')
    (hgap : ∀ e ∈ E, e.key = k → e.seq ≤ s ∨ s' < e.seq) : Reads E s' k o := by
  rcases h with ⟨e, he, rfl⟩ | ⟨hu, rfl⟩
  · refine .inl ⟨e, ⟨he.mem, he.key, he.le.trans hle, fun e' hmem hk hs => ?_⟩, rfl⟩
    rcases hgap e' hmem hk with hold | hnew
    · exact he.newest e' hmem hk hold
    · omega
  · refine .inr ⟨fun e he hk => ?_, rfl⟩
    rcases hgap e he hk with hold | hnew
    · have := hu e he hk
      omega
    · exact hnew

theorem Reads.insert_self (hnew : ∀ e' ∈ E, e'.key = e.key → e'.seq < e.seq) (hs : e.seq ≤ s) :
    Reads (insert e E) s e.key e.val := by
  refine .inl ⟨e, ⟨Set.mem_insert _ _, rfl, hs, ?_⟩, rfl⟩
  rintro e' (rfl | he') hk _
  · exact le_rfl
  · exact (hnew e' he' hk).le

theorem Reads.insert_other (h : Reads E s k o) (hother : e.key = k → s < e.seq) :
    Reads (insert e E) s k o := by
  have hunseen : Unseen {e} s k := by
    rintro e' rfl hk
    exact hother hk
  exact Reads.of_below hunseen h

/-- An entry for another key changes nothing. -/
theorem Reads.insert_ne (h : Reads E s k o) (hne : e.key ≠ k) : Reads (insert e E) s k o :=
  h.insert_other fun hk => absurd hk hne

/-- An entry that is newer than the snapshot changes nothing. -/
theorem Reads.insert_later (h : Reads E s k o) (hlt : s < e.seq) : Reads (insert e E) s k o :=
  h.insert_other fun _ => hlt

/-- A newer entry for the same key, which every snapshot from `m` on sees, hides `e`. -/
def Hidden (I : Set (Entry K V)) (m : ℕ) (e : Entry K V) : Prop :=
  ∃ e' ∈ I, e'.key = e.key ∧ e.seq < e'.seq ∧ e'.seq ≤ m

theorem Hidden.mono (h : Hidden A m e) (hsub : A ⊆ B) : Hidden B m e := by
  obtain ⟨e', he', hk, hlt, hle⟩ := h
  exact ⟨e', hsub he', hk, hlt, hle⟩

/-- `O` is what is left of `I` next to the other entries `R`. -/
structure Compacted (R I O : Set (Entry K V)) (m : ℕ) : Prop where
  sub : O ⊆ I
  dropped : ∀ e ∈ I, e ∉ O → Hidden I m e ∨
    e.val = none ∧ e.seq ≤ m ∧ ∀ e' ∈ R, e'.key = e.key → e.seq < e'.seq
  kept : ∀ e ∈ O, ¬ Hidden I m e

theorem Compacted.reads (h : Compacted R I O m) (hd : Distinct (R ∪ I)) (hs : m ≤ s)
    (hr : Reads (R ∪ I) s k o) : Reads (R ∪ O) s k o := by
  have hsub : R ∪ O ⊆ R ∪ I := Set.union_subset_union_right R h.sub
  rcases hr with ⟨e, he, rfl⟩ | ⟨hu, rfl⟩
  · by_cases hmem : e ∈ R ∪ O
    · exact .inl ⟨e, ⟨hmem, he.key, he.le, fun e' he' => he.newest e' (hsub he')⟩, rfl⟩
    · -- the newest entry was left out, so it deletes the key and nothing older is left
      have heI : e ∈ I := he.mem.resolve_left fun hR => hmem (.inl hR)
      have heO : e ∉ O := fun hO => hmem (.inr hO)
      rcases h.dropped e heI heO with ⟨e', heI', hk, hlt, hle⟩ | ⟨hval, hle, hR⟩
      · have := he.newest e' (.inr heI') (hk.trans he.key) (hle.trans hs)
        omega
      · rw [hval]
        apply Unseen.reads
        rintro x (hxR | hxO) hxk
        · have hlt := hR x hxR (hxk.trans he.key.symm)
          by_contra hns
          have := he.newest x (.inl hxR) hxk (by omega)
          omega
        · by_contra hns
          have hxI := h.sub hxO
          have hxle := he.newest x (.inr hxI) hxk (by omega)
          rcases hxle.eq_or_lt with heq | hlt
          · have hxe := hd x (.inr hxI) e he.mem (hxk.trans he.key.symm) heq
            exact heO (hxe ▸ hxO)
          · exact h.kept x hxO ⟨e, heI, he.key.trans hxk.symm, hlt, hle⟩
  · exact .inr ⟨fun e he => hu e (hsub he), rfl⟩

end MultiVersion
