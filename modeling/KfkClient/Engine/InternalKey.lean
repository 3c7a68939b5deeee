import KfkClient.Lib.MultiVersion

/-!
# Internal keys (`dbformat.h`) and runs of entries sorted by them

An internal key is a user key with a sequence number and a type. Internal keys are ordered by
user key, and for one user key the newest comes first. A memtable and a table are
runs of entries in this order, in which a read seeks to the newest entry that its
snapshot sees.

The type of user keys and their order are those of the user's comparator.

## Main results

- `lookupKey_le` — what comes at or after the key that a read seeks to
- `lookup_answers` — a read of a sorted run gives its newest visible entry
-/

namespace KfkClient.Engine

open MultiVersion

inductive ValueType where
  | deletion
  | value
  deriving DecidableEq, Repr

def ValueType.code : ValueType → ℕ
  | deletion => 0
  | value => 1

def kValueTypeForSeek : ValueType := .value

def kMaxSequenceNumber : ℕ := 1 <<< 56 - 1

@[ext] structure InternalKey (K : Type) where
  userKey : K
  sequence : ℕ
  type : ValueType
  deriving DecidableEq, Repr

/-- `PackSequenceAndType` -/
def InternalKey.tag {K : Type} (k : InternalKey K) : ℕ := k.sequence <<< 8 ||| k.type.code

theorem InternalKey.tag_eq {K : Type} (k : InternalKey K) :
    k.tag = k.sequence * 256 + k.type.code := by
  have hlt : k.type.code < 2 ^ 8 := by cases k.type <;> decide
  rw [tag, ← Nat.shiftLeft_add_eq_or_of_lt hlt, Nat.shiftLeft_eq]

theorem ValueType.code_le (t : ValueType) : t.code ≤ 1 := by
  cases t <;> decide

variable {K V : Type}

theorem InternalKey.ext_of_tag {a b : InternalKey K} (hk : a.userKey = b.userKey)
    (ht : a.tag = b.tag) : a = b := by
  rw [tag_eq, tag_eq] at ht
  have ha := a.type.code_le
  have hb := b.type.code_le
  have hcode : a.type.code = b.type.code := by omega
  have htype : a.type = b.type := by
    cases hta : a.type <;> cases htb : b.type <;> rw [hta, htb] at hcode <;>
      first | rfl | cases hcode
  exact InternalKey.ext hk (by omega) htype

variable [LinearOrder K]

-- `InternalKeyComparator`: user keys ascending, then tags descending
instance : LinearOrder (InternalKey K) :=
  LinearOrder.lift' (fun k => toLex (k.userKey, OrderDual.toDual k.tag)) fun a b h => by
    have h' := toLex.injective h
    simp only [Prod.mk.injEq, EmbeddingLike.apply_eq_iff_eq] at h'
    exact InternalKey.ext_of_tag h'.1 h'.2

theorem InternalKey.lt_iff {a b : InternalKey K} :
    a < b ↔ a.userKey < b.userKey ∨ a.userKey = b.userKey ∧ b.tag < a.tag :=
  Prod.Lex.toLex_lt_toLex

theorem InternalKey.le_iff {a b : InternalKey K} :
    a ≤ b ↔ a.userKey < b.userKey ∨ a.userKey = b.userKey ∧ b.tag ≤ a.tag :=
  Prod.Lex.toLex_le_toLex

theorem InternalKey.userKey_le_of_le {a b : InternalKey K} (h : a ≤ b) : a.userKey ≤ b.userKey :=
  (le_iff.mp h).elim le_of_lt fun h => h.1.le

/-- The key under which an entry is stored. -/
def Entry.ikey {K V : Type} (e : Entry K V) : InternalKey K :=
  ⟨e.key, e.seq, if e.val.isSome then .value else .deletion⟩

/-- The internal key of a `LookupKey`. -/
def lookupKey (k : K) (s : ℕ) : InternalKey K := ⟨k, s, kValueTypeForSeek⟩

theorem lookupKey_le {k : K} {s : ℕ} {e : Entry K V} :
    lookupKey k s ≤ Entry.ikey e ↔ k < e.key ∨ k = e.key ∧ e.seq ≤ s := by
  have hcode := (Entry.ikey e).type.code_le
  have htag : (Entry.ikey e).tag ≤ (lookupKey k s).tag ↔ e.seq ≤ s := by
    have hseq : (Entry.ikey e).sequence = e.seq := rfl
    have hs : (lookupKey k s).sequence = s := rfl
    have hone : (lookupKey k s).type.code = 1 := rfl
    rw [InternalKey.tag_eq, InternalKey.tag_eq, hseq, hs, hone]
    omega
  rw [InternalKey.le_iff, htag]
  rfl

theorem seq_le_of_ikey_lt {e e' : Entry K V} (h : Entry.ikey e < Entry.ikey e')
    (hk : e.key = e'.key) : e'.seq ≤ e.seq := by
  have hlt := (InternalKey.lt_iff.mp h).resolve_left (by
    show ¬ e.key < e'.key
    exact hk.not_lt)
  have hcode := (Entry.ikey e).type.code_le
  have htag : e'.seq * 256 + (Entry.ikey e').type.code <
      e.seq * 256 + (Entry.ikey e).type.code := by
    have h := hlt.2
    rwa [InternalKey.tag_eq, InternalKey.tag_eq] at h
  generalize (Entry.ikey e).type.code = c at hcode htag
  generalize (Entry.ikey e').type.code = c' at htag
  omega

/-- A run of entries in the order of their internal keys. -/
def Sorted (es : List (Entry K V)) : Prop := es.Pairwise fun a b => Entry.ikey a < Entry.ikey b

instance (es : List (Entry K V)) : Decidable (Sorted es) := by
  unfold Sorted
  infer_instance

def entries (es : List (Entry K V)) : Set (Entry K V) := {e | e ∈ es}

/-- `Seek`: the first entry at or after an internal key. -/
def seek (es : List (Entry K V)) (target : InternalKey K) : Option (Entry K V) :=
  es.find? fun e => target ≤ Entry.ikey e

/-- What a memtable or a table says about a key: nothing, or a value or a deletion. -/
def lookup (es : List (Entry K V)) (k : K) (s : ℕ) : Option (Option V) :=
  match seek es (lookupKey k s) with
  | some e => if e.key = k then some e.val else none
  | none => none

/-- An entry that comes at or after the target is not passed over by `Seek`. -/
theorem seek_le {es : List (Entry K V)} (hes : Sorted es) {target : InternalKey K}
    {e x : Entry K V} (h : seek es target = some e) (hx : x ∈ es)
    (hle : target ≤ Entry.ikey x) : Entry.ikey e ≤ Entry.ikey x := by
  obtain ⟨_, before, after, rfl, hbefore⟩ := List.find?_eq_some_iff_append.mp h
  rcases List.mem_append.mp hx with hxb | hxa
  · have hfalse := hbefore x hxb
    simp [hle] at hfalse
  · rcases List.mem_cons.mp hxa with rfl | hxa
    · exact le_rfl
    · have hpair := (List.pairwise_append.mp hes).2.1
      exact ((List.pairwise_cons.mp hpair).1 x hxa).le

theorem lookup_newest {es : List (Entry K V)} (hes : Sorted es) {k : K} {s : ℕ} {o : Option V}
    (h : lookup es k s = some o) : ∃ e, IsNewest (entries es) s k e ∧ e.val = o := by
  rw [lookup] at h
  split at h
  · rename_i e hseek
    split at h
    · rename_i hk
      cases h
      have hmem := List.mem_of_find?_eq_some hseek
      have hle : lookupKey k s ≤ Entry.ikey e := by simpa using List.find?_some hseek
      refine ⟨e, ⟨hmem, hk, ?_, ?_⟩, rfl⟩
      · exact ((lookupKey_le.mp hle).resolve_left (by rw [hk]; exact lt_irrefl k)).2
      · intro x hx hxk hxs
        have hxle := seek_le hes hseek hx (lookupKey_le.mpr (.inr ⟨hxk.symm, hxs⟩))
        rcases hxle.eq_or_lt with heq | hlt
        · exact (congrArg InternalKey.sequence heq).ge
        · exact seq_le_of_ikey_lt hlt (hk.trans hxk.symm)
    · cases h
  · cases h

theorem lookup_unseen {es : List (Entry K V)} (hes : Sorted es) {k : K} {s : ℕ}
    (h : lookup es k s = none) : Unseen (entries es) s k := by
  intro x hx hxk
  by_contra hns
  have hle : lookupKey k s ≤ Entry.ikey x := lookupKey_le.mpr (.inr ⟨hxk.symm, by omega⟩)
  rw [lookup] at h
  split at h
  · rename_i e hseek
    split at h
    · cases h
    · -- the entry found has a greater key, so `x` cannot come after it
      rename_i hk
      have hfound : lookupKey k s ≤ Entry.ikey e := by simpa using List.find?_some hseek
      have hlt := (lookupKey_le.mp hfound).resolve_right fun h => hk h.1.symm
      have hkey := InternalKey.userKey_le_of_le (seek_le hes hseek hx hle)
      exact absurd (hlt.trans_le hkey) (by show ¬ k < x.key; rw [hxk]; exact lt_irrefl k)
  · rename_i hseek
    have hnone := List.find?_eq_none.mp hseek x hx
    simp [hle] at hnone

theorem lookup_answers {es : List (Entry K V)} (hes : Sorted es) (k : K) (s : ℕ) :
    Answers (entries es) s k (lookup es k s) := by
  cases h : lookup es k s with
  | some o => exact lookup_newest hes h
  | none => exact lookup_unseen hes h

end KfkClient.Engine
