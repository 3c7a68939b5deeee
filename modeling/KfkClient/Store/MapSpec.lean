import KfkClient.Store.LevelDb

/-!
# The LevelDB backend against the map its calls denote

A sequence of `setkey` and `delkey` calls denotes a partial function on byte
strings. After every such sequence `getkey` reads that function. `get_first` and
`cursor_` each go wrong on a part of the databases: the first reads an iterator
that points nowhere when there is no entry, the second lists nothing when there is
one.
-/

namespace KfkClient

open CLib OrderedMap
open Std (ExtTreeMap)

inductive StoreOp where
  | setkey (key value : Bytes)
  | delkey (key : Bytes)
  deriving DecidableEq, Repr

def StoreOp.call {σ : Type} (B : Opdb σ) : StoreOp → Exec σ ℤ
  | .setkey k v => B.setkey k v
  | .delkey k => B.delkey k

def callAll {σ : Type} (B : Opdb σ) : List StoreOp → Exec σ Unit
  | [] => pure ()
  | op :: ops => do
    let _ ← op.call B
    callAll B ops

def StoreOp.apply (M : Bytes → Option Bytes) : StoreOp → Bytes → Option Bytes
  | .setkey k v => Function.update M k (some v)
  | .delkey k => Function.update M k none

/-- The finite map that a sequence of calls on an empty database denotes. -/
def denote (ops : List StoreOp) : Bytes → Option Bytes :=
  ops.foldl StoreOp.apply fun _ => none

section Spec

variable (B : Opdb Map) (s : Map) (M : Bytes → Option Bytes)

def GetkeyReads : Prop :=
  ∀ k, match M k with
    | some v => (B.getkey k).run s = .ok (0, v) s
    | none => ∃ rc v, rc ≠ 0 ∧ (B.getkey k).run s = .ok (rc, v) s

/-- `get_first` returns the least key and its value, or an error code when there is none. -/
def FirstReads : Prop :=
  (∀ k v, M k = some v → (∀ a, M a ≠ none → a ≠ k → compare k a = .lt) →
    B.getFirst.run s = .ok (0, k, v) s) ∧
  ((∀ k, M k = none) → ∃ rc kv, rc ≠ 0 ∧ B.getFirst.run s = .ok (rc, kv) s)

/-- `cursor_` on an empty list fills it with the map and returns the map's size. -/
def CursorReads : Prop :=
  ∃ list : Map, (B.cursor ∅).run s = .ok ((Set.ncard {k | M k ≠ none} : ℤ), list) s ∧
    ∀ k, list[k]? = M k

end Spec

/-! ### The content of the database -/

theorem apply_agrees {s : Map} {M : Bytes → Option Bytes} (h : ∀ k, s[k]? = M k) (op : StoreOp) :
    ∃ rc s', (op.call LevelDb.levelDb).run s = .ok rc s' ∧ ∀ k, s'[k]? = op.apply M k := by
  cases op with
  | setkey key value =>
    refine ⟨0, _, LevelDb.levelDb_setkey key value s, ?_⟩
    intro k
    rw [ExtTreeMap.getElem?_insert, StoreOp.apply, Function.update_apply]
    by_cases hk : k = key
    · simp [hk]
    · have hk' : ¬ key = k := fun he => hk he.symm
      simp [hk, hk', h]
  | delkey key =>
    refine ⟨0, _, LevelDb.levelDb_delkey key s, ?_⟩
    intro k
    rw [ExtTreeMap.getElem?_erase, StoreOp.apply, Function.update_apply]
    by_cases hk : k = key
    · simp [hk]
    · have hk' : ¬ key = k := fun he => hk he.symm
      simp [hk, hk', h]

theorem callAll_agrees (ops : List StoreOp) {s : Map} {M : Bytes → Option Bytes}
    (h : ∀ k, s[k]? = M k) :
    ∃ s', (callAll LevelDb.levelDb ops).run s = .ok () s' ∧
      ∀ k, s'[k]? = ops.foldl StoreOp.apply M k := by
  induction ops generalizing s M with
  | nil => exact ⟨s, rfl, h⟩
  | cons op ops ih =>
    obtain ⟨rc, m, hop, hm⟩ := apply_agrees h op
    obtain ⟨s', hrun, hs'⟩ := ih hm
    refine ⟨s', ?_, hs'⟩
    rw [callAll, run_bind_ok hop, hrun]

/-- After any calls the database holds exactly the map they denote. -/
theorem levelDb_holds_denote (ops : List StoreOp) :
    ∃ s, (callAll LevelDb.levelDb ops).run LevelDb.levelDb.fresh = .ok () s ∧
      ∀ k, s[k]? = denote ops k :=
  callAll_agrees ops fun _ => ExtTreeMap.getElem?_empty

/-! ### The three reads -/

theorem levelDb_cursorReads_iff (s : Map) (M : Bytes → Option Bytes) :
    CursorReads LevelDb.levelDb s M ↔ ∀ k, M k = none := by
  have hcur := LevelDb.levelDb_cursor ∅ s
  constructor
  · rintro ⟨list, hrun, hlist⟩ k
    rw [hcur] at hrun
    simp only [EStateM.Result.ok.injEq, Prod.mk.injEq] at hrun
    rw [← hlist k, ← hrun.1.2, ExtTreeMap.getElem?_empty]
  · intro hM
    refine ⟨∅, ?_, fun k => by rw [hM k, ExtTreeMap.getElem?_empty]⟩
    have hset : {k | M k ≠ none} = ∅ := by simp [hM]
    have hsize : toInt (∅ : Map).size = 0 := by
      rw [ExtTreeMap.size_empty]
      exact toInt_of_lt (by decide)
    rw [hcur, hset, Set.ncard_empty, hsize, Nat.cast_zero]

section Reads

variable {s : Map} {M : Bytes → Option Bytes} (h : ∀ k, s[k]? = M k)
include h

theorem agrees_empty_iff : s = ∅ ↔ ∀ k, M k = none := by
  constructor
  · rintro rfl k
    rw [← h k, ExtTreeMap.getElem?_empty]
  · intro hM
    apply ExtTreeMap.ext_getElem?
    intro k
    rw [h k, hM k, ExtTreeMap.getElem?_empty]

theorem levelDb_getkeyReads : GetkeyReads LevelDb.levelDb s M := by
  intro k
  cases hk : M k with
  | some v => exact LevelDb.levelDb_getkey_some ((h k).trans hk)
  | none => exact ⟨-2, [], by decide, LevelDb.levelDb_getkey_none ((h k).trans hk)⟩

theorem levelDb_firstReads_iff : FirstReads LevelDb.levelDb s M ↔ ∃ k, M k ≠ none := by
  constructor
  · rintro ⟨-, hempty⟩
    by_contra hno
    push Not at hno
    obtain ⟨rc, kv, -, hrun⟩ := hempty hno
    rw [(agrees_empty_iff h).mpr hno, LevelDb.levelDb_getFirst_empty] at hrun
    cases hrun
  · rintro ⟨k, hk⟩
    refine ⟨?_, fun hno => absurd (hno k) hk⟩
    intro a v ha hmin
    apply LevelDb.levelDb_getFirst_some
    apply first?_eq_some ((h a).trans ha)
    intro b hb hne
    obtain ⟨w, hw⟩ := mem_iff_exists_get.mp hb
    exact hmin b (by rw [← h b, hw]; simp) hne

end Reads

/-- After any calls `getkey` reads the map, `get_first` does so exactly when the map
has an entry and `cursor_` exactly when it has none. -/
theorem levelDb_reads (ops : List StoreOp) :
    ∃ s, (callAll LevelDb.levelDb ops).run LevelDb.levelDb.fresh = .ok () s ∧
      GetkeyReads LevelDb.levelDb s (denote ops) ∧
      (FirstReads LevelDb.levelDb s (denote ops) ↔ ∃ k, denote ops k ≠ none) ∧
      (CursorReads LevelDb.levelDb s (denote ops) ↔ ∀ k, denote ops k = none) ∧
      ¬ (GetkeyReads LevelDb.levelDb s (denote ops) ∧ FirstReads LevelDb.levelDb s (denote ops) ∧
        CursorReads LevelDb.levelDb s (denote ops)) := by
  obtain ⟨s, hrun, hs⟩ := levelDb_holds_denote ops
  have hf := levelDb_firstReads_iff hs
  have hc := levelDb_cursorReads_iff s (denote ops)
  refine ⟨s, hrun, levelDb_getkeyReads hs, hf, hc, ?_⟩
  rintro ⟨-, hfirst, hcursor⟩
  obtain ⟨k, hk⟩ := hf.mp hfirst
  exact hk (hc.mp hcursor k)

/-- One entry is enough for `cursor_` to miss it. -/
theorem levelDb_cursor_misses_entry :
    ∃ s, (callAll LevelDb.levelDb [.setkey [107] [118]]).run LevelDb.levelDb.fresh = .ok () s ∧
      ¬ CursorReads LevelDb.levelDb s (denote [.setkey [107] [118]]) := by
  obtain ⟨s, hrun, hs⟩ := levelDb_holds_denote [.setkey [107] [118]]
  refine ⟨s, hrun, ?_⟩
  rw [levelDb_cursorReads_iff]
  intro hM
  exact absurd (hM [107]) (by simp [denote, StoreOp.apply])

end KfkClient
