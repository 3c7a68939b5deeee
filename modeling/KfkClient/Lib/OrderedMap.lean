import Mathlib

/-!
# Ordered maps

Lookups, first entries and listings of `Std.ExtTreeMap`, for a key order in which
only equal keys compare equal. `first?` is the entry an ordered store yields first.
-/

namespace OrderedMap

open Std

variable {α β : Type} [Ord α] [TransOrd α]

def first? (t : ExtTreeMap α β) : Option (α × β) := t.toList.head?

theorem mem_iff_exists_get {t : ExtTreeMap α β} {k : α} : k ∈ t ↔ ∃ v, t[k]? = some v := by
  rw [ExtTreeMap.mem_iff_isSome_getElem?, Option.isSome_iff_exists]

theorem size_erase_of_mem {t : ExtTreeMap α β} {k : α} (h : k ∈ t) :
    (t.erase k).size + 1 = t.size := by
  have hc : t.contains k = true := h
  have hpos : t.size ≠ 0 := by
    intro h0
    have he : t = ∅ := ExtTreeMap.eq_empty_iff_size_eq_zero.mpr h0
    subst he
    simp at h
  rw [ExtTreeMap.size_erase, if_pos hc]
  omega

theorem first?_eq_none_iff {t : ExtTreeMap α β} : first? t = none ↔ t = ∅ := by
  rw [first?, List.head?_eq_none_iff, ExtTreeMap.toList_eq_nil_iff]

theorem exists_first?_of_mem {t : ExtTreeMap α β} {a : α} (h : a ∈ t) :
    ∃ k v, first? t = some (k, v) := by
  cases hf : first? t with
  | none =>
    rw [first?_eq_none_iff.mp hf] at h
    simp at h
  | some e => exact ⟨e.1, e.2, rfl⟩

theorem nodup_keys (t : ExtTreeMap α β) : t.keys.Nodup := by
  refine ExtTreeMap.ordered_keys.imp ?_
  rintro a b hlt rfl
  simp at hlt

variable [LawfulEqOrd α]

theorem get_insert_of_ne {t : ExtTreeMap α β} {k a : α} (v : β) (h : k ≠ a) :
    (t.insert k v)[a]? = t[a]? := by
  rw [ExtTreeMap.getElem?_insert, if_neg]
  simpa using h

theorem mem_insert_iff {t : ExtTreeMap α β} {k a : α} {v : β} :
    a ∈ t.insert k v ↔ a = k ∨ a ∈ t := by
  rw [ExtTreeMap.mem_insert, Std.LawfulEqCmp.compare_eq_iff_eq, eq_comm]

theorem get_erase_of_ne {t : ExtTreeMap α β} {k a : α} (h : k ≠ a) :
    (t.erase k)[a]? = t[a]? := by
  rw [ExtTreeMap.getElem?_erase, if_neg]
  simpa using h

theorem erase_of_not_mem {t : ExtTreeMap α β} {k : α} (h : t[k]? = none) : t.erase k = t := by
  apply ExtTreeMap.ext_getElem?
  intro a
  by_cases ha : k = a
  · subst ha
    rw [ExtTreeMap.getElem?_erase_self, h]
  · rw [get_erase_of_ne ha]

/-- The first entry is bound in the map and no key comes before its own. -/
theorem first?_spec {t : ExtTreeMap α β} {k : α} {v : β} (h : first? t = some (k, v)) :
    t[k]? = some v ∧ ∀ a ∈ t, a ≠ k → compare k a = .lt := by
  have hl : t.toList = (k, v) :: t.toList.tail := List.eq_cons_of_mem_head? h
  refine ⟨ExtTreeMap.mem_toList_iff_getElem?_eq_some.mp (by rw [hl]; exact List.mem_cons_self), ?_⟩
  intro a ha hne
  obtain ⟨w, hw⟩ := mem_iff_exists_get.mp ha
  have hm : (a, w) ∈ t.toList := ExtTreeMap.mem_toList_iff_getElem?_eq_some.mpr hw
  have hp := ExtTreeMap.ordered_keys_toList (t := t)
  rw [hl] at hm hp
  rcases List.mem_cons.mp hm with heq | hm
  · exact absurd (congrArg Prod.fst heq) hne
  · exact (List.pairwise_cons.mp hp).1 _ hm

/-- A bound key that comes before every other key gives the first entry. -/
theorem first?_eq_some {t : ExtTreeMap α β} {k : α} {v : β} (hk : t[k]? = some v)
    (hmin : ∀ a ∈ t, a ≠ k → compare k a = .lt) : first? t = some (k, v) := by
  cases hf : first? t with
  | none =>
    rw [first?_eq_none_iff.mp hf] at hk
    simp at hk
  | some e =>
    obtain ⟨k', v'⟩ := e
    obtain ⟨hk', hmin'⟩ := first?_spec hf
    by_cases hkk : k = k'
    · subst hkk
      rw [hk] at hk'
      simp only [Option.some.injEq] at hk'
      rw [hk']
    · have h1 := hmin k' (mem_iff_exists_get.mpr ⟨v', hk'⟩) (Ne.symm hkk)
      have h2 := hmin' k (mem_iff_exists_get.mpr ⟨v, hk⟩) hkk
      exact absurd h2 (OrientedCmp.not_lt_of_lt h1)

end OrderedMap
