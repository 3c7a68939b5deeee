import Mathlib

/-!
# Lists by position

A list that gets an element at its end or a new one at some place, two lists related place by
place, and what can be counted in a list.
-/

namespace Lists

theorem getElem?_snoc {α : Type} {l : List α} {i : ℕ} {a b : α} :
    (l ++ [a])[i]? = some b ↔ l[i]? = some b ∨ i = l.length ∧ a = b := by
  by_cases hlt : i < l.length
  · rw [List.getElem?_append_left hlt]
    have hne : i ≠ l.length := hlt.ne
    simp [hne]
  · have hn : l[i]? = none := List.getElem?_eq_none (by omega)
    rw [List.getElem?_append_right (by omega), hn, List.getElem?_singleton]
    have hz : i - l.length = 0 ↔ i = l.length := by omega
    simp [hz]

theorem forall₂_eraseIdx {α β : Type} {R : α → β → Prop} {l : List α} {m : List β}
    (h : List.Forall₂ R l m) (i : ℕ) : List.Forall₂ R (l.eraseIdx i) (m.eraseIdx i) := by
  induction h generalizing i with
  | nil => exact .nil
  | cons hab _ ih =>
    cases i with
    | zero => assumption
    | succ i => exact .cons hab (ih i)

theorem forall₂_getElem {α β : Type} {R : α → β → Prop} {l : List α} {m : List β}
    (h : List.Forall₂ R l m) {i : ℕ} {a : α} (ha : l[i]? = some a) :
    ∃ b, m[i]? = some b ∧ R a b := by
  induction h generalizing i with
  | nil => simp at ha
  | cons hab _ ih =>
    cases i with
    | zero =>
      simp only [List.getElem?_cons_zero, Option.some.injEq] at ha
      subst ha
      exact ⟨_, rfl, hab⟩
    | succ i => simpa using ih (by simpa using ha)

theorem forall₂_and {α β : Type} {R R' : α → β → Prop} {l : List α} {l' : List β}
    (h : List.Forall₂ R l l') (h' : List.Forall₂ R' l l') :
    List.Forall₂ (fun a b => R a b ∧ R' a b) l l' := by
  induction h with
  | nil => exact .nil
  | cons hab _ ih =>
    cases h' with
    | cons hab' htail => exact .cons ⟨hab, hab'⟩ (ih htail)

/-- What holds of every pair after each element is changed by its own function. -/
theorem forall₂_of_getElem {α β : Type} {R R' : α → β → Prop} {l l₁ : List α} {l' : List β}
    (h : List.Forall₂ R l l') (hlen : l₁.length = l.length)
    (hf : ∀ (j : ℕ) (a a₁ : α) (b : β), l[j]? = some a → l₁[j]? = some a₁ → l'[j]? = some b →
      R a b → R' a₁ b) : List.Forall₂ R' l₁ l' := by
  refine List.forall₂_iff_get.mpr ⟨hlen.trans h.length_eq, fun j h₁ h' => ?_⟩
  have hj : j < l.length := hlen ▸ h₁
  exact hf j _ _ _ (List.getElem?_eq_getElem hj) (List.getElem?_eq_getElem h₁)
    (List.getElem?_eq_getElem h') (h.get hj h')

theorem getElem?_set_cases {α : Type} {l : List α} {i j : ℕ} {a b : α}
    (h : (l.set i a)[j]? = some b) : (j = i ∧ b = a) ∨ (j ≠ i ∧ l[j]? = some b) := by
  by_cases hji : j = i
  · subst hji
    have hlt : j < l.length := by
      have hset := (List.getElem?_eq_some_iff.mp h).1
      rwa [List.length_set] at hset
    rw [List.getElem?_set_self hlt] at h
    exact .inl ⟨rfl, (Option.some.inj h).symm⟩
  · rw [List.getElem?_set_ne (Ne.symm hji)] at h
    exact .inr ⟨hji, h⟩

theorem take_of_prefix {α : Type} {l l' : List α} (h : l <+: l') {n : ℕ} (hn : n ≤ l.length) :
    l'.take n = l.take n := by
  obtain ⟨r, rfl⟩ := h
  exact List.take_append_of_le_length hn

theorem length_flatMap_le {α β γ : Type} {f : α → List β} {g : α → List γ} {l : List α}
    (h : ∀ x ∈ l, (g x).length ≤ (f x).length) : (l.flatMap g).length ≤ (l.flatMap f).length := by
  induction l with
  | nil => exact le_rfl
  | cons a l ih =>
    have ha := h a List.mem_cons_self
    have hl := ih fun x hx => h x (List.mem_cons_of_mem _ hx)
    simp only [List.flatMap_cons, List.length_append]
    omega

/-- When no part is longer than its counterpart, equal totals mean equal parts. -/
theorem length_flatMap_eq_iff {α β γ : Type} {f : α → List β} {g : α → List γ} {l : List α}
    (h : ∀ x ∈ l, (g x).length ≤ (f x).length) :
    (l.flatMap g).length = (l.flatMap f).length ↔ ∀ x ∈ l, (g x).length = (f x).length := by
  induction l with
  | nil => simp
  | cons a l ih =>
    have ha := h a List.mem_cons_self
    have hrest := fun x hx => h x (List.mem_cons_of_mem a hx)
    have hl := length_flatMap_le hrest
    simp only [List.flatMap_cons, List.length_append, List.forall_mem_cons, ← ih hrest]
    omega

theorem countP_lt_of_imp {α : Type} {p q : α → Bool} {l : List α} {a : α} (ha : a ∈ l)
    (hpa : p a = false) (hqa : q a = true) (himp : ∀ x ∈ l, p x = true → q x = true) :
    l.countP p < l.countP q := by
  induction l with
  | nil => exact absurd ha List.not_mem_nil
  | cons x l ih =>
    have hle : l.countP p ≤ l.countP q :=
      List.countP_mono_left fun y hy => himp y (List.mem_cons_of_mem _ hy)
    rcases List.mem_cons.mp ha with rfl | ha
    · rw [List.countP_cons_of_neg (by simp [hpa]), List.countP_cons_of_pos hqa]
      omega
    · have hlt := ih ha fun y hy => himp y (List.mem_cons_of_mem _ hy)
      rw [List.countP_cons, List.countP_cons]
      have hx := himp x List.mem_cons_self
      by_cases hpx : p x = true
      · rw [if_pos hpx, if_pos (hx hpx)]
        omega
      · rw [if_neg hpx]
        omega

theorem mapM_eq_some_map {α β : Type} {l : List α} {f : α → Option β} {g : α → β}
    (h : ∀ a ∈ l, f a = some (g a)) : l.mapM f = some (l.map g) := by
  induction l with
  | nil => rfl
  | cons a l ih =>
    rw [List.mapM_cons, h a List.mem_cons_self, ih fun b hb => h b (List.mem_cons_of_mem _ hb)]
    rfl

end Lists
