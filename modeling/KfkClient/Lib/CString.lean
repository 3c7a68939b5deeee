import Mathlib

/-!
# Byte strings, buffers and machine integers of C and C++

The parts of the C and C++ standard libraries that a program on byte strings
leans on. Byte strings are lists of bytes, a `char` array is the list of its
elements, and a `const char *` argument is a `CString`, whose bytes hold no NUL.

## Main definitions

- `Fault` — the ways in which a C++ computation stops without returning
- `Exec` — a computation on a state that returns or stops with a `Fault`
- `ReturnsWhen` — exactly when a computation returns, and with what
- `CString` — the text behind a NUL-terminated `const char *`
- `stdString`, `memcpy`, `sprintfInto` — bounds-checked copies
- `toInt`, `toSizeT`, `llAdd`, `llSub` — conversions and checked arithmetic
- `ReadOnly` — computations that leave the state alone
-/

namespace CLib

abbrev Bytes := List UInt8

/-- Shortcut for deciding whether a list holds a byte string: definitions that test this refer
to the instance by name and carry no proof of their own. -/
instance Bytes.lawfulBEq : LawfulBEq Bytes := inferInstance

/-- The ways in which a C++ computation stops without returning. -/
inductive Fault where
  | assertion
  -- `std::length_error`, which nothing catches
  | lengthError
  | signedOverflow
  -- an array is read or written past its end
  | outOfBounds
  -- a loop repeats its state
  | diverges
  deriving DecidableEq, Repr

/-- A computation on a state `σ`. When it stops with a `Fault` the state it
had reached is still there. -/
abbrev Exec (σ : Type) := EStateM Fault σ

@[ext] structure CString where
  bytes : Bytes
  nul_free : (0 : UInt8) ∉ bytes
  deriving DecidableEq

/-- A zeroed `char[n]`. -/
def zeros (n : ℕ) : Bytes := List.replicate n 0

/-- The text in a `char` buffer: everything before its first NUL. -/
def cstr (buf : Bytes) : Bytes := buf.takeWhile (· ≠ 0)

def strlen (buf : Bytes) : ℕ := (cstr buf).length

def toInt (n : ℤ) : ℤ := n.bmod (2 ^ 32)

def toSizeT (n : ℤ) : ℕ := (n % 2 ^ 64).toNat

def llBound : ℤ := 2 ^ 63

section Exec

variable {σ : Type}

@[simp] theorem run_throw {α : Type} (e : Fault) (s : σ) :
    (throw e : Exec σ α).run s = .error e s := rfl

theorem run_get (s : σ) : (get : Exec σ σ).run s = .ok s s := rfl

theorem run_modify (f : σ → σ) (s : σ) : (modify f : Exec σ Unit).run s = .ok () (f s) := rfl

theorem run_bind_ok {α β : Type} {x : Exec σ α} {f : α → Exec σ β} {s s' : σ} {a : α}
    (h : x.run s = .ok a s') : (x >>= f).run s = (f a).run s' := by
  simp [h]

theorem run_bind_error {α β : Type} {x : Exec σ α} {f : α → Exec σ β} {s s' : σ} {e : Fault}
    (h : x.run s = .error e s') : (x >>= f).run s = .error e s' := by
  simp [h]

theorem run_bind_congr {α β : Type} {x y : Exec σ α} {f : α → Exec σ β} {s : σ}
    (h : x.run s = y.run s) : (x >>= f).run s = (y >>= f).run s := by
  rw [EStateM.run_bind, EStateM.run_bind, h]

/-- A computation that returned went through a first part that returned. -/
theorem run_bind_eq_ok {α β : Type} {x : Exec σ α} {f : α → Exec σ β} {s s' : σ} {b : β}
    (h : (x >>= f).run s = .ok b s') : ∃ a m, x.run s = .ok a m ∧ (f a).run m = .ok b s' := by
  rw [EStateM.run_bind] at h
  split at h
  · next a m hx => exact ⟨a, m, hx, h⟩
  · cases h

/-- The computation returns exactly when `P` holds, and then with `a` and the state `s'`. -/
def ReturnsWhen {α : Type} (x : Exec σ α) (s : σ) (P : Prop) (a : α) (s' : σ) : Prop :=
  ∀ b r, x.run s = .ok b r ↔ P ∧ b = a ∧ r = s'

namespace ReturnsWhen

variable {α β : Type} {x : Exec σ α} {f : α → Exec σ β} {s m s' : σ} {a : α} {b : β} {P Q : Prop}

theorem run (h : ReturnsWhen x s P a s') (hP : P) : x.run s = .ok a s' :=
  (h a s').mpr ⟨hP, rfl, rfl⟩

theorem of_run (h : x.run s = .ok a s') : ReturnsWhen x s True a s' := by
  intro b r
  rw [h, EStateM.Result.ok.injEq, true_and]
  exact and_congr eq_comm eq_comm

theorem of_throw (e : Fault) : ReturnsWhen (throw e : Exec σ α) s False a s' := by
  intro b r
  rw [run_throw, false_and, iff_false]
  exact fun h => nomatch h

theorem congr (h : ReturnsWhen x s P a s') (hPQ : P ↔ Q) : ReturnsWhen x s Q a s' := by
  intro b r
  rw [h b r, hPQ]

/-- What is only needed in one case, in this case. -/
theorem of_pos {C : Prop} (hC : C) (h : ReturnsWhen x s P a s') : ReturnsWhen x s (C → P) a s' :=
  h.congr ⟨fun hP _ => hP, fun hP => hP hC⟩

theorem of_neg {C : Prop} (hC : ¬ C) (h : x.run s = .ok a s') : ReturnsWhen x s (C → P) a s' :=
  (of_run h).congr ⟨fun _ h => absurd h hC, fun _ => trivial⟩

theorem bind (hx : ReturnsWhen x s P a m) (hf : ReturnsWhen (f a) m Q b s') :
    ReturnsWhen (x >>= f) s (P ∧ Q) b s' := by
  intro c r
  constructor
  · intro h
    obtain ⟨a', m', hfirst, hrest⟩ := run_bind_eq_ok h
    obtain ⟨hP, rfl, rfl⟩ := (hx a' m').mp hfirst
    obtain ⟨hQ, hvalue⟩ := (hf c r).mp hrest
    exact ⟨⟨hP, hQ⟩, hvalue⟩
  · rintro ⟨⟨hP, hQ⟩, hvalue⟩
    rw [run_bind_ok (hx.run hP)]
    exact (hf c r).mpr ⟨hQ, hvalue⟩

/-- The first part returns in any case. -/
theorem after (hx : x.run s = .ok a m) (hf : ReturnsWhen (f a) m P b s') :
    ReturnsWhen (x >>= f) s P b s' :=
  ((of_run hx).bind hf).congr (by rw [true_and])

/-- What follows returns in any case. -/
theorem andThen (hx : ReturnsWhen x s P a m) (hf : (f a).run m = .ok b s') :
    ReturnsWhen (x >>= f) s P b s' :=
  (hx.bind (of_run hf)).congr (by rw [and_true])

end ReturnsWhen

/-- The value and the state of a computation that returns. -/
def returned {α : Type} (x : Exec σ α) (s : σ) : Option (α × σ) :=
  match x.run s with
  | .ok a s' => some (a, s')
  | .error _ _ => none

theorem returned_eq_some {α : Type} {x : Exec σ α} {s s' : σ} {a : α} :
    returned x s = some (a, s') ↔ x.run s = .ok a s' := by
  rw [returned]
  cases x.run s with
  | ok b r => simp
  | error e r => simp

/-- The state a computation leaves behind, whether it returns or stops. -/
def stateAfter {α : Type} (x : Exec σ α) (s : σ) : σ :=
  match x.run s with
  | .ok _ s' => s'
  | .error _ s' => s'

theorem stateAfter_ok {α : Type} {x : Exec σ α} {s s' : σ} {a : α} (h : x.run s = .ok a s') :
    stateAfter x s = s' := by
  rw [stateAfter, h]

theorem stateAfter_error {α : Type} {x : Exec σ α} {s s' : σ} {e : Fault}
    (h : x.run s = .error e s') : stateAfter x s = s' := by
  rw [stateAfter, h]

theorem stateAfter_congr {α : Type} {x y : Exec σ α} {s s' : σ} (h : x.run s = y.run s') :
    stateAfter x s = stateAfter y s' := by
  rw [stateAfter, stateAfter, h]

/-- What follows a computation only to return its value leaves the same state. -/
theorem stateAfter_bind_pure {α β : Type} (x : Exec σ α) (b : β) (s : σ) :
    stateAfter (x >>= fun _ => pure b) s = stateAfter x s := by
  rw [stateAfter, stateAfter, EStateM.run_bind]
  cases x.run s with
  | ok a r => rfl
  | error e r => rfl

/-- A computation that leaves the state alone when it returns. -/
def ReadOnly {α : Type} (x : Exec σ α) : Prop := ∀ s a s', x.run s = .ok a s' → s' = s

theorem readOnly_pure {α : Type} (a : α) : ReadOnly (pure a : Exec σ α) := by
  intro s b s' h
  cases h
  rfl

theorem readOnly_get : ReadOnly (get : Exec σ σ) := by
  intro s a s' h
  cases h
  rfl

theorem readOnly_throw {α : Type} (e : Fault) : ReadOnly (throw e : Exec σ α) := by
  intro s b s' h
  cases h

theorem ReadOnly.bind {α β : Type} {x : Exec σ α} {f : α → Exec σ β} (hx : ReadOnly x)
    (hf : ∀ a, ReadOnly (f a)) : ReadOnly (x >>= f) := by
  intro s b s' h
  obtain ⟨a, m, hm, h⟩ := run_bind_eq_ok h
  rw [hf a m b s' h, hx s a m hm]

theorem ReadOnly.ite {α : Type} {p : Prop} [Decidable p] {x y : Exec σ α} (hx : ReadOnly x)
    (hy : ReadOnly y) : ReadOnly (if p then x else y) := by
  split
  · exact hx
  · exact hy

def llAdd (a b : ℤ) : Exec σ ℤ :=
  if -llBound ≤ a + b ∧ a + b < llBound then pure (a + b) else throw .signedOverflow

def llSub (a b : ℤ) : Exec σ ℤ :=
  if -llBound ≤ a - b ∧ a - b < llBound then pure (a - b) else throw .signedOverflow

/-- The value of an arithmetic expression on `int`s. -/
def intArith (v : ℤ) : Exec σ ℤ :=
  if -2 ^ 31 ≤ v ∧ v < 2 ^ 31 then pure v else throw .signedOverflow

/-- `std::string(p, n)` for an `int` length: a negative length becomes a `size_t`
no string can have. -/
def stdString (p : Bytes) (n : ℤ) : Exec σ Bytes :=
  if n < 0 then throw .lengthError
  else if p.length < n then throw .outOfBounds
  else pure (p.take n.toNat)

/-- `memcpy(dst, src, n)` into an array `dst`, which keeps its later elements. -/
def memcpy (dst src : Bytes) (n : ℤ) : Exec σ Bytes :=
  if n < 0 ∨ dst.length < n ∨ src.length < n then throw .outOfBounds
  else pure (src.take n.toNat ++ dst.drop n.toNat)

/-- `sprintf(dst, ...)` whose output is `text`: the text, a NUL and the later
elements of the array. -/
def sprintfInto (dst text : Bytes) : Exec σ Bytes :=
  if dst.length < text.length + 1 then throw .outOfBounds
  else pure (text ++ 0 :: dst.drop (text.length + 1))

/-- `strcpy(dst, src.c_str())`. -/
def strcpy (dst src : Bytes) : Exec σ Bytes := sprintfInto dst (cstr src)

theorem readOnly_llSub (a b : ℤ) : ReadOnly (llSub a b : Exec σ ℤ) :=
  (readOnly_pure _).ite (readOnly_throw _)

theorem readOnly_llAdd (a b : ℤ) : ReadOnly (llAdd a b : Exec σ ℤ) :=
  (readOnly_pure _).ite (readOnly_throw _)

theorem readOnly_stdString (p : Bytes) (n : ℤ) : ReadOnly (stdString p n : Exec σ Bytes) :=
  (readOnly_throw _).ite ((readOnly_throw _).ite (readOnly_pure _))

theorem readOnly_memcpy (dst src : Bytes) (n : ℤ) : ReadOnly (memcpy dst src n : Exec σ Bytes) :=
  (readOnly_throw _).ite (readOnly_pure _)

theorem readOnly_sprintfInto (dst text : Bytes) : ReadOnly (sprintfInto dst text : Exec σ Bytes) :=
  (readOnly_throw _).ite (readOnly_pure _)

theorem llAdd_ok {a b : ℤ} (h : -llBound ≤ a + b ∧ a + b < llBound) (s : σ) :
    (llAdd a b).run s = .ok (a + b) s := by
  simp [llAdd, h]

theorem llSub_ok {a b : ℤ} (h : -llBound ≤ a - b ∧ a - b < llBound) (s : σ) :
    (llSub a b).run s = .ok (a - b) s := by
  simp [llSub, h]

theorem llSub_eq_ok {a b r : ℤ} {s s' : σ} (h : (llSub a b).run s = .ok r s') :
    r = a - b ∧ s' = s := by
  rw [llSub] at h
  split at h
  · cases h
    exact ⟨rfl, rfl⟩
  · cases h

theorem llSub_overflow {a b : ℤ} (h : ¬ a - b < llBound) (s : σ) :
    (llSub a b).run s = .error .signedOverflow s := by
  rw [llSub, if_neg (fun hb => h hb.2), run_throw]

theorem llAdd_overflow {a b : ℤ} (h : ¬ a + b < llBound) (s : σ) :
    (llAdd a b).run s = .error .signedOverflow s := by
  rw [llAdd, if_neg (fun hb => h hb.2), run_throw]

theorem intArith_returns (v : ℤ) (s : σ) :
    ReturnsWhen (intArith v) s (-2 ^ 31 ≤ v ∧ v < 2 ^ 31) v s := by
  by_cases h : -2 ^ 31 ≤ v ∧ v < 2 ^ 31
  · rw [intArith, if_pos h]
    exact (ReturnsWhen.of_run rfl).congr (iff_of_true trivial h)
  · rw [intArith, if_neg h]
    exact (ReturnsWhen.of_throw _).congr (iff_of_false id h)

theorem stdString_ok (p : Bytes) {n : ℤ} (h0 : 0 ≤ n) (h : n ≤ p.length) (s : σ) :
    (stdString p n).run s = .ok (p.take n.toNat) s := by
  rw [stdString, if_neg (by omega), if_neg (by omega)]
  rfl

theorem stdString_negative (p : Bytes) {n : ℤ} (h : n < 0) (s : σ) :
    (stdString p n).run s = .error .lengthError s := by
  rw [stdString, if_pos h, run_throw]

theorem stdString_eq_ok {p r : Bytes} {n : ℤ} {s s' : σ} (h : (stdString p n).run s = .ok r s') :
    r = p.take n.toNat := by
  rw [stdString] at h
  split at h
  · cases h
  · split at h
    · cases h
    · cases h
      rfl

theorem stdString_length (p : Bytes) (s : σ) :
    (stdString p p.length).run s = .ok p s := by
  rw [stdString_ok p (by omega) le_rfl]
  simp

theorem memcpy_ok (dst src : Bytes) {n : ℤ} (h0 : 0 ≤ n) (hd : n ≤ dst.length)
    (hs : n ≤ src.length) (s : σ) :
    (memcpy dst src n).run s = .ok (src.take n.toNat ++ dst.drop n.toNat) s := by
  rw [memcpy, if_neg (by omega)]
  rfl

theorem sprintfInto_returns (dst text : Bytes) (s : σ) :
    ReturnsWhen (sprintfInto dst text) s (text.length + 1 ≤ dst.length)
      (text ++ 0 :: dst.drop (text.length + 1)) s := by
  by_cases h : dst.length < text.length + 1
  · rw [sprintfInto, if_pos h]
    exact (ReturnsWhen.of_throw _).congr (iff_of_false id (not_le.mpr h))
  · rw [sprintfInto, if_neg h]
    exact (ReturnsWhen.of_run rfl).congr (iff_of_true trivial (not_lt.mp h))

theorem sprintfInto_ok (dst text : Bytes) (h : text.length + 1 ≤ dst.length) (s : σ) :
    (sprintfInto dst text).run s = .ok (text ++ 0 :: dst.drop (text.length + 1)) s :=
  (sprintfInto_returns dst text s).run h

end Exec

/-! ### Conversions -/

theorem toInt_of_lt {n : ℕ} (h : n < 2 ^ 31) : toInt n = n := by
  rw [toInt, Int.bmod_eq_of_le (by omega) (by omega)]

theorem toInt_length_nonneg {m : Bytes} (h : m.length < 2 ^ 31) : 0 ≤ toInt m.length := by
  rw [toInt_of_lt h]
  omega

/-- A length is kept by the conversion to `int` exactly when an `int` can hold it. -/
theorem toInt_eq_self_iff {n : ℕ} : toInt n = n ↔ n < 2 ^ 31 := by
  constructor
  · intro h
    rw [toInt, Int.bmod_def] at h
    omega
  · exact toInt_of_lt

theorem toSizeT_of_nonneg {n : ℤ} (h0 : 0 ≤ n) (h : n < 2 ^ 64) : (toSizeT n : ℤ) = n := by
  rw [toSizeT, Int.emod_eq_of_lt h0 h]
  omega

/-! ### The text in a buffer -/

@[simp] theorem length_zeros (n : ℕ) : (zeros n).length = n := List.length_replicate

theorem zeros_succ (n : ℕ) : zeros (n + 1) = 0 :: zeros n := List.replicate_succ

theorem drop_zeros (m n : ℕ) : (zeros n).drop m = zeros (n - m) := List.drop_replicate

theorem cstr_cons {b : UInt8} (h : b ≠ 0) (r : Bytes) : cstr (b :: r) = b :: cstr r := by
  simp [cstr, h]

theorem cstr_of_nul_free {text : Bytes} (h : (0 : UInt8) ∉ text) : cstr text = text := by
  rw [cstr, List.takeWhile_eq_self_iff]
  intro b hb
  simpa using fun h0 : b = 0 => h (h0 ▸ hb)

/-- Nothing behind a NUL belongs to the text. -/
theorem cstr_append_zero (buf rest : Bytes) : cstr (buf ++ 0 :: rest) = cstr buf := by
  induction buf with
  | nil => rfl
  | cons b buf ih =>
    by_cases hb : b = 0
    · subst hb
      rfl
    · rw [List.cons_append, cstr_cons hb, cstr_cons hb, ih]

theorem cstr_append_nul {text : Bytes} (h : (0 : UInt8) ∉ text) (rest : Bytes) :
    cstr (text ++ 0 :: rest) = text := by
  rw [cstr_append_zero, cstr_of_nul_free h]

theorem cstr_take (buf : Bytes) (m : ℕ) : cstr (buf.take m) = (cstr buf).take m :=
  List.take_takeWhile.symm

/-- The text from a position inside it. -/
theorem cstr_drop {buf : Bytes} {m : ℕ} (h : m ≤ (cstr buf).length) :
    cstr (buf.drop m) = (cstr buf).drop m := by
  induction m generalizing buf with
  | zero => rfl
  | succ m ih =>
    cases buf with
    | nil => simp [cstr] at h
    | cons b buf =>
      by_cases hb : b = 0
      · simp [cstr, hb] at h
      · rw [cstr_cons hb, List.length_cons] at h
        rw [cstr_cons hb, List.drop_succ_cons, List.drop_succ_cons, ih (by omega)]

theorem length_cstr_le (buf : Bytes) : (cstr buf).length ≤ buf.length :=
  (List.takeWhile_sublist _).length_le

/-! ### Searching -/

/-- `std::string::find`: where `p` first occurs in `s`. `npos` is `none`. -/
def strFind (p : Bytes) : Bytes → Option ℕ
  | [] => if p = [] then some 0 else none
  | b :: s => if p <+: b :: s then some 0 else (strFind p s).map (· + 1)

theorem strFind_eq_none {c : UInt8} {p s : Bytes} (h : c ∉ s) : strFind (c :: p) s = none := by
  induction s with
  | nil => rfl
  | cons b s ih =>
    have hb : ¬ c :: p <+: b :: s := by
      intro hp
      have hcb := (List.cons_prefix_cons.mp hp).1
      exact h (hcb ▸ List.mem_cons_self)
    rw [strFind, if_neg hb, ih fun hm => h (List.mem_cons_of_mem _ hm)]
    rfl

/-- A byte is found behind a text that does not hold it. -/
theorem strFind_byte {c : UInt8} {a : Bytes} (h : c ∉ a) (b : Bytes) :
    strFind [c] (a ++ c :: b) = some a.length := by
  induction a with
  | nil => simp [strFind]
  | cons x a ih =>
    have hx : c ≠ x := fun he => h (he ▸ List.mem_cons_self)
    have hn : ¬ [c] <+: x :: (a ++ c :: b) := fun hp => hx (List.cons_prefix_cons.mp hp).1
    rw [List.cons_append, strFind, if_neg hn, ih fun hm => h (List.mem_cons_of_mem _ hm)]
    rfl

/-! ### The order of byte strings -/

theorem compare_append_left (p a b : Bytes) : compare (p ++ a) (p ++ b) = compare a b := by
  induction p with
  | nil => rfl
  | cons x p ih => simp [ih]

theorem compare_append {a b : Bytes} (h : a.length = b.length) (c d : Bytes) :
    compare (a ++ c) (b ++ d) = (compare a b).then (compare c d) := by
  induction a generalizing b with
  | nil =>
    have hb : b = [] := List.length_eq_zero_iff.mp h.symm
    subst hb
    simp
  | cons x a ih =>
    cases b with
    | nil => simp at h
    | cons y b =>
      simp only [List.cons_append, List.compare_cons_cons]
      rw [ih (by simpa using h), Ordering.then_assoc]

theorem compare_cons_lt {x y : UInt8} (h : x < y) (a b : Bytes) :
    compare (x :: a) (y :: b) = .lt := by
  have hc : compare x y = .lt := Std.compare_eq_lt.mpr h
  simp [hc]

end CLib
