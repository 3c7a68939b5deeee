import KfkClient.Lib.CString

/-!
# Decimal text of machine integers

`fmtLL` is the text `printf` gives for `%.{prec}lld` and `atol` the number the C
library reads at the front of a text. `decPad w n` is the zero-padded text of
fixed width `w`: it is what `fmtLL` gives for small numbers, `atol` reads it back
whatever follows it, and its byte order is the numeric order.
-/

namespace CLib

def digit (d : ℕ) : UInt8 := UInt8.ofNat (48 + d)

def isDigit (b : UInt8) : Bool := 48 ≤ b && b ≤ 57

-- tab, newline, vertical tab, form feed, carriage return and blank
def isSpace (b : UInt8) : Bool := (9 ≤ b && b ≤ 13) || b == 32

def decPad : ℕ → ℕ → Bytes
  | 0, _ => []
  | w + 1, n => decPad w (n / 10) ++ [digit (n % 10)]

/-- `printf`'s text for `%.{prec}lld`: a sign for a negative value and at least
`prec` digits. `%lld` is precision one. -/
def fmtLL (prec : ℕ) (v : ℤ) : Bytes :=
  (if v < 0 then [45] else []) ++
    decPad (max prec (Nat.digits 10 v.natAbs).length) v.natAbs

def digitsVal (s : Bytes) : ℕ := s.foldl (fun a b => 10 * a + (b.toNat - 48)) 0

/-- A value outside the range of `long` is replaced by the nearest bound. -/
def clampLong (v : ℤ) : ℤ := max (-llBound) (min v (llBound - 1))

def leadingVal (s : Bytes) : ℕ := digitsVal (s.takeWhile isDigit)

/-- `atol`: white space, an optional sign, then the leading digits. -/
def atol (s : Bytes) : ℤ :=
  match s.dropWhile isSpace with
  | 45 :: r => clampLong (-(leadingVal r : ℤ))
  | 43 :: r => clampLong (leadingVal r)
  | r => clampLong (leadingVal r)

/-! ### Zero-padded text -/

@[simp] theorem length_decPad (w n : ℕ) : (decPad w n).length = w := by
  induction w generalizing n with
  | zero => rfl
  | succ w ih => simp [decPad, ih]

theorem toNat_digit {d : ℕ} (h : d < 10) : (digit d).toNat = 48 + d := by
  rw [digit, UInt8.toNat_ofNat']
  omega

theorem isDigit_digit {d : ℕ} (h : d < 10) : isDigit (digit d) = true := by
  have h1 := toNat_digit h
  simp only [isDigit, Bool.and_eq_true, decide_eq_true_eq, UInt8.le_iff_toNat_le]
  rw [h1]
  change 48 ≤ 48 + d ∧ 48 + d ≤ 57
  omega

theorem isDigit_of_mem_decPad {w n : ℕ} {b : UInt8} (h : b ∈ decPad w n) :
    isDigit b = true := by
  induction w generalizing n with
  | zero => simp [decPad] at h
  | succ w ih =>
    rcases List.mem_append.mp h with h | h
    · exact ih h
    · rw [List.mem_singleton.mp h]
      exact isDigit_digit (Nat.mod_lt _ (by decide))

theorem isDigit_bounds {b : UInt8} (h : isDigit b = true) : 48 ≤ b.toNat ∧ b.toNat ≤ 57 := by
  simpa [isDigit, UInt8.le_iff_toNat_le] using h

theorem nul_not_mem_decPad (w n : ℕ) : (0 : UInt8) ∉ decPad w n := by
  intro h
  exact absurd (isDigit_of_mem_decPad h) (by decide)

theorem digitsVal_append (s t : Bytes) :
    digitsVal (s ++ t) = t.foldl (fun a b => 10 * a + (b.toNat - 48)) (digitsVal s) :=
  List.foldl_append ..

theorem digitsVal_decPad {w n : ℕ} (h : n < 10 ^ w) : digitsVal (decPad w n) = n := by
  induction w generalizing n with
  | zero =>
    have hn : n = 0 := by simpa using h
    subst hn
    rfl
  | succ w ih =>
    have hq : n / 10 < 10 ^ w := by
      rw [Nat.div_lt_iff_lt_mul (by decide)]
      simpa [pow_succ] using h
    rw [decPad, digitsVal_append, ih hq]
    simp only [List.foldl_cons, List.foldl_nil, toNat_digit (Nat.mod_lt n (by decide : 0 < 10))]
    omega

theorem leadingVal_decPad_append {w n : ℕ} (h : n < 10 ^ w) {rest : Bytes}
    (hr : ∀ b ∈ rest.head?, isDigit b = false) : leadingVal (decPad w n ++ rest) = n := by
  have ht : rest.takeWhile isDigit = [] := by
    cases rest with
    | nil => rfl
    | cons b rest => simp [hr b (by simp)]
  rw [leadingVal, List.takeWhile_append_of_pos (fun b hb => isDigit_of_mem_decPad hb), ht,
    List.append_nil, digitsVal_decPad h]

theorem clampLong_of_lt {v : ℤ} (h0 : -llBound ≤ v) (h : v < llBound) : clampLong v = v := by
  rw [clampLong, min_eq_left (by omega), max_eq_right h0]

theorem atol_bounds (s : Bytes) : -llBound ≤ atol s ∧ atol s < llBound := by
  have hclamp : ∀ v, -llBound ≤ clampLong v ∧ clampLong v < llBound := by
    intro v
    simp only [clampLong, llBound]
    omega
  rw [atol]
  split
  · exact hclamp _
  · exact hclamp _
  · exact hclamp _

theorem atol_of_digit {b : UInt8} (hb : isDigit b = true) (r : Bytes) :
    atol (b :: r) = clampLong (leadingVal (b :: r)) := by
  have hn := isDigit_bounds hb
  have hs : isSpace b = false := by
    rw [isSpace, Bool.or_eq_false_iff]
    constructor
    · have h13 : ¬ b ≤ 13 := by rw [UInt8.le_iff_toNat_le]; change ¬ b.toNat ≤ 13; omega
      simp [h13]
    · have h32 : b ≠ 32 := by rintro rfl; simp at hn
      simpa using h32
  have hd : (b :: r).dropWhile isSpace = b :: r := by simp [hs]
  rw [atol, hd]
  split
  · next heq =>
      cases heq
      simp at hn
  · next heq =>
      cases heq
      simp at hn
  · rfl

/-- `atol` reads back padded text, whatever follows it. -/
theorem atol_decPad_append {w n : ℕ} (hw : 0 < w) (h : n < 10 ^ w) (hn : (n : ℤ) < llBound)
    {rest : Bytes} (hr : ∀ b ∈ rest.head?, isDigit b = false) :
    atol (decPad w n ++ rest) = n := by
  have hl : leadingVal (decPad w n ++ rest) = n := leadingVal_decPad_append h hr
  cases hd : decPad w n with
  | nil =>
    have h0 := length_decPad w n
    rw [hd] at h0
    simp at h0
    omega
  | cons b r =>
    have hb : isDigit b = true := isDigit_of_mem_decPad (by rw [hd]; exact List.mem_cons_self)
    rw [hd] at hl
    rw [List.cons_append, atol_of_digit hb, ← List.cons_append, hl]
    exact clampLong_of_lt (by simp only [llBound]; omega) hn

theorem atol_decPad {w n : ℕ} (hw : 0 < w) (h : n < 10 ^ w) (hn : (n : ℤ) < llBound) :
    atol (decPad w n) = n := by
  have hr : ∀ b ∈ ([] : Bytes).head?, isDigit b = false := by simp
  simpa using atol_decPad_append hw h hn hr

/-- The byte order of padded texts of one width is the order of the numbers. -/
theorem compare_decPad {w i j : ℕ} (hi : i < 10 ^ w) (hj : j < 10 ^ w) :
    compare (decPad w i) (decPad w j) = compare i j := by
  induction w generalizing i j with
  | zero =>
    have hi0 : i = 0 := by simpa using hi
    have hj0 : j = 0 := by simpa using hj
    subst hi0 hj0
    rfl
  | succ w ih =>
    have hqi : i / 10 < 10 ^ w := by
      rw [Nat.div_lt_iff_lt_mul (by decide)]
      simpa [pow_succ] using hi
    have hqj : j / 10 < 10 ^ w := by
      rw [Nat.div_lt_iff_lt_mul (by decide)]
      simpa [pow_succ] using hj
    have hdi : (digit (i % 10)).toNat = 48 + i % 10 := toNat_digit (Nat.mod_lt _ (by decide))
    have hdj : (digit (j % 10)).toNat = 48 + j % 10 := toNat_digit (Nat.mod_lt _ (by decide))
    rw [decPad, decPad, compare_append (by simp), ih hqi hqj]
    -- the quotients decide unless they agree, and then the last digits do
    rcases lt_trichotomy (i / 10) (j / 10) with h | h | h
    · have hij : i < j := by omega
      rw [Std.compare_eq_lt.mpr h, Std.compare_eq_lt.mpr hij]
      rfl
    · rw [Nat.compare_eq_eq.mpr h]
      simp only [List.compare_cons_cons, List.compare_nil_nil, Ordering.then_eq,
        Ordering.eq_then]
      rcases lt_trichotomy i j with hij | hij | hij
      · have hlt : digit (i % 10) < digit (j % 10) := by
          rw [UInt8.lt_iff_toNat_lt, hdi, hdj]
          omega
        rw [Std.compare_eq_lt.mpr hlt, Std.compare_eq_lt.mpr hij]
      · subst hij
        simp
      · have hgt : digit (j % 10) < digit (i % 10) := by
          rw [UInt8.lt_iff_toNat_lt, hdi, hdj]
          omega
        rw [Std.compare_eq_gt.mpr hgt, Std.compare_eq_gt.mpr hij]
    · have hij : j < i := by omega
      rw [Std.compare_eq_gt.mpr h, Std.compare_eq_gt.mpr hij]
      rfl

theorem decPad_injective {w i j : ℕ} (hi : i < 10 ^ w) (hj : j < 10 ^ w)
    (h : decPad w i = decPad w j) : i = j := by
  rw [← digitsVal_decPad hi, ← digitsVal_decPad hj, h]

theorem take_decPad {c w : ℕ} (h : c ≤ w) (n : ℕ) :
    (decPad w n).take c = decPad c (n / 10 ^ (w - c)) := by
  induction w generalizing n with
  | zero =>
    have hc : c = 0 := by omega
    subst hc
    rfl
  | succ w ih =>
    by_cases hc : c = w + 1
    · subst hc
      rw [List.take_of_length_le (by simp), Nat.sub_self, pow_zero, Nat.div_one]
    · have hle : c ≤ w := by omega
      have hs : w + 1 - c = (w - c) + 1 := by omega
      rw [decPad, List.take_append_of_le_length (by simpa using hle), ih hle,
        Nat.div_div_eq_div_mul, hs, pow_succ, Nat.mul_comm]

/-- `atol` reads a buffer no further than its first NUL. -/
theorem atol_cstr (s : Bytes) : atol (cstr s) = atol s := by
  have hl : ∀ r : Bytes, leadingVal (cstr r) = leadingVal r := by
    intro r
    have ht : (cstr r).takeWhile isDigit = r.takeWhile isDigit := by
      induction r with
      | nil => rfl
      | cons b r ih =>
        by_cases hb : b = 0
        · subst hb
          rfl
        · rw [cstr_cons hb, List.takeWhile_cons, List.takeWhile_cons, ih]
    rw [leadingVal, leadingVal, ht]
  have hd : (cstr s).dropWhile isSpace = cstr (s.dropWhile isSpace) := by
    induction s with
    | nil => rfl
    | cons b s ih =>
      by_cases hb : b = 0
      · subst hb
        rfl
      · have hc := cstr_cons hb s
        by_cases hs : isSpace b = true
        · rw [hc, List.dropWhile_cons_of_pos hs, List.dropWhile_cons_of_pos hs, ih]
        · rw [hc, List.dropWhile_cons_of_neg hs, List.dropWhile_cons_of_neg hs, hc]
  rw [atol, atol, hd]
  cases hr : s.dropWhile isSpace with
  | nil => rfl
  | cons b r =>
    by_cases hb : b = 0
    · subst hb
      rfl
    · have hc := cstr_cons hb r
      have hbr := hl (b :: r)
      rw [hc] at hbr ⊢
      split
      · next heq =>
          obtain ⟨rfl, rfl⟩ := List.cons.inj heq
          rw [hl r]
          rfl
      · next heq =>
          obtain ⟨rfl, rfl⟩ := List.cons.inj heq
          rw [hl r]
          rfl
      · next h45 h43 =>
          have hne : b ≠ 45 ∧ b ≠ 43 :=
            ⟨fun h => h45 _ (by rw [h]), fun h => h43 _ (by rw [h])⟩
          simp [hne.1, hne.2, hbr]

/-! ### `printf` text -/

theorem fmtLL_of_lt {prec n : ℕ} (h : n < 10 ^ prec) : fmtLL prec n = decPad prec n := by
  have hd : (Nat.digits 10 n).length ≤ prec := (Nat.digits_length_le_iff (by decide) n).mpr h
  simp [fmtLL, max_eq_left hd]

theorem length_fmtLL_of_lt {prec n : ℕ} (h : n < 10 ^ prec) : (fmtLL prec n).length = prec := by
  rw [fmtLL_of_lt h, length_decPad]

/-- The text of a natural number is padded text, of a width that holds the number. -/
theorem exists_fmtLL_eq_decPad (n : ℕ) {prec : ℕ} (hp : 0 < prec) :
    ∃ w, 0 < w ∧ w = max prec (Nat.digits 10 n).length ∧ n < 10 ^ w ∧
      fmtLL prec n = decPad w n := by
  refine ⟨max prec (Nat.digits 10 n).length, by omega, rfl, ?_, by simp [fmtLL]⟩
  exact (Nat.lt_base_pow_length_digits (by decide)).trans_le
    (Nat.pow_le_pow_right (by decide) (le_max_right _ _))

theorem nul_not_mem_fmtLL (prec : ℕ) (v : ℤ) : (0 : UInt8) ∉ fmtLL prec v := by
  rw [fmtLL, List.mem_append, not_or]
  refine ⟨?_, nul_not_mem_decPad _ _⟩
  split <;> decide

/-- The precision counts digits only: a sign comes on top of them. -/
theorem le_length_fmtLL (prec : ℕ) (v : ℤ) : prec ≤ (fmtLL prec v).length := by
  rw [fmtLL, List.length_append, length_decPad]
  omega

theorem length_fmtLL_le (prec : ℕ) {v : ℤ} (h0 : -llBound ≤ v) (h : v < llBound) :
    (fmtLL prec v).length ≤ max prec 19 + 1 := by
  have hlt : v.natAbs < 10 ^ 19 := by
    simp only [llBound] at h0 h
    omega
  have hd : (Nat.digits 10 v.natAbs).length ≤ 19 :=
    (Nat.digits_length_le_iff (by decide) v.natAbs).mpr hlt
  have hsign : (if v < 0 then [45] else [] : Bytes).length ≤ 1 := by split <;> decide
  rw [fmtLL, List.length_append, length_decPad]
  omega

/-- `%lld` and `atol` are inverse on the natural numbers of a `long long`. -/
theorem atol_fmtLL {prec n : ℕ} (hp : 0 < prec) (hn : (n : ℤ) < llBound) :
    atol (fmtLL prec n) = n := by
  obtain ⟨w, hw, -, hlt, he⟩ := exists_fmtLL_eq_decPad n hp
  rw [he]
  exact atol_decPad hw hlt hn

/-- The text of a number determines it, as long as the digits fit the precision. -/
theorem fmtLL_injective {prec : ℕ} {a b : ℤ} (ha : a.natAbs < 10 ^ prec) (hb : b.natAbs < 10 ^ prec)
    (h : fmtLL prec a = fmtLL prec b) : a = b := by
  have htext : ∀ {v : ℤ}, v.natAbs < 10 ^ prec →
      fmtLL prec v = (if v < 0 then [45] else []) ++ decPad prec v.natAbs := by
    intro v hv
    have hd := (Nat.digits_length_le_iff (by decide : 1 < 10) v.natAbs).mpr hv
    rw [fmtLL, max_eq_left hd]
  rw [htext ha, htext hb] at h
  have hlen := congrArg List.length h
  simp only [List.length_append, length_decPad] at hlen
  -- the texts have the same length, so the signs agree
  by_cases hna : a < 0 <;> by_cases hnb : b < 0
  · rw [if_pos hna, if_pos hnb, List.append_right_inj] at h
    have habs := decPad_injective ha hb h
    omega
  · simp [hna, hnb] at hlen
  · simp [hna, hnb] at hlen
  · rw [if_neg hna, if_neg hnb, List.append_right_inj] at h
    have habs := decPad_injective ha hb h
    omega

theorem length_fmtLL_one_le {n : ℕ} (hn : (n : ℤ) < llBound) : (fmtLL 1 n).length ≤ 19 := by
  have hlt : n < 10 ^ 19 := by
    simp only [llBound] at hn
    omega
  have hd : (Nat.digits 10 n).length ≤ 19 := (Nat.digits_length_le_iff (by decide) n).mpr hlt
  obtain ⟨w, -, hw, -, he⟩ := exists_fmtLL_eq_decPad n (by decide : 0 < 1)
  rw [he, length_decPad, hw]
  omega

end CLib
