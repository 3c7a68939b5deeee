import KfkClient.Lib.CString

/-!
# Cyclic redundancy checks of 32 bits

A remainder takes a byte by exclusive or and is then shifted eight times, with the polynomial
`P` added for every bit that falls out. Shifting is linear, so that bytes may be taken four
at a time, and words in four lanes that are joined at the end.

## Main results

- `shifts_xor` — shifting is linear
- `shifts_eight` — eight shifts are a table of 256 words and a move by one byte
- `remainder_word` — four bytes are taken as one word
- `lanes_rotate` — four lanes take a word in the lane that is next
- `table_of_bits` — a table is right for every byte when it is for the eight single bits
-/

namespace Crc

open CLib (Bytes)

variable (P : BitVec 32)

def shift (x : BitVec 32) : BitVec 32 :=
  if x.getLsbD 0 then (x >>> 1) ^^^ P else x >>> 1

def shifts : ℕ → BitVec 32 → BitVec 32
  | 0, x => x
  | n + 1, x => shift P (shifts n x)

def octet (b : UInt8) : BitVec 32 := b.toBitVec.setWidth 32

def update (l : BitVec 32) (b : UInt8) : BitVec 32 := shifts P 8 (l ^^^ octet b)

def remainder (l : BitVec 32) (bs : Bytes) : BitVec 32 := bs.foldl (update P) l

def word (b0 b1 b2 b3 : UInt8) : BitVec 32 :=
  octet b0 ^^^ octet b1 <<< 8 ^^^ octet b2 <<< 16 ^^^ octet b3 <<< 24

/-- The remainder that four lanes stand for, the oldest one first. -/
def lanes (c0 c1 c2 c3 : BitVec 32) : BitVec 32 :=
  shifts P 32 (shifts P 32 (shifts P 32 (shifts P 32 c0 ^^^ c1) ^^^ c2) ^^^ c3)

theorem shift_xor (x y : BitVec 32) : shift P (x ^^^ y) = shift P x ^^^ shift P y := by
  have hcancel : x >>> 1 ^^^ y >>> 1 = x >>> 1 ^^^ P ^^^ (y >>> 1 ^^^ P) := by
    have hp : x >>> 1 ^^^ P ^^^ (y >>> 1 ^^^ P) = x >>> 1 ^^^ y >>> 1 ^^^ (P ^^^ P) := by ac_rfl
    rw [hp, BitVec.xor_self, BitVec.xor_zero]
  simp only [shift, BitVec.getLsbD_xor, BitVec.ushiftRight_xor_distrib]
  cases x.getLsbD 0 <;> cases y.getLsbD 0
  · rfl
  · simp only [Bool.false_xor, Bool.false_eq_true, if_true, if_false]
    ac_rfl
  · simp only [Bool.true_xor, Bool.not_false, Bool.false_eq_true, if_true, if_false]
    ac_rfl
  · simpa using hcancel

theorem shifts_xor (n : ℕ) (x y : BitVec 32) :
    shifts P n (x ^^^ y) = shifts P n x ^^^ shifts P n y := by
  induction n with
  | zero => rfl
  | succ n ih => rw [shifts, ih, shift_xor, shifts, shifts]

theorem shifts_add (m n : ℕ) (x : BitVec 32) : shifts P (m + n) x = shifts P m (shifts P n x) := by
  induction m with
  | zero => rw [Nat.zero_add, shifts]
  | succ m ih => rw [Nat.succ_add, shifts, ih, shifts]

/-- A remainder whose low bits are clear only moves down. -/
theorem shifts_of_low_clear {y : BitVec 32} {n : ℕ} (h : ∀ i < n, y.getLsbD i = false) :
    shifts P n y = y >>> n := by
  induction n with
  | zero => simp [shifts]
  | succ n ih =>
    have hlow : (y >>> n).getLsbD 0 = false := by simpa using h n (by omega)
    rw [shifts, ih fun i hi => h i (by omega), shift, hlow, if_neg Bool.false_ne_true,
      BitVec.shiftRight_add]

theorem shifts_shiftLeft {x : BitVec 32} {n : ℕ} (h : x.toNat < 2 ^ (32 - n)) (hn : n ≤ 32) :
    shifts P n (x <<< n) = x := by
  rw [shifts_of_low_clear]
  · apply BitVec.eq_of_toNat_eq
    have hx : x.toNat * 2 ^ n < 2 ^ 32 := by
      have hpow : 2 ^ 32 = 2 ^ (32 - n) * 2 ^ n := by rw [← pow_add, Nat.sub_add_cancel hn]
      rw [hpow]
      exact Nat.mul_lt_mul_of_pos_right h (Nat.two_pow_pos n)
    rw [BitVec.toNat_ushiftRight, BitVec.toNat_shiftLeft, Nat.shiftLeft_eq, Nat.mod_eq_of_lt hx,
      Nat.shiftRight_eq_div_pow, Nat.mul_div_cancel _ (Nat.two_pow_pos n)]
  · intro i hi
    simp [hi]

theorem octet_toNat (b : UInt8) : (octet b).toNat = b.toNat := by
  have hb := b.toNat_lt
  rw [octet, BitVec.toNat_setWidth]
  exact Nat.mod_eq_of_lt (by omega)

theorem shifts_octet (b : UInt8) {n : ℕ} (hn : n ≤ 24) : shifts P n (octet b <<< n) = octet b := by
  apply shifts_shiftLeft P _ (by omega)
  have hb := b.toNat_lt
  rw [octet_toNat]
  calc b.toNat < 2 ^ 8 := hb
    _ ≤ 2 ^ (32 - n) := Nat.pow_le_pow_right (by decide) (by omega)

theorem testBit_255 (i : ℕ) : (255 : ℕ).testBit i = decide (i < 8) :=
  Nat.testBit_two_pow_sub_one 8 i

theorem low_xor_high (x : BitVec 32) : (x &&& 255#32) ^^^ (x &&& ~~~255#32) = x := by
  ext i
  simp only [BitVec.getElem_xor, BitVec.getElem_and, BitVec.getElem_not]
  cases x[i] <;> cases (255#32)[i] <;> rfl

theorem high_low_clear (x : BitVec 32) : ∀ i < 8, (x &&& ~~~255#32).getLsbD i = false := by
  intro i hi
  simp only [BitVec.getLsbD_and, BitVec.getLsbD_not, BitVec.getLsbD_ofNat, testBit_255]
  simp [hi]

theorem high_shiftRight (x : BitVec 32) : (x &&& ~~~255#32) >>> 8 = x >>> 8 := by
  apply BitVec.eq_of_getLsbD_eq
  intro i _
  simp only [BitVec.getLsbD_ushiftRight, BitVec.getLsbD_and, BitVec.getLsbD_not,
    BitVec.getLsbD_ofNat, testBit_255]
  by_cases h : 8 + i < 32
  · simp [h]
  · simp [BitVec.getLsbD_of_ge x (8 + i) (by omega)]

theorem shifts_eight (x : BitVec 32) :
    shifts P 8 x = shifts P 8 (x &&& 255#32) ^^^ (x >>> 8) := by
  conv_lhs => rw [← low_xor_high x]
  rw [shifts_xor, shifts_of_low_clear P (high_low_clear x), high_shiftRight]

theorem high_eq_shiftLeft (x : BitVec 32) : x &&& ~~~255#32 = (x >>> 8) <<< 8 := by
  apply BitVec.eq_of_getLsbD_eq
  intro i hi
  simp only [BitVec.getLsbD_and, BitVec.getLsbD_not, BitVec.getLsbD_ofNat, testBit_255,
    BitVec.getLsbD_shiftLeft, BitVec.getLsbD_ushiftRight]
  by_cases h : i < 8
  · simp [h]
  · have hi8 : 8 + (i - 8) = i := by omega
    simp [h, hi, hi8]

theorem byte_xor_rest (x : BitVec 32) : (x &&& 255#32) ^^^ (x >>> 8) <<< 8 = x := by
  rw [← high_eq_shiftLeft, low_xor_high]

/-- A word is the sum of its four bytes, each in its place. -/
theorem four_bytes (x : BitVec 32) :
    (x &&& 255#32) ^^^ ((x >>> 8) &&& 255#32) <<< 8 ^^^ ((x >>> 16) &&& 255#32) <<< 16 ^^^
      ((x >>> 24) &&& 255#32) <<< 24 = x := by
  have h24 : (x >>> 24) &&& 255#32 = x >>> 24 := by
    have h := byte_xor_rest (x >>> 24)
    rwa [← BitVec.shiftRight_add, BitVec.ushiftRight_eq_zero (by omega : 32 ≤ 24 + 8),
      BitVec.zero_shiftLeft, BitVec.xor_zero] at h
  have h16 : ((x >>> 16) &&& 255#32) ^^^ (x >>> 24) <<< 8 = x >>> 16 := by
    have h := byte_xor_rest (x >>> 16)
    rwa [← BitVec.shiftRight_add] at h
  have h8 : ((x >>> 8) &&& 255#32) ^^^ (x >>> 16) <<< 8 = x >>> 8 := by
    have h := byte_xor_rest (x >>> 8)
    rwa [← BitVec.shiftRight_add] at h
  rw [h24]
  conv_rhs => rw [← byte_xor_rest x, ← h8, ← h16]
  simp only [BitVec.shiftLeft_xor_distrib, ← BitVec.shiftLeft_add, ← BitVec.xor_assoc]

theorem remainder_append (l : BitVec 32) (as bs : Bytes) :
    remainder P l (as ++ bs) = remainder P (remainder P l as) bs := List.foldl_append

theorem remainder_word (l : BitVec 32) (b0 b1 b2 b3 : UInt8) :
    remainder P l [b0, b1, b2, b3] = shifts P 32 (l ^^^ word b0 b1 b2 b3) := by
  have hl : l ^^^ word b0 b1 b2 b3 =
      l ^^^ octet b0 ^^^ octet b1 <<< 8 ^^^ octet b2 <<< 16 ^^^ octet b3 <<< 24 := by
    simp only [word, ← BitVec.xor_assoc]
  have h1 : shifts P 16 (l ^^^ octet b0 ^^^ octet b1 <<< 8) =
      shifts P 8 (shifts P 8 (l ^^^ octet b0) ^^^ octet b1) := by
    rw [shifts_add P 8 8, shifts_xor P 8 _ (octet b1 <<< 8), shifts_octet P b1 (by omega)]
  have h2 : shifts P 24 (l ^^^ octet b0 ^^^ octet b1 <<< 8 ^^^ octet b2 <<< 16) =
      shifts P 8 (shifts P 8 (shifts P 8 (l ^^^ octet b0) ^^^ octet b1) ^^^ octet b2) := by
    rw [shifts_add P 8 16, shifts_xor P 16 _ (octet b2 <<< 16), shifts_octet P b2 (by omega), h1]
  rw [hl, shifts_add P 8 24, shifts_xor P 24 _ (octet b3 <<< 24), shifts_octet P b3 (by omega), h2]
  rfl

theorem xor_rotate (a b c d w : BitVec 32) :
    a ^^^ b ^^^ c ^^^ (w ^^^ d) = d ^^^ a ^^^ b ^^^ c ^^^ w := by ac_rfl

theorem lanes_rotate (c0 c1 c2 c3 w : BitVec 32) :
    lanes P c1 c2 c3 (w ^^^ shifts P 128 c0) = shifts P 32 (lanes P c0 c1 c2 c3 ^^^ w) := by
  have h128 : shifts P 128 c0 = shifts P 32 (shifts P 32 (shifts P 32 (shifts P 32 c0))) := by
    rw [← shifts_add, ← shifts_add, ← shifts_add]
  simp only [lanes, shifts_xor, h128]
  exact xor_rotate _ _ _ _ _

/-- The sum of `f k` over the bits `k` that are set in a byte. -/
def bitSum (f : ℕ → BitVec 32) (i : ℕ) : BitVec 32 :=
  (List.range 8).foldl (fun acc k => if i.testBit k then acc ^^^ f k else acc) 0#32

theorem bitSum_pow : ∀ i : Fin 256,
    bitSum (fun k => BitVec.ofNat 32 (2 ^ k)) i = BitVec.ofNat 32 i := by
  decide +kernel

theorem map_bitSum {g : BitVec 32 → BitVec 32} (hg : ∀ x y, g (x ^^^ y) = g x ^^^ g y)
    (f : ℕ → BitVec 32) (i : ℕ) : g (bitSum f i) = bitSum (fun k => g (f k)) i := by
  have h0 : g 0#32 = 0#32 := by
    have h := hg 0#32 0#32
    rwa [BitVec.xor_self, BitVec.xor_self] at h
  have hfold : ∀ (l : List ℕ) (acc : BitVec 32),
      g (l.foldl (fun acc k => if i.testBit k then acc ^^^ f k else acc) acc) =
        l.foldl (fun acc k => if i.testBit k then acc ^^^ g (f k) else acc) (g acc) := by
    intro l
    induction l with
    | nil => exact fun acc => rfl
    | cons k l ih =>
      intro acc
      rw [List.foldl_cons, List.foldl_cons, ih]
      by_cases hk : i.testBit k
      · rw [if_pos hk, if_pos hk, hg]
      · rw [if_neg hk, if_neg hk]
  rw [bitSum, hfold, h0, bitSum]

/-- A table of 256 words that is the sum of its entries for single bits holds, for every byte,
the byte moved up and shifted, as soon as those eight entries do. -/
theorem table_of_bits {t : List (BitVec 32)} {n s : ℕ}
    (hsum : ∀ i : Fin 256, t.getD i 0 = bitSum (fun k => t.getD (2 ^ k) 0) i)
    (hbits : ∀ k : Fin 8, t.getD (2 ^ k.val) 0 = shifts P n (BitVec.ofNat 32 (2 ^ k.val) <<< s))
    {y : BitVec 32} (hy : y.toNat < 256) : t.getD y.toNat 0 = shifts P n (y <<< s) := by
  have hlin : ∀ x z : BitVec 32,
      shifts P n ((x ^^^ z) <<< s) = shifts P n (x <<< s) ^^^ shifts P n (z <<< s) := by
    intro x z
    rw [BitVec.shiftLeft_xor_distrib, shifts_xor]
  have hy' : y = bitSum (fun k => BitVec.ofNat 32 (2 ^ k)) y.toNat := by
    have h := bitSum_pow ⟨y.toNat, hy⟩
    rw [h, BitVec.ofNat_toNat, BitVec.setWidth_eq]
  have hshift : shifts P n (y <<< s) =
      bitSum (fun k => shifts P n (BitVec.ofNat 32 (2 ^ k) <<< s)) y.toNat := by
    conv_lhs => rw [hy']
    exact map_bitSum (g := fun x => shifts P n (x <<< s)) hlin _ _
  have hcongr : bitSum (fun k => t.getD (2 ^ k) 0) y.toNat =
      bitSum (fun k => shifts P n (BitVec.ofNat 32 (2 ^ k) <<< s)) y.toNat := by
    apply List.foldl_ext
    intro acc k hk
    have hbit := hbits ⟨k, List.mem_range.mp hk⟩
    simp only [hbit]
  rw [hsum ⟨y.toNat, hy⟩, hcongr, hshift]

end Crc
