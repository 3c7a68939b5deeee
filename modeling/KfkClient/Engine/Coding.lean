import KfkClient.Lib.Codec

/-!
# Numbers and byte strings in the files of the database (`coding.h`, `coding.cc`)

`uint32_t` and `uint64_t` are naturals and a conversion to one of them is an explicit `%`. A
pointer and its limit are the bytes between them, and a parser gives the value with the
bytes that follow it.

## Main results

- `decodeFixed32_encodeFixed32`, `decodeFixed64_encodeFixed64`
- `getVarint32Ptr_eq` — on every input the reader, with its path for one byte, is
  `Codec.readVarint`
- `getVarint32Ptr_encodeVarint32`
- `getLengthPrefixedSlice_put` — a slice is read back with its length in front
-/

namespace KfkClient.Engine

open CLib Codec

-- the branch for a host that is not little-endian; on the other it is `memcpy`
def encodeFixed32 (value : ℕ) : Bytes :=
  [.ofNat value, .ofNat (value >>> 8), .ofNat (value >>> 16), .ofNat (value >>> 24)]

def encodeFixed64 (value : ℕ) : Bytes :=
  [.ofNat value, .ofNat (value >>> 8), .ofNat (value >>> 16), .ofNat (value >>> 24),
    .ofNat (value >>> 32), .ofNat (value >>> 40), .ofNat (value >>> 48), .ofNat (value >>> 56)]

-- there is no check that the bytes are there: every caller has made it
def byteAt (ptr : Bytes) (i : ℕ) : ℕ := (ptr.getD i 0).toNat

def decodeFixed32 (ptr : Bytes) : ℕ :=
  byteAt ptr 0 ||| byteAt ptr 1 <<< 8 ||| byteAt ptr 2 <<< 16 ||| byteAt ptr 3 <<< 24

def decodeFixed64 (ptr : Bytes) : ℕ :=
  let lo := decodeFixed32 ptr
  let hi := decodeFixed32 (ptr.drop 4)
  hi <<< 32 ||| lo

/-- `EncodeVarint32`, one branch for each number of bytes. -/
def encodeVarint32 (v : ℕ) : Bytes :=
  if v < 1 <<< 7 then [.ofNat v]
  else if v < 1 <<< 14 then [.ofNat (v ||| 128), .ofNat (v >>> 7)]
  else if v < 1 <<< 21 then [.ofNat (v ||| 128), .ofNat (v >>> 7 ||| 128), .ofNat (v >>> 14)]
  else if v < 1 <<< 28 then
    [.ofNat (v ||| 128), .ofNat (v >>> 7 ||| 128), .ofNat (v >>> 14 ||| 128), .ofNat (v >>> 21)]
  else
    [.ofNat (v ||| 128), .ofNat (v >>> 7 ||| 128), .ofNat (v >>> 14 ||| 128),
      .ofNat (v >>> 21 ||| 128), .ofNat (v >>> 28)]

/-- The loop of `GetVarint32PtrFallback`. -/
def getVarintLoop (shift result : ℕ) : Bytes → Option (ℕ × Bytes)
  | [] => none
  | byte :: p =>
    if 28 < shift then none
    else if byte.toNat &&& 128 ≠ 0 then
      getVarintLoop (shift + 7) (result ||| ((byte.toNat &&& 127) <<< shift) % 2 ^ 32) p
    else some (result ||| (byte.toNat <<< shift) % 2 ^ 32, p)

def getVarint32PtrFallback (p : Bytes) : Option (ℕ × Bytes) := getVarintLoop 0 0 p

def getVarint32Ptr (p : Bytes) : Option (ℕ × Bytes) :=
  match p with
  | result :: rest =>
    if result.toNat &&& 128 = 0 then some (result.toNat, rest) else getVarint32PtrFallback p
  | [] => getVarint32PtrFallback p

def putLengthPrefixedSlice (value : Bytes) : Bytes :=
  encodeVarint32 (value.length % 2 ^ 32) ++ value

def getLengthPrefixedSlice (input : Bytes) : Option (Bytes × Bytes) :=
  match getVarint32Ptr input with
  | none => none
  | some (len, input) =>
    if len ≤ input.length then some (input.take len, input.drop len) else none

@[simp] theorem length_encodeFixed32 (v : ℕ) : (encodeFixed32 v).length = 4 := rfl

@[simp] theorem length_encodeFixed64 (v : ℕ) : (encodeFixed64 v).length = 8 := rfl

theorem or_shift_eq_add {a b : ℕ} (i : ℕ) (h : a < 2 ^ i) : a ||| b <<< i = a + b * 2 ^ i := by
  rw [Nat.or_comm, ← Nat.shiftLeft_add_eq_or_of_lt h, Nat.shiftLeft_eq, Nat.add_comm]

theorem byteAt_lt (ptr : Bytes) (i : ℕ) : byteAt ptr i < 256 := (ptr.getD i 0).toNat_lt

theorem decodeFixed32_eq (ptr : Bytes) :
    decodeFixed32 ptr = byteAt ptr 0 + byteAt ptr 1 * 2 ^ 8 + byteAt ptr 2 * 2 ^ 16 +
      byteAt ptr 3 * 2 ^ 24 := by
  have h0 := byteAt_lt ptr 0
  have h1 := byteAt_lt ptr 1
  have h2 := byteAt_lt ptr 2
  rw [decodeFixed32, or_shift_eq_add 8 (by omega), or_shift_eq_add 16 (by omega),
    or_shift_eq_add 24 (by omega)]

theorem decodeFixed32_lt (ptr : Bytes) : decodeFixed32 ptr < 2 ^ 32 := by
  have h0 := byteAt_lt ptr 0
  have h1 := byteAt_lt ptr 1
  have h2 := byteAt_lt ptr 2
  have h3 := byteAt_lt ptr 3
  rw [decodeFixed32_eq]
  omega

theorem decodeFixed32_encodeFixed32 {v : ℕ} (h : v < 2 ^ 32) (rest : Bytes) :
    decodeFixed32 (encodeFixed32 v ++ rest) = v := by
  rw [decodeFixed32_eq]
  simp only [encodeFixed32, byteAt, List.cons_append, List.nil_append, List.getD_cons_zero,
    List.getD_cons_succ, UInt8.toNat_ofNat', Nat.shiftRight_eq_div_pow]
  omega

theorem decodeFixed64_eq (ptr : Bytes) :
    decodeFixed64 ptr = decodeFixed32 ptr + decodeFixed32 (ptr.drop 4) * 2 ^ 32 := by
  rw [decodeFixed64, Nat.or_comm]
  exact or_shift_eq_add 32 (decodeFixed32_lt ptr)

theorem decodeFixed64_encodeFixed64 {v : ℕ} (h : v < 2 ^ 64) (rest : Bytes) :
    decodeFixed64 (encodeFixed64 v ++ rest) = v := by
  rw [decodeFixed64_eq, decodeFixed32_eq, decodeFixed32_eq]
  simp only [encodeFixed64, byteAt, List.cons_append, List.nil_append, List.getD_cons_zero,
    List.getD_cons_succ, List.drop_succ_cons, List.drop_zero, UInt8.toNat_ofNat',
    Nat.shiftRight_eq_div_pow]
  omega

theorem or_128_mod (v : ℕ) : UInt8.ofNat (v ||| 128) = UInt8.ofNat (v % 128 + 128) := by
  apply UInt8.toNat_inj.mp
  have hlow : (v ||| 128) % 2 ^ 8 = v % 2 ^ 8 ||| 128 := by
    rw [Nat.or_mod_two_pow]
  have hbyte := (by decide +kernel : ∀ i : Fin 256, i.val ||| 128 = i.val % 128 + 128)
  have h : v % 2 ^ 8 ||| 128 = v % 2 ^ 8 % 128 + 128 :=
    hbyte ⟨v % 2 ^ 8, Nat.mod_lt _ (by decide)⟩
  rw [UInt8.toNat_ofNat', UInt8.toNat_ofNat', hlow, h]
  omega

theorem encodeVarint32_eq {v : ℕ} (h : v < 2 ^ 32) : encodeVarint32 v = varint v := by
  simp only [encodeVarint32, or_128_mod, Nat.shiftRight_eq_div_pow, Nat.shiftLeft_eq]
  split_ifs with h1 h2 h3 h4
  · rw [varint_of_lt (by omega)]
  · rw [varint_of_ge (by omega), varint_of_lt (by omega)]
  · rw [varint_of_ge (by omega), varint_of_ge (by omega), varint_of_lt (by omega)]
    simp only [Nat.div_div_eq_div_mul]
  · rw [varint_of_ge (by omega), varint_of_ge (by omega), varint_of_ge (by omega),
      varint_of_lt (by omega)]
    simp only [Nat.div_div_eq_div_mul]
  · rw [varint_of_ge (by omega), varint_of_ge (by omega), varint_of_ge (by omega),
      varint_of_ge (by omega), varint_of_lt (by omega)]
    simp only [Nat.div_div_eq_div_mul]

theorem and_128_eq_zero (b : UInt8) : b.toNat &&& 128 = 0 ↔ b.toNat < 128 := by
  have hbyte := (by decide +kernel : ∀ i : Fin 256, i.val &&& 128 = 0 ↔ i.val < 128)
  exact hbyte ⟨b.toNat, b.toNat_lt⟩

theorem or_shift_mod {w s r : ℕ} (x : ℕ) (hs : s ≤ w) (hr : r < 2 ^ s) :
    r ||| (x <<< s) % 2 ^ w = (r + x * 2 ^ s) % 2 ^ w := by
  have hw : 2 ^ w = 2 ^ s * 2 ^ (w - s) := by rw [← pow_add, Nat.add_sub_cancel' hs]
  have hx : (x <<< s) % 2 ^ w = 2 ^ s * (x % 2 ^ (w - s)) := by
    rw [Nat.shiftLeft_eq, hw, Nat.mul_comm x, Nat.mul_mod_mul_left]
  have hlt : 2 ^ s * (x % 2 ^ (w - s)) + r < 2 ^ w := by
    have hq : x % 2 ^ (w - s) + 1 ≤ 2 ^ (w - s) := Nat.mod_lt _ (Nat.two_pow_pos _)
    calc 2 ^ s * (x % 2 ^ (w - s)) + r < 2 ^ s * (x % 2 ^ (w - s)) + 2 ^ s := by omega
      _ = 2 ^ s * (x % 2 ^ (w - s) + 1) := by ring
      _ ≤ 2 ^ w := by
        rw [hw]
        exact Nat.mul_le_mul_left _ hq
  have hsum : (r + x * 2 ^ s) % 2 ^ w = 2 ^ s * (x % 2 ^ (w - s)) + r := by
    rw [← Nat.mod_eq_of_lt hlt, ← hx, Nat.shiftLeft_eq, Nat.mod_add_mod, Nat.add_comm]
  rw [hx, hsum, Nat.two_pow_add_eq_or_of_lt hr, Nat.or_comm]

/-- With `k` bytes to go, the loop adds the number it reads above the bits it has. -/
theorem getVarintLoop_eq {k shift result : ℕ} (bs : Bytes) (hk : shift + 7 * k = 35)
    (hr : result < 2 ^ shift) :
    getVarintLoop shift result bs =
      (readVarint k bs).map fun p => ((result + p.1 * 2 ^ shift) % 2 ^ 32, p.2) := by
  induction bs generalizing k shift result with
  | nil => cases k <;> rfl
  | cons b bs ih =>
    cases k with
    | zero => rw [getVarintLoop, if_pos (by omega), readVarint, Option.map_none]
    | succ k =>
      have hb := b.toNat_lt
      rw [getVarintLoop, if_neg (by omega), readVarint]
      by_cases hlt : b.toNat < 128
      · rw [if_neg (not_not.mpr ((and_128_eq_zero b).mpr hlt)), if_pos hlt,
          or_shift_mod _ (by omega) hr, Option.map_some]
      · have hlow : b.toNat &&& 127 = b.toNat - 128 := by
          rw [Nat.and_two_pow_sub_one_eq_mod b.toNat 7]
          omega
        have hnext : result + (b.toNat - 128) * 2 ^ shift < 2 ^ (shift + 7) := by
          have hmul : (b.toNat - 128 + 1) * 2 ^ shift ≤ 128 * 2 ^ shift :=
            Nat.mul_le_mul_right _ (by omega)
          rw [pow_add]
          nlinarith
        rw [if_pos (fun h => hlt ((and_128_eq_zero b).mp h)), if_neg hlt,
          or_shift_mod _ (by omega) hr, hlow,
          ih (k := k) (by omega) ((Nat.mod_le _ _).trans_lt hnext), Option.map_map]
        congr 1
        funext p
        have hval : (result + (b.toNat - 128) * 2 ^ shift) % 2 ^ 32 + p.1 * 2 ^ (shift + 7) ≡
            result + (b.toNat - 128 + 128 * p.1) * 2 ^ shift [MOD 2 ^ 32] := by
          have hring : result + (b.toNat - 128 + 128 * p.1) * 2 ^ shift =
              result + (b.toNat - 128) * 2 ^ shift + p.1 * 2 ^ (shift + 7) := by ring
          rw [hring]
          exact (Nat.mod_modEq _ _).add_right _
        exact Prod.ext hval rfl

theorem getVarint32PtrFallback_eq (p : Bytes) :
    getVarint32PtrFallback p = (readVarint 5 p).map fun q => (q.1 % 2 ^ 32, q.2) := by
  have h : getVarintLoop 0 0 p =
      (readVarint 5 p).map fun q => ((0 + q.1 * 2 ^ 0) % 2 ^ 32, q.2) :=
    getVarintLoop_eq p rfl (by decide)
  simpa only [getVarint32PtrFallback, Nat.zero_add, pow_zero, Nat.mul_one] using h

theorem getVarint32Ptr_eq (p : Bytes) :
    getVarint32Ptr p = (readVarint 5 p).map fun q => (q.1 % 2 ^ 32, q.2) := by
  cases p with
  | nil => exact getVarint32PtrFallback_eq []
  | cons b rest =>
    rw [getVarint32Ptr]
    split
    · -- the path for one byte gives what the loop would give
      rename_i h
      have hb := (and_128_eq_zero b).mp h
      rw [readVarint, if_pos hb, Option.map_some, Nat.mod_eq_of_lt (by omega)]
    · exact getVarint32PtrFallback_eq (b :: rest)

theorem getVarint32Ptr_encodeVarint32 {v : ℕ} (h : v < 2 ^ 32) (rest : Bytes) :
    getVarint32Ptr (encodeVarint32 v ++ rest) = some (v, rest) := by
  rw [getVarint32Ptr_eq, encodeVarint32_eq h, readVarint_varint (by omega), Option.map_some,
    Nat.mod_eq_of_lt h]

theorem getLengthPrefixedSlice_length {input slice rest : Bytes}
    (h : getLengthPrefixedSlice input = some (slice, rest)) : rest.length < input.length := by
  rw [getLengthPrefixedSlice, getVarint32Ptr_eq] at h
  cases hv : readVarint 5 input with
  | none =>
    rw [hv] at h
    cases h
  | some p =>
    rw [hv, Option.map_some] at h
    dsimp only at h
    split at h
    · cases h
      have hlt := readVarint_length hv
      rw [List.length_drop]
      omega
    · cases h

theorem getLengthPrefixedSlice_put {value : Bytes} (h : value.length < 2 ^ 32) (rest : Bytes) :
    getLengthPrefixedSlice (putLengthPrefixedSlice value ++ rest) = some (value, rest) := by
  rw [putLengthPrefixedSlice, Nat.mod_eq_of_lt h, List.append_assoc, getLengthPrefixedSlice,
    getVarint32Ptr_encodeVarint32 h]
  simp

end KfkClient.Engine
