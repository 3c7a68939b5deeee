import KfkClient.Lib.CString

/-!
# Numbers as marked groups of bits

A number in groups of seven bits, lowest first, whose bytes carry a mark as long as more of them
follow.

## Main definitions

- `varint`, `readVarint` — a number as marked groups, and reading one from the front of a byte
  string

## Main results

- `readVarint_varint` — a number is read back and what follows it is left alone
- `readVarint_length` — reading a number takes at least one byte
-/

namespace Codec

open CLib (Bytes)

def varint (n : ℕ) : Bytes :=
  if n < 128 then [UInt8.ofNat n] else UInt8.ofNat (n % 128 + 128) :: varint (n / 128)
termination_by n
decreasing_by omega

/-- The number at the front of a byte string, in at most `k` bytes, and the bytes after
it. -/
def readVarint : ℕ → Bytes → Option (ℕ × Bytes)
  | 0, _ => none
  | _ + 1, [] => none
  | k + 1, b :: bs =>
    if b.toNat < 128 then some (b.toNat, bs)
    else (readVarint k bs).map fun p => (b.toNat - 128 + 128 * p.1, p.2)

theorem varint_of_lt {n : ℕ} (h : n < 128) : varint n = [UInt8.ofNat n] := by
  rw [varint, if_pos h]

theorem varint_of_ge {n : ℕ} (h : 128 ≤ n) :
    varint n = UInt8.ofNat (n % 128 + 128) :: varint (n / 128) := by
  rw [varint, if_neg (by omega)]

theorem readVarint_length {k n : ℕ} {bs rest : Bytes} (h : readVarint k bs = some (n, rest)) :
    rest.length < bs.length := by
  induction bs generalizing k n with
  | nil => cases k <;> cases h
  | cons b bs ih =>
    cases k with
    | zero => cases h
    | succ k =>
      rw [readVarint] at h
      split at h
      · cases h
        exact Nat.lt_succ_self _
      · obtain ⟨p, hp, hq⟩ := Option.map_eq_some_iff.mp h
        cases hq
        exact (ih hp).trans (Nat.lt_succ_self _)

theorem readVarint_single {n : ℕ} (h : n < 128) (k : ℕ) (rest : Bytes) :
    readVarint (k + 1) (varint n ++ rest) = some (n, rest) := by
  have hb : (UInt8.ofNat n).toNat = n := by
    rw [UInt8.toNat_ofNat']
    omega
  rw [varint_of_lt h, List.singleton_append, readVarint, hb, if_pos h]

theorem readVarint_varint {k n : ℕ} (h : n < 128 ^ (k + 1)) (rest : Bytes) :
    readVarint (k + 1) (varint n ++ rest) = some (n, rest) := by
  induction k generalizing n with
  | zero => exact readVarint_single (by simpa using h) 0 rest
  | succ k ih =>
    by_cases hn : n < 128
    · exact readVarint_single hn (k + 1) rest
    · have hq : n / 128 < 128 ^ (k + 1) := by
        rw [Nat.div_lt_iff_lt_mul (by decide)]
        rwa [pow_succ] at h
      have hb : (UInt8.ofNat (n % 128 + 128)).toNat = n % 128 + 128 := by
        rw [UInt8.toNat_ofNat']
        omega
      have hsum : n % 128 + 128 - 128 + 128 * (n / 128) = n := by omega
      rw [varint_of_ge (by omega), List.cons_append, readVarint, hb, if_neg (by omega), ih hq,
        Option.map_some, hsum]

end Codec
