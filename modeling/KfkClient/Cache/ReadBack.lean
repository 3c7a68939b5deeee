import KfkClient.Cache.Steps
import KfkClient.Store.LevelDb

/-!
# Reading back through the C API

`storage_getkey` and `storage_first` copy at most one byte less than the caller's buffer
has, and put no NUL behind the copy. For a buffer without any byte the length `vlen - 1`
is the largest `size_t`, and the whole value is copied.
-/

namespace KfkClient

open CLib OrderedMap LevelDb
open Std (ExtTreeMap)

/-- A copy of `v` into `buf` stays inside: into a buffer without bytes that is only a copy
whose `int` length is zero. -/
def Fits (buf v : Bytes) : Prop := buf = [] → v.length < 2 ^ 64 - 1 ∧ 2 ^ 32 ∣ v.length

/-- A buffer after the copy of `v` into it. -/
def copied (buf v : Bytes) : Bytes :=
  v.take (buf.length - 1) ++ buf.drop (min v.length (buf.length - 1))

theorem copyLen_zero (len : ℕ) :
    copyLen len 0 = if len < 2 ^ 64 - 1 then toInt len else -1 := by
  have hs : toSizeT (0 - 1) = 2 ^ 64 - 1 := by
    rw [toSizeT]
    omega
  rw [copyLen, hs]
  split
  · rfl
  · rw [toInt, Int.bmod_def]
    omega

theorem toInt_eq_zero_iff (len : ℕ) : toInt len = 0 ↔ 2 ^ 32 ∣ len := by
  rw [toInt, Int.bmod_def]
  omega

theorem memcpy_copyLen_ok {σ : Type} {buf : Bytes} (hbuf : buf.length < 2 ^ 31) {v : Bytes}
    (h : Fits buf v) (s : σ) :
    (memcpy buf v (copyLen v.length buf.length)).run s = .ok (copied buf v) s := by
  cases hb : buf with
  | nil =>
    obtain ⟨hlen, hdvd⟩ := h hb
    have hc : copyLen v.length (([] : Bytes).length : ℤ) = 0 := by
      rw [List.length_nil, Nat.cast_zero, copyLen_zero, if_pos hlen, toInt_eq_zero_iff]
      exact hdvd
    rw [hc, memcpy_ok [] v le_rfl (by simp) (by omega)]
    simp [copied]
  | cons b rest =>
    rw [← hb]
    have hpos : 0 < buf.length := by rw [hb]; exact Nat.succ_pos _
    rw [copyLen_of_pos v.length hpos hbuf, memcpy_ok buf v (by omega) (by omega) (by omega),
      Int.toNat_natCast, copied]
    by_cases hl : v.length ≤ buf.length - 1
    · rw [min_eq_left hl, List.take_of_length_le le_rfl, List.take_of_length_le hl]
    · rw [min_eq_right (by omega)]

theorem memcpy_copyLen_error {σ : Type} {buf v : Bytes} (h : ¬ Fits buf v) (s : σ) :
    (memcpy buf v (copyLen v.length buf.length)).run s = .error .outOfBounds s := by
  obtain ⟨hb, hno⟩ := Classical.not_imp.mp h
  have hc : copyLen v.length 0 ≠ 0 := by
    rw [copyLen_zero]
    split
    · next hlen => exact fun h0 => hno ⟨hlen, (toInt_eq_zero_iff _).mp h0⟩
    · decide
  rw [hb, memcpy, if_pos, run_throw]
  simp only [List.length_nil, Nat.cast_zero]
  omega

/-! ### The two calls -/

section Calls

variable {s : Map} {k v : Bytes}

theorem storageGetkey_copy (hk : s[k]? = some v) (buf : Bytes) :
    (storageGetkey levelDb k k.length buf buf.length).run s =
      (memcpy buf v (copyLen v.length buf.length) >>= fun val =>
        pure (copyLen v.length buf.length, val)).run s := by
  rw [storageGetkey, run_bind_ok (stdString_length k s), run_bind_ok (levelDb_getkey_some hk)]
  simp only [↓reduceIte]

theorem storageFirst_copy (h : first? s = some (k, v)) (kbuf vbuf : Bytes) :
    (storageFirst levelDb kbuf kbuf.length vbuf vbuf.length).run s =
      (memcpy kbuf k (copyLen k.length kbuf.length) >>= fun key =>
        memcpy vbuf v (copyLen v.length vbuf.length) >>= fun val => pure (0, key, val)).run s := by
  rw [storageFirst, run_bind_ok (levelDb_getFirst_some h)]
  simp only [↓reduceIte]

theorem storageFirst_empty (kbuf vbuf : Bytes) (klen vlen : ℤ) :
    (storageFirst levelDb kbuf klen vbuf vlen).run ∅ = .error .assertion ∅ := by
  rw [storageFirst, run_bind_error levelDb_getFirst_empty]

end Calls

/-- What a caller of `storage_getkey` may rely on, for a buffer of `buf.length` bytes: no
byte behind it is written, and if there is room the longest beginning of the value that
fits, a NUL behind it, and the length of that beginning come back. -/
structure ReadsBack (s : Map) (k v buf : Bytes) : Prop where
  bounded : ∀ s', (storageGetkey levelDb k k.length buf buf.length).run s ≠ .error .outOfBounds s'
  terminated : 1 ≤ buf.length → ∃ val,
    (storageGetkey levelDb k k.length buf buf.length).run s =
      .ok (((min v.length (buf.length - 1) : ℕ) : ℤ), val) s ∧
    v.take (min v.length (buf.length - 1)) ++ [0] <+: val

def FirstBounded (s : Map) (kbuf vbuf : Bytes) : Prop :=
  ∀ s', (storageFirst levelDb kbuf kbuf.length vbuf vbuf.length).run s ≠ .error .outOfBounds s'

/-- There is a NUL behind the copy exactly when the buffer held one there before. -/
theorem terminated_iff {buf : Bytes} (hpos : 1 ≤ buf.length) (v : Bytes) :
    v.take (min v.length (buf.length - 1)) ++ [0] <+: copied buf v ↔
      buf[min v.length (buf.length - 1)]? = some 0 := by
  have htake : v.take (min v.length (buf.length - 1)) = v.take (buf.length - 1) := by
    by_cases hl : v.length ≤ buf.length - 1
    · rw [min_eq_left hl, List.take_of_length_le le_rfl, List.take_of_length_le hl]
    · rw [min_eq_right (by omega)]
  have hlt : min v.length (buf.length - 1) < buf.length := by omega
  rw [copied, htake, List.prefix_append_right_inj, List.drop_eq_getElem_cons hlt,
    List.cons_prefix_cons, List.getElem?_eq_getElem hlt, Option.some_inj, eq_comm]
  exact and_iff_left List.nil_prefix

theorem readsBack_iff {s : Map} {k v : Bytes} (hk : s[k]? = some v) {buf : Bytes}
    (hbuf : buf.length < 2 ^ 31) :
    ReadsBack s k v buf ↔
      Fits buf v ∧ (1 ≤ buf.length → buf[min v.length (buf.length - 1)]? = some 0) := by
  have hcopy := storageGetkey_copy hk buf
  constructor
  · rintro ⟨hbounded, hterm⟩
    have hfits : Fits buf v := by
      by_contra hno
      rw [run_bind_error (memcpy_copyLen_error hno s)] at hcopy
      exact hbounded s hcopy
    refine ⟨hfits, fun hpos => ?_⟩
    obtain ⟨val, hrun, hpre⟩ := hterm hpos
    rw [hcopy, run_bind_ok (memcpy_copyLen_ok hbuf hfits s)] at hrun
    have hval : copied buf v = val := by
      injection hrun with hres
      exact congrArg Prod.snd hres
    rwa [← hval, terminated_iff hpos] at hpre
  · rintro ⟨hfits, hnul⟩
    rw [run_bind_ok (memcpy_copyLen_ok hbuf hfits s)] at hcopy
    refine ⟨fun s' hrun => ?_, fun hpos => ⟨copied buf v, ?_, ?_⟩⟩
    · rw [hcopy] at hrun
      cases hrun
    · rw [hcopy, copyLen_of_pos v.length hpos hbuf]
      rfl
    · exact (terminated_iff hpos v).mpr (hnul hpos)

theorem firstBounded_iff {s : Map} {kbuf vbuf : Bytes} (hkbuf : kbuf.length < 2 ^ 31)
    (hvbuf : vbuf.length < 2 ^ 31) :
    FirstBounded s kbuf vbuf ↔
      ∀ k v, first? s = some (k, v) → Fits kbuf k ∧ Fits vbuf v := by
  cases hf : first? s with
  | none =>
    rw [first?_eq_none_iff.mp hf]
    constructor
    · intro _ k v h
      cases h
    · intro _ s' hrun
      rw [storageFirst_empty] at hrun
      cases hrun
  | some e =>
    obtain ⟨k, v⟩ := e
    have hcopy := storageFirst_copy hf kbuf vbuf
    constructor
    · intro hbounded k' v' he
      cases he
      have hkfits : Fits kbuf k := by
        by_contra hno
        rw [run_bind_error (memcpy_copyLen_error hno s)] at hcopy
        exact hbounded s hcopy
      refine ⟨hkfits, ?_⟩
      by_contra hno
      rw [run_bind_ok (memcpy_copyLen_ok hkbuf hkfits s),
        run_bind_error (memcpy_copyLen_error hno s)] at hcopy
      exact hbounded s hcopy
    · intro hfits s' hrun
      obtain ⟨hkfits, hvfits⟩ := hfits k v rfl
      rw [hcopy, run_bind_ok (memcpy_copyLen_ok hkbuf hkfits s),
        run_bind_ok (memcpy_copyLen_ok hvbuf hvfits s)] at hrun
      cases hrun

/-- Reading back is bounded and terminated exactly when no byte is copied into a buffer
without bytes, and the buffer of `storage_getkey` held a NUL at the place behind the copy
before the call. -/
theorem read_back_iff (s : Map) (k v : Bytes) (hk : s[k]? = some v) (buf kbuf vbuf : Bytes)
    (hbuf : buf.length < 2 ^ 31) (hkbuf : kbuf.length < 2 ^ 31) (hvbuf : vbuf.length < 2 ^ 31) :
    ReadsBack s k v buf ∧ FirstBounded s kbuf vbuf ↔
      (Fits buf v ∧ (1 ≤ buf.length → buf[min v.length (buf.length - 1)]? = some 0)) ∧
        ∀ k' v', first? s = some (k', v') → Fits kbuf k' ∧ Fits vbuf v' := by
  rw [readsBack_iff hk hbuf, firstBounded_iff hkbuf hvbuf]

/-- A database that holds `v` under `k`. -/
def oneValue : Map := (∅ : Map).insert [107] [118]

theorem oneValue_get : oneValue[([107] : Bytes)]? = some [118] := ExtTreeMap.getElem?_insert_self

theorem read_back_into_zeros :
    ReadsBack oneValue [107] [118] (zeros 3) ∧ FirstBounded oneValue (zeros 3) (zeros 3) := by
  have hfits : ∀ w : Bytes, Fits (zeros 3) w := fun w h => nomatch h
  exact (read_back_iff oneValue [107] [118] oneValue_get (zeros 3) (zeros 3) (zeros 3)
    (by decide) (by decide) (by decide)).mpr ⟨⟨hfits _, fun _ => rfl⟩, fun _ _ _ =>
      ⟨hfits _, hfits _⟩⟩

/-- Into a buffer that was not zeroed the one byte of the value comes back without a NUL,
and into a buffer without bytes it is written all the same. -/
theorem read_back_not_terminated :
    (storageGetkey levelDb [107] 1 [255, 255, 255] 3).run oneValue =
        .ok (1, [118, 255, 255]) oneValue ∧
      ¬ ReadsBack oneValue [107] [118] [255, 255, 255] ∧
      (storageGetkey levelDb [107] 1 [] 0).run oneValue = .error .outOfBounds oneValue := by
  refine ⟨?_, ?_, ?_⟩
  · have h := storageGetkey_copy oneValue_get [255, 255, 255]
    have hfits : Fits [255, 255, 255] [118] := fun h => nomatch h
    rw [run_bind_ok (memcpy_copyLen_ok (by decide) hfits oneValue)] at h
    have hlen : copyLen ([118] : Bytes).length (([255, 255, 255] : Bytes).length : ℤ) = 1 :=
      copyLen_of_pos 1 (by decide) (by decide)
    rw [hlen] at h
    exact h
  · rw [readsBack_iff oneValue_get (by decide)]
    intro h
    exact absurd (h.2 (by decide)) (by decide)
  · have hfits : ¬ Fits [] [118] := fun h => absurd (h rfl).2 (by decide)
    have h := storageGetkey_copy oneValue_get []
    rw [run_bind_error (memcpy_copyLen_error hfits oneValue)] at h
    exact h

end KfkClient
