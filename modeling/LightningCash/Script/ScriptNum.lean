import LightningCash.Script.Script

/-!
# Script numbers: minimal encodings and values are in bijection

`CScriptNum` writes an `int64_t` as its magnitude in little-endian bytes, with the sign in the top
bit of the last byte, and appends a sign byte where the magnitude's own top bit is taken.
`serialize` writes the shortest such encoding; `set_vch` reads any; and the `fRequireMinimal`
check of the constructor rejects exactly a last byte that carries only the sign while the byte
below it could have carried it. So, within the eight bytes an `int64_t` needs, the constructor
with the check inverts `serialize`, and `serialize` inverts every encoding the check accepts:
`CScriptNum_serialize_bijective`.

Everything goes through the magnitude's bytes `bytesOf n`, the base-256 digits of `n`, whose last
byte is nonzero. An encoding splits as its bytes before the last and its last byte, and the
cases are the sign bit of that last byte and whether the rest of it is zero. The facts about the
sign bit of a single byte are checked over all 256 bytes.

`set_vch` computes in `int64_t`; the model reads the bytes as an integer, which is what the
source computes for the at most eight bytes the constructor lets through, whose magnitude is
below `2 ^ 63`.
-/

namespace LightningCash

/-! ## Magnitudes -/

/-- The bytes of a magnitude, least significant first, as `serialize` pushes them. -/
def bytesOf (n : ℕ) : List UInt8 := (Nat.digits 256 n).map Nat.toUInt8

/-- The number little-endian bytes denote. -/
def valueOf (bs : List UInt8) : ℕ := Nat.ofDigits 256 (bs.map UInt8.toNat)

theorem map_toNat_bytesOf (n : ℕ) : (bytesOf n).map UInt8.toNat = Nat.digits 256 n := by
  rw [bytesOf, List.map_map]
  conv_rhs => rw [← List.map_id (Nat.digits 256 n)]
  apply List.map_congr_left
  intro d hd
  have hlt : d < 256 := Nat.digits_lt_base (by norm_num) hd
  simp [Nat.mod_eq_of_lt hlt]

@[simp] theorem valueOf_bytesOf (n : ℕ) : valueOf (bytesOf n) = n := by
  rw [valueOf, map_toNat_bytesOf, Nat.ofDigits_digits]

theorem bytesOf_ne_nil {n : ℕ} (hn : n ≠ 0) : bytesOf n ≠ [] := by
  simp [bytesOf, Nat.digits_eq_nil_iff_eq_zero, hn]

/-- The last byte of a nonzero magnitude is nonzero. -/
theorem getLast_bytesOf_ne_zero {n : ℕ} (hn : n ≠ 0) : (bytesOf n).getLast (bytesOf_ne_nil hn) ≠ 0 := by
  have hd := Nat.getLast_digit_ne_zero 256 hn
  have hlt : (Nat.digits 256 n).getLast (by simp [Nat.digits_eq_nil_iff_eq_zero, hn]) < 256 :=
    Nat.digits_lt_base (by norm_num) (List.getLast_mem _)
  simp only [bytesOf, List.getLast_map]
  intro h
  apply hd
  have h' := congrArg UInt8.toNat h
  simp only [Nat.toUInt8_eq, UInt8.toNat_ofNat', UInt8.toNat_zero] at h'
  rwa [Nat.mod_eq_of_lt hlt] at h'

/-- A nonzero magnitude splits into its bytes before the last and a nonzero last byte. -/
theorem bytesOf_eq_append {n : ℕ} (hn : n ≠ 0) :
    ∃ init L, bytesOf n = init ++ [L] ∧ L ≠ 0 :=
  ⟨_, _, (List.dropLast_append_getLast (bytesOf_ne_nil hn)).symm, getLast_bytesOf_ne_zero hn⟩

/-- Bytes whose last byte is nonzero are the bytes of their value. -/
theorem bytesOf_valueOf {init : List UInt8} {L : UInt8} (hL : L ≠ 0) :
    bytesOf (valueOf (init ++ [L])) = init ++ [L] := by
  have hdig : Nat.digits 256 (valueOf (init ++ [L])) = (init ++ [L]).map UInt8.toNat := by
    apply Nat.digits_ofDigits _ (by norm_num)
    · simp only [List.mem_map]
      rintro _ ⟨b, -, rfl⟩
      exact b.toNat_lt
    · intro _
      simp only [List.getLast_map, List.getLast_concat]
      exact fun h0 ↦ hL (UInt8.toNat_inj.mp (h0.trans UInt8.toNat_zero.symm))
  rw [bytesOf, hdig, List.map_map]
  conv_rhs => rw [← List.map_id (init ++ [L])]
  apply List.map_congr_left
  intro b _
  simp

@[simp] theorem valueOf_append_zero (bs : List UInt8) : valueOf (bs ++ [0]) = valueOf bs := by
  simp [valueOf, Nat.ofDigits_append]

theorem valueOf_append_ne_zero {init : List UInt8} {L : UInt8} (hL : L ≠ 0) :
    valueOf (init ++ [L]) ≠ 0 := fun h ↦ by
  have := @bytesOf_valueOf init L hL
  rw [h] at this
  simp [bytesOf] at this

/-! ## The sign bit of one byte -/

-- One kernel evaluation over the 256 bytes carries all six facts, which are then read off it.
theorem signByte_facts : ∀ L : UInt8,
    (L &&& 0x80 = 0 → (L ||| 0x80) &&& 0x7f = L) ∧ (L ||| 0x80) &&& 0x80 ≠ 0 ∧
      (L &&& 0x80 ≠ 0 → (L &&& 0x7f) ||| 0x80 = L) ∧ (L &&& 0x7f) &&& 0x80 = 0 ∧
      (L &&& 0x80 = 0 → L ≠ 0 → L &&& 0x7f ≠ 0) ∧ (L &&& 0x80 ≠ 0 → L &&& 0x7f = 0 → L = 0x80) := by
  decide +kernel

theorem sign_or_mask : ∀ L : UInt8, L &&& 0x80 = 0 → (L ||| 0x80) &&& 0x7f = L :=
  fun L ↦ (signByte_facts L).1

theorem sign_or_set : ∀ L : UInt8, (L ||| 0x80) &&& 0x80 ≠ 0 :=
  fun L ↦ (signByte_facts L).2.1

theorem mask_or_sign : ∀ L : UInt8, L &&& 0x80 ≠ 0 → (L &&& 0x7f) ||| 0x80 = L :=
  fun L ↦ (signByte_facts L).2.2.1

theorem mask_sign_clear : ∀ L : UInt8, (L &&& 0x7f) &&& 0x80 = 0 :=
  fun L ↦ (signByte_facts L).2.2.2.1

theorem mask_ne_zero_of_sign_clear : ∀ L : UInt8, L &&& 0x80 = 0 → L ≠ 0 → L &&& 0x7f ≠ 0 :=
  fun L ↦ (signByte_facts L).2.2.2.2.1

theorem eq_sign_of_mask_eq_zero : ∀ L : UInt8, L &&& 0x80 ≠ 0 → L &&& 0x7f = 0 → L = 0x80 :=
  fun L ↦ (signByte_facts L).2.2.2.2.2

/-! ## `set_vch`, `serialize` and the minimality check on a split encoding -/

/-- `set_vch` reads the sign from the last byte. -/
theorem set_vch_append (init : List UInt8) (L : UInt8) :
    set_vch (init ++ [L]) =
      if L &&& 0x80 = 0 then (valueOf (init ++ [L]) : ℤ) else -(valueOf (init ++ [L &&& 0x7f]) : ℤ) := by
  simp [set_vch, valueOf, Nat.coe_ofDigits]

/-- `serialize` of a signed nonzero magnitude: the sign goes into the last byte, or into a byte
of its own where the last byte's top bit is taken. -/
theorem serialize_signed {n : ℕ} (hn : n ≠ 0) {init : List UInt8} {L : UInt8}
    (h : bytesOf n = init ++ [L]) (neg : Bool) :
    serialize (if neg then -(n : ℤ) else n) =
      if L &&& 0x80 ≠ 0 then init ++ [L, if neg then 0x80 else 0]
      else if neg then init ++ [L ||| 0x80] else init ++ [L] := by
  have hbytes : (Nat.digits 256 (if neg then -(n : ℤ) else n).natAbs).map Nat.toUInt8 = init ++ [L] := by
    cases neg <;> simpa [bytesOf] using h
  have hv : (if neg then -(n : ℤ) else n) ≠ 0 := by cases neg <;> simp [hn]
  unfold serialize
  rw [if_neg hv]
  dsimp only
  rw [hbytes, List.getLast?_concat]
  have hpos : (0 : ℤ) < n := by exact_mod_cast Nat.pos_of_ne_zero hn
  cases neg
  · simp [not_lt.mpr hpos.le]
  · simp [Nat.pos_of_ne_zero hn]

theorem serialize_pos {n : ℕ} (hn : n ≠ 0) {init : List UInt8} {L : UInt8}
    (h : bytesOf n = init ++ [L]) :
    serialize n = if L &&& 0x80 ≠ 0 then init ++ [L, 0] else init ++ [L] := by
  simpa using serialize_signed hn h false

theorem serialize_neg {n : ℕ} (hn : n ≠ 0) {init : List UInt8} {L : UInt8}
    (h : bytesOf n = init ++ [L]) :
    serialize (-(n : ℤ)) = if L &&& 0x80 ≠ 0 then init ++ [L, 0x80] else init ++ [L ||| 0x80] := by
  simpa using serialize_signed hn h true

/-- The minimality check of the constructor on a split encoding. -/
theorem CScriptNum_append {init : List UInt8} {L : UInt8} {n : ℕ} (hlen : init.length + 1 ≤ n) :
    CScriptNum (init ++ [L]) true n =
      if L &&& 0x7f = 0 ∧ (init = [] ∨ init.getLastD 0 &&& 0x80 = 0) then none
      else some (set_vch (init ++ [L])) := by
  unfold CScriptNum
  rw [if_neg (by simp; omega)]
  rcases List.eq_nil_or_concat init with rfl | ⟨xs, x, rfl⟩
  · simp
  · simp [List.getD_eq_getElem?_getD]

/-! ## The bijection -/

/-- The constructor with the minimality check reads back what `serialize` wrote. -/
theorem CScriptNum_serialize {v : ℤ} (hlen : (serialize v).length ≤ 8) :
    CScriptNum (serialize v) true 8 = some v := by
  rcases eq_or_ne v 0 with rfl | hv
  · rfl
  have hn : v.natAbs ≠ 0 := Int.natAbs_ne_zero.mpr hv
  obtain ⟨init, L, hbytes, hL⟩ := bytesOf_eq_append hn
  have hval := valueOf_bytesOf v.natAbs
  rw [hbytes] at hval
  have hsplit : ∀ x : UInt8, init ++ [L, x] = (init ++ [L]) ++ [x] := fun x ↦ by simp
  -- the sign of `v`, then whether the last magnitude byte leaves room for it
  rcases Int.natAbs_eq v with hpos | hneg
  · rw [hpos, serialize_pos hn hbytes] at hlen ⊢
    by_cases hL80 : L &&& 0x80 ≠ 0
    · -- a zero byte is appended: it is allowed, since the byte below has its top bit set
      rw [if_pos hL80, hsplit] at hlen ⊢
      rw [CScriptNum_append (by simp at hlen ⊢; omega), if_neg (by simp [hL80]), set_vch_append,
        if_pos (by decide), valueOf_append_zero, hval]
    · rw [if_neg hL80] at hlen ⊢
      rw [not_not] at hL80
      rw [CScriptNum_append (by simp at hlen ⊢; omega),
        if_neg (by simp [mask_ne_zero_of_sign_clear L hL80 hL]), set_vch_append, if_pos hL80, hval]
  · rw [hneg, serialize_neg hn hbytes] at hlen ⊢
    by_cases hL80 : L &&& 0x80 ≠ 0
    · -- a sign byte `0x80` is appended
      rw [if_pos hL80, hsplit] at hlen ⊢
      rw [CScriptNum_append (by simp at hlen ⊢; omega), if_neg (by simp [hL80]), set_vch_append,
        if_neg (by decide), show (0x80 : UInt8) &&& 0x7f = 0 by decide, valueOf_append_zero, hval]
    · -- the sign bit goes into the last byte
      rw [if_neg hL80] at hlen ⊢
      rw [not_not] at hL80
      rw [CScriptNum_append (by simp at hlen ⊢; omega), if_neg (by simp [sign_or_mask L hL80, hL]),
        set_vch_append, if_neg (sign_or_set L), sign_or_mask L hL80, hval]

/-- Every encoding the check accepts is what `serialize` writes for its value. -/
theorem serialize_of_CScriptNum {vch : valtype} {x : ℤ} (h : CScriptNum vch true 8 = some x) :
    serialize x = vch := by
  rcases List.eq_nil_or_concat vch with rfl | ⟨init, L, rfl⟩
  · have hx : x = 0 := by simpa [CScriptNum, set_vch] using h.symm
    rw [hx]
    rfl
  rw [List.concat_eq_append] at h ⊢
  have hlen : init.length + 1 ≤ 8 := by
    by_contra hc
    simp [CScriptNum] at h
    omega
  rw [CScriptNum_append hlen] at h
  split_ifs at h with hmin
  rw [Option.some_inj, set_vch_append] at h
  -- a last byte with nothing but the sign needs a byte below it with its top bit set
  have hbelow : L &&& 0x7f = 0 → ∃ init' K, init = init' ++ [K] ∧ K &&& 0x80 ≠ 0 ∧ K ≠ 0 := by
    intro h7
    rcases List.eq_nil_or_concat init with rfl | ⟨init', K, rfl⟩
    · exact absurd ⟨h7, Or.inl rfl⟩ hmin
    · have hK : K &&& 0x80 ≠ 0 := fun hK ↦ hmin ⟨h7, Or.inr (by simpa using hK)⟩
      exact ⟨init', K, by simp, hK, fun h0 ↦ hK (by rw [h0]; decide)⟩
  by_cases hL80 : L &&& 0x80 = 0
  · rw [if_pos hL80] at h
    by_cases hL0 : L = 0
    · -- a zero last byte below a byte with its top bit set
      obtain ⟨init', K, rfl, hK, hK0⟩ := hbelow (by rw [hL0]; decide)
      rw [hL0, List.append_assoc, List.singleton_append,
        show init' ++ [K, 0] = (init' ++ [K]) ++ [0] by simp, valueOf_append_zero] at h
      rw [← h, serialize_pos (valueOf_append_ne_zero hK0) (bytesOf_valueOf hK0), if_pos hK, hL0]
      simp
    · rw [← h, serialize_pos (valueOf_append_ne_zero hL0) (bytesOf_valueOf hL0), if_neg (by simpa)]
  · rw [if_neg hL80] at h
    by_cases hL7 : L &&& 0x7f = 0
    · -- a lone sign byte `0x80` below a byte with its top bit set
      obtain ⟨init', K, rfl, hK, hK0⟩ := hbelow hL7
      rw [hL7, List.append_assoc, List.singleton_append,
        show init' ++ [K, 0] = (init' ++ [K]) ++ [0] by simp, valueOf_append_zero] at h
      rw [← h, serialize_neg (valueOf_append_ne_zero hK0) (bytesOf_valueOf hK0), if_pos hK,
        eq_sign_of_mask_eq_zero L hL80 hL7]
      simp
    · rw [← h, serialize_neg (valueOf_append_ne_zero hL7) (bytesOf_valueOf hL7),
        if_neg (by simpa using mask_sign_clear L), mask_or_sign L hL80]

/-- **Script numbers round trip.** For every `int64_t` other than `INT64_MIN` whose encoding fits
in eight bytes, the constructor with `fRequireMinimal` and `nMaxNumSize = 8` accepts
`serialize(v)` and holds `v`; and every vector of at most eight bytes that the check accepts is
`serialize` of its value, so negative zero and padded encodings are rejected. -/
theorem CScriptNum_serialize_bijective :
    (∀ v : ℤ, -2 ^ 63 < v → v < 2 ^ 63 → (serialize v).length ≤ 8 →
      CScriptNum (serialize v) true 8 = some v) ∧
      (∀ vch : valtype, vch.length ≤ 8 → (CScriptNum vch true 8).isSome →
        serialize (set_vch vch) = vch) := by
  refine ⟨fun v _ _ hlen ↦ CScriptNum_serialize hlen, fun vch _ hsome ↦ ?_⟩
  obtain ⟨x, hx⟩ := Option.isSome_iff_exists.mp hsome
  have hset : set_vch vch = x := by
    unfold CScriptNum at hx
    split_ifs at hx
    exact Option.some_inj.mp hx
  rw [hset]
  exact serialize_of_CScriptNum hx

/-- `-1000` is `e8 83`. -/
theorem CScriptNum_serialize_bijective_at_minus_1000 :
    CScriptNum (serialize (-1000)) true 8 = some (-1000) ∧
      serialize (set_vch [0xe8, 0x83]) = [0xe8, 0x83] :=
  ⟨CScriptNum_serialize_bijective.1 (-1000) (by norm_num) (by norm_num) (by decide +kernel),
    CScriptNum_serialize_bijective.2 [0xe8, 0x83] (by decide) (by decide)⟩

end LightningCash
