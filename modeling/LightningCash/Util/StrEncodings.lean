import LightningCash.Serialize.Serialize

/-!
# Base64 and Base32 (utilstrencodings.cpp)

`EncodeBase64`/`DecodeBase64` and `EncodeBase32`/`DecodeBase32` are bit-packing state machines:
the encoder keeps the bits of the last byte that did not fill a symbol in `left` and the number
of bytes into the current group in `mode`; the decoder does the same the other way and, when the
characters run out, checks the padding its final `mode` asks for. The decoders read a C string:
here the characters before its terminator, with the terminator read as `0` and a read past it an
error (`charAt`), so that "no read past the terminator" is the statement that decoding never
fails.

The proofs go group by group: three bytes (five for Base32) encode to four (eight) characters
and those characters decode back to the same bytes (`EncodeBase64_cons₃`, `decodeFrom_base64Group`).
The round trip and the canonicity of a padded string are then inductions over whole groups, with
the final partial group and its padding as the base cases. The bit operations of the loops are
turned into arithmetic once, in the step lemmas, by `or_eq_add_of_mod` and the mask lemma; how
bytes and symbols convert into each other is stated once per format (`repack32_first`,
`unpack32_zero` and the lemmas beside them), and the group cases cite it.
-/

namespace LightningCash

/-! ## C strings and the loops' state -/

/-- The character at offset `i` of a C string whose characters before the terminator are `p`. -/
def charAt (p : List UInt8) (i : ℕ) : Except String UInt8 :=
  if h : i < p.length then .ok p[i]
  else if i = p.length then .ok 0
  else .error "read past the terminator"

/-- The variables of the coding loops: `mode`, `left` and the output built so far. -/
structure BitState where
  mode : ℕ
  left : ℕ
  out : List UInt8
  deriving DecidableEq, Repr

/-- The padding test `p[k] != '=' || ... || table[p[k + m]] != -1` of the decoders, with `m`
more `'='` expected from offset `k`; like C++'s `||`, each read happens only when every
earlier test was false. -/
def paddingMismatch (table : UInt8 → ℤ) (p : List UInt8) (k : ℕ) : ℕ → Except String Bool
  | 0 => do
    let c ← charAt p k
    pure (table c ≠ -1)
  | m + 1 => do
    let c ← charAt p k
    if c ≠ '='.toUInt8 then pure true else paddingMismatch table p (k + 1) m

/-- The check of a final `mode` that needs `n` characters of padding:
`left || p[0] != '=' || ... || table[p[n]] != -1`. -/
def paddingInvalid (table : UInt8 → ℤ) (left : ℕ) (p : List UInt8) (n : ℕ) :
    Except String Bool :=
  if left ≠ 0 then pure true else paddingMismatch table p 0 n

/-- The `while (1)` loop of the decoders: decode characters until one the table maps to `-1`,
and return the state and the characters from that one on. An exhausted list is the terminator,
which both tables map to `-1`. -/
def decodeLoop (table : UInt8 → ℤ) (step : BitState → ℕ → BitState) :
    BitState → List UInt8 → BitState × List UInt8
  | st, [] => (st, [])
  | st, c :: p =>
    if table c = -1 then (st, c :: p) else decodeLoop table step (step st (table c).toNat) p

/-- A decoder: the loop from `st`, then the padding check of the final state on the rest.
It returns `vchRet` and `*pfInvalid`. -/
def decodeFrom (table : UInt8 → ℤ) (step : BitState → ℕ → BitState)
    (check : BitState → List UInt8 → Except String Bool) (st : BitState) (p : List UInt8) :
    Except String (List UInt8 × Bool) :=
  let r := decodeLoop table step st p
  (r.1.out, ·) <$> check r.1 r.2

/-! ## The loops -/

section Loop

variable {table : UInt8 → ℤ} {step : BitState → ℕ → BitState}
  {check : BitState → List UInt8 → Except String Bool}

theorem decodeLoop_cons_of_ne {c : UInt8} (h : table c ≠ -1) (st : BitState) (p : List UInt8) :
    decodeLoop table step st (c :: p) = decodeLoop table step (step st (table c).toNat) p := by
  simp [decodeLoop, h]

theorem decodeFrom_cons_of_ne {c : UInt8} (h : table c ≠ -1) (st : BitState) (p : List UInt8) :
    decodeFrom table step check st (c :: p) =
      decodeFrom table step check (step st (table c).toNat) p := by
  simp [decodeFrom, decodeLoop_cons_of_ne h]

theorem decodeFrom_cons_of_eq {c : UInt8} {d : ℕ} (h : table c = d) (st : BitState)
    (p : List UInt8) :
    decodeFrom table step check st (c :: p) = decodeFrom table step check (step st d) p := by
  rw [decodeFrom_cons_of_ne (by omega), h]
  rfl

/-- Where the next character is not a symbol (or is the terminator), the loop stops. -/
theorem decodeFrom_of_stop (st : BitState) {p : List UInt8} (hstop : ∀ c ∈ p.head?, table c = -1) :
    decodeFrom table step check st p = (st.out, ·) <$> check st p := by
  cases p with
  | nil => rfl
  | cons c p => simp_all [decodeFrom, decodeLoop]

/-- A decoder fails only where its check does. -/
theorem decodeFrom_ok (hcheck : ∀ st p, ∃ b, check st p = .ok b) (st : BitState) (p : List UInt8) :
    ∃ r, decodeFrom table step check st p = .ok r := by
  obtain ⟨b, hb⟩ := hcheck (decodeLoop table step st p).1 (decodeLoop table step st p).2
  exact ⟨((decodeLoop table step st p).1.out, b), by simp [decodeFrom, hb]⟩

/-- An encoding step reads `mode` and `left` and appends to the output. -/
def AppendsOutput (step : BitState → UInt8 → BitState) : Prop :=
  ∀ m l out a, step ⟨m, l, out⟩ a =
    ⟨(step ⟨m, l, []⟩ a).mode, (step ⟨m, l, []⟩ a).left, out ++ (step ⟨m, l, []⟩ a).out⟩

/-- The output an encoding loop starts from is a prefix of the one it ends with. -/
theorem foldl_of_appendsOutput {step : BitState → UInt8 → BitState} (hstep : AppendsOutput step)
    (v : List UInt8) : ∀ m l out, v.foldl step ⟨m, l, out⟩ =
      ⟨(v.foldl step ⟨m, l, []⟩).mode, (v.foldl step ⟨m, l, []⟩).left,
        out ++ (v.foldl step ⟨m, l, []⟩).out⟩ := by
  induction v with
  | nil => intro m l out; simp
  | cons a v ih =>
    intro m l out
    simp only [List.foldl_cons]
    rw [hstep m l out a]
    generalize step ⟨m, l, []⟩ a = s
    obtain ⟨m', l', o'⟩ := s
    rw [ih m' l' (out ++ o'), ih m' l' o']
    simp

end Loop

/-! ## Base64 -/

/-- `pbase64[i]`. -/
def pbase64 (i : ℕ) : UInt8 :=
  ("ABCDEFGHIJKLMNOPQRSTUVWXYZabcdefghijklmnopqrstuvwxyz0123456789+/".toList.map
    Char.toUInt8).getD i 0

/-- `decode64_table[c]`. -/
def decode64_table (c : UInt8) : ℤ :=
  (List.flatten
    ([[-1, -1, -1, -1, -1, -1, -1, -1, -1, -1, -1, -1, -1, -1, -1, -1, -1, -1],
     [-1, -1, -1, -1, -1, -1, -1, -1, -1, -1, -1, -1, -1, -1, -1, -1, -1, -1],
     [-1, -1, -1, -1, -1, -1, -1, 62, -1, -1, -1, 63, 52, 53, 54, 55, 56, 57],
     [58, 59, 60, 61, -1, -1, -1, -1, -1, -1, -1, 0, 1, 2, 3, 4, 5, 6],
     [7, 8, 9, 10, 11, 12, 13, 14, 15, 16, 17, 18, 19, 20, 21, 22, 23, 24],
     [25, -1, -1, -1, -1, -1, -1, 26, 27, 28, 29, 30, 31, 32, 33, 34, 35, 36],
     [37, 38, 39, 40, 41, 42, 43, 44, 45, 46, 47, 48, 49, 50, 51, -1, -1, -1],
     [-1, -1, -1, -1, -1, -1, -1, -1, -1, -1, -1, -1, -1, -1, -1, -1, -1, -1],
     [-1, -1, -1, -1, -1, -1, -1, -1, -1, -1, -1, -1, -1, -1, -1, -1, -1, -1],
     [-1, -1, -1, -1, -1, -1, -1, -1, -1, -1, -1, -1, -1, -1, -1, -1, -1, -1],
     [-1, -1, -1, -1, -1, -1, -1, -1, -1, -1, -1, -1, -1, -1, -1, -1, -1, -1],
     [-1, -1, -1, -1, -1, -1, -1, -1, -1, -1, -1, -1, -1, -1, -1, -1, -1, -1],
     [-1, -1, -1, -1, -1, -1, -1, -1, -1, -1, -1, -1, -1, -1, -1, -1, -1, -1],
     [-1, -1, -1, -1, -1, -1, -1, -1, -1, -1, -1, -1, -1, -1, -1, -1, -1, -1],
     [-1, -1, -1, -1]] : List (List ℤ))).getD c.toNat (-1)

/-- One pass of the encoding loop of `EncodeBase64` on the byte `enc`. -/
def encode64Step (st : BitState) (enc : UInt8) : BitState :=
  match st.mode with
  | 0 => ⟨1, (enc.toNat &&& 3) <<< 4, st.out ++ [pbase64 (enc.toNat >>> 2)]⟩
  | 1 => ⟨2, (enc.toNat &&& 15) <<< 2, st.out ++ [pbase64 (st.left ||| enc.toNat >>> 4)]⟩
  | 2 => ⟨0, st.left,
      st.out ++ [pbase64 (st.left ||| enc.toNat >>> 6), pbase64 (enc.toNat &&& 63)]⟩
  | _ => st

/-- The end of `EncodeBase64`: the last symbol and the padding of an unfinished group. -/
def encode64Finish (st : BitState) : List UInt8 :=
  if st.mode ≠ 0 then
    st.out ++ pbase64 st.left :: '='.toUInt8 :: (if st.mode = 1 then ['='.toUInt8] else [])
  else st.out

/-- `EncodeBase64(pch, len)`. -/
def EncodeBase64 (v : List UInt8) : List UInt8 :=
  encode64Finish (v.foldl encode64Step ⟨0, 0, []⟩)

/-- One pass of the decoding loop of `DecodeBase64` on the symbol value `dec`. -/
def decode64Step (st : BitState) (dec : ℕ) : BitState :=
  match st.mode with
  | 0 => ⟨1, dec, st.out⟩
  | 1 => ⟨2, dec &&& 15, st.out ++ [(st.left <<< 2 ||| dec >>> 4).toUInt8]⟩
  | 2 => ⟨3, dec &&& 3, st.out ++ [(st.left <<< 4 ||| dec >>> 2).toUInt8]⟩
  | 3 => ⟨0, st.left, st.out ++ [(st.left <<< 6 ||| dec).toUInt8]⟩
  | _ => st

/-- The `switch (mode)` that sets `*pfInvalid` at the end of `DecodeBase64`. -/
def decode64Check (st : BitState) (p : List UInt8) : Except String Bool :=
  match st.mode with
  | 0 => pure false
  | 1 => pure true
  | 2 => paddingInvalid decode64_table st.left p 2
  | 3 => paddingInvalid decode64_table st.left p 1
  | _ => pure false

/-- `DecodeBase64(p, pfInvalid)`: the bytes and `*pfInvalid`. -/
def DecodeBase64 (p : List UInt8) : Except String (List UInt8 × Bool) :=
  decodeFrom decode64_table decode64Step decode64Check ⟨0, 0, []⟩ p

/-! ## Bit operations as arithmetic -/

/-- Or'ing a value below `2 ^ k` onto one whose low `k` bits are clear adds them. -/
theorem or_eq_add_of_mod {x y k : ℕ} (hx : x % 2 ^ k = 0) (hy : y < 2 ^ k) :
    x ||| y = x + y := by
  have hsplit : 2 ^ k * (x / 2 ^ k) = x := Nat.mul_div_cancel' (Nat.dvd_of_mod_eq_zero hx)
  rw [← hsplit]
  exact (Nat.two_pow_add_eq_or_of_lt hy _).symm

/-- A mask of the `k` low bits is the remainder by `2 ^ k`. -/
theorem and_mask {m : ℕ} (k : ℕ) (hm : m = 2 ^ k - 1) (x : ℕ) : x &&& m = x % 2 ^ k := by
  rw [hm, Nat.and_two_pow_sub_one_eq_mod]

/-- Or'ing a value below `2 ^ k` onto one shifted left by `k` adds them. -/
theorem shiftLeft_or_eq {x y k : ℕ} (hy : y < 2 ^ k) : x <<< k ||| y = x * 2 ^ k + y := by
  rw [or_eq_add_of_mod (by rw [Nat.shiftLeft_eq]; simp) hy, Nat.shiftLeft_eq]

/-! ## The C string reads -/

theorem charAt_of_lt {p : List UInt8} {i : ℕ} (h : i < p.length) : charAt p i = .ok p[i] := by
  simp [charAt, h]

theorem charAt_of_eq {p : List UInt8} {i : ℕ} (h : i = p.length) : charAt p i = .ok 0 := by
  simp [charAt, h]

/-- The padding test reads nothing past the terminator: each read after the first follows an
`'='`, which is not the terminator. -/
theorem paddingMismatch_ok (table : UInt8 → ℤ) (p : List UInt8) (m : ℕ) :
    ∀ k, k ≤ p.length → ∃ b, paddingMismatch table p k m = .ok b := by
  induction m with
  | zero =>
    intro k hk
    rcases Nat.lt_or_eq_of_le hk with hlt | rfl
    · exact ⟨decide (table p[k] ≠ -1), by simp [paddingMismatch, charAt_of_lt hlt]⟩
    · exact ⟨decide (table 0 ≠ -1), by simp [paddingMismatch, charAt_of_eq rfl]⟩
  | succ m ih =>
    intro k hk
    rcases Nat.lt_or_eq_of_le hk with hlt | rfl
    · by_cases heq : p[k] = '='.toUInt8
      · obtain ⟨b, hb⟩ := ih (k + 1) hlt
        exact ⟨b, by simp [paddingMismatch, charAt_of_lt hlt, heq, hb]⟩
      · exact ⟨true, by simp [paddingMismatch, charAt_of_lt hlt, heq]⟩
    · exact ⟨true, by simp [paddingMismatch, charAt_of_eq rfl,
        show (0 : UInt8) ≠ '='.toUInt8 by decide]⟩

/-- `n` padding characters, then the terminator: the test finds no mismatch. -/
theorem paddingMismatch_replicate (table : UInt8 → ℤ) (h0 : table 0 = -1) (n : ℕ) :
    ∀ k, paddingMismatch table (List.replicate (k + n) '='.toUInt8) k n = .ok false := by
  induction n with
  | zero => intro k; simp [paddingMismatch, charAt_of_eq (List.length_replicate ..).symm, h0]
  | succ n ih =>
    intro k
    have hlt : k < (List.replicate (k + (n + 1)) '='.toUInt8).length := by simp
    have hk : k + (n + 1) = k + 1 + n := by omega
    simp only [paddingMismatch, charAt_of_lt hlt, List.getElem_replicate]
    simpa [hk] using ih (k + 1)

/-- A zero `left` and exactly the `n` characters of padding: the check passes. -/
theorem paddingInvalid_replicate (table : UInt8 → ℤ) (h0 : table 0 = -1) (n : ℕ) :
    paddingInvalid table 0 (List.replicate n '='.toUInt8) n = .ok false := by
  simpa [paddingInvalid] using paddingMismatch_replicate table h0 n 0

theorem paddingInvalid_ok (table : UInt8 → ℤ) (left : ℕ) (p : List UInt8) (n : ℕ) :
    ∃ b, paddingInvalid table left p n = .ok b := by
  unfold paddingInvalid
  split
  · exact ⟨true, rfl⟩
  · exact paddingMismatch_ok table p n 0 (Nat.zero_le _)

/-! ### The alphabet and the table -/

theorem decode64_table_pbase64 {i : ℕ} (h : i < 64) : decode64_table (pbase64 i) = i := by
  have hall : ∀ i < 64, decode64_table (pbase64 i) = i := by decide +kernel
  exact hall i h

/-- Every character the table accepts is the symbol of its value, and that value is below 64. -/
theorem decode64_table_of_ne {c : UInt8} (h : decode64_table c ≠ -1) :
    pbase64 (decode64_table c).toNat = c ∧ 0 ≤ decode64_table c ∧ decode64_table c < 64 := by
  -- the 256 characters, enumerated as numbers: cheaper for the kernel than `UInt8`'s `Fintype`
  have hall : ∀ n : ℕ, n < 256 → decode64_table n.toUInt8 ≠ -1 →
      pbase64 (decode64_table n.toUInt8).toNat = n.toUInt8 ∧ 0 ≤ decode64_table n.toUInt8 ∧
        decode64_table n.toUInt8 < 64 := by
    decide +kernel
  have hc : c.toNat.toUInt8 = c := toUInt8_eq_of_toNat rfl
  rw [← hc] at h ⊢
  exact hall c.toNat c.toNat_lt h

theorem decode64_table_zero : decode64_table 0 = -1 := by decide

theorem decode64_table_equals : decode64_table '='.toUInt8 = -1 := by decide

/-! ### The steps as arithmetic -/

/-- The four symbols of the group of bytes `a b c`. -/
def base64Group (a b c : ℕ) : List UInt8 :=
  [pbase64 (a / 4), pbase64 (a % 4 * 16 + b / 16), pbase64 (b % 16 * 4 + c / 64),
    pbase64 (c % 64)]

theorem encode64Step_zero (l : ℕ) (out : List UInt8) (a : UInt8) :
    encode64Step ⟨0, l, out⟩ a = ⟨1, a.toNat % 4 * 16, out ++ [pbase64 (a.toNat / 4)]⟩ := by
  simp [encode64Step, and_mask (m := 3) 2 rfl, Nat.shiftLeft_eq, Nat.shiftRight_eq_div_pow]

theorem encode64Step_one {l : ℕ} (hl : l % 16 = 0) (out : List UInt8) (b : UInt8) :
    encode64Step ⟨1, l, out⟩ b = ⟨2, b.toNat % 16 * 4, out ++ [pbase64 (l + b.toNat / 16)]⟩ := by
  have hb := b.toNat_lt
  have hor : l ||| b.toNat >>> 4 = l + b.toNat / 16 := by
    rw [or_eq_add_of_mod (k := 4) hl (by omega)]
    omega
  simp [encode64Step, hor, and_mask (m := 15) 4 rfl, Nat.shiftLeft_eq]

theorem encode64Step_two {l : ℕ} (hl : l % 4 = 0) (out : List UInt8) (c : UInt8) :
    encode64Step ⟨2, l, out⟩ c =
      ⟨0, l, out ++ [pbase64 (l + c.toNat / 64), pbase64 (c.toNat % 64)]⟩ := by
  have hc := c.toNat_lt
  have hor : l ||| c.toNat >>> 6 = l + c.toNat / 64 := by
    rw [or_eq_add_of_mod (k := 2) hl (by omega)]
    omega
  simp [encode64Step, hor, and_mask (m := 63) 6 rfl]

theorem encode64Step_appendsOutput : AppendsOutput encode64Step := by
  intro m l out a
  rcases m with _ | _ | _ | m <;> simp [encode64Step]

theorem decode64Step_one {d : ℕ} (hd : d < 64) (l : ℕ) (out : List UInt8) :
    decode64Step ⟨1, l, out⟩ d = ⟨2, d % 16, out ++ [(l * 4 + d / 16).toUInt8]⟩ := by
  have hor : l <<< 2 ||| d >>> 4 = l * 4 + d / 16 := by
    rw [or_eq_add_of_mod (k := 2) (by omega) (by omega)]
    omega
  simp [decode64Step, hor, and_mask (m := 15) 4 rfl]

theorem decode64Step_two {d : ℕ} (hd : d < 64) (l : ℕ) (out : List UInt8) :
    decode64Step ⟨2, l, out⟩ d = ⟨3, d % 4, out ++ [(l * 16 + d / 4).toUInt8]⟩ := by
  have hor : l <<< 4 ||| d >>> 2 = l * 16 + d / 4 := by
    rw [or_eq_add_of_mod (k := 4) (by omega) (by omega)]
    omega
  simp [decode64Step, hor, and_mask (m := 3) 2 rfl]

theorem decode64Step_three {d : ℕ} (hd : d < 64) (l : ℕ) (out : List UInt8) :
    decode64Step ⟨3, l, out⟩ d = ⟨0, l, out ++ [(l * 64 + d).toUInt8]⟩ := by
  have hor : l <<< 6 ||| d = l * 64 + d := by
    rw [or_eq_add_of_mod (k := 6) (by omega) (by omega)]
    omega
  simp [decode64Step, hor]

theorem decode64Check_two (l : ℕ) (out p : List UInt8) :
    decode64Check ⟨2, l, out⟩ p = paddingInvalid decode64_table l p 2 := rfl

theorem decode64Check_three (l : ℕ) (out p : List UInt8) :
    decode64Check ⟨3, l, out⟩ p = paddingInvalid decode64_table l p 1 := rfl

theorem decode64Step_zero (d l : ℕ) (out : List UInt8) : decode64Step ⟨0, l, out⟩ d = ⟨1, d, out⟩ :=
  rfl

/-- A character the table accepts is the symbol of a value below 64. -/
theorem eq_pbase64_of_ne {c : UInt8} (h : decode64_table c ≠ -1) : ∃ d < 64, c = pbase64 d := by
  obtain ⟨hsym, hpos, hlt⟩ := decode64_table_of_ne h
  exact ⟨(decode64_table c).toNat, by omega, hsym.symm⟩

section Decode64

variable {step : BitState → ℕ → BitState} {check : BitState → List UInt8 → Except String Bool}

theorem decodeFrom_pbase64 {i : ℕ} (hi : i < 64) (st : BitState) (p : List UInt8) :
    decodeFrom decode64_table step check st (pbase64 i :: p) =
      decodeFrom decode64_table step check (step st i) p := by
  rw [decodeFrom_cons_of_ne (by simp [decode64_table_pbase64 hi]), decode64_table_pbase64 hi]
  rfl

/-- The loop stops at padding and at the terminator. -/
theorem decodeFrom_replicate (st : BitState) (n : ℕ) :
    decodeFrom decode64_table step check st (List.replicate n '='.toUInt8) =
      (st.out, ·) <$> check st (List.replicate n '='.toUInt8) := by
  refine decodeFrom_of_stop st fun c hc ↦ ?_
  cases n with
  | zero => simp at hc
  | succ n =>
    simp only [List.replicate_succ, List.head?_cons, Option.mem_def, Option.some.injEq] at hc
    rw [← hc, decode64_table_equals]

end Decode64

/-! ### Whole groups -/

theorem foldl_encode64Step_group (l : ℕ) (out : List UInt8) (a b c : UInt8) (v : List UInt8) :
    (a :: b :: c :: v).foldl encode64Step ⟨0, l, out⟩ =
      v.foldl encode64Step ⟨0, b.toNat % 16 * 4, out ++ base64Group a.toNat b.toNat c.toNat⟩ := by
  simp only [List.foldl_cons, encode64Step_zero]
  rw [encode64Step_one (by omega), encode64Step_two (by omega)]
  simp [base64Group]

theorem encode64Finish_append (m l : ℕ) (out o : List UInt8) :
    encode64Finish ⟨m, l, out ++ o⟩ = out ++ encode64Finish ⟨m, l, o⟩ := by
  unfold encode64Finish
  split <;> simp

/-- In `mode` 0 the encoder does not read `left`. -/
theorem encode64Finish_foldl_left (l : ℕ) (out v : List UInt8) :
    encode64Finish (v.foldl encode64Step ⟨0, l, out⟩) =
      encode64Finish (v.foldl encode64Step ⟨0, 0, out⟩) := by
  cases v with
  | nil => simp [encode64Finish]
  | cons a v => rfl

/-- Three bytes encode to their four symbols, and the rest of the bytes follows. -/
theorem EncodeBase64_cons₃ (a b c : UInt8) (v : List UInt8) :
    EncodeBase64 (a :: b :: c :: v) = base64Group a.toNat b.toNat c.toNat ++ EncodeBase64 v := by
  rw [EncodeBase64, foldl_encode64Step_group, foldl_of_appendsOutput encode64Step_appendsOutput,
    encode64Finish_append, encode64Finish_foldl_left]
  rfl

theorem EncodeBase64_one (a : UInt8) :
    EncodeBase64 [a] =
      [pbase64 (a.toNat / 4), pbase64 (a.toNat % 4 * 16)] ++ List.replicate 2 '='.toUInt8 := by
  simp [EncodeBase64, encode64Step_zero, encode64Finish]

theorem EncodeBase64_two (a b : UInt8) :
    EncodeBase64 [a, b] =
      [pbase64 (a.toNat / 4), pbase64 (a.toNat % 4 * 16 + b.toNat / 16),
        pbase64 (b.toNat % 16 * 4)] ++ List.replicate 1 '='.toUInt8 := by
  simp only [EncodeBase64, List.foldl_cons, List.foldl_nil, encode64Step_zero]
  rw [encode64Step_one (by omega)]
  simp [encode64Finish]

/-! ### Bytes and symbols

The encoder cuts the bytes `a b c` of a group into the symbols of `base64Group`; the decoder
packs symbols `d₀ d₁ d₂ d₃` into the bytes `d₀ * 4 + d₁ / 16`, `d₁ % 16 * 16 + d₂ / 4` and
`d₂ % 4 * 64 + d₃`. Either way round gives back what it started from, in a whole group and, up to
its last symbol or byte, in a group cut short at the end of the data. -/

section Repack64

variable {a b c : ℕ}

theorem repack64_first (hb : b < 256) : a / 4 * 4 + (a % 4 * 16 + b / 16) / 16 = a := by omega

theorem repack64_second (hb : b < 256) (hc : c < 256) :
    (a % 4 * 16 + b / 16) % 16 * 16 + (b % 16 * 4 + c / 64) / 4 = b := by omega

variable {d₀ d₁ d₂ d₃ : ℕ}

theorem unpack64_zero (h₁ : d₁ < 64) : (d₀ * 4 + d₁ / 16) / 4 = d₀ := by omega

theorem unpack64_one (h₁ : d₁ < 64) (h₂ : d₂ < 64) :
    (d₀ * 4 + d₁ / 16) % 4 * 16 + (d₁ % 16 * 16 + d₂ / 4) / 16 = d₁ := by omega

theorem unpack64_two (h₂ : d₂ < 64) (h₃ : d₃ < 64) :
    (d₁ % 16 * 16 + d₂ / 4) % 16 * 4 + (d₂ % 4 * 64 + d₃) / 64 = d₂ := by omega

theorem unpack64_three (h₃ : d₃ < 64) : (d₂ % 4 * 64 + d₃) % 64 = d₃ := by omega

end Repack64

/-- The four symbols of three bytes decode back to those bytes. -/
theorem decodeFrom_base64Group (a b c : UInt8) (l : ℕ) (out p : List UInt8) :
    decodeFrom decode64_table decode64Step decode64Check ⟨0, l, out⟩
        (base64Group a.toNat b.toNat c.toNat ++ p) =
      decodeFrom decode64_table decode64Step decode64Check
        ⟨0, c.toNat / 64, out ++ [a, b, c]⟩ p := by
  have ha := a.toNat_lt
  have hb := b.toNat_lt
  have hc := c.toNat_lt
  have h1 : a.toNat % 4 * 16 + b.toNat / 16 < 64 := by omega
  have h2 : b.toNat % 16 * 4 + c.toNat / 64 < 64 := by omega
  have h3 : c.toNat % 64 < 64 := by omega
  simp only [base64Group, List.cons_append, List.nil_append]
  rw [decodeFrom_pbase64 (by omega), decodeFrom_pbase64 h1, decodeFrom_pbase64 h2,
    decodeFrom_pbase64 h3, decode64Step_zero, decode64Step_one h1, decode64Step_two h2,
    decode64Step_three h3]
  have ea : (a.toNat / 4 * 4 + (a.toNat % 4 * 16 + b.toNat / 16) / 16).toUInt8 = a :=
    toUInt8_eq_of_toNat (repack64_first hb).symm
  have eb : ((a.toNat % 4 * 16 + b.toNat / 16) % 16 * 16 +
      (b.toNat % 16 * 4 + c.toNat / 64) / 4).toUInt8 = b :=
    toUInt8_eq_of_toNat (repack64_second hb hc).symm
  have ec : ((b.toNat % 16 * 4 + c.toNat / 64) % 4 * 64 + c.toNat % 64).toUInt8 = c :=
    toUInt8_eq_of_toNat (by omega)
  have el : (b.toNat % 16 * 4 + c.toNat / 64) % 4 = c.toNat / 64 := by omega
  rw [ea, eb, ec, el]
  simp

/-- The symbols of three decoded bytes are the four symbols they were decoded from. -/
theorem base64Group_of_symbols {d₀ d₁ d₂ d₃ : ℕ} (h₀ : d₀ < 64) (h₁ : d₁ < 64) (h₂ : d₂ < 64)
    (h₃ : d₃ < 64) :
    base64Group (d₀ * 4 + d₁ / 16).toUInt8.toNat (d₁ % 16 * 16 + d₂ / 4).toUInt8.toNat
        (d₂ % 4 * 64 + d₃).toUInt8.toNat = [pbase64 d₀, pbase64 d₁, pbase64 d₂, pbase64 d₃] := by
  rw [toNat_toUInt8_of_lt (by omega), toNat_toUInt8_of_lt (by omega),
    toNat_toUInt8_of_lt (by omega)]
  simp only [base64Group]
  rw [unpack64_zero h₁, unpack64_one h₁ h₂, unpack64_two h₂ h₃, unpack64_three h₃]

/-! ### Round trip, canonicity and reads -/

/-- Decoding what `EncodeBase64` wrote gives the bytes back, valid. -/
theorem decodeFrom_EncodeBase64 : ∀ (v : List UInt8) (l : ℕ) (out : List UInt8),
    decodeFrom decode64_table decode64Step decode64Check ⟨0, l, out⟩ (EncodeBase64 v) =
      .ok (out ++ v, false)
  | [], l, out => by simp [EncodeBase64, encode64Finish, decodeFrom, decodeLoop, decode64Check]
  | [a], l, out => by
    have ha := a.toNat_lt
    have h₁ : a.toNat % 4 * 16 < 64 := by omega
    rw [EncodeBase64_one, List.cons_append, List.cons_append, List.nil_append,
      decodeFrom_pbase64 (by omega), decodeFrom_pbase64 h₁, decode64Step_zero,
      decode64Step_one h₁, decodeFrom_replicate]
    have hleft : a.toNat % 4 * 16 % 16 = 0 := by omega
    have ea : (a.toNat / 4 * 4 + a.toNat % 4 * 16 / 16).toUInt8 = a :=
      toUInt8_eq_of_toNat (by omega)
    rw [decode64Check_two, hleft, paddingInvalid_replicate _ decode64_table_zero, ea]
    rfl
  | [a, b], l, out => by
    have ha := a.toNat_lt
    have hb := b.toNat_lt
    have h₁ : a.toNat % 4 * 16 + b.toNat / 16 < 64 := by omega
    have h₂ : b.toNat % 16 * 4 < 64 := by omega
    rw [EncodeBase64_two, List.cons_append, List.cons_append, List.cons_append,
      List.nil_append, decodeFrom_pbase64 (by omega), decodeFrom_pbase64 h₁,
      decodeFrom_pbase64 h₂, decode64Step_zero, decode64Step_one h₁, decode64Step_two h₂,
      decodeFrom_replicate]
    have hleft : b.toNat % 16 * 4 % 4 = 0 := by omega
    have ea : (a.toNat / 4 * 4 + (a.toNat % 4 * 16 + b.toNat / 16) / 16).toUInt8 = a :=
      toUInt8_eq_of_toNat (repack64_first hb).symm
    have eb : ((a.toNat % 4 * 16 + b.toNat / 16) % 16 * 16 + b.toNat % 16 * 4 / 4).toUInt8 = b :=
      toUInt8_eq_of_toNat (by omega)
    rw [decode64Check_three, hleft, paddingInvalid_replicate _ decode64_table_zero, ea, eb]
    simp
  | a :: b :: c :: v, l, out => by
    rw [EncodeBase64_cons₃, decodeFrom_base64Group, decodeFrom_EncodeBase64 v]
    simp

/-- The number of `'='` that `EncodeBase64` writes after `n` symbols. -/
def base64Padding (n : ℕ) : ℕ :=
  match n % 4 with
  | 2 => 2
  | 3 => 1
  | _ => 0

theorem base64Padding_add_four (n : ℕ) : base64Padding (n + 4) = base64Padding n := by
  simp [base64Padding]

/-- `s` ends at its padding: symbols the table accepts, then exactly the number of `'='` that
their number asks for, and nothing after. -/
def EndsAtPadding (table : UInt8 → ℤ) (padding : ℕ → ℕ) (s : List UInt8) : Prop :=
  ∃ body, (∀ c ∈ body, table c ≠ -1) ∧
    s = body ++ List.replicate (padding body.length) '='.toUInt8

/-- A padded string that decodes as valid is what `EncodeBase64` writes for its bytes. -/
theorem EncodeBase64_of_decodeFrom : ∀ (body : List UInt8) (l : ℕ) (out w : List UInt8),
    (∀ c ∈ body, decode64_table c ≠ -1) →
    decodeFrom decode64_table decode64Step decode64Check ⟨0, l, out⟩
        (body ++ List.replicate (base64Padding body.length) '='.toUInt8) = .ok (w, false) →
    ∃ v, w = out ++ v ∧
      EncodeBase64 v = body ++ List.replicate (base64Padding body.length) '='.toUInt8
  | [], l, out, w, _, hdec => by
    simp [base64Padding, decodeFrom, decodeLoop, decode64Check] at hdec
    exact ⟨[], by simp [hdec], by simp [EncodeBase64, encode64Finish, base64Padding]⟩
  | [c₀], l, out, w, hvalid, hdec => by
    obtain ⟨d₀, h₀, rfl⟩ := eq_pbase64_of_ne (hvalid c₀ (by simp))
    simp only [List.length_singleton, List.singleton_append] at hdec
    rw [decodeFrom_pbase64 h₀, decode64Step_zero, decodeFrom_replicate] at hdec
    simp [decode64Check] at hdec
  | [c₀, c₁], l, out, w, hvalid, hdec => by
    obtain ⟨d₀, h₀, rfl⟩ := eq_pbase64_of_ne (hvalid c₀ (by simp))
    obtain ⟨d₁, h₁, rfl⟩ := eq_pbase64_of_ne (hvalid c₁ (by simp))
    have hpad : base64Padding [pbase64 d₀, pbase64 d₁].length = 2 := rfl
    rw [hpad] at hdec ⊢
    rw [List.cons_append, List.cons_append, List.nil_append, decodeFrom_pbase64 h₀,
      decodeFrom_pbase64 h₁, decode64Step_zero, decode64Step_one h₁, decodeFrom_replicate] at hdec
    have hleft : d₁ % 16 = 0 := by
      by_contra hne
      simp [decode64Check, paddingInvalid, hne] at hdec
    simp only [decode64Check, hleft, paddingInvalid_replicate _ decode64_table_zero,
      Functor.map, Except.map, Except.ok.injEq, Prod.mk.injEq, and_true] at hdec
    refine ⟨[(d₀ * 4 + d₁ / 16).toUInt8], hdec.symm, ?_⟩
    rw [EncodeBase64_one, toNat_toUInt8_of_lt (by omega), unpack64_zero h₁]
    simp only [List.cons_append, List.nil_append, List.cons.injEq, and_true, true_and]
    -- the last symbol: the padding check cleared the bits that no byte holds
    exact congrArg pbase64 (by omega)
  | [c₀, c₁, c₂], l, out, w, hvalid, hdec => by
    obtain ⟨d₀, h₀, rfl⟩ := eq_pbase64_of_ne (hvalid c₀ (by simp))
    obtain ⟨d₁, h₁, rfl⟩ := eq_pbase64_of_ne (hvalid c₁ (by simp))
    obtain ⟨d₂, h₂, rfl⟩ := eq_pbase64_of_ne (hvalid c₂ (by simp))
    have hpad : base64Padding [pbase64 d₀, pbase64 d₁, pbase64 d₂].length = 1 := rfl
    rw [hpad] at hdec ⊢
    rw [List.cons_append, List.cons_append, List.cons_append, List.nil_append,
      decodeFrom_pbase64 h₀, decodeFrom_pbase64 h₁, decodeFrom_pbase64 h₂, decode64Step_zero,
      decode64Step_one h₁, decode64Step_two h₂, decodeFrom_replicate] at hdec
    have hleft : d₂ % 4 = 0 := by
      by_contra hne
      simp [decode64Check, paddingInvalid, hne] at hdec
    simp only [decode64Check, hleft, paddingInvalid_replicate _ decode64_table_zero,
      Functor.map, Except.map, Except.ok.injEq, Prod.mk.injEq, and_true] at hdec
    refine ⟨[(d₀ * 4 + d₁ / 16).toUInt8, (d₁ % 16 * 16 + d₂ / 4).toUInt8], ?_, ?_⟩
    · rw [← hdec, List.append_assoc]
      rfl
    rw [EncodeBase64_two, toNat_toUInt8_of_lt (by omega), toNat_toUInt8_of_lt (by omega),
      unpack64_zero h₁, unpack64_one h₁ h₂]
    simp only [List.cons_append, List.nil_append, List.cons.injEq, and_true, true_and]
    exact congrArg pbase64 (by omega)
  | c₀ :: c₁ :: c₂ :: c₃ :: body, l, out, w, hvalid, hdec => by
    obtain ⟨d₀, h₀, rfl⟩ := eq_pbase64_of_ne (hvalid c₀ (by simp))
    obtain ⟨d₁, h₁, rfl⟩ := eq_pbase64_of_ne (hvalid c₁ (by simp))
    obtain ⟨d₂, h₂, rfl⟩ := eq_pbase64_of_ne (hvalid c₂ (by simp))
    obtain ⟨d₃, h₃, rfl⟩ := eq_pbase64_of_ne (hvalid c₃ (by simp))
    have hpad : base64Padding (pbase64 d₀ :: pbase64 d₁ :: pbase64 d₂ :: pbase64 d₃ :: body).length
        = base64Padding body.length := base64Padding_add_four _
    rw [hpad] at hdec ⊢
    simp only [List.cons_append] at hdec
    rw [decodeFrom_pbase64 h₀, decodeFrom_pbase64 h₁, decodeFrom_pbase64 h₂,
      decodeFrom_pbase64 h₃, decode64Step_zero, decode64Step_one h₁, decode64Step_two h₂,
      decode64Step_three h₃] at hdec
    obtain ⟨v, hw, hv⟩ := EncodeBase64_of_decodeFrom body _ _ w
      (fun c hc ↦ hvalid c (by simp [hc])) hdec
    refine ⟨(d₀ * 4 + d₁ / 16).toUInt8 :: (d₁ % 16 * 16 + d₂ / 4).toUInt8 ::
      (d₂ % 4 * 64 + d₃).toUInt8 :: v, by simp [hw], ?_⟩
    rw [EncodeBase64_cons₃, base64Group_of_symbols h₀ h₁ h₂ h₃, hv]
    rfl

/-- `DecodeBase64` gives back the bytes `EncodeBase64` wrote, with `*pfInvalid` false. -/
theorem DecodeBase64_EncodeBase64 (v : List UInt8) : DecodeBase64 (EncodeBase64 v) = .ok (v, false) :=
  decodeFrom_EncodeBase64 v 0 []

example : EncodeBase64 [0x61, 0x62, 0x63, 0x64] = "YWJjZA==".toList.map Char.toUInt8 := by decide

/-- A string that `DecodeBase64` accepts as valid and that ends at its padding is what
`EncodeBase64` writes for the bytes it decodes to. -/
theorem EncodeBase64_DecodeBase64 {s v : List UInt8} (hdec : DecodeBase64 s = .ok (v, false))
    (hs : EndsAtPadding decode64_table base64Padding s) : EncodeBase64 v = s := by
  obtain ⟨body, hvalid, rfl⟩ := hs
  obtain ⟨v', hv, henc⟩ := EncodeBase64_of_decodeFrom body 0 [] v hvalid hdec
  rw [hv, List.nil_append, henc]

theorem decode64Check_ok (st : BitState) (p : List UInt8) : ∃ b, decode64Check st p = .ok b := by
  unfold decode64Check
  split
  · exact ⟨false, rfl⟩
  · exact ⟨true, rfl⟩
  · exact paddingInvalid_ok _ _ _ _
  · exact paddingInvalid_ok _ _ _ _
  · exact ⟨false, rfl⟩

/-- `DecodeBase64` reads nothing past the terminator. -/
theorem DecodeBase64_ok (p : List UInt8) : ∃ r, DecodeBase64 p = .ok r :=
  decodeFrom_ok decode64Check_ok _ p

/-! ## Base32 -/

/-- `pbase32[i]`. -/
def pbase32 (i : ℕ) : UInt8 :=
  ("abcdefghijklmnopqrstuvwxyz234567".toList.map Char.toUInt8).getD i 0

/-- `decode32_table[c]`. -/
def decode32_table (c : UInt8) : ℤ :=
  (List.flatten
    ([[-1, -1, -1, -1, -1, -1, -1, -1, -1, -1, -1, -1, -1, -1, -1, -1, -1, -1],
     [-1, -1, -1, -1, -1, -1, -1, -1, -1, -1, -1, -1, -1, -1, -1, -1, -1, -1],
     [-1, -1, -1, -1, -1, -1, -1, -1, -1, -1, -1, -1, -1, -1, 26, 27, 28, 29],
     [30, 31, -1, -1, -1, -1, -1, -1, -1, -1, -1, 0, 1, 2, 3, 4, 5, 6],
     [7, 8, 9, 10, 11, 12, 13, 14, 15, 16, 17, 18, 19, 20, 21, 22, 23, 24],
     [25, -1, -1, -1, -1, -1, -1, 0, 1, 2, 3, 4, 5, 6, 7, 8, 9, 10],
     [11, 12, 13, 14, 15, 16, 17, 18, 19, 20, 21, 22, 23, 24, 25, -1, -1, -1],
     [-1, -1, -1, -1, -1, -1, -1, -1, -1, -1, -1, -1, -1, -1, -1, -1, -1, -1],
     [-1, -1, -1, -1, -1, -1, -1, -1, -1, -1, -1, -1, -1, -1, -1, -1, -1, -1],
     [-1, -1, -1, -1, -1, -1, -1, -1, -1, -1, -1, -1, -1, -1, -1, -1, -1, -1],
     [-1, -1, -1, -1, -1, -1, -1, -1, -1, -1, -1, -1, -1, -1, -1, -1, -1, -1],
     [-1, -1, -1, -1, -1, -1, -1, -1, -1, -1, -1, -1, -1, -1, -1, -1, -1, -1],
     [-1, -1, -1, -1, -1, -1, -1, -1, -1, -1, -1, -1, -1, -1, -1, -1, -1, -1],
     [-1, -1, -1, -1, -1, -1, -1, -1, -1, -1, -1, -1, -1, -1, -1, -1, -1, -1],
     [-1, -1, -1, -1]] : List (List ℤ))).getD c.toNat (-1)

/-- One pass of the encoding loop of `EncodeBase32` on the byte `enc`. -/
def encode32Step (st : BitState) (enc : UInt8) : BitState :=
  match st.mode with
  | 0 => ⟨1, (enc.toNat &&& 7) <<< 2, st.out ++ [pbase32 (enc.toNat >>> 3)]⟩
  | 1 => ⟨2, (enc.toNat &&& 1) <<< 4,
      st.out ++ [pbase32 (st.left ||| enc.toNat >>> 6), pbase32 ((enc.toNat >>> 1) &&& 31)]⟩
  | 2 => ⟨3, (enc.toNat &&& 15) <<< 1, st.out ++ [pbase32 (st.left ||| enc.toNat >>> 4)]⟩
  | 3 => ⟨4, (enc.toNat &&& 3) <<< 3,
      st.out ++ [pbase32 (st.left ||| enc.toNat >>> 7), pbase32 ((enc.toNat >>> 2) &&& 31)]⟩
  | 4 => ⟨0, st.left,
      st.out ++ [pbase32 (st.left ||| enc.toNat >>> 5), pbase32 (enc.toNat &&& 31)]⟩
  | _ => st

/-- `nPadding[mode]`. -/
def nPadding (mode : ℕ) : ℕ := [0, 6, 4, 3, 1].getD mode 0

/-- The end of `EncodeBase32`: the last symbol and the padding of an unfinished group. -/
def encode32Finish (st : BitState) : List UInt8 :=
  if st.mode ≠ 0 then
    st.out ++ pbase32 st.left :: List.replicate (nPadding st.mode) '='.toUInt8
  else st.out

/-- `EncodeBase32(pch, len)`. -/
def EncodeBase32 (v : List UInt8) : List UInt8 :=
  encode32Finish (v.foldl encode32Step ⟨0, 0, []⟩)

/-- One pass of the decoding loop of `DecodeBase32` on the symbol value `dec`. -/
def decode32Step (st : BitState) (dec : ℕ) : BitState :=
  match st.mode with
  | 0 => ⟨1, dec, st.out⟩
  | 1 => ⟨2, dec &&& 3, st.out ++ [(st.left <<< 3 ||| dec >>> 2).toUInt8]⟩
  | 2 => ⟨3, st.left <<< 5 ||| dec, st.out⟩
  | 3 => ⟨4, dec &&& 15, st.out ++ [(st.left <<< 1 ||| dec >>> 4).toUInt8]⟩
  | 4 => ⟨5, dec &&& 1, st.out ++ [(st.left <<< 4 ||| dec >>> 1).toUInt8]⟩
  | 5 => ⟨6, st.left <<< 5 ||| dec, st.out⟩
  | 6 => ⟨7, dec &&& 7, st.out ++ [(st.left <<< 2 ||| dec >>> 3).toUInt8]⟩
  | 7 => ⟨0, st.left, st.out ++ [(st.left <<< 5 ||| dec).toUInt8]⟩
  | _ => st

/-- The `switch (mode)` that sets `*pfInvalid` at the end of `DecodeBase32`. -/
def decode32Check (st : BitState) (p : List UInt8) : Except String Bool :=
  match st.mode with
  | 0 => pure false
  | 1 | 3 | 6 => pure true
  | 2 => paddingInvalid decode32_table st.left p 6
  | 4 => paddingInvalid decode32_table st.left p 4
  | 5 => paddingInvalid decode32_table st.left p 3
  | 7 => paddingInvalid decode32_table st.left p 1
  | _ => pure false

/-- `DecodeBase32(p, pfInvalid)`: the bytes and `*pfInvalid`. -/
def DecodeBase32 (p : List UInt8) : Except String (List UInt8 × Bool) :=
  decodeFrom decode32_table decode32Step decode32Check ⟨0, 0, []⟩ p

/-! ### The alphabet and the table -/

/-- The ASCII lower case of a character. -/
def toLowerAscii (c : UInt8) : UInt8 := if 65 ≤ c ∧ c ≤ 90 then c + 32 else c

theorem decode32_table_pbase32 {i : ℕ} (h : i < 32) : decode32_table (pbase32 i) = i := by
  have hall : ∀ i < 32, decode32_table (pbase32 i) = i := by decide +kernel
  exact hall i h

/-- The table accepts both cases of the letters: the symbol of a value the table gives is the
lower case of the character. -/
theorem decode32_table_of_ne {c : UInt8} (h : decode32_table c ≠ -1) :
    pbase32 (decode32_table c).toNat = toLowerAscii c ∧ 0 ≤ decode32_table c ∧
      decode32_table c < 32 := by
  have hall : ∀ n : ℕ, n < 256 → decode32_table n.toUInt8 ≠ -1 →
      pbase32 (decode32_table n.toUInt8).toNat = toLowerAscii n.toUInt8 ∧
        0 ≤ decode32_table n.toUInt8 ∧ decode32_table n.toUInt8 < 32 := by
    decide +kernel
  have hc : c.toNat.toUInt8 = c := toUInt8_eq_of_toNat rfl
  rw [← hc] at h ⊢
  exact hall c.toNat c.toNat_lt h

theorem decode32_table_zero : decode32_table 0 = -1 := by decide

theorem decode32_table_equals : decode32_table '='.toUInt8 = -1 := by decide

theorem toLowerAscii_equals : toLowerAscii '='.toUInt8 = '='.toUInt8 := by decide

/-- A character the table accepts has a value below 32 whose symbol is its lower case. -/
theorem symbol32_of_ne {c : UInt8} (h : decode32_table c ≠ -1) :
    ∃ d : ℕ, d < 32 ∧ decode32_table c = d ∧ toLowerAscii c = pbase32 d := by
  obtain ⟨hsym, hpos, hlt⟩ := decode32_table_of_ne h
  exact ⟨(decode32_table c).toNat, by omega, by omega, hsym.symm⟩

/-! ### The steps as arithmetic -/

/-- The eight symbols of the group of bytes `a b c d e`. -/
def base32Group (a b c d e : ℕ) : List UInt8 :=
  [pbase32 (a / 8), pbase32 (a % 8 * 4 + b / 64), pbase32 (b / 2 % 32),
    pbase32 (b % 2 * 16 + c / 16), pbase32 (c % 16 * 2 + d / 128), pbase32 (d / 4 % 32),
    pbase32 (d % 4 * 8 + e / 32), pbase32 (e % 32)]

theorem encode32Step_zero (l : ℕ) (out : List UInt8) (a : UInt8) :
    encode32Step ⟨0, l, out⟩ a = ⟨1, a.toNat % 8 * 4, out ++ [pbase32 (a.toNat / 8)]⟩ := by
  simp [encode32Step, and_mask (m := 7) 3 rfl, Nat.shiftLeft_eq, Nat.shiftRight_eq_div_pow]

theorem encode32Step_one {l : ℕ} (hl : l % 4 = 0) (out : List UInt8) (b : UInt8) :
    encode32Step ⟨1, l, out⟩ b =
      ⟨2, b.toNat % 2 * 16, out ++ [pbase32 (l + b.toNat / 64), pbase32 (b.toNat / 2 % 32)]⟩ := by
  have hb := b.toNat_lt
  have hor : l ||| b.toNat >>> 6 = l + b.toNat / 64 := by
    rw [or_eq_add_of_mod (k := 2) hl (by omega)]
    omega
  simp only [encode32Step]
  rw [hor]
  simp [and_mask (m := 1) 1 rfl, and_mask (m := 31) 5 rfl, Nat.shiftLeft_eq,
    Nat.shiftRight_eq_div_pow]

theorem encode32Step_two {l : ℕ} (hl : l % 16 = 0) (out : List UInt8) (c : UInt8) :
    encode32Step ⟨2, l, out⟩ c = ⟨3, c.toNat % 16 * 2, out ++ [pbase32 (l + c.toNat / 16)]⟩ := by
  have hc := c.toNat_lt
  have hor : l ||| c.toNat >>> 4 = l + c.toNat / 16 := by
    rw [or_eq_add_of_mod (k := 4) hl (by omega)]
    omega
  simp [encode32Step, hor, and_mask (m := 15) 4 rfl, Nat.shiftLeft_eq]

theorem encode32Step_three {l : ℕ} (hl : l % 2 = 0) (out : List UInt8) (d : UInt8) :
    encode32Step ⟨3, l, out⟩ d =
      ⟨4, d.toNat % 4 * 8, out ++ [pbase32 (l + d.toNat / 128), pbase32 (d.toNat / 4 % 32)]⟩ := by
  have hd := d.toNat_lt
  have hor : l ||| d.toNat >>> 7 = l + d.toNat / 128 := by
    rw [or_eq_add_of_mod (k := 1) hl (by omega)]
    omega
  simp only [encode32Step]
  rw [hor]
  simp [and_mask (m := 3) 2 rfl, and_mask (m := 31) 5 rfl, Nat.shiftLeft_eq,
    Nat.shiftRight_eq_div_pow]

theorem encode32Step_four {l : ℕ} (hl : l % 8 = 0) (out : List UInt8) (e : UInt8) :
    encode32Step ⟨4, l, out⟩ e =
      ⟨0, l, out ++ [pbase32 (l + e.toNat / 32), pbase32 (e.toNat % 32)]⟩ := by
  have he := e.toNat_lt
  have hor : l ||| e.toNat >>> 5 = l + e.toNat / 32 := by
    rw [or_eq_add_of_mod (k := 3) hl (by omega)]
    omega
  simp [encode32Step, hor, and_mask (m := 31) 5 rfl]

theorem encode32Step_appendsOutput : AppendsOutput encode32Step := by
  intro m l out a
  rcases m with _ | _ | _ | _ | _ | m <;> simp [encode32Step]

section Decode32

variable {d : ℕ} (hd : d < 32) (l : ℕ) (out : List UInt8)
include hd

theorem decode32Step_one :
    decode32Step ⟨1, l, out⟩ d = ⟨2, d % 4, out ++ [(l * 8 + d / 4).toUInt8]⟩ := by
  simp only [decode32Step]
  rw [shiftLeft_or_eq (show d >>> 2 < 2 ^ 3 by omega), and_mask (m := 3) 2 rfl]
  simp [Nat.shiftRight_eq_div_pow]

theorem decode32Step_two : decode32Step ⟨2, l, out⟩ d = ⟨3, l * 32 + d, out⟩ := by
  simp only [decode32Step]
  rw [shiftLeft_or_eq (show d < 2 ^ 5 by omega)]
  simp

theorem decode32Step_three :
    decode32Step ⟨3, l, out⟩ d = ⟨4, d % 16, out ++ [(l * 2 + d / 16).toUInt8]⟩ := by
  simp only [decode32Step]
  rw [shiftLeft_or_eq (show d >>> 4 < 2 ^ 1 by omega), and_mask (m := 15) 4 rfl]
  simp [Nat.shiftRight_eq_div_pow]

theorem decode32Step_four :
    decode32Step ⟨4, l, out⟩ d = ⟨5, d % 2, out ++ [(l * 16 + d / 2).toUInt8]⟩ := by
  simp only [decode32Step]
  rw [shiftLeft_or_eq (show d >>> 1 < 2 ^ 4 by omega), and_mask (m := 1) 1 rfl]
  simp [Nat.shiftRight_eq_div_pow]

theorem decode32Step_five : decode32Step ⟨5, l, out⟩ d = ⟨6, l * 32 + d, out⟩ := by
  simp only [decode32Step]
  rw [shiftLeft_or_eq (show d < 2 ^ 5 by omega)]
  simp

theorem decode32Step_six :
    decode32Step ⟨6, l, out⟩ d = ⟨7, d % 8, out ++ [(l * 4 + d / 8).toUInt8]⟩ := by
  simp only [decode32Step]
  rw [shiftLeft_or_eq (show d >>> 3 < 2 ^ 2 by omega), and_mask (m := 7) 3 rfl]
  simp [Nat.shiftRight_eq_div_pow]

theorem decode32Step_seven :
    decode32Step ⟨7, l, out⟩ d = ⟨0, l, out ++ [(l * 32 + d).toUInt8]⟩ := by
  simp only [decode32Step]
  rw [shiftLeft_or_eq (show d < 2 ^ 5 by omega)]
  simp

end Decode32

theorem decode32Step_zero (d l : ℕ) (out : List UInt8) : decode32Step ⟨0, l, out⟩ d = ⟨1, d, out⟩ :=
  rfl

theorem decode32Check_two (l : ℕ) (out p : List UInt8) :
    decode32Check ⟨2, l, out⟩ p = paddingInvalid decode32_table l p 6 := rfl

theorem decode32Check_four (l : ℕ) (out p : List UInt8) :
    decode32Check ⟨4, l, out⟩ p = paddingInvalid decode32_table l p 4 := rfl

theorem decode32Check_five (l : ℕ) (out p : List UInt8) :
    decode32Check ⟨5, l, out⟩ p = paddingInvalid decode32_table l p 3 := rfl

theorem decode32Check_seven (l : ℕ) (out p : List UInt8) :
    decode32Check ⟨7, l, out⟩ p = paddingInvalid decode32_table l p 1 := rfl

section Decode32From

variable {step : BitState → ℕ → BitState} {check : BitState → List UInt8 → Except String Bool}

theorem decodeFrom_pbase32 {i : ℕ} (hi : i < 32) (st : BitState) (p : List UInt8) :
    decodeFrom decode32_table step check st (pbase32 i :: p) =
      decodeFrom decode32_table step check (step st i) p :=
  decodeFrom_cons_of_eq (decode32_table_pbase32 hi) st p

theorem decodeFrom_replicate32 (st : BitState) (n : ℕ) :
    decodeFrom decode32_table step check st (List.replicate n '='.toUInt8) =
      (st.out, ·) <$> check st (List.replicate n '='.toUInt8) := by
  refine decodeFrom_of_stop st fun c hc ↦ ?_
  cases n with
  | zero => simp at hc
  | succ n =>
    simp only [List.replicate_succ, List.head?_cons, Option.mem_def, Option.some.injEq] at hc
    rw [← hc, decode32_table_equals]

end Decode32From

/-! ### Whole groups -/

theorem foldl_encode32Step_group (l : ℕ) (out : List UInt8) (a b c d e : UInt8)
    (v : List UInt8) :
    (a :: b :: c :: d :: e :: v).foldl encode32Step ⟨0, l, out⟩ =
      v.foldl encode32Step
        ⟨0, d.toNat % 4 * 8, out ++ base32Group a.toNat b.toNat c.toNat d.toNat e.toNat⟩ := by
  simp only [List.foldl_cons, encode32Step_zero]
  rw [encode32Step_one (by omega), encode32Step_two (by omega), encode32Step_three (by omega),
    encode32Step_four (by omega)]
  simp [base32Group]

theorem encode32Finish_append (m l : ℕ) (out o : List UInt8) :
    encode32Finish ⟨m, l, out ++ o⟩ = out ++ encode32Finish ⟨m, l, o⟩ := by
  unfold encode32Finish
  split <;> simp

/-- In `mode` 0 the encoder does not read `left`. -/
theorem encode32Finish_foldl_left (l : ℕ) (out v : List UInt8) :
    encode32Finish (v.foldl encode32Step ⟨0, l, out⟩) =
      encode32Finish (v.foldl encode32Step ⟨0, 0, out⟩) := by
  cases v with
  | nil => simp [encode32Finish]
  | cons a v => rfl

/-- Five bytes encode to their eight symbols, and the rest of the bytes follows. -/
theorem EncodeBase32_cons₅ (a b c d e : UInt8) (v : List UInt8) :
    EncodeBase32 (a :: b :: c :: d :: e :: v) =
      base32Group a.toNat b.toNat c.toNat d.toNat e.toNat ++ EncodeBase32 v := by
  rw [EncodeBase32, foldl_encode32Step_group, foldl_of_appendsOutput encode32Step_appendsOutput,
    encode32Finish_append, encode32Finish_foldl_left]
  rfl

theorem EncodeBase32_one (a : UInt8) :
    EncodeBase32 [a] =
      [pbase32 (a.toNat / 8), pbase32 (a.toNat % 8 * 4)] ++ List.replicate 6 '='.toUInt8 := by
  simp [EncodeBase32, encode32Step_zero, encode32Finish, nPadding]

theorem EncodeBase32_two (a b : UInt8) :
    EncodeBase32 [a, b] =
      [pbase32 (a.toNat / 8), pbase32 (a.toNat % 8 * 4 + b.toNat / 64), pbase32 (b.toNat / 2 % 32),
        pbase32 (b.toNat % 2 * 16)] ++ List.replicate 4 '='.toUInt8 := by
  simp only [EncodeBase32, List.foldl_cons, List.foldl_nil, encode32Step_zero]
  rw [encode32Step_one (by omega)]
  simp [encode32Finish, nPadding]

theorem EncodeBase32_three (a b c : UInt8) :
    EncodeBase32 [a, b, c] =
      [pbase32 (a.toNat / 8), pbase32 (a.toNat % 8 * 4 + b.toNat / 64), pbase32 (b.toNat / 2 % 32),
        pbase32 (b.toNat % 2 * 16 + c.toNat / 16), pbase32 (c.toNat % 16 * 2)] ++
        List.replicate 3 '='.toUInt8 := by
  simp only [EncodeBase32, List.foldl_cons, List.foldl_nil, encode32Step_zero]
  rw [encode32Step_one (by omega), encode32Step_two (by omega)]
  simp [encode32Finish, nPadding]

theorem EncodeBase32_four (a b c d : UInt8) :
    EncodeBase32 [a, b, c, d] =
      [pbase32 (a.toNat / 8), pbase32 (a.toNat % 8 * 4 + b.toNat / 64), pbase32 (b.toNat / 2 % 32),
        pbase32 (b.toNat % 2 * 16 + c.toNat / 16), pbase32 (c.toNat % 16 * 2 + d.toNat / 128),
        pbase32 (d.toNat / 4 % 32), pbase32 (d.toNat % 4 * 8)] ++
        List.replicate 1 '='.toUInt8 := by
  simp only [EncodeBase32, List.foldl_cons, List.foldl_nil, encode32Step_zero]
  rw [encode32Step_one (by omega), encode32Step_two (by omega), encode32Step_three (by omega)]
  simp [encode32Finish, nPadding]

/-! ### Bytes and symbols

The encoder cuts the bytes `a b c d e` of a group into the symbols of `base32Group`; the decoder
packs symbols `d₀ … d₇` into the bytes `d₀ * 8 + d₁ / 4`, `(d₁ % 4 * 32 + d₂) * 2 + d₃ / 16`,
`d₃ % 16 * 16 + d₄ / 2`, `(d₄ % 2 * 32 + d₅) * 4 + d₆ / 8` and `d₆ % 8 * 32 + d₇`. Either way round
gives back what it started from. A group cut short at the end of the data shares these facts
with the whole groups up to its last symbol or byte, which reads nothing after it. -/

section Repack32

variable {a b c d : ℕ}

theorem repack32_first (hb : b < 256) : a / 8 * 8 + (a % 8 * 4 + b / 64) / 4 = a := by omega

theorem repack32_second (hb : b < 256) (hc : c < 256) :
    ((a % 8 * 4 + b / 64) % 4 * 32 + b / 2 % 32) * 2 + (b % 2 * 16 + c / 16) / 16 = b := by
  omega

theorem repack32_third (hc : c < 256) (hd : d < 256) :
    (b % 2 * 16 + c / 16) % 16 * 16 + (c % 16 * 2 + d / 128) / 2 = c := by omega

variable {d₀ d₁ d₂ d₃ d₄ d₅ d₆ d₇ : ℕ}

theorem unpack32_zero (h₁ : d₁ < 32) : (d₀ * 8 + d₁ / 4) / 8 = d₀ := by omega

theorem unpack32_one (h₁ : d₁ < 32) (h₂ : d₂ < 32) (h₃ : d₃ < 32) :
    (d₀ * 8 + d₁ / 4) % 8 * 4 + ((d₁ % 4 * 32 + d₂) * 2 + d₃ / 16) / 64 = d₁ := by omega

theorem unpack32_two (h₂ : d₂ < 32) (h₃ : d₃ < 32) :
    ((d₁ % 4 * 32 + d₂) * 2 + d₃ / 16) / 2 % 32 = d₂ := by omega

theorem unpack32_three (h₃ : d₃ < 32) (h₄ : d₄ < 32) :
    ((d₁ % 4 * 32 + d₂) * 2 + d₃ / 16) % 2 * 16 + (d₃ % 16 * 16 + d₄ / 2) / 16 = d₃ := by omega

theorem unpack32_four (h₄ : d₄ < 32) (h₅ : d₅ < 32) (h₆ : d₆ < 32) :
    (d₃ % 16 * 16 + d₄ / 2) % 16 * 2 + ((d₄ % 2 * 32 + d₅) * 4 + d₆ / 8) / 128 = d₄ := by omega

theorem unpack32_five (h₅ : d₅ < 32) (h₆ : d₆ < 32) :
    ((d₄ % 2 * 32 + d₅) * 4 + d₆ / 8) / 4 % 32 = d₅ := by omega

theorem unpack32_six (h₆ : d₆ < 32) (h₇ : d₇ < 32) :
    ((d₄ % 2 * 32 + d₅) * 4 + d₆ / 8) % 4 * 8 + (d₆ % 8 * 32 + d₇) / 32 = d₆ := by omega

theorem unpack32_seven (h₇ : d₇ < 32) : (d₆ % 8 * 32 + d₇) % 32 = d₇ := by omega

end Repack32

/-- The eight symbols of five bytes decode back to those bytes. -/
theorem decodeFrom_base32Group (a b c d e : UInt8) (l : ℕ) (out p : List UInt8) :
    decodeFrom decode32_table decode32Step decode32Check ⟨0, l, out⟩
        (base32Group a.toNat b.toNat c.toNat d.toNat e.toNat ++ p) =
      decodeFrom decode32_table decode32Step decode32Check
        ⟨0, e.toNat / 32, out ++ [a, b, c, d, e]⟩ p := by
  have ha := a.toNat_lt
  have hb := b.toNat_lt
  have hc := c.toNat_lt
  have hd := d.toNat_lt
  have he := e.toNat_lt
  have h₁ : a.toNat % 8 * 4 + b.toNat / 64 < 32 := by omega
  have h₃ : b.toNat % 2 * 16 + c.toNat / 16 < 32 := by omega
  have h₄ : c.toNat % 16 * 2 + d.toNat / 128 < 32 := by omega
  have h₆ : d.toNat % 4 * 8 + e.toNat / 32 < 32 := by omega
  simp only [base32Group, List.cons_append, List.nil_append]
  rw [decodeFrom_pbase32 (by omega), decodeFrom_pbase32 h₁, decodeFrom_pbase32 (by omega),
    decodeFrom_pbase32 h₃, decodeFrom_pbase32 h₄, decodeFrom_pbase32 (by omega),
    decodeFrom_pbase32 h₆, decodeFrom_pbase32 (by omega), decode32Step_zero, decode32Step_one h₁,
    decode32Step_two (by omega), decode32Step_three h₃, decode32Step_four h₄,
    decode32Step_five (by omega), decode32Step_six h₆, decode32Step_seven (by omega)]
  have ea : (a.toNat / 8 * 8 + (a.toNat % 8 * 4 + b.toNat / 64) / 4).toUInt8 = a :=
    toUInt8_eq_of_toNat (repack32_first hb).symm
  have eb : (((a.toNat % 8 * 4 + b.toNat / 64) % 4 * 32 + b.toNat / 2 % 32) * 2 +
      (b.toNat % 2 * 16 + c.toNat / 16) / 16).toUInt8 = b :=
    toUInt8_eq_of_toNat (repack32_second hb hc).symm
  have ec : ((b.toNat % 2 * 16 + c.toNat / 16) % 16 * 16 +
      (c.toNat % 16 * 2 + d.toNat / 128) / 2).toUInt8 = c :=
    toUInt8_eq_of_toNat (repack32_third hc hd).symm
  have ed : (((c.toNat % 16 * 2 + d.toNat / 128) % 2 * 32 + d.toNat / 4 % 32) * 4 +
      (d.toNat % 4 * 8 + e.toNat / 32) / 8).toUInt8 = d := toUInt8_eq_of_toNat (by omega)
  have ee : ((d.toNat % 4 * 8 + e.toNat / 32) % 8 * 32 + e.toNat % 32).toUInt8 = e :=
    toUInt8_eq_of_toNat (by omega)
  have el : (d.toNat % 4 * 8 + e.toNat / 32) % 8 = e.toNat / 32 := by omega
  rw [ea, eb, ec, ed, ee, el]
  simp

/-! ### Round trip, canonicity and reads -/

/-- Decoding what `EncodeBase32` wrote gives the bytes back, valid. -/
theorem decodeFrom_EncodeBase32 : ∀ (v : List UInt8) (l : ℕ) (out : List UInt8),
    decodeFrom decode32_table decode32Step decode32Check ⟨0, l, out⟩ (EncodeBase32 v) =
      .ok (out ++ v, false)
  | [], l, out => by simp [EncodeBase32, encode32Finish, decodeFrom, decodeLoop, decode32Check]
  | [a], l, out => by
    have ha := a.toNat_lt
    have h₁ : a.toNat % 8 * 4 < 32 := by omega
    rw [EncodeBase32_one, List.cons_append, List.cons_append, List.nil_append,
      decodeFrom_pbase32 (by omega), decodeFrom_pbase32 h₁, decode32Step_zero,
      decode32Step_one h₁, decodeFrom_replicate32]
    have hleft : a.toNat % 8 * 4 % 4 = 0 := by omega
    have ea : (a.toNat / 8 * 8 + a.toNat % 8 * 4 / 4).toUInt8 = a := toUInt8_eq_of_toNat (by omega)
    rw [decode32Check_two, hleft, paddingInvalid_replicate _ decode32_table_zero, ea]
    rfl
  | [a, b], l, out => by
    have ha := a.toNat_lt
    have hb := b.toNat_lt
    have h₁ : a.toNat % 8 * 4 + b.toNat / 64 < 32 := by omega
    have h₃ : b.toNat % 2 * 16 < 32 := by omega
    rw [EncodeBase32_two]
    simp only [List.cons_append, List.nil_append]
    rw [decodeFrom_pbase32 (by omega), decodeFrom_pbase32 h₁, decodeFrom_pbase32 (by omega),
      decodeFrom_pbase32 h₃, decode32Step_zero, decode32Step_one h₁, decode32Step_two (by omega),
      decode32Step_three h₃, decodeFrom_replicate32]
    have hleft : b.toNat % 2 * 16 % 16 = 0 := by omega
    have ea : (a.toNat / 8 * 8 + (a.toNat % 8 * 4 + b.toNat / 64) / 4).toUInt8 = a :=
      toUInt8_eq_of_toNat (repack32_first hb).symm
    have eb : (((a.toNat % 8 * 4 + b.toNat / 64) % 4 * 32 + b.toNat / 2 % 32) * 2 +
        b.toNat % 2 * 16 / 16).toUInt8 = b := toUInt8_eq_of_toNat (by omega)
    rw [decode32Check_four, hleft, paddingInvalid_replicate _ decode32_table_zero, ea, eb]
    simp
  | [a, b, c], l, out => by
    have ha := a.toNat_lt
    have hb := b.toNat_lt
    have hc := c.toNat_lt
    have h₁ : a.toNat % 8 * 4 + b.toNat / 64 < 32 := by omega
    have h₃ : b.toNat % 2 * 16 + c.toNat / 16 < 32 := by omega
    have h₄ : c.toNat % 16 * 2 < 32 := by omega
    rw [EncodeBase32_three]
    simp only [List.cons_append, List.nil_append]
    rw [decodeFrom_pbase32 (by omega), decodeFrom_pbase32 h₁, decodeFrom_pbase32 (by omega),
      decodeFrom_pbase32 h₃, decodeFrom_pbase32 h₄, decode32Step_zero, decode32Step_one h₁,
      decode32Step_two (by omega), decode32Step_three h₃, decode32Step_four h₄,
      decodeFrom_replicate32]
    have hleft : c.toNat % 16 * 2 % 2 = 0 := by omega
    have ea : (a.toNat / 8 * 8 + (a.toNat % 8 * 4 + b.toNat / 64) / 4).toUInt8 = a :=
      toUInt8_eq_of_toNat (repack32_first hb).symm
    have eb : (((a.toNat % 8 * 4 + b.toNat / 64) % 4 * 32 + b.toNat / 2 % 32) * 2 +
        (b.toNat % 2 * 16 + c.toNat / 16) / 16).toUInt8 = b :=
      toUInt8_eq_of_toNat (repack32_second hb hc).symm
    have ec : ((b.toNat % 2 * 16 + c.toNat / 16) % 16 * 16 + c.toNat % 16 * 2 / 2).toUInt8 = c :=
      toUInt8_eq_of_toNat (by omega)
    rw [decode32Check_five, hleft, paddingInvalid_replicate _ decode32_table_zero, ea, eb, ec]
    simp
  | [a, b, c, d], l, out => by
    have ha := a.toNat_lt
    have hb := b.toNat_lt
    have hc := c.toNat_lt
    have hd := d.toNat_lt
    have h₁ : a.toNat % 8 * 4 + b.toNat / 64 < 32 := by omega
    have h₃ : b.toNat % 2 * 16 + c.toNat / 16 < 32 := by omega
    have h₄ : c.toNat % 16 * 2 + d.toNat / 128 < 32 := by omega
    have h₆ : d.toNat % 4 * 8 < 32 := by omega
    rw [EncodeBase32_four]
    simp only [List.cons_append, List.nil_append]
    rw [decodeFrom_pbase32 (by omega), decodeFrom_pbase32 h₁, decodeFrom_pbase32 (by omega),
      decodeFrom_pbase32 h₃, decodeFrom_pbase32 h₄, decodeFrom_pbase32 (by omega),
      decodeFrom_pbase32 h₆, decode32Step_zero, decode32Step_one h₁, decode32Step_two (by omega),
      decode32Step_three h₃, decode32Step_four h₄, decode32Step_five (by omega),
      decode32Step_six h₆, decodeFrom_replicate32]
    have hleft : d.toNat % 4 * 8 % 8 = 0 := by omega
    have ea : (a.toNat / 8 * 8 + (a.toNat % 8 * 4 + b.toNat / 64) / 4).toUInt8 = a :=
      toUInt8_eq_of_toNat (repack32_first hb).symm
    have eb : (((a.toNat % 8 * 4 + b.toNat / 64) % 4 * 32 + b.toNat / 2 % 32) * 2 +
        (b.toNat % 2 * 16 + c.toNat / 16) / 16).toUInt8 = b :=
      toUInt8_eq_of_toNat (repack32_second hb hc).symm
    have ec : ((b.toNat % 2 * 16 + c.toNat / 16) % 16 * 16 +
        (c.toNat % 16 * 2 + d.toNat / 128) / 2).toUInt8 = c :=
      toUInt8_eq_of_toNat (repack32_third hc hd).symm
    have ed : (((c.toNat % 16 * 2 + d.toNat / 128) % 2 * 32 + d.toNat / 4 % 32) * 4 +
        d.toNat % 4 * 8 / 8).toUInt8 = d := toUInt8_eq_of_toNat (by omega)
    rw [decode32Check_seven, hleft, paddingInvalid_replicate _ decode32_table_zero, ea, eb, ec, ed]
    simp
  | a :: b :: c :: d :: e :: v, l, out => by
    rw [EncodeBase32_cons₅, decodeFrom_base32Group, decodeFrom_EncodeBase32 v]
    simp

/-- `DecodeBase32` gives back the bytes `EncodeBase32` wrote, with `*pfInvalid` false. -/
theorem DecodeBase32_EncodeBase32 (v : List UInt8) : DecodeBase32 (EncodeBase32 v) = .ok (v, false) :=
  decodeFrom_EncodeBase32 v 0 []

/-- The number of `'='` that `EncodeBase32` writes after `n` symbols. -/
def base32Padding (n : ℕ) : ℕ :=
  match n % 8 with
  | 2 => 6
  | 4 => 4
  | 5 => 3
  | 7 => 1
  | _ => 0

theorem base32Padding_add_eight (n : ℕ) : base32Padding (n + 8) = base32Padding n := by
  simp [base32Padding]

/-- The symbols of five decoded bytes are the eight symbols they were decoded from. -/
theorem base32Group_of_symbols {d₀ d₁ d₂ d₃ d₄ d₅ d₆ d₇ : ℕ} (h₀ : d₀ < 32) (h₁ : d₁ < 32)
    (h₂ : d₂ < 32) (h₃ : d₃ < 32) (h₄ : d₄ < 32) (h₅ : d₅ < 32) (h₆ : d₆ < 32) (h₇ : d₇ < 32) :
    base32Group (d₀ * 8 + d₁ / 4).toUInt8.toNat ((d₁ % 4 * 32 + d₂) * 2 + d₃ / 16).toUInt8.toNat
        (d₃ % 16 * 16 + d₄ / 2).toUInt8.toNat ((d₄ % 2 * 32 + d₅) * 4 + d₆ / 8).toUInt8.toNat
        (d₆ % 8 * 32 + d₇).toUInt8.toNat =
      [pbase32 d₀, pbase32 d₁, pbase32 d₂, pbase32 d₃, pbase32 d₄, pbase32 d₅, pbase32 d₆,
        pbase32 d₇] := by
  rw [toNat_toUInt8_of_lt (by omega), toNat_toUInt8_of_lt (by omega),
    toNat_toUInt8_of_lt (by omega), toNat_toUInt8_of_lt (by omega),
    toNat_toUInt8_of_lt (by omega)]
  simp only [base32Group]
  rw [unpack32_zero h₁, unpack32_one h₁ h₂ h₃, unpack32_two h₂ h₃, unpack32_three h₃ h₄,
    unpack32_four h₄ h₅ h₆, unpack32_five h₅ h₆, unpack32_six h₆ h₇, unpack32_seven h₇]

/-- A padded string that decodes as valid is, in lower case, what `EncodeBase32` writes for its
bytes. -/
theorem EncodeBase32_of_decodeFrom : ∀ (body : List UInt8) (l : ℕ) (out w : List UInt8),
    (∀ c ∈ body, decode32_table c ≠ -1) →
    decodeFrom decode32_table decode32Step decode32Check ⟨0, l, out⟩
        (body ++ List.replicate (base32Padding body.length) '='.toUInt8) = .ok (w, false) →
    ∃ v, w = out ++ v ∧ EncodeBase32 v =
      body.map toLowerAscii ++ List.replicate (base32Padding body.length) '='.toUInt8
  | [], l, out, w, _, hdec => by
    simp [base32Padding, decodeFrom, decodeLoop, decode32Check] at hdec
    exact ⟨[], by simp [hdec], by simp [EncodeBase32, encode32Finish, base32Padding]⟩
  | [c₀], l, out, w, hvalid, hdec => by
    obtain ⟨d₀, h₀, e₀, l₀⟩ := symbol32_of_ne (hvalid c₀ (by simp))
    simp only [List.length_singleton, List.singleton_append] at hdec
    rw [decodeFrom_cons_of_eq e₀, decode32Step_zero, decodeFrom_replicate32] at hdec
    simp [decode32Check] at hdec
  | [c₀, c₁], l, out, w, hvalid, hdec => by
    obtain ⟨d₀, h₀, e₀, l₀⟩ := symbol32_of_ne (hvalid c₀ (by simp))
    obtain ⟨d₁, h₁, e₁, l₁⟩ := symbol32_of_ne (hvalid c₁ (by simp))
    have hpad : base32Padding [c₀, c₁].length = 6 := rfl
    rw [hpad] at hdec ⊢
    rw [List.cons_append, List.cons_append, List.nil_append, decodeFrom_cons_of_eq e₀,
      decodeFrom_cons_of_eq e₁, decode32Step_zero, decode32Step_one h₁,
      decodeFrom_replicate32] at hdec
    have hleft : d₁ % 4 = 0 := by
      by_contra hne
      simp [decode32Check, paddingInvalid, hne] at hdec
    rw [decode32Check_two, hleft, paddingInvalid_replicate _ decode32_table_zero] at hdec
    simp only [Functor.map, Except.map, Except.ok.injEq, Prod.mk.injEq, and_true] at hdec
    refine ⟨[(d₀ * 8 + d₁ / 4).toUInt8], hdec.symm, ?_⟩
    rw [EncodeBase32_one, toNat_toUInt8_of_lt (by omega), unpack32_zero h₁]
    simp only [List.map_cons, List.map_nil, l₀, l₁, List.cons_append, List.nil_append,
      List.cons.injEq, and_true, true_and]
    -- the last symbol: the padding check cleared the bits that no byte holds
    exact congrArg pbase32 (by omega)
  | [c₀, c₁, c₂], l, out, w, hvalid, hdec => by
    obtain ⟨d₀, h₀, e₀, l₀⟩ := symbol32_of_ne (hvalid c₀ (by simp))
    obtain ⟨d₁, h₁, e₁, l₁⟩ := symbol32_of_ne (hvalid c₁ (by simp))
    obtain ⟨d₂, h₂, e₂, l₂⟩ := symbol32_of_ne (hvalid c₂ (by simp))
    simp only [List.length_cons, List.length_nil, List.cons_append, List.nil_append] at hdec
    rw [decodeFrom_cons_of_eq e₀, decodeFrom_cons_of_eq e₁, decodeFrom_cons_of_eq e₂,
      decode32Step_zero, decode32Step_one h₁, decode32Step_two h₂, decodeFrom_replicate32] at hdec
    simp [decode32Check] at hdec
  | [c₀, c₁, c₂, c₃], l, out, w, hvalid, hdec => by
    obtain ⟨d₀, h₀, e₀, l₀⟩ := symbol32_of_ne (hvalid c₀ (by simp))
    obtain ⟨d₁, h₁, e₁, l₁⟩ := symbol32_of_ne (hvalid c₁ (by simp))
    obtain ⟨d₂, h₂, e₂, l₂⟩ := symbol32_of_ne (hvalid c₂ (by simp))
    obtain ⟨d₃, h₃, e₃, l₃⟩ := symbol32_of_ne (hvalid c₃ (by simp))
    have hpad : base32Padding [c₀, c₁, c₂, c₃].length = 4 := rfl
    rw [hpad] at hdec ⊢
    simp only [List.cons_append, List.nil_append] at hdec
    rw [decodeFrom_cons_of_eq e₀, decodeFrom_cons_of_eq e₁, decodeFrom_cons_of_eq e₂,
      decodeFrom_cons_of_eq e₃, decode32Step_zero, decode32Step_one h₁, decode32Step_two h₂,
      decode32Step_three h₃, decodeFrom_replicate32] at hdec
    have hleft : d₃ % 16 = 0 := by
      by_contra hne
      simp [decode32Check, paddingInvalid, hne] at hdec
    rw [decode32Check_four, hleft, paddingInvalid_replicate _ decode32_table_zero] at hdec
    simp only [Functor.map, Except.map, Except.ok.injEq, Prod.mk.injEq, and_true] at hdec
    refine ⟨[(d₀ * 8 + d₁ / 4).toUInt8, ((d₁ % 4 * 32 + d₂) * 2 + d₃ / 16).toUInt8], ?_, ?_⟩
    · rw [← hdec]
      simp
    rw [EncodeBase32_two, toNat_toUInt8_of_lt (by omega), toNat_toUInt8_of_lt (by omega),
      unpack32_zero h₁, unpack32_one h₁ h₂ h₃, unpack32_two h₂ h₃]
    simp only [List.map_cons, List.map_nil, l₀, l₁, l₂, l₃, List.cons_append, List.nil_append,
      List.cons.injEq, and_true, true_and]
    exact congrArg pbase32 (by omega)
  | [c₀, c₁, c₂, c₃, c₄], l, out, w, hvalid, hdec => by
    obtain ⟨d₀, h₀, e₀, l₀⟩ := symbol32_of_ne (hvalid c₀ (by simp))
    obtain ⟨d₁, h₁, e₁, l₁⟩ := symbol32_of_ne (hvalid c₁ (by simp))
    obtain ⟨d₂, h₂, e₂, l₂⟩ := symbol32_of_ne (hvalid c₂ (by simp))
    obtain ⟨d₃, h₃, e₃, l₃⟩ := symbol32_of_ne (hvalid c₃ (by simp))
    obtain ⟨d₄, h₄, e₄, l₄⟩ := symbol32_of_ne (hvalid c₄ (by simp))
    have hpad : base32Padding [c₀, c₁, c₂, c₃, c₄].length = 3 := rfl
    rw [hpad] at hdec ⊢
    simp only [List.cons_append, List.nil_append] at hdec
    rw [decodeFrom_cons_of_eq e₀, decodeFrom_cons_of_eq e₁, decodeFrom_cons_of_eq e₂,
      decodeFrom_cons_of_eq e₃, decodeFrom_cons_of_eq e₄, decode32Step_zero, decode32Step_one h₁,
      decode32Step_two h₂, decode32Step_three h₃, decode32Step_four h₄,
      decodeFrom_replicate32] at hdec
    have hleft : d₄ % 2 = 0 := by
      by_contra hne
      simp [decode32Check, paddingInvalid, hne] at hdec
    rw [decode32Check_five, hleft, paddingInvalid_replicate _ decode32_table_zero] at hdec
    simp only [Functor.map, Except.map, Except.ok.injEq, Prod.mk.injEq, and_true] at hdec
    refine ⟨[(d₀ * 8 + d₁ / 4).toUInt8, ((d₁ % 4 * 32 + d₂) * 2 + d₃ / 16).toUInt8,
      (d₃ % 16 * 16 + d₄ / 2).toUInt8], ?_, ?_⟩
    · rw [← hdec]
      simp
    rw [EncodeBase32_three, toNat_toUInt8_of_lt (by omega), toNat_toUInt8_of_lt (by omega),
      toNat_toUInt8_of_lt (by omega), unpack32_zero h₁, unpack32_one h₁ h₂ h₃, unpack32_two h₂ h₃,
      unpack32_three h₃ h₄]
    simp only [List.map_cons, List.map_nil, l₀, l₁, l₂, l₃, l₄, List.cons_append, List.nil_append,
      List.cons.injEq, and_true, true_and]
    exact congrArg pbase32 (by omega)
  | [c₀, c₁, c₂, c₃, c₄, c₅], l, out, w, hvalid, hdec => by
    obtain ⟨d₀, h₀, e₀, l₀⟩ := symbol32_of_ne (hvalid c₀ (by simp))
    obtain ⟨d₁, h₁, e₁, l₁⟩ := symbol32_of_ne (hvalid c₁ (by simp))
    obtain ⟨d₂, h₂, e₂, l₂⟩ := symbol32_of_ne (hvalid c₂ (by simp))
    obtain ⟨d₃, h₃, e₃, l₃⟩ := symbol32_of_ne (hvalid c₃ (by simp))
    obtain ⟨d₄, h₄, e₄, l₄⟩ := symbol32_of_ne (hvalid c₄ (by simp))
    obtain ⟨d₅, h₅, e₅, l₅⟩ := symbol32_of_ne (hvalid c₅ (by simp))
    simp only [List.length_cons, List.length_nil, List.cons_append, List.nil_append] at hdec
    rw [decodeFrom_cons_of_eq e₀, decodeFrom_cons_of_eq e₁, decodeFrom_cons_of_eq e₂,
      decodeFrom_cons_of_eq e₃, decodeFrom_cons_of_eq e₄, decodeFrom_cons_of_eq e₅,
      decode32Step_zero, decode32Step_one h₁, decode32Step_two h₂, decode32Step_three h₃,
      decode32Step_four h₄, decode32Step_five h₅, decodeFrom_replicate32] at hdec
    simp [decode32Check] at hdec
  | [c₀, c₁, c₂, c₃, c₄, c₅, c₆], l, out, w, hvalid, hdec => by
    obtain ⟨d₀, h₀, e₀, l₀⟩ := symbol32_of_ne (hvalid c₀ (by simp))
    obtain ⟨d₁, h₁, e₁, l₁⟩ := symbol32_of_ne (hvalid c₁ (by simp))
    obtain ⟨d₂, h₂, e₂, l₂⟩ := symbol32_of_ne (hvalid c₂ (by simp))
    obtain ⟨d₃, h₃, e₃, l₃⟩ := symbol32_of_ne (hvalid c₃ (by simp))
    obtain ⟨d₄, h₄, e₄, l₄⟩ := symbol32_of_ne (hvalid c₄ (by simp))
    obtain ⟨d₅, h₅, e₅, l₅⟩ := symbol32_of_ne (hvalid c₅ (by simp))
    obtain ⟨d₆, h₆, e₆, l₆⟩ := symbol32_of_ne (hvalid c₆ (by simp))
    have hpad : base32Padding [c₀, c₁, c₂, c₃, c₄, c₅, c₆].length = 1 := rfl
    rw [hpad] at hdec ⊢
    simp only [List.cons_append, List.nil_append] at hdec
    rw [decodeFrom_cons_of_eq e₀, decodeFrom_cons_of_eq e₁, decodeFrom_cons_of_eq e₂,
      decodeFrom_cons_of_eq e₃, decodeFrom_cons_of_eq e₄, decodeFrom_cons_of_eq e₅,
      decodeFrom_cons_of_eq e₆, decode32Step_zero, decode32Step_one h₁, decode32Step_two h₂,
      decode32Step_three h₃, decode32Step_four h₄, decode32Step_five h₅, decode32Step_six h₆,
      decodeFrom_replicate32] at hdec
    have hleft : d₆ % 8 = 0 := by
      by_contra hne
      simp [decode32Check, paddingInvalid, hne] at hdec
    rw [decode32Check_seven, hleft, paddingInvalid_replicate _ decode32_table_zero] at hdec
    simp only [Functor.map, Except.map, Except.ok.injEq, Prod.mk.injEq, and_true] at hdec
    refine ⟨[(d₀ * 8 + d₁ / 4).toUInt8, ((d₁ % 4 * 32 + d₂) * 2 + d₃ / 16).toUInt8,
      (d₃ % 16 * 16 + d₄ / 2).toUInt8, ((d₄ % 2 * 32 + d₅) * 4 + d₆ / 8).toUInt8], ?_, ?_⟩
    · rw [← hdec]
      simp
    rw [EncodeBase32_four, toNat_toUInt8_of_lt (by omega), toNat_toUInt8_of_lt (by omega),
      toNat_toUInt8_of_lt (by omega), toNat_toUInt8_of_lt (by omega), unpack32_zero h₁,
      unpack32_one h₁ h₂ h₃, unpack32_two h₂ h₃, unpack32_three h₃ h₄, unpack32_four h₄ h₅ h₆,
      unpack32_five h₅ h₆]
    simp only [List.map_cons, List.map_nil, l₀, l₁, l₂, l₃, l₄, l₅, l₆, List.cons_append,
      List.nil_append, List.cons.injEq, and_true, true_and]
    exact congrArg pbase32 (by omega)
  | c₀ :: c₁ :: c₂ :: c₃ :: c₄ :: c₅ :: c₆ :: c₇ :: body, l, out, w, hvalid, hdec => by
    obtain ⟨d₀, h₀, e₀, l₀⟩ := symbol32_of_ne (hvalid c₀ (by simp))
    obtain ⟨d₁, h₁, e₁, l₁⟩ := symbol32_of_ne (hvalid c₁ (by simp))
    obtain ⟨d₂, h₂, e₂, l₂⟩ := symbol32_of_ne (hvalid c₂ (by simp))
    obtain ⟨d₃, h₃, e₃, l₃⟩ := symbol32_of_ne (hvalid c₃ (by simp))
    obtain ⟨d₄, h₄, e₄, l₄⟩ := symbol32_of_ne (hvalid c₄ (by simp))
    obtain ⟨d₅, h₅, e₅, l₅⟩ := symbol32_of_ne (hvalid c₅ (by simp))
    obtain ⟨d₆, h₆, e₆, l₆⟩ := symbol32_of_ne (hvalid c₆ (by simp))
    obtain ⟨d₇, h₇, e₇, l₇⟩ := symbol32_of_ne (hvalid c₇ (by simp))
    have hpad : base32Padding (c₀ :: c₁ :: c₂ :: c₃ :: c₄ :: c₅ :: c₆ :: c₇ :: body).length =
        base32Padding body.length := base32Padding_add_eight _
    rw [hpad] at hdec ⊢
    simp only [List.cons_append] at hdec
    rw [decodeFrom_cons_of_eq e₀, decodeFrom_cons_of_eq e₁, decodeFrom_cons_of_eq e₂,
      decodeFrom_cons_of_eq e₃, decodeFrom_cons_of_eq e₄, decodeFrom_cons_of_eq e₅,
      decodeFrom_cons_of_eq e₆, decodeFrom_cons_of_eq e₇, decode32Step_zero, decode32Step_one h₁,
      decode32Step_two h₂, decode32Step_three h₃, decode32Step_four h₄, decode32Step_five h₅,
      decode32Step_six h₆, decode32Step_seven h₇] at hdec
    obtain ⟨v, hw, hv⟩ := EncodeBase32_of_decodeFrom body _ _ w
      (fun c hc ↦ hvalid c (by simp [hc])) hdec
    refine ⟨(d₀ * 8 + d₁ / 4).toUInt8 :: ((d₁ % 4 * 32 + d₂) * 2 + d₃ / 16).toUInt8 ::
      (d₃ % 16 * 16 + d₄ / 2).toUInt8 :: ((d₄ % 2 * 32 + d₅) * 4 + d₆ / 8).toUInt8 ::
      (d₆ % 8 * 32 + d₇).toUInt8 :: v, by simp [hw], ?_⟩
    rw [EncodeBase32_cons₅, base32Group_of_symbols h₀ h₁ h₂ h₃ h₄ h₅ h₆ h₇, hv]
    simp [l₀, l₁, l₂, l₃, l₄, l₅, l₆, l₇]

/-- A string that `DecodeBase32` accepts as valid and that ends at its padding is, with its
letters in lower case, what `EncodeBase32` writes for the bytes it decodes to. -/
theorem EncodeBase32_DecodeBase32 {s v : List UInt8} (hdec : DecodeBase32 s = .ok (v, false))
    (hs : EndsAtPadding decode32_table base32Padding s) : EncodeBase32 v = s.map toLowerAscii := by
  obtain ⟨body, hvalid, rfl⟩ := hs
  obtain ⟨v', hv, henc⟩ := EncodeBase32_of_decodeFrom body 0 [] v hvalid hdec
  rw [hv, List.nil_append, henc, List.map_append, List.map_replicate, toLowerAscii_equals]

theorem decode32Check_ok (st : BitState) (p : List UInt8) : ∃ b, decode32Check st p = .ok b := by
  unfold decode32Check
  split
  · exact ⟨false, rfl⟩
  · exact ⟨true, rfl⟩
  · exact ⟨true, rfl⟩
  · exact ⟨true, rfl⟩
  all_goals first | exact paddingInvalid_ok _ _ _ _ | exact ⟨false, rfl⟩

/-- `DecodeBase32` reads nothing past the terminator. -/
theorem DecodeBase32_ok (p : List UInt8) : ∃ r, DecodeBase32 p = .ok r :=
  decodeFrom_ok decode32Check_ok _ p

/-- Both codecs round-trip every byte string with `*pfInvalid` false; a valid string that ends at
its padding is what the encoder writes for its bytes, for Base32 up to the case of its letters;
and neither decoder reads past the terminator. -/
theorem base64_base32_canonical :
    (∀ v, DecodeBase64 (EncodeBase64 v) = .ok (v, false) ∧
      DecodeBase32 (EncodeBase32 v) = .ok (v, false)) ∧
    (∀ s v, DecodeBase64 s = .ok (v, false) → EndsAtPadding decode64_table base64Padding s →
      EncodeBase64 v = s) ∧
    (∀ s v, DecodeBase32 s = .ok (v, false) → EndsAtPadding decode32_table base32Padding s →
      EncodeBase32 v = s.map toLowerAscii) ∧
    (∀ p, (∃ r, DecodeBase64 p = .ok r) ∧ ∃ r, DecodeBase32 p = .ok r) :=
  ⟨fun v ↦ ⟨DecodeBase64_EncodeBase64 v, DecodeBase32_EncodeBase32 v⟩,
    fun _ _ ↦ EncodeBase64_DecodeBase64, fun _ _ ↦ EncodeBase32_DecodeBase32,
    fun p ↦ ⟨DecodeBase64_ok p, DecodeBase32_ok p⟩⟩

/-- `"ME======"`. -/
def upperBase32 : List UInt8 := "ME======".toList.map Char.toUInt8

theorem base64_base32_canonical_on_padded :
    DecodeBase32 upperBase32 = .ok ([0x61], false) ∧
      EndsAtPadding decode32_table base32Padding upperBase32 ∧
      EncodeBase32 [0x61] = upperBase32.map toLowerAscii :=
  have hdec : DecodeBase32 upperBase32 = .ok ([0x61], false) := by decide
  have hs : EndsAtPadding decode32_table base32Padding upperBase32 :=
    ⟨"ME".toList.map Char.toUInt8, by decide +kernel, by decide⟩
  ⟨hdec, hs, base64_base32_canonical.2.2.1 _ _ hdec hs⟩

/-- `DecodeBase32` accepts `"ME======"` as valid, and it ends at its padding, but re-encoding
its bytes gives `"me======"`. -/
theorem DecodeBase32_upper_not_canonical :
    DecodeBase32 upperBase32 = .ok ([0x61], false) ∧
      EndsAtPadding decode32_table base32Padding upperBase32 ∧
      EncodeBase32 [0x61] ≠ upperBase32 :=
  ⟨by decide, ⟨"ME".toList.map Char.toUInt8, by decide +kernel, by decide⟩, by decide⟩

end LightningCash
