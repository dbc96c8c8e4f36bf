import LightningCash.Script.Interpreter
import LightningCash.Serialize.Serialize

/-!
# Push and signature encodings

Two checks of `interpreter.cpp` that decide whether an encoding is the canonical one.

`CheckMinimalPush(data, opcode)` runs under `SCRIPT_VERIFY_MINIMALDATA` on every executed data
push. What it should accept is stated without reference to its table: an opcode pushes `d` when
`GetOp` decodes it with data `d`, or when it is a small-number opcode whose number `serialize`
writes as `d`; the shortest push is the one taking the fewest script bytes. The check accepts a
decoded data push exactly when it is the shortest. A single byte `1..16` or `0x81` is pushed
shortest by `OP_1..OP_16` or `OP_1NEGATE`, which carry no data, so there no data push passes.

`IsValidSignatureEncoding(sig)` accepts exactly the strict DER layout
`0x30 ‖ L ‖ 0x02 ‖ |R| ‖ R ‖ 0x02 ‖ |S| ‖ S ‖ h` of at most seventy-three bytes whose integers
`R` and `S` are DER integer bodies: not empty, the sign bit clear, and a leading zero byte only
before a byte with its top bit set. A single zero byte is such a body: it encodes zero. The
proof goes through one layout lemma that evaluates the check on that layout, and one that
splits any accepted byte string into it. A second model of the check, whose every `sig[i]` is a
read that faults out of range, returns the same answer without faulting.
-/

namespace LightningCash

/-! ## What a push carries -/

/-! The values of the opcodes that the push checks compare with. -/

@[simp] theorem toNat_OP_0 : OP_0.toNat = 0 := rfl
@[simp] theorem toNat_OP_PUSHDATA1 : OP_PUSHDATA1.toNat = 76 := rfl
@[simp] theorem toNat_OP_PUSHDATA2 : OP_PUSHDATA2.toNat = 77 := rfl
@[simp] theorem toNat_OP_PUSHDATA4 : OP_PUSHDATA4.toNat = 78 := rfl
@[simp] theorem toNat_OP_1NEGATE : OP_1NEGATE.toNat = 79 := rfl
@[simp] theorem toNat_OP_1 : OP_1.toNat = 81 := rfl
@[simp] theorem toNat_OP_16 : OP_16.toNat = 96 := rfl

/-- How much a data push opcode can carry: a direct push exactly its own value, then a size
field of one, two or four bytes. -/
def PushCapacity (opcode : UInt8) (d : valtype) : Prop :=
  if opcode < OP_PUSHDATA1 then d.length = opcode.toNat
  else if opcode = OP_PUSHDATA1 then d.length < 2 ^ 8
  else if opcode = OP_PUSHDATA2 then d.length < 2 ^ 16
  else d.length < 2 ^ 32

/-- The data push opcodes past the direct pushes and the first two size fields. -/
theorem eq_PUSHDATA4 : ∀ opcode : UInt8, opcode ≤ OP_PUSHDATA4 → ¬opcode < OP_PUSHDATA1 →
    ¬opcode = OP_PUSHDATA1 → ¬opcode = OP_PUSHDATA2 → opcode = OP_PUSHDATA4 := by
  intro opcode hop h1 h2 h3
  rw [UInt8.le_iff_toNat_le] at hop
  rw [UInt8.lt_iff_toNat_lt] at h1
  rw [← UInt8.toNat_inj] at h2 h3 ⊢
  simp only [toNat_OP_PUSHDATA1, toNat_OP_PUSHDATA2, toNat_OP_PUSHDATA4] at *
  omega

/-- `GetOp` decodes a data push opcode with data `d` exactly when the opcode can carry `d`. -/
theorem GetOp_push_iff {opcode : UInt8} (hop : opcode ≤ OP_PUSHDATA4) (d : valtype) :
    (∃ pc rest, GetOp (opcode :: pc) = some (opcode, d, rest)) ↔ PushCapacity opcode d := by
  constructor
  · rintro ⟨pc, rest, h⟩
    simp only [GetOp, if_pos hop] at h
    split at h
    · cases h
    · rename_i nSize pc' hsize
      split_ifs at h with hlen
      simp only [Option.some.injEq, Prod.mk.injEq] at h
      obtain ⟨-, rfl, -⟩ := h
      have htake : (pc'.take nSize).length = nSize := by
        rw [List.length_take]
        omega
      unfold pushSize at hsize
      unfold PushCapacity
      rw [htake]
      split_ifs at hsize ⊢ with h1 h2 h3
      · cases hsize
        rfl
      · split at hsize
        · cases hsize
        · cases hsize
          exact UInt8.toNat_lt _
      · simp only [Option.some.injEq, Prod.mk.injEq] at hsize
        obtain ⟨rfl, -⟩ := hsize
        have := (pc.getD 0 0).toNat_lt
        have := (pc.getD 1 0).toNat_lt
        simp only [ReadLE16]
        omega
      · simp only [Option.some.injEq, Prod.mk.injEq] at hsize
        obtain ⟨rfl, -⟩ := hsize
        exact UInt32.toNat_lt _
  · intro hcap
    unfold PushCapacity at hcap
    split_ifs at hcap with h1 h2 h3
    · -- a direct push: the data follows the opcode
      refine ⟨d, [], ?_⟩
      simp [GetOp, hop, pushSize, h1, hcap]
    · -- a one-byte size field
      subst h2
      refine ⟨d.length.toUInt8 :: d, [], ?_⟩
      simp [GetOp, pushSize, toNat_toUInt8_of_lt hcap, OP_PUSHDATA1, OP_PUSHDATA4]
    · -- a two-byte size field
      subst h3
      refine ⟨(d.length % 256).toUInt8 :: (d.length / 256).toUInt8 :: d, [], ?_⟩
      have hread : ReadLE16 ((d.length % 256).toUInt8 :: (d.length / 256).toUInt8 :: d) =
          d.length := by
        simp only [ReadLE16, List.getD_cons_zero, List.getD_cons_succ]
        rw [toNat_toUInt8_of_lt (Nat.mod_lt _ (by omega)), toNat_toUInt8_of_lt (by omega)]
        omega
      simp [GetOp, pushSize, hread, OP_PUSHDATA1, OP_PUSHDATA2, OP_PUSHDATA4]
    · -- a four-byte size field
      have h4 : opcode = OP_PUSHDATA4 := eq_PUSHDATA4 opcode hop h1 h2 h3
      subst h4
      refine ⟨(d.length % 256).toUInt8 :: (d.length / 256 % 256).toUInt8 ::
        (d.length / 65536 % 256).toUInt8 :: (d.length / 16777216).toUInt8 :: d, [], ?_⟩
      have hread : (ReadLE32 ((d.length % 256).toUInt8 :: (d.length / 256 % 256).toUInt8 ::
          (d.length / 65536 % 256).toUInt8 :: (d.length / 16777216).toUInt8 :: d)).toNat =
            d.length := by
        rw [toNat_ReadLE32, toNat_toUInt8_of_lt (Nat.mod_lt _ (by omega)),
          toNat_toUInt8_of_lt (Nat.mod_lt _ (by omega)),
          toNat_toUInt8_of_lt (Nat.mod_lt _ (by omega)), toNat_toUInt8_of_lt (by omega)]
        omega
      have hshort : ¬d.length + 1 + 1 + 1 + 1 < 4 := by omega
      simp [GetOp, pushSize, hread, hshort, OP_PUSHDATA1, OP_PUSHDATA2, OP_PUSHDATA4]

/-! ## The shortest push

An opcode pushes `d` when `GetOp` decodes it with data `d`, or when it is a small-number opcode
whose number `EvalScript` pushes as `d`. Each push takes a number of script bytes; the shortest
push of `d` is the one taking strictly fewer than every other. Every fact below is moved to
`opcode.toNat`, where one disjunction per lemma leaves the comparisons to `omega`. -/

/-- `GetOp` decodes `opcode` with push data `d`, whatever follows in the script. -/
def Decodes (opcode : UInt8) (d : valtype) : Prop :=
  ∃ pc rest, GetOp (opcode :: pc) = some (opcode, d, rest)

/-- A data push opcode that `GetOp` decodes with data `d`. -/
def PushesData (opcode : UInt8) (d : valtype) : Prop :=
  opcode ≤ OP_PUSHDATA4 ∧ Decodes opcode d

/-- A small-number opcode whose number, as `EvalScript` pushes it, is `d`. -/
def PushesNumber (opcode : UInt8) (d : valtype) : Prop :=
  (opcode = OP_1NEGATE ∨ OP_1 ≤ opcode ∧ opcode ≤ OP_16) ∧
    d = serialize ((opcode.toNat : ℤ) - (OP_1.toNat - 1))

/-- `opcode` leaves `d` on the stack. -/
def Pushes (opcode : UInt8) (d : valtype) : Prop :=
  PushesData opcode d ∨ PushesNumber opcode d

/-- The script bytes a push of `d` by `opcode` takes: the opcode, its size field and the data.
A small-number opcode takes its one byte. -/
def pushLength (opcode : UInt8) (d : valtype) : ℕ :=
  if opcode < OP_PUSHDATA1 then 1 + d.length
  else if opcode = OP_PUSHDATA1 then 2 + d.length
  else if opcode = OP_PUSHDATA2 then 3 + d.length
  else if opcode = OP_PUSHDATA4 then 5 + d.length
  else 1

/-- `opcode` pushes `d` in strictly fewer script bytes than any other opcode pushing `d`. -/
def IsShortestPush (opcode : UInt8) (d : valtype) : Prop :=
  Pushes opcode d ∧
    ∀ opcode', Pushes opcode' d → opcode' ≠ opcode → pushLength opcode d < pushLength opcode' d

/-- `serialize` writes the numbers one to sixteen as one byte. -/
theorem serialize_of_small {n : ℕ} (h1 : 1 ≤ n) (h2 : n ≤ 16) :
    serialize (n : ℤ) = [n.toUInt8] := by
  have hdigits : Nat.digits 256 n = [n] := Nat.digits_of_lt 256 n (by omega) (by omega)
  have hbit : n.toUInt8 &&& 0x80 = 0 := by interval_cases n <;> decide
  have hn : n ≠ 0 := by omega
  simp [serialize, hdigits, hbit, hn]

/-- `serialize` writes minus one as its magnitude with the sign bit set. -/
theorem serialize_neg_one : serialize (-1) = [0x81] := by
  simp [serialize]
  decide

/-- A one-byte vector is its first byte. -/
theorem eq_singleton_iff_getD {d : valtype} {x : UInt8} :
    d = [x] ↔ d.length = 1 ∧ d.getD 0 0 = x := by
  match d with
  | [] => simp
  | [a] => simp
  | _ :: _ :: _ => simp

/-- The opcodes past `OP_PUSHDATA4` carry no data. -/
theorem decodes_of_gt {opcode : UInt8} {d : valtype} (h : OP_PUSHDATA4 < opcode) :
    Decodes opcode d ↔ d = [] := by
  have hle : ¬opcode ≤ OP_PUSHDATA4 := UInt8.not_le.2 h
  constructor
  · rintro ⟨pc, rest, hget⟩
    simp only [GetOp, if_neg hle, Option.some.injEq, Prod.mk.injEq] at hget
    exact hget.2.1.symm
  · rintro rfl
    exact ⟨[], [], by simp [GetOp, hle]⟩

/-- A data push in terms of the opcode's value: a direct push carries exactly its value, the
three size fields up to `2 ^ 8`, `2 ^ 16` and `2 ^ 32` bytes. -/
theorem pushesData_iff {opcode : UInt8} {d : valtype} :
    PushesData opcode d ↔
      opcode.toNat < 76 ∧ d.length = opcode.toNat ∨ opcode.toNat = 76 ∧ d.length < 2 ^ 8 ∨
        opcode.toNat = 77 ∧ d.length < 2 ^ 16 ∨ opcode.toNat = 78 ∧ d.length < 2 ^ 32 := by
  constructor
  · rintro ⟨hop, hdec⟩
    have hcap := (GetOp_push_iff hop d).1 hdec
    have hle := UInt8.le_iff_toNat_le.1 hop
    unfold PushCapacity at hcap
    split_ifs at hcap with h1 h2 h3
    · exact Or.inl ⟨UInt8.lt_iff_toNat_lt.1 h1, hcap⟩
    · exact Or.inr (Or.inl ⟨by rw [h2]; rfl, hcap⟩)
    · exact Or.inr (Or.inr (Or.inl ⟨by rw [h3]; rfl, hcap⟩))
    · rw [UInt8.lt_iff_toNat_lt, toNat_OP_PUSHDATA1] at h1
      rw [← UInt8.toNat_inj, toNat_OP_PUSHDATA1] at h2
      rw [← UInt8.toNat_inj, toNat_OP_PUSHDATA2] at h3
      rw [toNat_OP_PUSHDATA4] at hle
      exact Or.inr (Or.inr (Or.inr ⟨by omega, hcap⟩))
  · intro h
    have hop : opcode ≤ OP_PUSHDATA4 := by
      rw [UInt8.le_iff_toNat_le, toNat_OP_PUSHDATA4]
      omega
    refine ⟨hop, (GetOp_push_iff hop d).2 ?_⟩
    unfold PushCapacity
    split_ifs with h1 h2 h3 <;>
      simp only [UInt8.lt_iff_toNat_lt, ← UInt8.toNat_inj, toNat_OP_PUSHDATA1,
        toNat_OP_PUSHDATA2] at * <;> omega

/-- A small-number push in terms of the opcode's value: `OP_1NEGATE` pushes the byte `0x81`,
`OP_n` the byte `n`. -/
theorem pushesNumber_iff {opcode : UInt8} {d : valtype} :
    PushesNumber opcode d ↔ d.length = 1 ∧
      (opcode.toNat = 79 ∧ (d.getD 0 0).toNat = 129 ∨
        81 ≤ opcode.toNat ∧ opcode.toNat ≤ 96 ∧ (d.getD 0 0).toNat + 80 = opcode.toNat) := by
  have hop := opcode.toNat_lt
  unfold PushesNumber
  rw [← UInt8.toNat_inj, UInt8.le_iff_toNat_le, UInt8.le_iff_toNat_le, toNat_OP_1NEGATE, toNat_OP_1,
    toNat_OP_16]
  -- the number each small-number opcode pushes, as `serialize` writes it
  have hneg : opcode.toNat = 79 →
      serialize ((opcode.toNat : ℤ) - (((81 : ℕ) : ℤ) - 1)) = [0x81] := by
    intro h79
    rw [show ((opcode.toNat : ℤ) - (((81 : ℕ) : ℤ) - 1)) = -1 by omega, serialize_neg_one]
  have hsmall : 81 ≤ opcode.toNat → opcode.toNat ≤ 96 →
      serialize ((opcode.toNat : ℤ) - (((81 : ℕ) : ℤ) - 1)) = [(opcode.toNat - 80).toUInt8] := by
    intro h81 h96
    rw [show ((opcode.toNat : ℤ) - (((81 : ℕ) : ℤ) - 1)) = ((opcode.toNat - 80 : ℕ) : ℤ) by omega,
      serialize_of_small (by omega) (by omega)]
  constructor
  · rintro ⟨hrange | ⟨h81, h96⟩, rfl⟩
    · rw [hneg hrange]
      exact ⟨rfl, Or.inl ⟨hrange, rfl⟩⟩
    · rw [hsmall h81 h96]
      refine ⟨rfl, Or.inr ⟨h81, h96, ?_⟩⟩
      simp only [List.getD_cons_zero, toNat_toUInt8_of_lt (show opcode.toNat - 80 < 256 by omega)]
      omega
  · rintro ⟨hlen, ⟨h79, hx⟩ | ⟨h81, h96, hx⟩⟩
    · refine ⟨Or.inl h79, ?_⟩
      rw [hneg h79, eq_singleton_iff_getD, ← UInt8.toNat_inj]
      exact ⟨hlen, hx⟩
    · refine ⟨Or.inr ⟨h81, h96⟩, ?_⟩
      rw [hsmall h81 h96, eq_singleton_iff_getD, ← UInt8.toNat_inj, toNat_toUInt8_of_lt (by omega)]
      exact ⟨hlen, by omega⟩

/-- The length of a push in terms of the opcode's value. -/
theorem pushLength_cases (opcode : UInt8) (d : valtype) :
    opcode.toNat < 76 ∧ pushLength opcode d = 1 + d.length ∨
      opcode.toNat = 76 ∧ pushLength opcode d = 2 + d.length ∨
      opcode.toNat = 77 ∧ pushLength opcode d = 3 + d.length ∨
      opcode.toNat = 78 ∧ pushLength opcode d = 5 + d.length ∨
      78 < opcode.toNat ∧ pushLength opcode d = 1 := by
  simp only [pushLength, UInt8.lt_iff_toNat_lt, ← UInt8.toNat_inj, toNat_OP_PUSHDATA1,
    toNat_OP_PUSHDATA2, toNat_OP_PUSHDATA4]
  split_ifs <;> omega

/-- An opcode `GetOp` decodes is no small-number push: those carry no data, and the number they
push is one byte. -/
theorem not_pushesNumber_of_decodes {opcode : UInt8} {d : valtype} (h : Decodes opcode d) :
    ¬PushesNumber opcode d := by
  intro hnum
  obtain ⟨hlen, hop⟩ := pushesNumber_iff.1 hnum
  have hgt : OP_PUSHDATA4 < opcode := by
    rw [UInt8.lt_iff_toNat_lt, toNat_OP_PUSHDATA4]
    omega
  rw [decodes_of_gt hgt] at h
  simp [h] at hlen

/-- For a small number, `CheckMinimalPush` accepts its number opcode and nothing else. -/
theorem CheckMinimalPush_of_number {opcode' : UInt8} {d : valtype} (h : PushesNumber opcode' d)
    (opcode : UInt8) : CheckMinimalPush d opcode = true ↔ opcode = opcode' := by
  obtain ⟨hlen, hcase⟩ := pushesNumber_iff.1 h
  obtain ⟨x, rfl⟩ := List.length_eq_one_iff.1 hlen
  rcases hcase with ⟨h79, hx⟩ | ⟨h81, h96, hx⟩
  · -- the byte `0x81`, pushed by `OP_1NEGATE`
    have hx : x = 0x81 := UInt8.toNat_inj.1 hx
    have hop : opcode' = OP_1NEGATE := UInt8.toNat_inj.1 h79
    subst hx hop
    simp [CheckMinimalPush]
  · -- a byte `1..16`, pushed by `OP_n`
    change x.toNat + 80 = _ at hx
    have hlo : 1 ≤ x := by
      rw [UInt8.le_iff_toNat_le]
      change 1 ≤ _
      omega
    have hhi : x ≤ 16 := by
      rw [UInt8.le_iff_toNat_le]
      change _ ≤ 16
      omega
    have hop : OP_1 + (x - 1) = opcode' := by
      rw [← UInt8.toNat_inj, UInt8.toNat_add, UInt8.toNat_sub_of_le _ _ hlo]
      change (81 + (x.toNat - 1)) % 256 = _
      omega
    simp [CheckMinimalPush, hlo, hhi, hop]

/-- For data that is no small number, `CheckMinimalPush` asks for the data push opcode with the
shortest size field, by the length alone. -/
theorem CheckMinimalPush_of_not_number {d : valtype} (hnum : ∀ opcode', ¬PushesNumber opcode' d)
    (opcode : UInt8) :
    CheckMinimalPush d opcode = true ↔
      d.length = 0 ∧ opcode.toNat = 0 ∨ 1 ≤ d.length ∧ d.length ≤ 75 ∧ opcode.toNat = d.length ∨
        76 ≤ d.length ∧ d.length ≤ 255 ∧ opcode.toNat = 76 ∨
        256 ≤ d.length ∧ d.length ≤ 65535 ∧ opcode.toNat = 77 ∨ 65535 < d.length := by
  -- the two small-number branches of the source are not taken
  have hsmall : ¬(d.length = 1 ∧ 1 ≤ d.getD 0 0 ∧ d.getD 0 0 ≤ 16) := by
    rintro ⟨hlen, hlo, hhi⟩
    rw [UInt8.le_iff_toNat_le] at hlo hhi
    change 1 ≤ (d.getD 0 0).toNat at hlo
    change (d.getD 0 0).toNat ≤ 16 at hhi
    apply hnum ((d.getD 0 0).toNat + 80).toUInt8
    rw [pushesNumber_iff, toNat_toUInt8_of_lt (by omega)]
    omega
  have hneg : ¬(d.length = 1 ∧ d.getD 0 0 = 0x81) := by
    rintro ⟨hlen, h81⟩
    apply hnum OP_1NEGATE
    rw [pushesNumber_iff, h81]
    exact ⟨hlen, Or.inl ⟨rfl, rfl⟩⟩
  unfold CheckMinimalPush
  rw [if_neg hsmall, if_neg hneg]
  split_ifs <;> simp only [beq_iff_eq, ← UInt8.toNat_inj, toNat_OP_0, toNat_OP_PUSHDATA1,
    toNat_OP_PUSHDATA2, true_iff] <;> omega

/-- `CheckMinimalPush` accepts only what `GetOp` reads as a data push: past `OP_PUSHDATA4` the
data is empty, and empty data asks for `OP_0`. -/
theorem pushesData_of_check {opcode : UInt8} {d : valtype} (hdec : Decodes opcode d)
    (hc : CheckMinimalPush d opcode = true) : PushesData opcode d := by
  refine ⟨?_, hdec⟩
  by_contra hbig
  rw [decodes_of_gt (UInt8.not_le.1 hbig)] at hdec
  subst hdec
  have h0 : opcode = OP_0 := by simpa [CheckMinimalPush] using hc
  exact hbig (by rw [h0]; decide)

/-- For a small number no data push passes: the check asks for the number opcode, which
decodes with no data. -/
theorem not_check_of_number {opcode opcode' : UInt8} {d : valtype} (hdec : Decodes opcode d)
    (hnum : PushesNumber opcode' d) : CheckMinimalPush d opcode ≠ true := by
  intro hc
  have heq := (CheckMinimalPush_of_number hnum opcode).1 hc
  subst heq
  exact not_pushesNumber_of_decodes hdec hnum

/-- Data of fewer than `2 ^ 32` bytes that is no small number has a data push that
`CheckMinimalPush` accepts: the direct push up to seventy-five bytes, then the shortest size
field. -/
theorem exists_minimal_data_push {d : valtype} (hlen : d.length < 2 ^ 32)
    (hnum : ∀ opcode', ¬PushesNumber opcode' d) :
    ∃ opcode, PushesData opcode d ∧ CheckMinimalPush d opcode = true := by
  obtain ⟨m, hm⟩ : ∃ m, d.length ≤ 75 ∧ m = d.length ∨ 76 ≤ d.length ∧ d.length ≤ 255 ∧ m = 76 ∨
      256 ≤ d.length ∧ d.length ≤ 65535 ∧ m = 77 ∨ 65535 < d.length ∧ m = 78 :=
    ⟨if d.length ≤ 75 then d.length else if d.length ≤ 255 then 76
      else if d.length ≤ 65535 then 77 else 78, by split_ifs <;> omega⟩
  have hm8 : m.toUInt8.toNat = m := toNat_toUInt8_of_lt (by omega)
  refine ⟨m.toUInt8, pushesData_iff.2 ?_, (CheckMinimalPush_of_not_number hnum _).2 ?_⟩ <;>
    rw [hm8] <;> omega

/-- A decoded push that passes `CheckMinimalPush` is the shortest push of its data. -/
theorem isShortestPush_of_check {opcode : UInt8} {d : valtype} (hdec : Decodes opcode d)
    (hc : CheckMinimalPush d opcode = true) : IsShortestPush opcode d := by
  have hdata := pushesData_of_check hdec hc
  refine ⟨Or.inl hdata, fun opcode' hpush hne ↦ ?_⟩
  by_cases hnum : ∃ opcode', PushesNumber opcode' d
  · obtain ⟨opcode', hop'⟩ := hnum
    exact absurd hc (not_check_of_number hdec hop')
  simp only [not_exists] at hnum
  -- both are data pushes; the accepted one has the shortest size field
  have hne' : opcode'.toNat ≠ opcode.toNat := fun h ↦ hne (UInt8.toNat_inj.1 h)
  have hc' := (CheckMinimalPush_of_not_number hnum opcode).1 hc
  have hd := pushesData_iff.1 hdata
  have hd' := pushesData_iff.1 (hpush.resolve_right (hnum opcode'))
  have hl := pushLength_cases opcode d
  have hl' := pushLength_cases opcode' d
  omega

/-- The shortest push of decoded data passes `CheckMinimalPush`. -/
theorem check_of_isShortestPush {opcode : UInt8} {d : valtype} (hdec : Decodes opcode d)
    (hshort : IsShortestPush opcode d) : CheckMinimalPush d opcode = true := by
  obtain ⟨hpush, hmin⟩ := hshort
  have hdata : PushesData opcode d := hpush.resolve_right (not_pushesNumber_of_decodes hdec)
  have hd := pushesData_iff.1 hdata
  have hl := pushLength_cases opcode d
  by_cases hnum : ∃ opcode', PushesNumber opcode' d
  · -- the number opcode takes one byte, fewer than any data push
    obtain ⟨opcode', hop'⟩ := hnum
    have hne : opcode' ≠ opcode := fun h ↦ not_pushesNumber_of_decodes hdec (h ▸ hop')
    have hshorter := hmin opcode' (Or.inr hop') hne
    have hn := pushesNumber_iff.1 hop'
    have hl' := pushLength_cases opcode' d
    omega
  simp only [not_exists] at hnum
  -- the accepted data push is no longer than this one, so it is this one
  obtain ⟨opcode', hdata', hc'⟩ := exists_minimal_data_push (by omega) hnum
  by_cases heq : opcode' = opcode
  · rwa [← heq]
  have hshorter := hmin opcode' (Or.inl hdata') heq
  have hc'' := (CheckMinimalPush_of_not_number hnum opcode').1 hc'
  have hd' := pushesData_iff.1 hdata'
  have hl' := pushLength_cases opcode' d
  omega

/-- Some decoded push passes `CheckMinimalPush`, and only one, exactly when the data fits a
push and is no small number. -/
theorem existsUnique_check_iff (d : valtype) :
    (∃! opcode, Decodes opcode d ∧ CheckMinimalPush d opcode = true) ↔
      d.length < 2 ^ 32 ∧ ¬∃ opcode, PushesNumber opcode d := by
  constructor
  · rintro ⟨opcode, ⟨hdec, hc⟩, -⟩
    have hd := pushesData_iff.1 (pushesData_of_check hdec hc)
    refine ⟨by omega, ?_⟩
    rintro ⟨opcode', hop'⟩
    exact not_check_of_number hdec hop' hc
  · rintro ⟨hlen, hnum⟩
    simp only [not_exists] at hnum
    obtain ⟨opcode, hdata, hc⟩ := exists_minimal_data_push hlen hnum
    refine ⟨opcode, ⟨hdata.2, hc⟩, ?_⟩
    rintro opcode' ⟨hdec', hc'⟩
    -- both have the value the length asks for
    have hd := pushesData_iff.1 hdata
    have hd' := pushesData_iff.1 (pushesData_of_check hdec' hc')
    have h1 := (CheckMinimalPush_of_not_number hnum opcode).1 hc
    have h2 := (CheckMinimalPush_of_not_number hnum opcode').1 hc'
    exact UInt8.toNat_inj.1 (by omega)

theorem CheckMinimalPush_iff_shortest_push :
    (∀ (opcode : UInt8) (d : valtype), Decodes opcode d →
      (CheckMinimalPush d opcode = true ↔ IsShortestPush opcode d)) ∧
    ∀ d : valtype, (∃! opcode, Decodes opcode d ∧ CheckMinimalPush d opcode = true) ↔
      d.length < 2 ^ 32 ∧ ¬∃ opcode, PushesNumber opcode d :=
  ⟨fun _ _ hdec ↦ ⟨isShortestPush_of_check hdec, check_of_isShortestPush hdec⟩,
    existsUnique_check_iff⟩

theorem CheckMinimalPush_iff_shortest_push_at_one_zero :
    Decodes 1 [0] ∧ (CheckMinimalPush [0] 1 = true ↔ IsShortestPush 1 [0]) :=
  have hdec : Decodes 1 [0] := ⟨[0], [], by decide⟩
  ⟨hdec, CheckMinimalPush_iff_shortest_push.1 1 [0] hdec⟩

/-- The byte `1` has no accepted data push, its shortest push being `OP_1`; and from `65536`
bytes on every opcode passes the check, decoded or not. -/
theorem CheckMinimalPush_not_exactly_one :
    (¬∃ opcode, Decodes opcode [1] ∧ CheckMinimalPush [1] opcode = true) ∧
      ∀ opcode, CheckMinimalPush (List.replicate 65536 0) opcode = true := by
  constructor
  · rintro ⟨opcode, hdec, hc⟩
    have hone : PushesNumber OP_1 [1] :=
      pushesNumber_iff.2 ⟨rfl, Or.inr ⟨by decide, by decide, rfl⟩⟩
    exact not_check_of_number hdec hone hc
  · intro opcode
    have hlen : (List.replicate 65536 (0 : UInt8)).length = 65536 := List.length_replicate
    unfold CheckMinimalPush
    rw [hlen]
    rfl

/-! ## Strict DER signatures

`IsValidSignatureEncoding` is compared with a grammar given by construction: `derSignature`
lays out two integers and a hash type, and `derInteger n` is the shortest big-endian two's
complement encoding of a natural number `n`. Both directions go through one picture of the
bytes, `a :: b :: c :: d :: (R ++ e :: f :: (S ++ [h]))`, on which every read of the check lands
on a named byte. -/

/-- The body of a DER integer as the check reads it: not empty, the sign bit of the first byte
clear, and a leading zero byte only before a byte whose top bit is set. -/
def IsDERIntegerBody : valtype → Bool
  | [] => false
  | [b] => b &&& 0x80 == 0
  | b :: c :: _ => b &&& 0x80 == 0 && !(b == 0 && c &&& 0x80 == 0)

/-- The shortest big-endian two's complement encoding of `n`: its base-256 digits, most
significant first, behind a zero byte where the top bit would read as a sign. -/
def derInteger (n : ℕ) : valtype :=
  match (Nat.digits 256 n).reverse.map Nat.toUInt8 with
  | [] => [0]
  | b :: rest => if b &&& 0x80 = 0 then b :: rest else 0 :: b :: rest

/-- The big-endian value of a byte string. -/
def derValue (R : valtype) : ℕ := Nat.ofDigits 256 (R.reverse.map UInt8.toNat)

/-- `0x30 ‖ L ‖ 0x02 ‖ |R| ‖ R ‖ 0x02 ‖ |S| ‖ S ‖ h`, the length byte `L` counting what follows
it up to the hash type. -/
def derSignature (R S : valtype) (h : UInt8) : valtype :=
  [0x30, (R.length + S.length + 4).toUInt8, 0x02, R.length.toUInt8] ++ R ++
    [0x02, S.length.toUInt8] ++ S ++ [h]

/-- The body conditions as the check's reads of the first two bytes. -/
theorem isDERIntegerBody_iff_getD (R : valtype) :
    IsDERIntegerBody R = true ↔ R.length ≠ 0 ∧ R.getD 0 0 &&& 0x80 = 0 ∧
      ¬(R.length > 1 ∧ R.getD 0 0 = 0 ∧ R.getD 1 0 &&& 0x80 = 0) := by
  match R with
  | [] => simp [IsDERIntegerBody]
  | [x] => simp [IsDERIntegerBody]
  | x :: y :: rest => simp [IsDERIntegerBody, or_iff_not_imp_left]

/-- The first of the big-endian digits of a positive number is not zero. -/
theorem head_digits_ne_zero {n : ℕ} {x : UInt8} {rest : valtype}
    (h : (Nat.digits 256 n).reverse.map Nat.toUInt8 = x :: rest) : x ≠ 0 := by
  have hn : n ≠ 0 := by
    rintro rfl
    simp at h
  have hne : Nat.digits 256 n ≠ [] := Nat.digits_ne_nil_iff_ne_zero.2 hn
  have hhead := congrArg List.head? h
  rw [List.head?_map, List.head?_reverse, List.getLast?_eq_some_getLast hne] at hhead
  simp only [Option.map_some, List.head?_cons, Option.some.injEq] at hhead
  have hlt : (Nat.digits 256 n).getLast hne < 256 :=
    Nat.digits_lt_base (by norm_num) (List.getLast_mem hne)
  intro hx
  apply Nat.getLast_digit_ne_zero 256 hn
  rw [← toNat_toUInt8_of_lt hlt, hhead, hx]
  rfl

/-- A byte string whose first byte is not zero is read back from its value's digits. -/
theorem digits_derValue {R : valtype} {x : UInt8} (hx : x ≠ 0) :
    (Nat.digits 256 (derValue (x :: R))).reverse.map Nat.toUInt8 = x :: R := by
  have hlt : ∀ l ∈ (x :: R).reverse.map UInt8.toNat, l < 256 := by
    simp only [List.mem_map]
    rintro _ ⟨y, -, rfl⟩
    exact y.toNat_lt
  have hlast : ∀ hne, ((x :: R).reverse.map UInt8.toNat).getLast hne ≠ 0 := by
    intro hne
    simp only [List.getLast_map, List.getLast_reverse, List.head_cons]
    exact fun h0 ↦ hx (UInt8.toNat_inj.1 h0)
  have hid : ∀ y : UInt8, y.toNat.toUInt8 = y := fun y ↦ by
    rw [Nat.toUInt8_eq, UInt8.ofNat_toNat]
  rw [derValue, Nat.digits_ofDigits 256 (by norm_num) _ hlt hlast]
  simp [List.map_reverse, Function.comp_def, hid]

/-- A leading zero byte adds nothing to the value. -/
theorem derValue_zero_cons (R : valtype) : derValue (0 :: R) = derValue R := by
  simp [derValue, Nat.ofDigits_append]

/-- Every `derInteger` is a DER integer body. -/
theorem isDERIntegerBody_derInteger (n : ℕ) : IsDERIntegerBody (derInteger n) = true := by
  unfold derInteger
  split
  · rfl
  · rename_i x rest hdigits
    have hx : x ≠ 0 := head_digits_ne_zero hdigits
    split_ifs with htop
    · rw [isDERIntegerBody_iff_getD]
      simp [htop, hx]
    · rw [isDERIntegerBody_iff_getD]
      simp [htop]

/-- A DER integer body is the `derInteger` of its value. -/
theorem derInteger_derValue {R : valtype} (hR : IsDERIntegerBody R = true) :
    derInteger (derValue R) = R := by
  cases R with
  | nil => simp [IsDERIntegerBody] at hR
  | cons x rest =>
    by_cases hx : x = 0
    · subst hx
      cases rest with
      | nil => decide
      | cons y rest =>
        -- a leading zero only stands before a byte with its top bit set
        have hy : y &&& 0x80 ≠ 0 := by simpa [IsDERIntegerBody] using hR
        have hy0 : y ≠ 0 := by
          rintro rfl
          exact hy rfl
        rw [derValue_zero_cons, derInteger, digits_derValue hy0]
        simp [hy]
    · have htop : x &&& 0x80 = 0 := ((isDERIntegerBody_iff_getD _).1 hR).2.1
      rw [derInteger, digits_derValue hx]
      simp [htop]

/-- The picture of a signature that the reads of the check assume: four header bytes, the
integer `R`, two more header bytes, the integer `S` and the hash type. -/
def derLayout (a b c d : UInt8) (R : valtype) (e f : UInt8) (S : valtype) (h : UInt8) :
    valtype :=
  a :: b :: c :: d :: (R ++ e :: f :: (S ++ [h]))

section Layout

variable {a b c d e f h : UInt8} {R S : valtype}

theorem derSignature_eq_derLayout (R S : valtype) (h : UInt8) :
    derSignature R S h = derLayout 0x30 (R.length + S.length + 4).toUInt8 0x02 R.length.toUInt8
      R 0x02 S.length.toUInt8 S h := by
  simp [derSignature, derLayout]

theorem length_derLayout :
    (derLayout a b c d R e f S h).length = R.length + S.length + 7 := by
  simp only [derLayout, List.length_cons, List.length_append, List.length_nil]
  omega

theorem getD_derLayout_R {i : ℕ} (hi : i < R.length) :
    (derLayout a b c d R e f S h).getD (i + 4) 0 = R.getD i 0 := by
  simp only [derLayout, List.getD_cons_succ]
  exact List.getD_append _ _ _ _ hi

theorem getD_derLayout_e : (derLayout a b c d R e f S h).getD (R.length + 4) 0 = e := by
  simp only [derLayout, List.getD_cons_succ]
  rw [List.getD_append_right _ _ _ _ le_rfl, Nat.sub_self]
  rfl

theorem getD_derLayout_f : (derLayout a b c d R e f S h).getD (5 + R.length) 0 = f := by
  rw [Nat.add_comm]
  simp only [derLayout, List.getD_cons_succ]
  rw [List.getD_append_right _ _ _ _ (Nat.le_succ _), Nat.succ_sub le_rfl, Nat.sub_self]
  rfl

theorem getD_derLayout_S {j : ℕ} (hj : j < S.length) :
    (derLayout a b c d R e f S h).getD (R.length + 6 + j) 0 = S.getD j 0 := by
  rw [show R.length + 6 + j = R.length + 2 + j + 4 by omega]
  simp only [derLayout, List.getD_cons_succ]
  rw [List.getD_append_right _ _ _ _ (by omega), show R.length + 2 + j - R.length = j + 2 by omega]
  simp only [List.getD_cons_succ]
  exact List.getD_append _ _ _ _ hj

/-- The check on a layout whose length bytes count `R` and `S`: the reads land on the header
bytes and on the first two bytes of each integer. -/
theorem IsValidSignatureEncoding_derLayout (hd : d.toNat = R.length) (hf : f.toNat = S.length) :
    IsValidSignatureEncoding (derLayout a b c d R e f S h) = true ↔
      9 ≤ R.length + S.length + 7 ∧ R.length + S.length + 7 ≤ 73 ∧ a = 0x30 ∧
        b.toNat = R.length + S.length + 4 ∧ c = 0x02 ∧ e = 0x02 ∧
        IsDERIntegerBody R = true ∧ IsDERIntegerBody S = true := by
  have h0 : (derLayout a b c d R e f S h).getD 0 0 = a := rfl
  have h1 : (derLayout a b c d R e f S h).getD 1 0 = b := rfl
  have h2 : (derLayout a b c d R e f S h).getD 2 0 = c := rfl
  have h3 : (derLayout a b c d R e f S h).getD 3 0 = d := rfl
  rw [isDERIntegerBody_iff_getD, isDERIntegerBody_iff_getD]
  simp only [IsValidSignatureEncoding, Bool.if_false_left, Bool.and_eq_true, Bool.not_eq_true',
    decide_eq_false_iff_not, length_derLayout, h0, h1, h2, h3, hd, getD_derLayout_e,
    getD_derLayout_f, hf]
  -- an empty integer fails on both sides before any read inside it
  by_cases hR0 : R.length = 0
  · simp [hR0]
  by_cases hS0 : S.length = 0
  · simp [hS0]
  have h4 : (derLayout a b c d R e f S h).getD 4 0 = R.getD 0 0 :=
    getD_derLayout_R (i := 0) (by omega)
  have h6 : (derLayout a b c d R e f S h).getD (R.length + 6) 0 = S.getD 0 0 :=
    getD_derLayout_S (j := 0) (by omega)
  -- the second byte of an integer is read only where there is one
  have h5 : R.length > 1 → (derLayout a b c d R e f S h).getD 5 0 = R.getD 1 0 :=
    getD_derLayout_R
  have h7 : S.length > 1 → (derLayout a b c d R e f S h).getD (R.length + 7) 0 = S.getD 1 0 :=
    getD_derLayout_S
  rw [h4, h6]
  constructor
  · rintro ⟨hn, ha, hb, -, -, hc, -, hR4, hR5, he, -, hS6, hS7, -⟩
    refine ⟨by omega, by omega, not_not.1 ha, by omega, not_not.1 hc, not_not.1 he,
      ⟨hR0, not_not.1 hR4, ?_⟩, ⟨hS0, not_not.1 hS6, ?_⟩⟩
    · rintro ⟨hgt, hzero, htop⟩
      exact hR5 ⟨hgt, hzero, by rw [h5 hgt]; exact htop⟩
    · rintro ⟨hgt, hzero, htop⟩
      exact hS7 ⟨hgt, hzero, by rw [h7 hgt]; exact htop⟩
  · rintro ⟨h9, h73, ha, hb, hc, he, ⟨-, hR4, hR5⟩, ⟨-, hS6, hS7⟩⟩
    refine ⟨by omega, not_not.2 ha, by omega, by omega, by omega, not_not.2 hc, hR0,
      not_not.2 hR4, ?_, not_not.2 he, hS0, not_not.2 hS6, ?_, trivial⟩
    · rintro ⟨hgt, hzero, htop⟩
      exact hR5 ⟨hgt, hzero, by rw [← h5 hgt]; exact htop⟩
    · rintro ⟨hgt, hzero, htop⟩
      exact hS7 ⟨hgt, hzero, by rw [← h7 hgt]; exact htop⟩

end Layout

/-- A byte string that passes the length checks is a layout whose length bytes count `R` and
`S`: `R` is the `sig[3]` bytes after the header, and the hash type is what is left after `S`. -/
theorem exists_derLayout {sig : valtype} (h9 : 9 ≤ sig.length)
    (hR : 5 + (sig.getD 3 0).toNat < sig.length)
    (hS : (sig.getD 3 0).toNat + (sig.getD (5 + (sig.getD 3 0).toNat) 0).toNat + 7 =
      sig.length) :
    ∃ a b c d R e f S h, sig = derLayout a b c d R e f S h ∧ d.toNat = R.length ∧
      f.toNat = S.length := by
  match sig, h9 with
  | a :: b :: c :: d :: rest, _ =>
  have h3 : (a :: b :: c :: d :: rest).getD 3 0 = d := rfl
  rw [h3] at hR hS
  rw [show 5 + d.toNat = d.toNat + 1 + 4 by omega] at hS
  simp only [List.getD_cons_succ, List.length_cons] at hR hS
  -- the two bytes after `R`
  obtain ⟨e, f, rest', hdrop⟩ : ∃ e f rest', rest.drop d.toNat = e :: f :: rest' := by
    have hlen : 2 ≤ (rest.drop d.toNat).length := by
      rw [List.length_drop]
      omega
    match rest.drop d.toNat, hlen with
    | e :: f :: rest', _ => exact ⟨e, f, rest', rfl⟩
  have hf : rest.getD (d.toNat + 1) 0 = f := by
    rw [List.getD_eq_getElem?_getD, ← List.getElem?_drop, hdrop]
    rfl
  have hlen' : rest'.length + 2 = rest.length - d.toNat := by
    rw [← List.length_drop, hdrop]
    rfl
  rw [hf] at hS
  -- the hash type is the one byte after `S`
  obtain ⟨h, hlast⟩ : ∃ h, rest'.drop f.toNat = [h] :=
    List.length_eq_one_iff.1 (by rw [List.length_drop]; omega)
  refine ⟨a, b, c, d, rest.take d.toNat, e, f, rest'.take f.toNat, h, ?_, ?_, ?_⟩
  · rw [derLayout, ← hlast, List.take_append_drop, ← hdrop, List.take_append_drop]
  · rw [List.length_take]
    omega
  · rw [List.length_take]
    omega

/-! ## The reads stay inside the signature -/

/-- `len > 1 && sig[i] == 0x00 && !(sig[i + 1] & 0x80)`, the padding check made once for `R`
and once for `S`, reading only as far as the `&&` needs. -/
def paddedChecked (sig : valtype) (len i : ℕ) : Except String Bool :=
  if len > 1 then do
    if (← vecAt sig i) = 0x00 then pure ((← vecAt sig (i + 1)) &&& 0x80 == 0) else pure false
  else pure false

/-- `IsValidSignatureEncoding` with every `sig[i]` a read that faults out of range. -/
def IsValidSignatureEncodingChecked (sig : valtype) : Except String Bool :=
  let n := sig.length
  if n < 9 ∨ n > 73 then pure false else do
  if (← vecAt sig 0) ≠ 0x30 then pure false else do
  if (← vecAt sig 1).toNat ≠ n - 3 then pure false else do
  let lenR := (← vecAt sig 3).toNat
  if 5 + lenR ≥ n then pure false else do
  let lenS := (← vecAt sig (5 + lenR)).toNat
  if lenR + lenS + 7 ≠ n then pure false else do
  if (← vecAt sig 2) ≠ 0x02 then pure false else do
  if lenR = 0 then pure false else do
  if (← vecAt sig 4) &&& 0x80 ≠ 0 then pure false else do
  if (← paddedChecked sig lenR 4) then pure false else do
  if (← vecAt sig (lenR + 4)) ≠ 0x02 then pure false else do
  if lenS = 0 then pure false else do
  if (← vecAt sig (lenR + 6)) &&& 0x80 ≠ 0 then pure false else do
  if (← paddedChecked sig lenS (lenR + 6)) then pure false else pure true

theorem vecAt_eq_ok_getD {v : valtype} {i : ℕ} (h : i < v.length) :
    vecAt v i = .ok (v.getD i 0) := by
  simp [vecAt, List.getElem?_eq_getElem h]

/-- A read inside the signature passes its byte on. -/
theorem vecAt_bind {α : Type} {sig : valtype} {i : ℕ} (h : i < sig.length)
    (f : UInt8 → Except String α) : vecAt sig i >>= f = f (sig.getD i 0) := by
  rw [vecAt_eq_ok_getD h, Except.ok_bind]

/-- A check that returns `false` on `c` and otherwise runs on without fault. -/
theorem ite_false_ok {c : Prop} [Decidable c] {x : Except String Bool} {y : Bool}
    (h : ¬c → x = .ok y) : (if c then pure false else x) = .ok (if c then false else y) := by
  by_cases hc : c
  · rw [if_pos hc, if_pos hc]
    rfl
  · rw [if_neg hc, if_neg hc, h hc]

/-- The padding check reads inside the signature when `len > 1` leaves room for both bytes. -/
theorem paddedChecked_eq {sig : valtype} {len i : ℕ} (hi : len > 1 → i + 1 < sig.length) :
    paddedChecked sig len i =
      .ok (decide (len > 1 ∧ sig.getD i 0 = 0x00 ∧ sig.getD (i + 1) 0 &&& 0x80 = 0)) := by
  unfold paddedChecked
  by_cases hlen : len > 1
  · rw [if_pos hlen, vecAt_bind (by have := hi hlen; omega)]
    by_cases hzero : sig.getD i 0 = 0x00
    · rw [if_pos hzero, vecAt_bind (hi hlen)]
      simp only [hlen, hzero, true_and, Except.pure_eq_ok]
      rfl
    · rw [if_neg hzero]
      simp only [hzero, false_and, and_false, decide_false, Except.pure_eq_ok]
  · rw [if_neg hlen]
    simp only [hlen, false_and, decide_false, Except.pure_eq_ok]

/-- Every read of the check lies inside the signature: the model whose reads fault out of range
returns the same answer and never faults. Each condition is peeled in the source's order, and
the conditions passed so far bound the next index read. -/
theorem IsValidSignatureEncodingChecked_eq_ok (sig : valtype) :
    IsValidSignatureEncodingChecked sig = .ok (IsValidSignatureEncoding sig) := by
  unfold IsValidSignatureEncodingChecked IsValidSignatureEncoding
  dsimp only
  refine ite_false_ok fun hn ↦ ?_
  rw [vecAt_bind (i := 0) (by omega)]
  refine ite_false_ok fun h0 ↦ ?_
  rw [vecAt_bind (i := 1) (by omega)]
  refine ite_false_ok fun h1 ↦ ?_
  rw [vecAt_bind (i := 3) (by omega)]
  refine ite_false_ok fun hR ↦ ?_
  rw [vecAt_bind (i := 5 + (sig.getD 3 0).toNat) (by omega)]
  refine ite_false_ok fun hS ↦ ?_
  rw [vecAt_bind (i := 2) (by omega)]
  refine ite_false_ok fun h2 ↦ ?_
  refine ite_false_ok fun hR0 ↦ ?_
  rw [vecAt_bind (i := 4) (by omega)]
  refine ite_false_ok fun hR4 ↦ ?_
  rw [paddedChecked_eq (i := 4) (by omega), Except.ok_bind]
  simp only [decide_eq_true_eq, Nat.reduceAdd]
  refine ite_false_ok fun hRpad ↦ ?_
  rw [vecAt_bind (i := (sig.getD 3 0).toNat + 4) (by omega)]
  refine ite_false_ok fun he ↦ ?_
  refine ite_false_ok fun hS0 ↦ ?_
  rw [vecAt_bind (i := (sig.getD 3 0).toNat + 6) (by omega)]
  refine ite_false_ok fun hS6 ↦ ?_
  rw [paddedChecked_eq (i := (sig.getD 3 0).toNat + 6) (by omega), Except.ok_bind]
  simp only [decide_eq_true_eq, Nat.add_assoc, Nat.reduceAdd]
  exact ite_false_ok fun _ ↦ rfl

/-! ## The grammar -/

/-- The check accepts every strict DER layout of at most seventy-three bytes. -/
theorem IsValidSignatureEncoding_derSignature {R S : valtype} {h : UInt8}
    (hR : IsDERIntegerBody R = true) (hS : IsDERIntegerBody S = true)
    (h73 : (derSignature R S h).length ≤ 73) :
    IsValidSignatureEncoding (derSignature R S h) = true := by
  rw [derSignature_eq_derLayout, length_derLayout] at *
  have hR0 := ((isDERIntegerBody_iff_getD R).1 hR).1
  have hS0 := ((isDERIntegerBody_iff_getD S).1 hS).1
  refine (IsValidSignatureEncoding_derLayout (toNat_toUInt8_of_lt (by omega))
    (toNat_toUInt8_of_lt (by omega))).2 ⟨by omega, h73, rfl, toNat_toUInt8_of_lt (by omega), rfl,
    rfl, hR, hS⟩

/-- What the check accepts is a strict DER layout: the length checks split it, and the rest of
the check fixes the header bytes and the integer bodies. -/
theorem derSignature_of_IsValidSignatureEncoding {sig : valtype}
    (hvalid : IsValidSignatureEncoding sig = true) :
    ∃ R S h, sig = derSignature R S h ∧ IsDERIntegerBody R = true ∧
      IsDERIntegerBody S = true ∧ 9 ≤ sig.length ∧ sig.length ≤ 73 := by
  have H := hvalid
  simp only [IsValidSignatureEncoding, Bool.if_false_left, Bool.and_eq_true, Bool.not_eq_true',
    decide_eq_false_iff_not] at H
  obtain ⟨hn, -, -, hR, hS, -⟩ := H
  obtain ⟨a, b, c, d, R, e, f, S, h, rfl, hd, hf⟩ :=
    @exists_derLayout sig (by omega) (by omega) (by omega)
  obtain ⟨h9, h73, ha, hb, hc, he, hbR, hbS⟩ := (IsValidSignatureEncoding_derLayout hd hf).1 hvalid
  refine ⟨R, S, h, ?_, hbR, hbS, by rw [length_derLayout]; exact h9,
    by rw [length_derLayout]; exact h73⟩
  -- the length bytes are the ones `derSignature` writes
  rw [derSignature_eq_derLayout, ha, hc, he, toUInt8_eq_of_toNat hb,
    toUInt8_eq_of_toNat hd, toUInt8_eq_of_toNat hf]

theorem IsValidSignatureEncoding_iff_strict_DER (sig : valtype) :
    (IsValidSignatureEncoding sig = true ↔
      ∃ (r s : ℕ) (h : UInt8), sig = derSignature (derInteger r) (derInteger s) h ∧
        9 ≤ sig.length ∧ sig.length ≤ 73) ∧
      IsValidSignatureEncodingChecked sig = .ok (IsValidSignatureEncoding sig) := by
  refine ⟨⟨fun hvalid ↦ ?_, ?_⟩, IsValidSignatureEncodingChecked_eq_ok sig⟩
  · obtain ⟨R, S, h, rfl, hR, hS, h9, h73⟩ := derSignature_of_IsValidSignatureEncoding hvalid
    refine ⟨derValue R, derValue S, h, ?_, h9, h73⟩
    rw [derInteger_derValue hR, derInteger_derValue hS]
  · rintro ⟨r, s, h, rfl, -, h73⟩
    exact IsValidSignatureEncoding_derSignature (isDERIntegerBody_derInteger r)
      (isDERIntegerBody_derInteger s) h73

theorem IsValidSignatureEncoding_iff_strict_DER_on_shortest :
    IsValidSignatureEncodingChecked [0x30, 6, 0x02, 1, 0x01, 0x02, 1, 0x01, 0x01] = .ok true := by
  rw [(IsValidSignatureEncoding_iff_strict_DER _).2]
  exact congrArg Except.ok (by decide)

/-- The check accepts a signature whose integers are both the single byte `0x00`, the encoding
of zero. -/
theorem IsValidSignatureEncoding_accepts_zero :
    IsValidSignatureEncoding (derSignature (derInteger 0) (derInteger 0) 0x01) = true ∧
      derValue (derInteger 0) = 0 := by
  decide

end LightningCash
