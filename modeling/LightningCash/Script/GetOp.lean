import LightningCash.Script.Encoding

/-!
# `GetOp2` over the positions of a script

`CScript` is a `prevector<28, unsigned char>`, whose size type is `uint32_t` and whose
difference type is `int32_t`. `end()` is `item_ptr(size())`, the size passed as a difference,
and `end() - pc` is a difference too. `GetOp2` reads an operation at an iterator `pc` by
comparing `pc` with `end()` and `end() - pc` with the sizes it needs.

The positional reader `GetOp2` below keeps that arithmetic. Below `2 ^ 31` bytes every
difference is the plain one, and `GetOp2` at `pc` is the suffix reader `GetOp` on the bytes from
`pc` (`GetOp2_eq_GetOp`); so a push written by `CScript << b` reads back as `b`. From `2 ^ 31`
bytes on, `end()` lies before `begin()`, and `GetOp2` reads nothing. At any size each
successful read moves `pc` forward and not past `end()`, so a loop of reads ends.
-/

namespace LightningCash

/-- A difference of `prevector` iterators as its `difference_type`, `int32_t`. -/
def toDiff (x : ℤ) : ℤ := x.bmod (2 ^ 32)

/-- `end()` of a script as a position from `begin()`: `item_ptr(size())`. -/
def scriptEnd (script : List UInt8) : ℤ := toDiff script.length

/-- The size of a push whose opcode was read before `pc`, and the position after its size
bytes: `none` where they run past `end()`. -/
def pushSizeAt (script : List UInt8) (opcode : UInt8) (pc : ℤ) : Option (ℕ × ℤ) :=
  let left := toDiff (scriptEnd script - pc)
  if opcode < OP_PUSHDATA1 then some (opcode.toNat, pc)
  else if opcode = OP_PUSHDATA1 then
    if left < 1 then none else some ((script.getD pc.toNat 0).toNat, pc + 1)
  else if opcode = OP_PUSHDATA2 then
    if left < 2 then none else some (ReadLE16 (script.drop pc.toNat), pc + 2)
  else if left < 4 then none else some ((ReadLE32 (script.drop pc.toNat)).toNat, pc + 4)

/-- `CScript::GetOp2(pc, opcodeRet, pvchRet)` at the position `pc`: the opcode, the push data
and the position after the operation, or `none` where the source returns `false`. -/
def GetOp2 (script : List UInt8) (pc : ℤ) : Option (UInt8 × valtype × ℤ) :=
  if pc ≥ scriptEnd script then none
  else if toDiff (scriptEnd script - pc) < 1 then none
  else
    let opcode := script.getD pc.toNat 0
    if opcode ≤ OP_PUSHDATA4 then
      match pushSizeAt script opcode (pc + 1) with
      | none => none
      | some (nSize, pc) =>
        let left := toDiff (scriptEnd script - pc)
        -- `end() - pc < 0 || (unsigned int)(end() - pc) < nSize`
        if left < 0 ∨ left.toNat < nSize then none
        else some (opcode, (script.drop pc.toNat).take nSize, pc + nSize)
    else some (opcode, [], pc + 1)

/-- The opcode `CScript << b` writes before `b`. -/
def pushOpcode (b : valtype) : UInt8 :=
  if b.length < OP_PUSHDATA1.toNat then b.length.toUInt8
  else if b.length ≤ 0xff then OP_PUSHDATA1
  else if b.length ≤ 0xffff then OP_PUSHDATA2
  else OP_PUSHDATA4

/-! ## `int32_t` differences -/

theorem toDiff_of_small {x : ℤ} (h0 : -2 ^ 31 ≤ x) (h1 : x < 2 ^ 31) : toDiff x = x :=
  Int.bmod_eq_of_le (by norm_num; omega) (by norm_num; omega)

theorem toDiff_lt (x : ℤ) : toDiff x < 2 ^ 31 := by
  unfold toDiff
  exact lt_of_lt_of_le (Int.bmod_lt (by norm_num)) (by norm_num)

/-- A nonnegative difference whose `int32_t` value is at least `n ≥ 0` is at least `n`. -/
theorem le_of_le_toDiff {x n : ℤ} (hx : 0 ≤ x) (hn : 0 ≤ n) (h : n ≤ toDiff x) : n ≤ x := by
  rw [toDiff, Int.bmod_def] at h
  norm_num at h
  split_ifs at h <;> omega

/-- A size field read within the script ends within it. -/
theorem pushSizeAt_le {script : List UInt8} {opcode : UInt8} {pc pc' : ℤ} {nSize : ℕ}
    (h : pushSizeAt script opcode pc = some (nSize, pc')) (hpc : pc ≤ scriptEnd script) :
    pc ≤ pc' ∧ pc' ≤ scriptEnd script := by
  have hfield : ∀ k : ℤ, 0 ≤ k → ¬toDiff (scriptEnd script - pc) < k → pc + k ≤ scriptEnd script :=
    fun k hk hleft ↦ by
      have := le_of_le_toDiff (by omega) hk (not_lt.mp hleft)
      omega
  unfold pushSizeAt at h
  dsimp only at h
  split_ifs at h <;> simp only [Option.some.injEq, Prod.mk.injEq] at h <;> rw [← h.2]
  · exact ⟨le_rfl, hpc⟩
  -- a size field of one, two or four bytes, each checked against `end() - pc`
  · rename_i hleft
    exact ⟨by omega, hfield 1 (by decide) hleft⟩
  · rename_i hleft
    exact ⟨by omega, hfield 2 (by decide) hleft⟩
  · rename_i hleft
    exact ⟨by omega, hfield 4 (by decide) hleft⟩

/-- The step lemma: a successful read moves `pc` forward, and not past `end()`. -/
theorem GetOp2_advance {script : List UInt8} {pc pc' : ℤ} {opcode : UInt8} {vch : valtype}
    (h : GetOp2 script pc = some (opcode, vch, pc')) :
    pc + 1 ≤ pc' ∧ pc' ≤ scriptEnd script := by
  unfold GetOp2 at h
  dsimp only at h
  split_ifs at h with hend hleft hpush
  · split at h
    · cases h
    · rename_i nSize q hsize
      obtain ⟨hq, hqend⟩ := pushSizeAt_le hsize (by omega)
      split_ifs at h with hdata
      cases h
      push Not at hdata
      have := le_of_le_toDiff (x := scriptEnd script - q) (by omega) (Int.natCast_nonneg nSize)
        (by have := Int.toNat_of_nonneg hdata.1; omega)
      omega
  · cases h
    omega

/-- A loop of reads from `begin()` ends: no run of successful reads goes on forever. -/
theorem GetOp2_run_ends (script : List UInt8) :
    ¬∃ pcs : ℕ → ℤ, pcs 0 = 0 ∧
      ∀ i, ∃ opcode vch, GetOp2 script (pcs i) = some (opcode, vch, pcs (i + 1)) := by
  rintro ⟨pcs, h0, hrun⟩
  -- every read moves one byte at least, and `end()` lies below `2 ^ 31`
  have hgrow : ∀ i : ℕ, (i : ℤ) ≤ pcs i := by
    intro i
    induction i with
    | zero => rw [h0]; rfl
    | succ i ih =>
      obtain ⟨_, _, hi⟩ := hrun i
      have := (GetOp2_advance hi).1
      push_cast
      omega
  obtain ⟨_, _, hlast⟩ := hrun (2 ^ 31)
  have hbound := (GetOp2_advance hlast).2
  have hlt := toDiff_lt (script.length : ℤ)
  have hN := hgrow (2 ^ 31 + 1)
  rw [show ((2 ^ 31 + 1 : ℕ) : ℤ) = 2 ^ 31 + 1 by norm_num] at hN
  unfold scriptEnd at hbound
  omega

/-- What a size field leaves is the script after it. -/
theorem pushSize_drop {opcode : UInt8} {pc rest : List UInt8} {nSize : ℕ}
    (h : pushSize opcode pc = some (nSize, rest)) : ∃ j ≤ pc.length, rest = pc.drop j := by
  unfold pushSize at h
  split_ifs at h with h1 h2 h3 hshort hshort
  · simp only [Option.some.injEq, Prod.mk.injEq] at h
    exact ⟨0, Nat.zero_le _, by rw [← h.2, List.drop_zero]⟩
  · split at h
    · cases h
    · simp only [Option.some.injEq, Prod.mk.injEq] at h
      exact ⟨1, by simp, by rw [← h.2, List.drop_one, List.tail_cons]⟩
  · simp only [Option.some.injEq, Prod.mk.injEq] at h
    exact ⟨2, by omega, h.2.symm⟩
  · simp only [Option.some.injEq, Prod.mk.injEq] at h
    exact ⟨4, by omega, h.2.symm⟩

/-! ## Pushes -/

/-- A push written by `CScript << b` is read back by `GetOp`, whatever follows it. -/
theorem GetOp_pushData {b : valtype} (hb : b.length < 2 ^ 32) (rest : List UInt8) :
    GetOp (pushData b ++ rest) = some (pushOpcode b, b, rest) := by
  have htake : (b ++ rest).take b.length = b := List.take_left' rfl
  have hdrop : (b ++ rest).drop b.length = rest := List.drop_left' rfl
  have hfits : ¬(b ++ rest).length < b.length := by simp
  unfold pushData pushOpcode
  dsimp only
  by_cases h1 : b.length < OP_PUSHDATA1.toNat
  · -- the length is the opcode
    have hval : b.length.toUInt8.toNat = b.length := toNat_toUInt8_of_lt (by simp at h1; omega)
    have hop : b.length.toUInt8 ≤ OP_PUSHDATA4 := by
      rw [UInt8.le_iff_toNat_le, hval, toNat_OP_PUSHDATA4]; simp at h1; omega
    have hlt : b.length.toUInt8 < OP_PUSHDATA1 := by
      rw [UInt8.lt_iff_toNat_lt, hval]; exact h1
    rw [if_pos h1, if_pos h1, List.cons_append]
    simp only [GetOp, if_pos hop, pushSize, if_pos hlt, hval, hfits, if_false, htake, hdrop]
  by_cases h2 : b.length ≤ 0xff
  · -- one size byte
    have hval : b.length.toUInt8.toNat = b.length := toNat_toUInt8_of_lt (by omega)
    rw [if_neg h1, if_neg h1, if_pos h2, if_pos h2]
    simp [GetOp, pushSize, OP_PUSHDATA1, OP_PUSHDATA4, hval, htake, hdrop]
  by_cases h3 : b.length ≤ 0xffff
  · -- two size bytes, little-endian
    have hread : ReadLE16 (b.length.toUInt8 :: (b.length / 256).toUInt8 :: (b ++ rest)) =
        b.length := by
      rw [ReadLE16, List.getD_cons_zero, List.getD_cons_succ, List.getD_cons_zero,
        Nat.toUInt8_eq, Nat.toUInt8_eq, UInt8.toNat_ofNat', UInt8.toNat_ofNat']
      omega
    rw [if_neg h1, if_neg h1, if_neg h2, if_neg h2, if_pos h3, if_pos h3]
    simp [GetOp, pushSize, OP_PUSHDATA1, OP_PUSHDATA2, OP_PUSHDATA4, hread, htake, hdrop]
  · -- four size bytes, little-endian
    have hread : (ReadLE32 (b.length.toUInt8 :: (b.length / 256).toUInt8 ::
        (b.length / 65536).toUInt8 :: (b.length / 16777216).toUInt8 :: (b ++ rest))).toNat =
          b.length := by
      rw [toNat_ReadLE32, Nat.toUInt8_eq, Nat.toUInt8_eq, Nat.toUInt8_eq, Nat.toUInt8_eq,
        UInt8.toNat_ofNat', UInt8.toNat_ofNat', UInt8.toNat_ofNat', UInt8.toNat_ofNat']
      omega
    have hshort : ¬b.length + rest.length + 1 + 1 + 1 + 1 < 4 := by omega
    rw [if_neg h1, if_neg h1, if_neg h2, if_neg h2, if_neg h3, if_neg h3]
    simp [GetOp, pushSize, OP_PUSHDATA1, OP_PUSHDATA2, OP_PUSHDATA4, hread, htake, hdrop, hshort]

/-! ## Below `2 ^ 31` bytes -/

section Small

variable {script : List UInt8} (hlen : script.length < 2 ^ 31)
include hlen

theorem scriptEnd_of_small : scriptEnd script = script.length :=
  toDiff_of_small (by omega) (by omega)

/-- Below `2 ^ 31` bytes, `end() - pc` is the number of bytes from `pc` on. -/
theorem toDiff_end_sub {pc : ℤ} (h0 : 0 ≤ pc) (hpc : pc ≤ script.length) :
    toDiff (scriptEnd script - pc) = (script.drop pc.toNat).length := by
  rw [scriptEnd_of_small hlen, toDiff_of_small (by omega) (by omega), List.length_drop]
  omega

/-- Below `2 ^ 31` bytes, a size field read at a position is the one read from the bytes
there. -/
theorem pushSizeAt_eq (opcode : UInt8) {pc : ℤ} (h0 : 0 ≤ pc) (hpc : pc ≤ script.length) :
    pushSizeAt script opcode pc =
      (pushSize opcode (script.drop pc.toNat)).map
        fun r ↦ (r.1, (script.length : ℤ) - r.2.length) := by
  have hleft := toDiff_end_sub hlen h0 hpc
  have hrest : (script.drop pc.toNat).length = script.length - pc.toNat := List.length_drop
  have hget : script.getD pc.toNat 0 = (script.drop pc.toNat).getD 0 0 := by
    rw [List.getD_eq_getElem?_getD, List.getD_eq_getElem?_getD, List.getElem?_drop, Nat.add_zero]
  unfold pushSizeAt pushSize
  dsimp only
  rw [hleft, hget]
  -- the position after a field is the script's length less what is left after it
  generalize script.drop pc.toNat = d at hrest ⊢
  by_cases h1 : opcode < OP_PUSHDATA1
  · rw [if_pos h1, if_pos h1, Option.map_some, hrest,
      show (script.length : ℤ) - ↑(script.length - pc.toNat) = pc by omega]
  by_cases h2 : opcode = OP_PUSHDATA1
  · rw [if_neg h1, if_neg h1, if_pos h2, if_pos h2]
    cases d with
    | nil => rfl
    | cons b rest =>
      simp only [List.length_cons] at hrest
      simp only [List.length_cons, List.getD_cons_zero, Option.map_some]
      rw [if_neg (by omega), show (script.length : ℤ) - rest.length = pc + 1 by omega]
  by_cases h3 : opcode = OP_PUSHDATA2
  · rw [if_neg h1, if_neg h1, if_neg h2, if_neg h2, if_pos h3, if_pos h3]
    by_cases hd : d.length < 2
    · rw [if_pos (by omega), if_pos hd]
      rfl
    · rw [if_neg (by omega), if_neg hd, Option.map_some, List.length_drop,
        show (script.length : ℤ) - ↑(d.length - 2) = pc + 2 by omega]
  · rw [if_neg h1, if_neg h1, if_neg h2, if_neg h2, if_neg h3, if_neg h3]
    by_cases hd : d.length < 4
    · rw [if_pos (by omega), if_pos hd]
      rfl
    · rw [if_neg (by omega), if_neg hd, Option.map_some, List.length_drop,
        show (script.length : ℤ) - ↑(d.length - 4) = pc + 4 by omega]

/-- Below `2 ^ 31` bytes, `GetOp2` at a position is `GetOp` on the bytes from there, the position
after the operation being the script's length less what `GetOp` leaves. -/
theorem GetOp2_eq_GetOp {pc : ℤ} (h0 : 0 ≤ pc) (hpc : pc ≤ script.length) :
    GetOp2 script pc = (GetOp (script.drop pc.toNat)).map
      fun r ↦ (r.1, r.2.1, (script.length : ℤ) - r.2.2.length) := by
  by_cases hlast : pc = script.length
  · -- at `end()`
    rw [GetOp2, if_pos (by rw [scriptEnd_of_small hlen]; omega),
      show pc.toNat = script.length by omega, List.drop_length]
    rfl
  have hn : pc.toNat < script.length := by omega
  have hget : script.getD pc.toNat 0 = script[pc.toNat] := List.getD_eq_getElem _ _ hn
  unfold GetOp2
  dsimp only
  rw [if_neg (by rw [scriptEnd_of_small hlen]; omega), toDiff_end_sub hlen h0 hpc,
    if_neg (by rw [List.length_drop]; omega), hget, List.drop_eq_getElem_cons hn, GetOp]
  by_cases hop : script[pc.toNat] ≤ OP_PUSHDATA4
  · rw [if_pos hop, if_pos hop, pushSizeAt_eq hlen _ (by omega) (by omega),
      show (pc + 1).toNat = pc.toNat + 1 by omega]
    cases hsize : pushSize script[pc.toNat] (script.drop (pc.toNat + 1)) with
    | none => rfl
    | some r =>
      obtain ⟨nSize, rest⟩ := r
      -- what is left after the size field is the script from a later position
      obtain ⟨j, hj, hrest⟩ := pushSize_drop hsize
      rw [List.drop_drop] at hrest
      have hlen' : rest.length = script.length - (pc.toNat + 1 + j) := by
        rw [hrest, List.length_drop]
      rw [List.length_drop] at hj
      have hq0 : 0 ≤ (script.length : ℤ) - rest.length := by omega
      have hqle : (script.length : ℤ) - rest.length ≤ script.length := by omega
      have hdrop : script.drop ((script.length : ℤ) - rest.length).toNat = rest := by
        rw [hlen', hrest]
        congr 1
        omega
      simp only [Option.map_some]
      rw [toDiff_end_sub hlen hq0 hqle, hdrop]
      by_cases hshort : rest.length < nSize
      · rw [if_pos (Or.inr (by omega)), if_pos hshort]
        rfl
      · rw [if_neg (by omega), if_neg hshort, Option.map_some, List.length_drop,
          show (script.length : ℤ) - rest.length + nSize =
            (script.length : ℤ) - ↑(rest.length - nSize) by omega]
  · rw [if_neg hop, if_neg hop, Option.map_some, List.length_drop,
      show pc + 1 = (script.length : ℤ) - ↑(script.length - (pc.toNat + 1)) by omega]

end Small

/-! ## From `2 ^ 31` bytes -/

/-- From `2 ^ 31` bytes on, `end()` lies before `begin()` and `GetOp2` reads nothing from any
position at or after `begin()`. -/
theorem GetOp2_of_two_pow_31_le {script : List UInt8} (hlen : 2 ^ 31 ≤ script.length)
    (hsize : script.length < 2 ^ 32) {pc : ℤ} (h0 : 0 ≤ pc) : GetOp2 script pc = none := by
  have hend : scriptEnd script < 0 := by
    rw [scriptEnd, toDiff, Int.bmod_def]
    norm_num
    rw [Int.emod_eq_of_lt (by omega) (by omega), if_neg (by omega)]
    omega
  rw [GetOp2, if_pos (by omega)]

theorem length_pushData_of_lt {b : valtype} (h : 0xffff < b.length) :
    (pushData b).length = b.length + 5 := by
  unfold pushData
  rw [if_neg (by simp; omega), if_neg (by omega), if_neg (by omega)]
  simp

theorem length_le_pushData (b : valtype) : b.length ≤ (pushData b).length := by
  unfold pushData
  dsimp only
  split_ifs <;> simp only [List.length_cons] <;> omega

theorem GetOp2_pushData :
    (∀ P b : List UInt8, (P ++ pushData b).length < 2 ^ 31 →
      GetOp2 (P ++ pushData b) P.length =
        some (pushOpcode b, b, ((P ++ pushData b).length : ℤ))) ∧
      (∀ (S : List UInt8) (pc pc' : ℤ) (opcode : UInt8) (vch : valtype),
        GetOp2 S pc = some (opcode, vch, pc') → pc + 1 ≤ pc' ∧ pc' ≤ scriptEnd S) ∧
      ∀ S : List UInt8, ¬∃ pcs : ℕ → ℤ, pcs 0 = 0 ∧
        ∀ i, ∃ opcode vch, GetOp2 S (pcs i) = some (opcode, vch, pcs (i + 1)) := by
  refine ⟨fun P b hlen ↦ ?_, fun _ _ _ _ _ h ↦ GetOp2_advance h, GetOp2_run_ends⟩
  have hb : b.length < 2 ^ 32 := by
    have := length_le_pushData b
    rw [List.length_append] at hlen
    omega
  rw [GetOp2_eq_GetOp hlen (Int.natCast_nonneg _) (by simp), Int.toNat_natCast, List.drop_left,
    ← List.append_nil (pushData b), GetOp_pushData hb, Option.map_some, List.append_nil,
    List.length_nil, Nat.cast_zero, sub_zero]

theorem GetOp2_pushData_after_dup :
    ([OP_DUP] ++ pushData [1, 2, 3]).length < 2 ^ 31 ∧
      GetOp2 ([OP_DUP] ++ pushData [1, 2, 3]) 1 = some (3, [1, 2, 3], 5) :=
  ⟨by decide, GetOp2_pushData.1 [OP_DUP] [1, 2, 3] (by decide)⟩

/-- A push of `2 ^ 31` bytes after an empty prefix is not read back: the script has `2 ^ 31 + 5`
bytes, and `end()` lies before `begin()`. -/
theorem GetOp2_pushData_two_pow_31 :
    (List.replicate (2 ^ 31) (0 : UInt8)).length ≤ 2 ^ 32 - 1 ∧
      GetOp2 ([] ++ pushData (List.replicate (2 ^ 31) 0)) ([] : List UInt8).length = none := by
  have hrep : (List.replicate (2 ^ 31) (0 : UInt8)).length = 2 ^ 31 := List.length_replicate
  have hlen : (pushData (List.replicate (2 ^ 31) (0 : UInt8))).length = 2 ^ 31 + 5 := by
    rw [length_pushData_of_lt (by rw [hrep]; decide), hrep]
  refine ⟨by rw [hrep]; decide, ?_⟩
  rw [List.nil_append, List.length_nil]
  exact GetOp2_of_two_pow_31_le (by omega) (by omega) le_rfl

end LightningCash
