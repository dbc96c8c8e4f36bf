import LightningCash.Lib.Except

/-!
# Codecs: readers that invert writers

A writer turns a value into a list of stream elements. A reader is a computation in
`StateT (List β) (Except ε)`: it takes a value off the front of a stream, or fails with an `ε`.
`ReadsBack write read P` says that the reader inverts the writer on the values satisfying `P`,
whatever follows in the stream, and consumes exactly the encoding. `OnlyEncodings write read`
says that everything the reader accepts starts with the encoding of the value it returns.
Together they make the writer a bijection between the values and the prefixes the reader
accepts.

Both notions compose: a bind of readers reads what the concatenation of the writers wrote, and a
reader run a given number of times reads a list. Last, a record of a fixed layout, recognised by
the elements at fixed positions, is rebuilt from its fixed parts and its variable middle.
-/

namespace Codec

variable {β ε α γ : Type}

/-- A reader of `α`s off a stream of `β`s that may fail with an `ε`. -/
abbrev Reader (β ε α : Type) := StateT (List β) (Except ε) α

/-- `read` reads back from its encoding every value satisfying `P`, leaving what followed. -/
def ReadsBack (write : α → List β) (read : Reader β ε α) (P : α → Prop) : Prop :=
  ∀ a, P a → ∀ rest, read.run (write a ++ rest) = .ok (a, rest)

/-- Every input `read` accepts starts with the encoding of the value it returns. -/
def OnlyEncodings (write : α → List β) (read : Reader β ε α) : Prop :=
  ∀ s a rest, read.run s = .ok (a, rest) → s = write a ++ rest

/-! ## Stepping through a bind -/

theorem run_bind_of_ok {x : Reader β ε α} {f : α → Reader β ε γ} {s s' : List β} {a : α}
    (h : x.run s = .ok (a, s')) : (x >>= f).run s = (f a).run s' := by
  rw [StateT.run_bind, h]
  rfl

theorem run_bind_eq_ok {x : Reader β ε α} {f : α → Reader β ε γ} {s rest : List β} {c : γ} :
    (x >>= f).run s = .ok (c, rest) ↔
      ∃ a s', x.run s = .ok (a, s') ∧ (f a).run s' = .ok (c, rest) := by
  rw [StateT.run_bind]
  constructor
  · intro h
    obtain ⟨⟨a, s'⟩, hx, hf⟩ := Except.bind_eq_ok.mp h
    exact ⟨a, s', hx, hf⟩
  · rintro ⟨a, s', hx, hf⟩
    rw [hx]
    exact hf

/-- The reader of the first part of an encoding, followed by the rest of a reader. -/
theorem ReadsBack.run_bind {write : α → List β} {read : Reader β ε α} {P : α → Prop}
    (h : ReadsBack write read P) {a : α} (ha : P a) (f : α → Reader β ε γ) (rest : List β) :
    (read >>= f).run (write a ++ rest) = (f a).run rest :=
  run_bind_of_ok (h a ha rest)

theorem ReadsBack.mono {write : α → List β} {read : Reader β ε α} {P Q : α → Prop}
    (h : ReadsBack write read P) (hQP : ∀ a, Q a → P a) : ReadsBack write read Q :=
  fun a ha ↦ h a (hQP a ha)

/-! ## Reading a given number of values -/

/-- `n` values read one after the other. -/
def readMany (read : Reader β ε α) : ℕ → Reader β ε (List α)
  | 0 => pure []
  | n + 1 => do
    let a ← read
    let as ← readMany read n
    pure (a :: as)

theorem readMany_readsBack {write : α → List β} {read : Reader β ε α} {P : α → Prop}
    (h : ReadsBack write read P) (xs : List α) (hxs : ∀ x ∈ xs, P x) (rest : List β) :
    (readMany read xs.length).run (xs.flatMap write ++ rest) = .ok (xs, rest) := by
  induction xs with
  | nil => rfl
  | cons x xs ih =>
    have hx : P x := hxs x List.mem_cons_self
    have htail := ih fun y hy ↦ hxs y (List.mem_cons_of_mem x hy)
    rw [List.length_cons, readMany, List.flatMap_cons, List.append_assoc, h.run_bind hx,
      run_bind_of_ok htail]
    rfl

/-! ## Fixed layouts -/

/-- A list of the length of a layout, with the layout's fixed prefix and suffix at their
positions, is that prefix, its own middle, and that suffix. -/
theorem eq_append_of_getD {l p q : List β} {m : ℕ} (d : β)
    (hlen : l.length = p.length + m + q.length)
    (hp : ∀ i < p.length, l.getD i d = p.getD i d)
    (hq : ∀ j < q.length, l.getD (p.length + m + j) d = q.getD j d) :
    l = p ++ (l.drop p.length).take m ++ q := by
  refine List.ext_getElem (by simp; omega) fun i h₁ h₂ ↦ ?_
  by_cases hi : i < p.length
  · rw [List.getElem_append_left (by simp; omega), List.getElem_append_left hi,
      ← List.getD_eq_getElem _ d h₁, hp i hi, List.getD_eq_getElem _ _ hi]
  by_cases hm : i < p.length + m
  · rw [List.getElem_append_left (by simp; omega), List.getElem_append_right (by omega),
      List.getElem_take, List.getElem_drop]
    congr 1
    omega
  · -- the suffix: index `i` is position `j` of `q`
    have hj : i - (p ++ (l.drop p.length).take m).length < q.length := by
      simp at h₂ ⊢
      omega
    have hidx : i = p.length + m + (i - (p ++ (l.drop p.length).take m).length) := by
      simp
      omega
    rw [List.getElem_append_right (by simp; omega), ← List.getD_eq_getElem _ d h₁,
      ← List.getD_eq_getElem _ d hj, ← hq _ hj, ← hidx]

end Codec
