import Mathlib.Data.Finset.Max
import Mathlib.Logic.Relation

/-!
# Worklist search over a successor function

The closure of a set of vertices under a successor function `next`, computed with a worklist: a
set `stage` of vertices still to visit and a set `done` of vertices already visited. One round
takes the least staged vertex, marks it done and stages its successors that are not done yet.
The rounds are bounded by a fuel argument.

The search never walks through a vertex that was done when it started: a vertex found by the
search is reached from a staged vertex along successor steps that avoid the initial `done`. So
started from `done = ∅` the search returns the vertices reachable from the stage; started from a
non-empty `done` it returns less than `done` together with that closure in general.

Enough fuel is the number of vertices of a universe that contains the stage, is closed under
`next` and is not done yet: every round marks one more of them done.
-/

namespace Worklist

variable {α : Type*} (next : α → Finset α)

/-- A successor step into a vertex outside `done`. -/
def Step (done : Finset α) (a b : α) : Prop :=
  b ∈ next a ∧ b ∉ done

theorem Step.mono {next} {done done' : Finset α} (hsub : done ⊆ done') {a b : α}
    (h : Step next done' a b) : Step next done a b :=
  ⟨h.1, fun hb ↦ h.2 (hsub hb)⟩

/-- Nothing done: a step is a successor step. -/
@[simp] theorem Step_empty : Step next ∅ = fun a b ↦ b ∈ next a := by
  funext a b
  simp [Step]

variable [LinearOrder α]

/-- The worklist search with `fuel` rounds. -/
def loop : ℕ → Finset α → Finset α → Finset α
  | 0, _, done => done
  | fuel + 1, stage, done =>
    if h : stage.Nonempty then
      let it := stage.min' h
      let done' := insert it done
      loop fuel (stage.erase it ∪ (next it).filter (· ∉ done')) done'
    else done

variable {next}

theorem loop_of_empty (fuel : ℕ) (done : Finset α) : loop next fuel ∅ done = done := by
  cases fuel with
  | zero => rfl
  | succ fuel => simp [loop]

/-! ## One round -/

section Round

variable {stage done : Finset α} (h : stage.Nonempty)

/-- The vertex a round takes is staged and, while stage and done are disjoint, not done. -/
theorem min'_mem_stage : stage.min' h ∈ stage := Finset.min'_mem stage h

/-- A round keeps the stage disjoint from the vertices done. -/
theorem disjoint_round (hdis : Disjoint stage done) :
    Disjoint (stage.erase (stage.min' h) ∪ (next (stage.min' h)).filter
      (· ∉ insert (stage.min' h) done)) (insert (stage.min' h) done) := by
  rw [Finset.disjoint_left]
  intro x hx hxd
  rcases Finset.mem_union.mp hx with hx | hx
  · obtain ⟨hne, hxs⟩ := Finset.mem_erase.mp hx
    rcases Finset.mem_insert.mp hxd with rfl | hxd
    · exact hne rfl
    · exact Finset.disjoint_left.mp hdis hxs hxd
  · exact (Finset.mem_filter.mp hx).2 hxd

/-- What a round finds: the vertices reached from the new stage avoiding the new `done`, together
with the new `done`, are those reached from the old stage avoiding the old `done`. The backward
direction follows a path to its last visit of the vertex the round takes. -/
theorem reach_round (hdis : Disjoint stage done) (x : α) :
    (x ∈ insert (stage.min' h) done ∨
        ∃ t ∈ stage.erase (stage.min' h) ∪ (next (stage.min' h)).filter
          (· ∉ insert (stage.min' h) done),
          Relation.ReflTransGen (Step next (insert (stage.min' h) done)) t x) ↔
      x ∈ done ∨ ∃ t ∈ stage, Relation.ReflTransGen (Step next done) t x := by
  set it := stage.min' h with hit
  have hsub : done ⊆ insert it done := Finset.subset_insert it done
  constructor
  · rintro (hx | ⟨t, ht, hpath⟩)
    · rcases Finset.mem_insert.mp hx with rfl | hx
      · exact .inr ⟨it, min'_mem_stage h, .refl⟩
      · exact .inl hx
    · have hpath' := Relation.ReflTransGen.mono (fun a b ↦ Step.mono hsub) _ _ hpath
      rcases Finset.mem_union.mp ht with ht | ht
      · exact .inr ⟨t, Finset.mem_of_mem_erase ht, hpath'⟩
      · -- a successor of the vertex taken: the path starts one step earlier
        obtain ⟨htn, htd⟩ := Finset.mem_filter.mp ht
        have hstep : Step next done it t := ⟨htn, fun hd ↦ htd (hsub hd)⟩
        exact .inr ⟨it, min'_mem_stage h, .head hstep hpath'⟩
  · rintro (hx | ⟨t, ht, hpath⟩)
    · exact .inl (hsub hx)
    · -- along the path every vertex is outside `done`, and is `it` or reached from the new stage
      have key : ∀ y, Relation.ReflTransGen (Step next done) t y →
          y ∉ done ∧
            (y = it ∨ ∃ t' ∈ stage.erase it ∪ (next it).filter (· ∉ insert it done),
              Relation.ReflTransGen (Step next (insert it done)) t' y) := by
        intro y hy
        induction hy with
        | refl =>
          refine ⟨Finset.disjoint_left.mp hdis ht, ?_⟩
          by_cases hti : t = it
          · exact .inl hti
          · exact .inr ⟨t, Finset.mem_union_left _ (Finset.mem_erase.mpr ⟨hti, ht⟩), .refl⟩
        | @tail y z _ hyz ih =>
          obtain ⟨hzn, hzd⟩ := hyz
          refine ⟨hzd, ?_⟩
          by_cases hzi : z = it
          · exact .inl hzi
          have hz' : z ∉ insert it done := by simp [hzi, hzd]
          rcases ih.2 with rfl | ⟨t', ht', hp⟩
          · have hzs : z ∈ stage.erase it ∪ (next it).filter (· ∉ insert it done) :=
              Finset.mem_union_right _ (Finset.mem_filter.mpr ⟨hzn, hz'⟩)
            exact .inr ⟨z, hzs, .refl⟩
          · exact .inr ⟨t', ht', hp.tail ⟨hzn, hz'⟩⟩
      rcases (key x hpath).2 with rfl | hreach
      · exact .inl (Finset.mem_insert_self _ _)
      · exact .inr hreach

end Round

/-! ## The whole search -/

section Search

variable {U : Finset α} (hU : ∀ x ∈ U, next x ⊆ U)
include hU

/-- With enough fuel the search returns `done` together with everything reached from the stage
along steps that avoid `done`. -/
theorem mem_loop :
    ∀ (fuel : ℕ) (stage done : Finset α), stage ⊆ U → Disjoint stage done →
      (U \ done).card ≤ fuel → ∀ x,
        x ∈ loop next fuel stage done ↔
          x ∈ done ∨ ∃ t ∈ stage, Relation.ReflTransGen (Step next done) t x
  | 0, stage, done, hstage, hdis, hfuel, x => by
    -- no fuel: every vertex of the universe is done, so nothing is staged
    have hUd : U ⊆ done :=
      Finset.sdiff_eq_empty_iff_subset.mp (Finset.card_eq_zero.mp (Nat.le_zero.mp hfuel))
    have hempty : stage = ∅ :=
      (Finset.disjoint_self_iff_empty stage).mp
        (Finset.disjoint_of_subset_right (hstage.trans hUd) hdis)
    subst hempty
    simp [loop]
  | fuel + 1, stage, done, hstage, hdis, hfuel, x => by
    by_cases h : stage.Nonempty
    · set it := stage.min' h with hit
      have hitU : it ∈ U := hstage (min'_mem_stage h)
      have hitd : it ∉ done := Finset.disjoint_left.mp hdis (min'_mem_stage h)
      -- the round marks one more vertex of the universe done
      have hcard : (U \ insert it done).card ≤ fuel := by
        have hsplit : U \ done = insert it (U \ insert it done) := by
          ext y
          by_cases hy : y = it <;> simp [hy, hitU, hitd]
        have hnot : it ∉ U \ insert it done := by simp
        rw [hsplit, Finset.card_insert_of_notMem hnot] at hfuel
        omega
      have hstage' : stage.erase it ∪ (next it).filter (· ∉ insert it done) ⊆ U :=
        Finset.union_subset ((Finset.erase_subset _ _).trans hstage)
          ((Finset.filter_subset _ _).trans (hU it hitU))
      rw [loop, dif_pos h, mem_loop fuel _ _ hstage' (disjoint_round h hdis) hcard x]
      exact reach_round h hdis x
    · rw [Finset.not_nonempty_iff_eq_empty] at h
      subst h
      simp [loop_of_empty]

end Search

end Worklist
