import TlsnDemo.Peg.Basic

/-!
# Occurrences in a forest of tokens

A parser returns a list of token trees. A token occurs in it when it is
the root of one of the trees or occurs among the children of some token.
-/

namespace Peg

variable {R : Type} {t u : Pair R} {ts us : List (Pair R)}

/-- `Occurs t ts`: the token is one of the trees, or lies below one. -/
inductive Occurs (t : Pair R) : List (Pair R) → Prop
  | head {us : List (Pair R)} : Occurs t (t :: us)
  | inner {u : Pair R} {us : List (Pair R)} : Occurs t u.intoInner → Occurs t (u :: us)
  | tail {u : Pair R} {us : List (Pair R)} : Occurs t us → Occurs t (u :: us)

@[simp] theorem not_occurs_nil : ¬ Occurs t [] := fun h => nomatch h

theorem occurs_cons : Occurs t (u :: us) ↔ t = u ∨ Occurs t u.intoInner ∨ Occurs t us := by
  constructor
  · intro h
    cases h with
    | head => exact Or.inl rfl
    | inner h => exact Or.inr (Or.inl h)
    | tail h => exact Or.inr (Or.inr h)
  · rintro (rfl | h | h)
    · exact Occurs.head
    · exact Occurs.inner h
    · exact Occurs.tail h

theorem occurs_singleton : Occurs t [u] ↔ t = u ∨ Occurs t u.intoInner := by
  rw [occurs_cons, or_iff_left (b := Occurs t []) not_occurs_nil]

theorem occurs_append : Occurs t (ts ++ us) ↔ Occurs t ts ∨ Occurs t us := by
  induction ts with
  | nil => simp
  | cons u ts ih => rw [List.cons_append, occurs_cons, occurs_cons, ih, or_assoc, or_assoc]

theorem Occurs.of_mem (h : t ∈ ts) : Occurs t ts := by
  induction ts with
  | nil => simp at h
  | cons u ts ih =>
    rcases List.mem_cons.1 h with rfl | h
    · exact Occurs.head
    · exact Occurs.tail (ih h)

theorem Occurs.of_inner (h : Occurs t us) (hu : Occurs u t.intoInner) : Occurs u us := by
  induction h with
  | head => exact Occurs.inner hu
  | inner _ ih => exact Occurs.inner ih
  | tail _ ih => exact Occurs.tail ih

/-- What occurs in a forest occurs in one of its trees. -/
theorem Occurs.exists_mem (h : Occurs t ts) : ∃ u ∈ ts, t = u ∨ Occurs t u.intoInner := by
  induction ts with
  | nil => exact absurd h not_occurs_nil
  | cons u ts ih =>
    rcases occurs_cons.1 h with rfl | h | h
    · exact ⟨_, List.mem_cons_self, Or.inl rfl⟩
    · exact ⟨u, List.mem_cons_self, Or.inr h⟩
    · obtain ⟨w, hw, ht⟩ := ih h
      exact ⟨w, List.mem_cons_of_mem _ hw, ht⟩

end Peg
