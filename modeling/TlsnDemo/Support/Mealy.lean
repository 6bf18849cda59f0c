import Mathlib.Data.List.Induction

/-!
# Runs of a machine with outputs

A machine answers each input from its state and moves on. A run is given
by its inputs; its history pairs each input with the answer, from the
oldest. A property of all states reached is shown by what one step keeps
of it (`run_invariant`), and is equivalent to a condition on the steps
when it is so of one step (`throughout_iff_eachStep`).
-/

namespace Mealy

variable {σ ι ο : Type} {step : σ → ι → ο × σ} {s : σ}

/-- The state after a run. -/
def final (step : σ → ι → ο × σ) (s : σ) (inputs : List ι) : σ :=
  inputs.foldl (fun t i => (step t i).2) s

/-- The history of a run. -/
def history (step : σ → ι → ο × σ) : σ → List ι → List (ι × ο)
  | _, [] => []
  | s, i :: inputs => (i, (step s i).1) :: history step (step s i).2 inputs

@[simp] theorem final_nil : final step s [] = s := rfl

@[simp] theorem history_nil : history step s [] = [] := rfl

theorem final_append {before after : List ι} :
    final step s (before ++ after) = final step (final step s before) after :=
  List.foldl_append

@[simp] theorem final_concat {before : List ι} {i : ι} :
    final step s (before ++ [i]) = (step (final step s before) i).2 := by
  rw [final_append]
  rfl

theorem history_append {before after : List ι} :
    history step s (before ++ after) =
      history step s before ++ history step (final step s before) after := by
  induction before generalizing s with
  | nil => rfl
  | cons i before ih =>
    change _ :: history step _ (before ++ after) = _
    rw [ih]
    rfl

@[simp] theorem history_concat {before : List ι} {i : ι} :
    history step s (before ++ [i]) =
      history step s before ++ [(i, (step (final step s before) i).1)] := by
  rw [history_append]
  rfl

/-- The inputs of a history. -/
theorem map_fst_history (inputs : List ι) : (history step s inputs).map Prod.fst = inputs := by
  induction inputs generalizing s with
  | nil => rfl
  | cons i inputs ih =>
    change i :: (history step _ inputs).map Prod.fst = _
    rw [ih]

/-- What holds of the start, and is kept by each step, holds of the state
after each run. -/
theorem final_invariant {I : σ → Prop} (hstart : I s) (hstep : ∀ t i, I t → I (step t i).2)
    (inputs : List ι) : I (final step s inputs) := by
  induction inputs using List.reverseRecOn with
  | nil => exact hstart
  | append_singleton before i ih =>
    rw [final_concat]
    exact hstep _ i ih

/-- The same of a property of the history and the state. -/
theorem run_invariant {I : List (ι × ο) → σ → Prop} (hstart : I [] s)
    (hstep : ∀ past t i, I past t → I (past ++ [(i, (step t i).1)]) (step t i).2)
    (inputs : List ι) : I (history step s inputs) (final step s inputs) := by
  induction inputs using List.reverseRecOn with
  | nil => exact hstart
  | append_singleton before i ih =>
    rw [final_concat, history_concat]
    exact hstep _ _ i ih

/-- A property of every state that a run reaches, with the history by then. -/
def Throughout (step : σ → ι → ο × σ) (s : σ) (P : List (ι × ο) → σ → Prop) (inputs : List ι) : Prop :=
  ∀ before, before <+: inputs → P (history step s before) (final step s before)

/-- A condition on every step of a run: on its input, and on the history
and the state before it. -/
def EachStep (step : σ → ι → ο × σ) (s : σ) (C : List (ι × ο) → σ → ι → Prop) (inputs : List ι) :
    Prop :=
  ∀ before i, before ++ [i] <+: inputs → C (history step s before) (final step s before) i

variable {I P : List (ι × ο) → σ → Prop} {C : List (ι × ο) → σ → ι → Prop}

theorem Throughout.run {inputs : List ι} (h : Throughout step s P inputs) :
    P (history step s inputs) (final step s inputs) :=
  h inputs List.prefix_rfl

theorem throughout_nil : Throughout step s P [] ↔ P [] s := by
  constructor
  · exact fun h => h.run
  · intro h before hbefore
    rw [List.prefix_nil.1 hbefore]
    exact h

theorem throughout_concat {before : List ι} {i : ι} :
    Throughout step s P (before ++ [i]) ↔ Throughout step s P before ∧
      P (history step s (before ++ [i])) (final step s (before ++ [i])) := by
  constructor
  · intro h
    exact ⟨fun b hb => h b (hb.trans (List.prefix_append _ _)), h.run⟩
  · rintro ⟨h, hi⟩ b hb
    rcases List.prefix_concat_iff.1 hb with rfl | hb
    · exact hi
    · exact h b hb

theorem eachStep_nil : EachStep step s C [] := by
  intro before i hbefore
  have hnil : before ++ [i] = [] := List.prefix_nil.1 hbefore
  exact absurd hnil (by simp)

theorem eachStep_concat {before : List ι} {i : ι} :
    EachStep step s C (before ++ [i]) ↔
      EachStep step s C before ∧ C (history step s before) (final step s before) i := by
  constructor
  · intro h
    exact ⟨fun b j hb => h b j (hb.trans (List.prefix_append _ _)), h before i List.prefix_rfl⟩
  · rintro ⟨h, hi⟩ b j hb
    rcases List.prefix_concat_iff.1 hb with heq | hb
    · obtain ⟨rfl, hij⟩ := List.append_inj' heq rfl
      obtain rfl : j = i := List.singleton_inj.1 hij
      exact hi
    · exact h b j hb

/-- **A property and the steps that keep it.** Where a step from a state
that satisfies the invariant keeps the property exactly under a condition,
and then keeps the invariant too, the property holds throughout a run if
and only if each step of the run meets the condition. -/
theorem throughout_iff_eachStep {ok : ι → Prop} (hI : I [] s) (hP : P [] s)
    (hstep : ∀ past t i, ok i → I past t → P past t →
      (P (past ++ [(i, (step t i).1)]) (step t i).2 ↔ C past t i))
    (hkeep : ∀ past t i, ok i → I past t → C past t i →
      I (past ++ [(i, (step t i).1)]) (step t i).2)
    {inputs : List ι} (hok : ∀ i ∈ inputs, ok i) :
    Throughout step s P inputs ↔ EachStep step s C inputs := by
  -- The invariant along a run whose steps meet the condition.
  have hrun : ∀ b : List ι, (∀ i ∈ b, ok i) → EachStep step s C b →
      I (history step s b) (final step s b) := by
    intro b
    induction b using List.reverseRecOn with
    | nil => exact fun _ _ => hI
    | append_singleton before i ih =>
      intro hb h
      obtain ⟨hbefore, hi⟩ := eachStep_concat.1 h
      rw [final_concat, history_concat]
      exact hkeep _ _ i (hb i (by simp)) (ih (fun j hj => hb j (by simp [hj])) hbefore) hi
  induction inputs using List.reverseRecOn with
  | nil => exact ⟨fun _ => eachStep_nil, fun _ => throughout_nil.2 hP⟩
  | append_singleton before i ih =>
    have hbefore : ∀ j ∈ before, ok j := fun j hj => hok j (by simp [hj])
    have hih : Throughout step s P before ↔ EachStep step s C before := ih hbefore
    rw [throughout_concat, eachStep_concat, hih, final_concat, history_concat]
    refine and_congr_right fun h => ?_
    exact hstep _ _ i (hok i (by simp)) (hrun before hbefore h) (hih.2 h).run

/-! ## Part of a run -/

section Parts

variable {mine : ι → Bool} {R : σ → σ → Prop} {t : σ}

/-- **A relation follows the inputs of one kind**: these are answered alike
in related states, and the others leave the first state related to the
second one, which does not move. -/
structure Follows (step : σ → ι → ο × σ) (mine : ι → Bool) (R : σ → σ → Prop) : Prop where
  answer : ∀ {s t i}, R s t → mine i = true → (step s i).1 = (step t i).1
  keep : ∀ {s t i}, R s t → mine i = true → R (step s i).2 (step t i).2
  leave : ∀ {s t i}, R s t → mine i = false → R (step s i).2 t

/-- **The part of a run** that a relation follows is a run of its own. -/
theorem Follows.run (h : Follows step mine R) (hst : R s t) (inputs : List ι) :
    (history step s inputs).filter (fun p => mine p.1) = history step t (inputs.filter mine) ∧
      R (final step s inputs) (final step t (inputs.filter mine)) := by
  induction inputs generalizing s t with
  | nil => exact ⟨rfl, hst⟩
  | cons i inputs ih =>
    have hhistory : history step s (i :: inputs) =
        (i, (step s i).1) :: history step (step s i).2 inputs := rfl
    have hfinal : final step s (i :: inputs) = final step (step s i).2 inputs := rfl
    rw [hhistory, hfinal]
    cases hi : mine i with
    | true =>
      obtain ⟨hpast, hend⟩ := ih (h.keep hst hi)
      rw [List.filter_cons_of_pos (by simpa using hi), List.filter_cons_of_pos hi, hpast,
        h.answer hst hi]
      exact ⟨rfl, hend⟩
    | false =>
      rw [List.filter_cons_of_neg (by simp [hi]), List.filter_cons_of_neg (by simp [hi])]
      exact ih (h.leave hst hi)

end Parts

end Mealy
