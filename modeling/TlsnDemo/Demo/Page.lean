import TlsnDemo.Support.Mealy
import TlsnDemo.Wasm.Prover

/-!
# The runs of the page

A click on the button of the page starts a worker that makes a proof, and
the page shows what comes of it. A worker is never terminated, and the page
takes a message from any of those it started for the end of the current
run. So it keeps to one run at a time, and shows the latest, as long as
errors that do not end a run come only when none is active, and nothing
that it shows comes from an earlier worker (`one_run_iff`).
-/

namespace TlsnDemo.Demo

open Mealy

/-! ## The page -/

inductive LogLine where
  | line (text : String)
  | event (name message : String)
  deriving DecidableEq

/-- The panel of the result. -/
inductive Panel where
  | hidden
  | ok (result : Wasm.JsProverOutput)
  | err (message : String)
  deriving DecidableEq

structure Page where
  currentWorker : Option ℕ
  disabled : Bool
  log : List LogLine
  panel : Panel
  deriving DecidableEq

inductive Message where
  | log (line : String)
  | result (result : Wasm.JsProverOutput)
  | error (message : String)

/-- `startWorker` gives each message to the listeners of the log or to
`onMessage`, which does not ask for the worker it comes from. -/
def Page.onMessage (page : Page) : Message → Page
  | .log line => { page with log := page.log ++ [.line line] }
  | .result result => { page with panel := .ok result, currentWorker := none, disabled := false }
  | .error message =>
    { page with
      log := page.log ++ [.line ("\nERROR: " ++ message), .event "prover.notarize.failed" message]
      panel := .err message
      currentWorker := none
      disabled := false }

/-- Nothing, or the page once it has started a worker. -/
def Page.start (page : Page) (worker : ℕ) : Option Page :=
  if page.currentWorker.isSome then none
  else some { currentWorker := some worker, disabled := true, log := [], panel := .hidden }

/-! ## The workers -/

/-- What the page hears of a worker: a line of its log, the result of its run
or the error that ended it, and what the error forwarders of the worker and
of the page pass on. The browser has one `error` event for a fault in the run
and for a script that it could not load: after the latter, too, the run counts
as one that is not over. -/
inductive Report where
  | log (line : String)
  | proved (result : Wasm.JsProverOutput)
  | failed (message : String)
  | selfError (detail : String)
  | unhandledRejection (reason : String)
  | workerError (detail : String)
  | messageError (data : String)

def orNoDetail (detail : String) : String := if detail = "" then "(no detail)" else detail

def Report.message : Report → Message
  | .log line => .log line
  | .proved result => .result result
  | .failed message => .error message
  | .selfError detail => .error ("worker self error: " ++ orNoDetail detail)
  | .unhandledRejection reason => .error ("worker unhandledrejection: " ++ reason)
  | .workerError detail => .error ("worker error: " ++ orNoDetail detail)
  | .messageError data => .error ("worker messageerror: " ++ data)

/-- Whether the run of the worker is over. -/
def Report.ends : Report → Bool
  | .proved _ | .failed _ => true
  | _ => false

/-- Whether the panel shows it. -/
def Report.shows : Report → Bool
  | .log _ => false
  | _ => true

inductive Event where
  | click
  | report (worker : ℕ) (report : Report)

/-- **The page with its workers**, which are numbered in the order of their
start: how many there are, which of them are running, and which of them the
panel is from. -/
structure World where
  page : Page
  started : ℕ
  running : List ℕ
  shownFrom : Option ℕ

def World.load : World := ⟨⟨none, false, [], .hidden⟩, 0, [], none⟩

/-- A step of the page. A step that starts a worker gives those that are running
by then. -/
def World.step (world : World) : Event → Option (List ℕ) × World
  | .click =>
    -- No click arrives at a button that is disabled.
    if world.page.disabled then (none, world)
    else
      match world.page.start world.started with
      | none => (none, world)
      | some page =>
        (some world.running,
          { page
            started := world.started + 1
            running := world.running ++ [world.started]
            shownFrom := none })
  | .report worker report =>
    if worker < world.started then
      (none,
        { world with
          page := world.page.onMessage report.message
          running := if report.ends then world.running.filter (· ≠ worker) else world.running
          shownFrom := if report.shows then some worker else world.shownFrom })
    else (none, world)

/-! ## One run at a time -/

/-- **One run at a time, and the latest of them shown**: no run was started
beside another, the button is disabled as long as one is active, and what
is shown comes from the worker that was started last. -/
structure OneRun (past : List (Event × Option (List ℕ))) (world : World) : Prop where
  alone : ∀ entry ∈ past, ∀ others, entry.2 = some others → others = []
  disabled_iff : world.page.disabled = true ↔ world.running ≠ []
  latest : ∀ worker, world.shownFrom = some worker → worker + 1 = world.started

/-- What may come of a worker without harm: what is shown comes from the one
that was started last, and ends its run, or comes when no run is active. -/
def Harmless (world : World) : Event → Prop
  | .click => True
  | .report worker report => worker < world.started → report.shows = true →
      worker + 1 = world.started ∧ (report.ends = true ∨ world.running = [])

/-- What holds as long as nothing does harm. -/
structure Orderly (world : World) : Prop where
  current : world.page.currentWorker.isSome = world.page.disabled
  disabled_iff : world.page.disabled = true ↔ world.running ≠ []
  running : ∀ worker ∈ world.running, worker + 1 = world.started

section

variable {world : World} {worker : ℕ} {report : Report} {event : Event}
  {past : List (Event × Option (List ℕ))}

theorem shows_of_ends (h : report.ends = true) : report.shows = true := by
  cases report with
  | proved result => rfl
  | failed message => rfl
  | log line => exact nomatch h
  | selfError detail => exact nomatch h
  | unhandledRejection reason => exact nomatch h
  | workerError detail => exact nomatch h
  | messageError data => exact nomatch h

/-- What is shown is taken for the end of the run. -/
theorem onMessage_shows (page : Page) (h : report.shows = true) :
    (page.onMessage report.message).currentWorker = none ∧
      (page.onMessage report.message).disabled = false := by
  cases report with
  | log line => exact nomatch h
  | proved result => exact ⟨rfl, rfl⟩
  | failed message => exact ⟨rfl, rfl⟩
  | selfError detail => exact ⟨rfl, rfl⟩
  | unhandledRejection reason => exact ⟨rfl, rfl⟩
  | workerError detail => exact ⟨rfl, rfl⟩
  | messageError data => exact ⟨rfl, rfl⟩

theorem onMessage_hides (page : Page) (h : report.shows = false) :
    (page.onMessage report.message).currentWorker = page.currentWorker ∧
      (page.onMessage report.message).disabled = page.disabled ∧
      (page.onMessage report.message).panel = page.panel := by
  cases report with
  | log line => exact ⟨rfl, rfl, rfl⟩
  | proved result => exact nomatch h
  | failed message => exact nomatch h
  | selfError detail => exact nomatch h
  | unhandledRejection reason => exact nomatch h
  | workerError detail => exact nomatch h
  | messageError data => exact nomatch h

/-- **What a step can do**: nothing to the runs; start one, when none is active;
or show what comes of a worker, which enables the button. -/
inductive Steps (world : World) : Event → Option (List ℕ) → World → Prop where
  | still {event : Event} {world' : World} (harmless : Harmless world event)
      (current : world'.page.currentWorker = world.page.currentWorker)
      (disabled : world'.page.disabled = world.page.disabled)
      (running : world'.running = world.running) (started : world'.started = world.started)
      (shownFrom : world'.shownFrom = world.shownFrom) : Steps world event none world'
  | start {world' : World} (idle : world.running = [])
      (current : world'.page.currentWorker = some world.started) (disabled : world'.page.disabled = true)
      (running : world'.running = [world.started]) (started : world'.started = world.started + 1)
      (shownFrom : world'.shownFrom = none) : Steps world .click (some []) world'
  | shown {worker : ℕ} {report : Report} {world' : World} (known : worker < world.started)
      (shows : report.shows = true) (current : world'.page.currentWorker = none)
      (disabled : world'.page.disabled = false)
      (running : world'.running =
        if report.ends then world.running.filter (· ≠ worker) else world.running)
      (started : world'.started = world.started) (shownFrom : world'.shownFrom = some worker) :
      Steps world (.report worker report) none world'

theorem steps_step (h : Orderly world) (event : Event) :
    Steps world event (world.step event).1 (world.step event).2 := by
  cases event with
  | click =>
    cases hdisabled : world.page.disabled with
    | true =>
      have hstep : world.step .click = (none, world) := if_pos hdisabled
      rw [hstep]
      exact .still trivial rfl rfl rfl rfl rfl
    | false =>
      have hcurrent : world.page.currentWorker.isSome = false := h.current.trans hdisabled
      have hrunning : world.running = [] := by
        by_contra hne
        have htrue := h.disabled_iff.2 hne
        rw [hdisabled] at htrue
        exact nomatch htrue
      have hstep : world.step .click =
          (some [], ⟨⟨some world.started, true, [], .hidden⟩, world.started + 1, [world.started], none⟩) := by
        simp only [World.step, hdisabled, Page.start, hcurrent, hrunning]
        rfl
      rw [hstep]
      exact .start hrunning rfl rfl rfl rfl rfl
  | report worker report =>
    by_cases hworker : worker < world.started
    · have hstep : world.step (.report worker report) =
          (none, ⟨world.page.onMessage report.message, world.started,
            if report.ends then world.running.filter (· ≠ worker) else world.running,
            if report.shows then some worker else world.shownFrom⟩) := if_pos hworker
      rw [hstep]
      cases hshows : report.shows with
      | true =>
        obtain ⟨hcurrent, hdisabled⟩ := onMessage_shows world.page hshows
        exact .shown hworker hshows hcurrent hdisabled rfl rfl rfl
      | false =>
        obtain ⟨hcurrent, hdisabled, -⟩ := onMessage_hides world.page hshows
        have hends : report.ends = false := by
          by_contra hends
          rw [shows_of_ends (Bool.not_eq_false _ ▸ hends)] at hshows
          exact nomatch hshows
        have hharmless : Harmless world (.report worker report) := by
          intro _ hshown
          rw [hshows] at hshown
          exact nomatch hshown
        exact .still hharmless hcurrent hdisabled (by rw [hends]; rfl) rfl rfl
    · have hstep : world.step (.report worker report) = (none, world) := if_neg hworker
      rw [hstep]
      exact .still (fun hlt => absurd hlt hworker) rfl rfl rfl rfl rfl

variable {others : Option (List ℕ)} {world' : World}

/-- What ends the run of the only worker, or comes when none is running, leaves
none running. -/
theorem running_eq_nil (h : Orderly world) (hlatest : worker + 1 = world.started)
    (hover : report.ends = true ∨ world.running = []) :
    (if report.ends then world.running.filter (· ≠ worker) else world.running) = [] := by
  split
  · rw [List.filter_eq_nil_iff]
    intro other hother
    have hsame : other + 1 = world.started := h.running other hother
    have heq : other = worker := by omega
    simp [heq]
  · next hends => exact hover.resolve_left hends

/-- A harmless step keeps order. -/
theorem Steps.orderly (hstep : Steps world event others world') (h : Orderly world)
    (hharmless : Harmless world event) : Orderly world' := by
  cases hstep with
  | still _ hcurrent hdisabled hrunning hstarted _ =>
    refine ⟨?_, ?_, ?_⟩
    · rw [hcurrent, hdisabled, h.current]
    · rw [hdisabled, hrunning, h.disabled_iff]
    · rw [hrunning, hstarted]
      exact h.running
  | start _ hcurrent hdisabled hrunning hstarted _ =>
    refine ⟨?_, ?_, ?_⟩
    · rw [hcurrent, hdisabled]
      rfl
    · simp [hdisabled, hrunning]
    · simp [hrunning, hstarted]
  | shown hknown hshows hcurrent hdisabled hrunning hstarted _ =>
    obtain ⟨hlatest, hover⟩ := hharmless hknown hshows
    have hnone : world'.running = [] := hrunning.trans (running_eq_nil h hlatest hover)
    refine ⟨?_, ?_, ?_⟩
    · rw [hcurrent, hdisabled]
      rfl
    · simp [hdisabled, hnone]
    · simp [hnone]

/-- **A step and its harm**: it keeps to one run at a time if and only if it is
harmless. -/
theorem Steps.oneRun_iff (hstep : Steps world event others world') (h : Orderly world)
    (hpast : OneRun past world) :
    OneRun (past ++ [(event, others)]) world' ↔ Harmless world event := by
  -- No step starts a run beside another: the harm is in the rest.
  have halone : (∀ ws, others = some ws → ws = []) →
      ∀ entry ∈ past ++ [(event, others)], ∀ ws, entry.2 = some ws → ws = [] := by
    intro hothers entry hentry ws hws
    rcases List.mem_append.1 hentry with hold | hnew
    · exact hpast.alone entry hold ws hws
    · obtain rfl := List.mem_singleton.1 hnew
      exact hothers ws hws
  cases hstep with
  | still hharmless _ hdisabled hrunning hstarted hshown =>
    refine iff_of_true ⟨halone fun ws hws => (nomatch hws), ?_, ?_⟩ hharmless
    · rw [hdisabled, hrunning, hpast.disabled_iff]
    · rw [hshown, hstarted]
      exact hpast.latest
  | start _ _ hdisabled hrunning _ hshown =>
    refine iff_of_true ⟨halone ?_, ?_, ?_⟩ trivial
    · intro ws hws
      exact (Option.some.inj hws).symm
    · simp [hdisabled, hrunning]
    · intro last hlast
      rw [hshown] at hlast
      exact nomatch hlast
  | @shown worker report _ hknown hshows _ hdisabled hrunning hstarted hshown =>
    constructor
    · intro hone _ _
      have hnone : world'.running = [] := by
        by_contra hne
        have htrue := hone.disabled_iff.2 hne
        rw [hdisabled] at htrue
        exact nomatch htrue
      refine ⟨hstarted ▸ hone.latest worker hshown, ?_⟩
      cases hends : report.ends with
      | true => exact .inl rfl
      | false =>
        rw [hends, hnone] at hrunning
        exact .inr hrunning.symm
    · intro hharmless
      obtain ⟨hlatest, hover⟩ := hharmless hknown hshows
      have hnone : world'.running = [] := hrunning.trans (running_eq_nil h hlatest hover)
      refine ⟨halone fun ws hws => (nomatch hws), ?_, ?_⟩
      · simp [hdisabled, hnone]
      · intro last hlast
        obtain rfl := Option.some.inj (hshown.symm.trans hlast)
        rw [hstarted]
        exact hlatest

/-- **When the page keeps to one run at a time and shows the latest**: in each
run of clicks and messages, this holds in every state that is reached if
and only if each message that is shown comes from the worker that was
started last, and ends its run, or comes when no run is active. -/
theorem one_run_iff (events : List Event) :
    Throughout World.step .load OneRun events ↔
      EachStep World.step .load (fun _ world event => Harmless world event) events := by
  have horderly : Orderly .load := ⟨rfl, by simp [World.load], by simp [World.load]⟩
  have hone : OneRun [] .load := ⟨by simp, by simp [World.load], by simp [World.load]⟩
  have hevery : ∀ event ∈ events, (fun _ : Event => True) event := fun _ _ => trivial
  refine throughout_iff_eachStep (I := fun _ world => Orderly world) horderly hone ?_ ?_ hevery
  · exact fun past world event _ h hpast => (steps_step h event).oneRun_iff h hpast
  · exact fun past world event _ h hharmless => (steps_step h event).orderly h hharmless

/-- **An error that does not end a run lets another start beside it**: the
button is enabled, though the worker goes on. -/
theorem not_forall_oneRun : ¬ ∀ events : List Event, Throughout World.step .load OneRun events := by
  intro hall
  have hrun := (hall [.click, .report 0 (.unhandledRejection "timeout"), .click]).run
  have hbeside : [0] = ([] : List ℕ) := hrun.alone _ (List.mem_of_getLast? rfl) [0] rfl
  exact absurd hbeside (by decide)

end

end TlsnDemo.Demo
