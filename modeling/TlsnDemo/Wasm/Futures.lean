import TlsnDemo.Support.Mealy
import TlsnDemo.Wasm.Io

/-!
# The futures of the stream

A future that has given its outcome must not be polled again: its promise
has been consumed, and a second poll waits for nothing. A read that fails
leaves the read state at the consumed future, and so does a rejected close;
every other outcome resets its state. So no future is polled again as long
as the caller stops reading after a failed read, and does not come to the
writer's close again after it was rejected (`no_future_repolled_iff`).
-/

namespace TlsnDemo.Wasm

open Mealy

variable {s s' : Session} {buf : List UInt8} {answers : List Settled} {c : Call}
variable {fut fut' : JsFuture} {answer : Poll Settled} {failed failed' : Prop}

/-! ## Settled futures -/

/-- **No completed future is polled again**: no poll that gives an outcome
comes before a poll of the same future. -/
def NoRepoll (events : List Event) : Prop :=
  events.Pairwise fun e e' => ∀ fut outcome answer,
    e = .polled fut (.ready outcome) → e' ≠ .polled fut answer

namespace Session

/-- The future has given an outcome. -/
def Settled (s : Session) (fut : JsFuture) : Prop :=
  ∃ outcome, Event.polled fut (.ready outcome) ∈ s.events

/-- The future has given a rejection. -/
def Rejected (s : Session) (fut : JsFuture) : Prop :=
  ∃ e, Event.polled fut (.ready (.error e)) ∈ s.events

theorem settled_start {request : Request} : (s.start request).Settled fut ↔ s.Settled fut := by
  simp [Settled]

theorem settled_pending : (s.polled fut' .pending).Settled fut ↔ s.Settled fut := by
  simp [Settled]

theorem settled_ready {outcome : Wasm.Settled} :
    (s.polled fut' (.ready outcome)).Settled fut ↔ s.Settled fut ∨ fut = fut' := by
  constructor
  · rintro ⟨o, ho⟩
    rcases List.mem_append.1 ho with ho | ho
    · exact Or.inl ⟨o, ho⟩
    · obtain ⟨rfl, -⟩ := Event.polled.inj (List.mem_singleton.1 ho)
      exact Or.inr rfl
  · rintro (⟨o, ho⟩ | rfl)
    · exact ⟨o, List.mem_append_left _ ho⟩
    · exact ⟨outcome, List.mem_append_right _ List.mem_cons_self⟩

end Session

theorem noRepoll_start {request : Request} :
    NoRepoll (s.start request).events ↔ NoRepoll s.events := by
  simp [NoRepoll, List.pairwise_append]

/-- A poll keeps the log free of second polls when its future is not
settled. -/
theorem noRepoll_polled :
    NoRepoll (s.polled fut answer).events ↔ NoRepoll s.events ∧ ¬ s.Settled fut := by
  rw [NoRepoll, Session.polled_events, List.pairwise_append]
  constructor
  · rintro ⟨h, -, hcross⟩
    refine ⟨h, ?_⟩
    rintro ⟨outcome, ho⟩
    exact hcross _ ho _ List.mem_cons_self fut outcome answer rfl rfl
  · rintro ⟨h, hopen⟩
    refine ⟨h, List.pairwise_singleton _ _, ?_⟩
    intro e he e' he' fut₁ outcome answer₁ heq heq'
    rw [List.mem_singleton.1 he'] at heq'
    obtain ⟨rfl, -⟩ := Event.polled.inj heq'
    exact hopen ⟨outcome, heq ▸ he⟩

/-! ## Futures in flight -/

/-- The futures that the states of a stream hold. -/
inductive WebTransportIo.InFlight (io : WebTransportIo) : JsFuture → Prop
  | read {fut : ReadFuture} (h : io.readState = .reading fut) : io.InFlight fut.toJsFuture
  | write {fut : WriteFuture} (h : io.writeState = .writing fut) : io.InFlight fut.toJsFuture
  | close {fut : CloseFuture} (h : io.closeState = .closing fut) : io.InFlight fut.toJsFuture

/-- **The futures are tracked**: no future was polled again, all are among
those made, and one in flight is settled only when it is the read future of
a failed read, or a close future that was rejected. -/
structure Tracked (failed : Prop) (s : Session) : Prop where
  once : NoRepoll s.events
  settled : ∀ fut, s.Settled fut → fut.number < s.made
  inFlight : ∀ fut, s.io.InFlight fut → fut.number < s.made
  consumed : ∀ fut, s.io.InFlight fut → s.Settled fut →
    fut.request = .read ∧ failed ∨ fut.request = .close ∧ s.Rejected fut
  failed : failed → ∃ fut, s.io.readState = .reading fut ∧ s.Settled fut.toJsFuture

namespace Tracked

theorem congr (h : Tracked failed s) (hiff : failed ↔ failed') : Tracked failed' s :=
  propext hiff ▸ h

/-- A pending poll. -/
theorem pending (h : Tracked failed s) (hopen : ¬ s.Settled fut) :
    Tracked failed (s.polled fut .pending) where
  once := noRepoll_polled.2 ⟨h.once, hopen⟩
  settled := fun fut' hs => h.settled fut' (Session.settled_pending.1 hs)
  inFlight := h.inFlight
  consumed := fun fut' hin hs => by
    rcases h.consumed fut' hin (Session.settled_pending.1 hs) with hread | ⟨hclose, e, he⟩
    · exact Or.inl hread
    · exact Or.inr ⟨hclose, e, List.mem_append_left _ he⟩
  failed := fun hf => by
    obtain ⟨r, hr, hs⟩ := h.failed hf
    exact ⟨r, hr, Session.settled_pending.2 hs⟩

/-- A poll with an outcome, after which the future is no longer held. -/
theorem drop {outcome : Settled} (h : Tracked failed s) (hin : s.io.InFlight fut)
    (hopen : ¬ s.Settled fut) (hmade : s'.made = s.made)
    (hevents : s'.events = (s.polled fut (.ready outcome)).events)
    (hless : ∀ fut', s'.io.InFlight fut' → s.io.InFlight fut' ∧ fut' ≠ fut)
    (hread : failed → s'.io.readState = s.io.readState) : Tracked failed s' := by
  have hsettled : ∀ fut', s'.Settled fut' ↔ s.Settled fut' ∨ fut' = fut := fun fut' => by
    rw [← Session.settled_ready, Session.Settled, hevents, ← Session.Settled]
  refine ⟨hevents ▸ noRepoll_polled.2 ⟨h.once, hopen⟩, fun fut' hs => ?_, fun fut' hin' => ?_,
    fun fut' hin' hs => ?_, fun hf => ?_⟩
  · rw [hmade]
    rcases (hsettled fut').1 hs with hs | rfl
    · exact h.settled fut' hs
    · exact h.inFlight fut' hin
  · rw [hmade]
    exact h.inFlight fut' (hless fut' hin').1
  · obtain ⟨hin', hne⟩ := hless fut' hin'
    rcases h.consumed fut' hin' (((hsettled fut').1 hs).resolve_right hne) with hr | ⟨hc, e, he⟩
    · exact Or.inl hr
    · refine Or.inr ⟨hc, e, ?_⟩
      rw [hevents]
      exact List.mem_append_left _ he
  · obtain ⟨r, hr, hs⟩ := h.failed hf
    exact ⟨r, (hread hf).trans hr, (hsettled _).2 (Or.inl hs)⟩

/-- A poll with an outcome that leaves the future held. -/
theorem keep {outcome : Settled} (h : Tracked failed s) (hin : s.io.InFlight fut)
    (hopen : ¬ s.Settled fut)
    (hkind : fut.request = .read ∧ failed' ∨ fut.request = .close ∧ ∃ e, outcome = .error e)
    (hmono : failed → failed')
    (hfailed : failed' → failed ∨ ∃ r : ReadFuture, s.io.readState = .reading r ∧ r.toJsFuture = fut) :
    Tracked failed' (s.polled fut (.ready outcome)) := by
  refine ⟨noRepoll_polled.2 ⟨h.once, hopen⟩, fun fut' hs => ?_, h.inFlight, fun fut' hin' hs => ?_,
    fun hf => ?_⟩
  · rcases Session.settled_ready.1 hs with hs | rfl
    · exact h.settled fut' hs
    · exact h.inFlight fut' hin
  · rcases Session.settled_ready.1 hs with hs | rfl
    · rcases h.consumed fut' hin' hs with ⟨hr, hf⟩ | ⟨hc, e, he⟩
      · exact Or.inl ⟨hr, hmono hf⟩
      · exact Or.inr ⟨hc, e, List.mem_append_left _ he⟩
    · rcases hkind with hr | ⟨hc, e, rfl⟩
      · exact Or.inl hr
      · exact Or.inr ⟨hc, e, List.mem_append_right _ List.mem_cons_self⟩
  · rcases hfailed hf with hold | ⟨r, hr, rfl⟩
    · obtain ⟨r, hr, hs⟩ := h.failed hold
      exact ⟨r, hr, Session.settled_ready.2 (Or.inl hs)⟩
    · exact ⟨r, hr, Session.settled_ready.2 (Or.inr rfl)⟩

/-- A request, whose future is then held. -/
theorem start {request : Request} (h : Tracked failed s) (hmade : s'.made = s.made + 1)
    (hevents : s'.events = (s.start request).events)
    (hmore : ∀ fut', s'.io.InFlight fut' → s.io.InFlight fut' ∨ fut' = s.next request)
    (hread : failed → s'.io.readState = s.io.readState) : Tracked failed s' := by
  have hsettled : ∀ fut', s'.Settled fut' ↔ s.Settled fut' := fun fut' => by
    have hstart : s'.Settled fut' ↔ (s.start request).Settled fut' := by
      rw [Session.Settled, hevents, ← Session.Settled]
    exact hstart.trans Session.settled_start
  refine ⟨hevents ▸ noRepoll_start.2 h.once, fun fut' hs => ?_, fun fut' hin' => ?_,
    fun fut' hin' hs => ?_, fun hf => ?_⟩
  · have hlt := h.settled fut' ((hsettled fut').1 hs)
    omega
  · rcases hmore fut' hin' with hin' | rfl
    · have hlt := h.inFlight fut' hin'
      omega
    · rw [hmade]
      exact Nat.lt_succ_self s.made
  · rw [hsettled] at hs
    rcases hmore fut' hin' with hin' | rfl
    · rcases h.consumed fut' hin' hs with hr | ⟨hc, e, he⟩
      · exact Or.inl hr
      · refine Or.inr ⟨hc, e, ?_⟩
        rw [hevents]
        exact List.mem_append_left _ he
    · -- The new future is not among those made so far.
      exact absurd (h.settled _ hs) (Nat.lt_irrefl s.made)
  · obtain ⟨r, hr, hs⟩ := h.failed hf
    exact ⟨r, (hread hf).trans hr, (hsettled _).2 hs⟩

/-- A new read state that holds no future. -/
theorem withRead {state : ReadState} (h : Tracked False s) (hstate : ∀ r, state ≠ .reading r) :
    Tracked False (s.withRead state) := by
  have hless : ∀ fut', (s.withRead state).io.InFlight fut' → s.io.InFlight fut' := by
    intro fut' hin
    cases hin with
    | read hr => exact absurd hr (hstate _)
    | write hw => exact .write hw
    | close hc => exact .close hc
  exact ⟨h.once, h.settled, fun fut' hin => h.inFlight fut' (hless fut' hin),
    fun fut' hin => h.consumed fut' (hless fut' hin), fun hf => hf.elim⟩

theorem read_open {r : ReadFuture} (h : Tracked False s) (hr : s.io.readState = .reading r) :
    ¬ s.Settled r.toJsFuture := by
  intro hs
  rcases h.consumed _ (.read hr) hs with ⟨-, hf⟩ | ⟨hc, -⟩
  · exact hf
  · rw [r.asked] at hc
    exact nomatch hc

theorem write_open {w : WriteFuture} (h : Tracked failed s) (hw : s.io.writeState = .writing w) :
    ¬ s.Settled w.toJsFuture := by
  intro hs
  rcases h.consumed _ (.write hw) hs with ⟨hr, -⟩ | ⟨hc, -⟩
  · rw [w.asked] at hr
    exact nomatch hr
  · rw [w.asked] at hc
    exact nomatch hc

theorem close_open {k : CloseFuture} (h : Tracked failed s) (hk : s.io.closeState = .closing k)
    (hnot : ¬ s.Rejected k.toJsFuture) : ¬ s.Settled k.toJsFuture := by
  intro hs
  rcases h.consumed _ (.close hk) hs with ⟨hr, -⟩ | ⟨-, hc⟩
  · rw [k.asked] at hr
    exact nomatch hr
  · exact hnot hc

end Tracked

/-! ## Futures of two kinds are two futures -/

theorem read_ne_write (r : ReadFuture) (w : WriteFuture) : r.toJsFuture ≠ w.toJsFuture := by
  intro h
  have hrequest := congrArg JsFuture.request h
  rw [r.asked, w.asked] at hrequest
  exact nomatch hrequest

theorem read_ne_close (r : ReadFuture) (k : CloseFuture) : r.toJsFuture ≠ k.toJsFuture := by
  intro h
  have hrequest := congrArg JsFuture.request h
  rw [r.asked, k.asked] at hrequest
  exact nomatch hrequest

theorem write_ne_close (w : WriteFuture) (k : CloseFuture) : w.toJsFuture ≠ k.toJsFuture := by
  intro h
  have hrequest := congrArg JsFuture.request h
  rw [w.asked, k.asked] at hrequest
  exact nomatch hrequest

/-! ## Reads -/

/-- A read that gives an error. -/
def FailedRead (result : Poll (Except IoError ℕ)) : Prop := ∃ e, result = .ready (.error e)

theorem not_failedRead_pending : ¬ FailedRead .pending := fun ⟨_, h⟩ => nomatch h

theorem not_failedRead_ok {n : ℕ} : ¬ FailedRead (.ready (.ok n)) := fun ⟨_, h⟩ => nomatch h

theorem failedRead_error {e : IoError} : FailedRead (.ready (.error e)) := ⟨e, rfl⟩

/-- A read result puts the reader in a state without a future. -/
theorem Tracked.dropRead {r : ReadFuture} {outcome : Settled} {state : ReadState}
    (h : Tracked False s) (hr : s.io.readState = .reading r) (hstate : ∀ r, state ≠ .reading r) :
    Tracked False ((s.polled r.toJsFuture (.ready outcome)).withRead state) := by
  refine h.drop (.read hr) (h.read_open hr) rfl rfl (fun fut' hin => ?_) False.elim
  cases hin with
  | read hr => exact absurd hr (hstate _)
  | write hw => exact ⟨.write hw, (read_ne_write r _).symm⟩
  | close hk => exact ⟨.close hk, (read_ne_close r _).symm⟩

/-- A read asked for. -/
theorem Tracked.startRead (h : Tracked False s) :
    Tracked False ((s.start .read).withRead (.reading s.nextRead)) := by
  refine h.start rfl rfl (fun fut' hin => ?_) False.elim
  cases hin with
  | read hr =>
    obtain rfl := ReadState.reading.inj hr
    exact Or.inr rfl
  | write hw => exact Or.inl (.write hw)
  | close hk => exact Or.inl (.close hk)

theorem tracked_pollReading {fut : ReadFuture} (h : Tracked False s)
    (hr : s.io.readState = .reading fut) :
    Tracked (FailedRead (pollReading buf fut answers s).1.2) (pollReading buf fut answers s).2 := by
  have hfail : ∀ outcome, Tracked True (s.polled fut.toJsFuture (.ready outcome)) := fun outcome =>
    h.keep (.read hr) (h.read_open hr) (Or.inl ⟨fut.asked, trivial⟩) False.elim
      fun _ => Or.inr ⟨fut, hr, rfl⟩
  induction answers generalizing fut s with
  | nil => exact (h.pending (h.read_open hr)).congr (iff_of_false id not_failedRead_pending)
  | cons answer answers ih =>
    cases answer with
    | error e => exact (hfail _).congr (iff_of_true trivial failedRead_error)
    | ok chunk =>
      rw [pollReading]
      split
      · have hdone : Tracked False
            ((s.polled fut.toJsFuture (.ready (.ok chunk))).withRead .closed) :=
          h.dropRead hr fun r h => nomatch h
        exact hdone.congr (iff_of_false id not_failedRead_ok)
      · split
        · exact (hfail _).congr (iff_of_true trivial failedRead_error)
        · split
          · -- Idle again, and the next read is asked for.
            have hidle : Tracked False
                ((s.polled fut.toJsFuture (.ready (.ok chunk))).withRead .idle) :=
              h.dropRead hr fun r h => nomatch h
            refine ih hidle.startRead rfl fun outcome => ?_
            exact hidle.startRead.keep (.read rfl) (hidle.startRead.read_open rfl)
              (Or.inl ⟨rfl, trivial⟩) False.elim fun _ => Or.inr ⟨_, rfl, rfl⟩
          · refine (h.dropRead hr fun r => ?_).congr (iff_of_false id not_failedRead_ok)
            split <;> exact fun h => nomatch h

theorem tracked_pollRead (h : Tracked False s) :
    Tracked (FailedRead (pollRead buf answers s).1.2) (pollRead buf answers s).2 := by
  unfold pollRead
  split
  · exact h.congr (iff_of_false id not_failedRead_ok)
  · refine (h.withRead fun r => ?_).congr (iff_of_false id not_failedRead_ok)
    split <;> exact fun h => nomatch h
  · exact tracked_pollReading h.startRead rfl
  · next fut hr => exact tracked_pollReading h hr

/-! ## Writes -/

/-- A write that gave its outcome leaves no write in flight. -/
theorem Tracked.dropWrite {w : WriteFuture} {outcome : Settled} (h : Tracked failed s)
    (hw : s.io.writeState = .writing w) :
    Tracked failed ((s.polled w.toJsFuture (.ready outcome)).withWrite .idle) := by
  refine h.drop (.write hw) (h.write_open hw) rfl rfl (fun fut' hin => ?_) fun _ => rfl
  cases hin with
  | read hr => exact ⟨.read hr, read_ne_write _ w⟩
  | write hw => exact nomatch hw
  | close hk => exact ⟨.close hk, (write_ne_close w _).symm⟩

theorem tracked_pollWriting {fut : WriteFuture} (h : Tracked failed s)
    (hw : s.io.writeState = .writing fut) : Tracked failed (pollWriting fut answers s).2 := by
  unfold pollWriting
  split
  · exact h.pending (h.write_open hw)
  · exact h.dropWrite hw
  · exact h.dropWrite hw

theorem tracked_pollWrite (h : Tracked failed s) : Tracked failed (pollWrite buf answers s).2 := by
  unfold pollWrite
  split
  · next fut hw => exact tracked_pollWriting h hw
  · refine tracked_pollWriting (h.start rfl rfl (fun fut' hin => ?_) fun _ => rfl) rfl
    cases hin with
    | read hr => exact Or.inl (.read hr)
    | write hw =>
      obtain rfl := WriteState.writing.inj hw
      exact Or.inr rfl
    | close hk => exact Or.inl (.close hk)

theorem tracked_pollFlush (h : Tracked failed s) : Tracked failed (pollFlush answers s).2 := by
  unfold pollFlush
  split
  · exact h
  · next fut hw =>
    split
    · exact h.pending (h.write_open hw)
    · exact h.dropWrite hw
    · exact h.dropWrite hw

/-! ## The close -/

theorem tracked_pollClosing {fut : CloseFuture} (h : Tracked failed s)
    (hk : s.io.closeState = .closing fut) (hnot : ¬ s.Rejected fut.toJsFuture) :
    Tracked failed (pollClosing fut answers s).2 := by
  unfold pollClosing
  split
  · exact h.pending (h.close_open hk hnot)
  · next e _ =>
    exact h.keep (.close hk) (h.close_open hk hnot) (Or.inr ⟨fut.asked, e, rfl⟩) id Or.inl
  · refine h.drop (.close hk) (h.close_open hk hnot) rfl rfl (fun fut' hin => ?_) fun _ => rfl
    cases hin with
    | read hr => exact ⟨.read hr, read_ne_close _ fut⟩
    | write hw => exact ⟨.write hw, write_ne_close _ fut⟩
    | close hk => exact nomatch hk

theorem tracked_closeWriter (h : Tracked failed s)
    (hnot : ∀ fut, s.io.closeState = .closing fut → ¬ s.Rejected fut.toJsFuture) :
    Tracked failed (closeWriter answers s).2 := by
  unfold closeWriter
  split
  · exact h
  · next fut hk => exact tracked_pollClosing h hk (hnot fut hk)
  · have hstart : Tracked failed ((s.start .close).withClose (.closing s.nextClose)) := by
      refine h.start rfl rfl (fun fut' hin => ?_) fun _ => rfl
      cases hin with
      | read hr => exact Or.inl (.read hr)
      | write hw => exact Or.inl (.write hw)
      | close hk =>
        obtain rfl := CloseState.closing.inj hk
        exact Or.inr rfl
    refine tracked_pollClosing hstart rfl ?_
    rintro ⟨e, he⟩
    have hnew : (s.start .close).Settled s.nextClose.toJsFuture := ⟨_, he⟩
    exact absurd (h.settled _ (Session.settled_start.1 hnew)) (Nat.lt_irrefl s.made)

theorem tracked_pollClose (h : Tracked failed s)
    (hnot : ∀ fut, s.io.closeState = .closing fut → s.Rejected fut.toJsFuture →
      ∃ w, s.io.writeState = .writing w ∧ ∀ v more, answers ≠ .ok v :: more) :
    Tracked failed (pollClose answers s).2 := by
  unfold pollClose
  split
  · next hw =>
    refine tracked_closeWriter h fun fut hk hrejected => ?_
    obtain ⟨w, hw', -⟩ := hnot fut hk hrejected
    rw [hw] at hw'
    exact nomatch hw'
  · next w hw =>
    split
    · exact h.pending (h.write_open hw)
    · exact h.dropWrite hw
    · next v answers =>
      refine tracked_closeWriter (h.dropWrite hw) fun fut hk hrejected => ?_
      obtain ⟨e, he⟩ := hrejected
      -- The rejection is not the poll of the write just made.
      have hold : s.Rejected fut.toJsFuture := by
        rcases List.mem_append.1 he with he | he
        · exact ⟨e, he⟩
        · obtain ⟨heq, -⟩ := Event.polled.inj (List.mem_singleton.1 he)
          exact absurd heq.symm (write_ne_close w fut)
      obtain ⟨-, -, hne⟩ := hnot fut hk hold
      exact absurd rfl (hne v answers)

/-! ## Runs -/

/-- A read of the run gave an error. -/
def ReadFailed (past : List (Call × Output)) : Prop :=
  ∃ c buf result, (c, Output.read buf result) ∈ past ∧ FailedRead result

/-- **A call starts afresh**: a read does not follow a failed read, and a close
does not come to a close future that was rejected (a write in flight that
is not found completed keeps it away). -/
def Afresh (past : List (Call × Output)) (s : Session) : Call → Prop
  | .read _ _ => ¬ ReadFailed past
  | .close answers => ∀ fut, s.io.closeState = .closing fut → s.Rejected fut.toJsFuture →
      ∃ w, s.io.writeState = .writing w ∧ ∀ v more, answers ≠ .ok v :: more
  | .write _ _ | .flush _ => True

theorem readFailed_concat {past : List (Call × Output)} {out : Output} :
    ReadFailed (past ++ [(c, out)]) ↔
      ReadFailed past ∨ ∃ buf result, out = .read buf result ∧ FailedRead result := by
  constructor
  · rintro ⟨c', buf, result, hmem, hfailed⟩
    rcases List.mem_append.1 hmem with hmem | hmem
    · exact Or.inl ⟨c', buf, result, hmem, hfailed⟩
    · exact Or.inr ⟨buf, result, (Prod.mk.inj (List.mem_singleton.1 hmem)).2.symm, hfailed⟩
  · rintro (⟨c', buf, result, hmem, hfailed⟩ | ⟨buf, result, rfl, hfailed⟩)
    · exact ⟨c', buf, result, List.mem_append_left _ hmem, hfailed⟩
    · exact ⟨c, buf, result, List.mem_append_right _ List.mem_cons_self, hfailed⟩

theorem readFailed_other {past : List (Call × Output)} {out : Output}
    (hout : ∀ buf result, out ≠ .read buf result) :
    ReadFailed past ↔ ReadFailed (past ++ [(c, out)]) := by
  rw [readFailed_concat]
  constructor
  · exact Or.inl
  · rintro (h | ⟨buf, result, h, -⟩)
    · exact h
    · exact absurd h (hout buf result)

/-- A call that starts afresh keeps the futures tracked. -/
theorem tracked_step {past : List (Call × Output)} (h : Tracked (ReadFailed past) s)
    (hc : Afresh past s c) :
    Tracked (ReadFailed (past ++ [(c, (s.step c).1)])) (s.step c).2 := by
  cases c with
  | read buf answers =>
    have hnone : ¬ ReadFailed past := hc
    have hread : Tracked (FailedRead (pollRead buf answers s).1.2) (pollRead buf answers s).2 :=
      tracked_pollRead (h.congr (iff_of_false hnone id))
    refine hread.congr ?_
    rw [readFailed_concat]
    constructor
    · intro hfailed
      exact Or.inr ⟨_, _, rfl, hfailed⟩
    · rintro (hold | ⟨buf', result, hout, hfailed⟩)
      · exact absurd hold hnone
      · obtain ⟨-, rfl⟩ := Output.read.inj hout
        exact hfailed
  | write buf answers =>
    exact (tracked_pollWrite h).congr (readFailed_other fun _ _ h => nomatch h)
  | flush answers => exact (tracked_pollFlush h).congr (readFailed_other fun _ _ h => nomatch h)
  | close answers => exact (tracked_pollClose h hc).congr (readFailed_other fun _ _ h => nomatch h)

theorem NoRepoll.of_isPrefix {events more : List Event} (h : NoRepoll more) (hp : events <+: more) :
    NoRepoll events :=
  List.Pairwise.sublist hp.sublist h

/-- The reading branch polls its future first. -/
theorem pollReading_polls {fut : ReadFuture} :
    ∃ answer, (s.polled fut.toJsFuture answer).events <+: (pollReading buf fut answers s).2.events := by
  induction answers generalizing fut s with
  | nil => exact ⟨.pending, List.prefix_rfl⟩
  | cons answer answers ih =>
    refine ⟨.ready answer, ?_⟩
    cases answer with
    | error e => exact List.prefix_rfl
    | ok chunk =>
      rw [pollReading]
      split
      · exact List.prefix_rfl
      · split
        · exact List.prefix_rfl
        · split
          · obtain ⟨answer, hanswer⟩ := ih (s := (((s.polled fut.toJsFuture
              (.ready (.ok chunk))).withRead .idle).start .read).withRead (.reading _))
            refine List.IsPrefix.trans ?_ hanswer
            simp [List.append_assoc]
          · exact List.prefix_rfl

theorem pollClosing_polls {fut : CloseFuture} :
    ∃ answer, (pollClosing fut answers s).2.events = (s.polled fut.toJsFuture answer).events := by
  unfold pollClosing
  split
  · exact ⟨_, rfl⟩
  · exact ⟨_, rfl⟩
  · exact ⟨_, rfl⟩

/-- A call that does not start afresh polls a settled future. -/
theorem afresh_of_noRepoll {past : List (Call × Output)} (h : Tracked (ReadFailed past) s)
    (hnow : NoRepoll (s.step c).2.events) : Afresh past s c := by
  cases c with
  | read buf answers =>
    intro hfailed
    obtain ⟨fut, hr, hs⟩ := h.failed hfailed
    have hnow : NoRepoll (pollRead buf answers s).2.events := hnow
    rw [pollRead, hr] at hnow
    obtain ⟨answer, hp⟩ := @pollReading_polls s buf answers fut
    exact (noRepoll_polled.1 (hnow.of_isPrefix hp)).2 hs
  | write buf answers => trivial
  | flush answers => trivial
  | close answers =>
    intro fut hk hrejected
    have hs : s.Settled fut.toJsFuture := by
      obtain ⟨e, he⟩ := hrejected
      exact ⟨_, he⟩
    have hnow : NoRepoll (pollClose answers s).2.events := hnow
    -- The close would get to the settled future.
    have hpoll : ∀ t : Session, ∀ answers, t.io.closeState = .closing fut →
        t.Settled fut.toJsFuture → ¬ NoRepoll (closeWriter answers t).2.events := by
      intro t answers hk hs hnow
      rw [closeWriter, hk] at hnow
      obtain ⟨answer, heq⟩ := @pollClosing_polls t answers fut
      have hnow : NoRepoll (pollClosing fut answers t).2.events := hnow
      rw [heq] at hnow
      exact (noRepoll_polled.1 hnow).2 hs
    cases hw : s.io.writeState with
    | idle =>
      rw [pollClose, hw] at hnow
      exact absurd hnow (hpoll s answers hk hs)
    | writing w =>
      refine ⟨w, rfl, ?_⟩
      rintro v more rfl
      rw [pollClose, hw] at hnow
      exact absurd hnow (hpoll _ more hk (Session.settled_ready.2 (Or.inl hs)))

/-- **When no completed future is polled again.** In every run of calls and
with every outcome of the promises, in no state reached has a completed
future been polled again, if and only if every call starts afresh. -/
theorem no_future_repolled_iff (calls : List Call) :
    Throughout Session.step .fresh (fun _ s => NoRepoll s.events) calls ↔
      EachStep Session.step .fresh Afresh calls := by
  have hidle : ∀ fut, ¬ Session.fresh.io.InFlight fut := by
    intro fut hin
    cases hin with
    | read h => exact nomatch h
    | write h => exact nomatch h
    | close h => exact nomatch h
  have hstart : Tracked (ReadFailed []) Session.fresh := by
    refine ⟨List.Pairwise.nil, ?_, fun fut hin => absurd hin (hidle fut),
      fun fut hin => absurd hin (hidle fut), ?_⟩
    · rintro fut ⟨outcome, h⟩
      exact nomatch h
    · rintro ⟨c, buf, result, h, -⟩
      exact nomatch h
  refine throughout_iff_eachStep (I := fun past s => Tracked (ReadFailed past) s)
    hstart hstart.once ?_ ?_ fun _ _ => trivial
  · intro past s c _ h _
    exact ⟨afresh_of_noRepoll h, fun hc => (tracked_step h hc).once⟩
  · exact fun past s c _ h hc => tracked_step h hc

/-- **A read after a failed read polls the consumed future.** -/
theorem not_forall_noRepoll :
    ¬ ∀ calls : List Call,
      Throughout Session.step .fresh (fun _ s => NoRepoll s.events) calls := by
  intro hall
  have hrun := (hall [.read [0] [.error ⟨"TypeError", .ok none, .ok []⟩], .read [0] []]).run
  have htwice : ∀ fut outcome answer, Event.polled Session.fresh.nextRead.toJsFuture
      (.ready (.error ⟨"TypeError", .ok none, .ok []⟩)) = .polled fut (.ready outcome) →
      Event.polled Session.fresh.nextRead.toJsFuture .pending ≠ .polled fut answer :=
    (List.pairwise_cons.1 (List.pairwise_cons.1 hrun).2).1 _ List.mem_cons_self
  exact htwice _ _ _ rfl rfl

end TlsnDemo.Wasm
