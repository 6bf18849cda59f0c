import TlsnDemo.Support.Mealy
import TlsnDemo.Wasm.Io

/-!
# The bytes of the writes

A write is started by one call and reported by another. A write call
reports the write in flight whatever buffer it is given, and a flush or a
close that finds the write completed lets the report go: the caller writes
the bytes again. The writes are acknowledged exactly once as long as
neither happens (`writes_exactly_once_iff`).
-/

namespace TlsnDemo.Wasm

open Mealy

variable {s s' : Session} {buf : List UInt8} {answers : List Settled} {c : Call}

/-! ## What is sent, completed and acknowledged -/

/-- The bytes given to the writer by an event. -/
def Event.sent : Event → List UInt8
  | .started ⟨_, .write chunk⟩ => chunk
  | _ => []

/-- The bytes of the write that an event completes. -/
def Event.completed : Event → List UInt8
  | .polled ⟨_, .write chunk⟩ (.ready (.ok _)) => chunk
  | _ => []

def Session.sent (s : Session) : List UInt8 := s.events.flatMap Event.sent

def Session.completed (s : Session) : List UInt8 := s.events.flatMap Event.completed

/-- The bytes of the write in flight. -/
def WriteState.inFlight : WriteState → List UInt8
  | .idle => []
  | .writing fut => fut.chunk

/-- The bytes that a call acknowledges: the first `n` of its buffer. -/
def acknowledges : Call × Output → List UInt8
  | (.write buf _, .write (.ready (.ok n))) => buf.take n
  | _ => []

def acknowledged (past : List (Call × Output)) : List UInt8 := past.flatMap acknowledges

/-- **Writes are acknowledged exactly once**: never more than the call was
given, what is completed is what was acknowledged, and what is sent is
that and the write in flight. -/
structure ExactlyOnce (past : List (Call × Output)) (s : Session) : Prop where
  within : ∀ buf answers n, (Call.write buf answers, Output.write (.ready (.ok n))) ∈ past →
    n ≤ buf.length
  completed : s.completed = acknowledged past
  sent : s.sent = acknowledged past ++ s.io.writeState.inFlight

/-- **A call takes the write in flight up**, when it finds it completed: it
is a write of a buffer that starts with the same bytes, or no byte was
written. -/
def TakesUp (s : Session) (c : Call) : Prop :=
  match s.io.writeState, c with
  | .writing fut, .write buf (.ok _ :: _) => fut.chunk <+: buf
  | .writing fut, .flush (.ok _ :: _) => fut.chunk = []
  | .writing fut, .close (.ok _ :: _) => fut.chunk = []
  | _, _ => True

/-- No promise that a call polls rejects. -/
def Call.Resolves (c : Call) : Prop := ∀ answer ∈ c.answers, ∃ v, answer = .ok v

theorem takesUp_idle (h : s.io.writeState = .idle) : TakesUp s c := by
  simp [TakesUp, h]

theorem takesUp_read : TakesUp s (.read buf answers) := by
  simp [TakesUp]

theorem takesUp_pending (h : c.answers = []) : TakesUp s c := by
  unfold TakesUp
  split
  · exact nomatch h
  · exact nomatch h
  · exact nomatch h
  · trivial

section Log

variable {request : Request} {fut : JsFuture} {answer : Poll Settled}

@[simp] theorem sent_start : (s.start request).sent = s.sent ++ Event.sent (.started (s.next request)) := by
  simp [Session.sent]

@[simp] theorem sent_polled : (s.polled fut answer).sent = s.sent := by
  simp [Session.sent, Event.sent]

@[simp] theorem completed_start : (s.start request).completed = s.completed := by
  simp [Session.completed, Event.completed]

@[simp] theorem completed_polled :
    (s.polled fut answer).completed = s.completed ++ Event.completed (.polled fut answer) := by
  simp [Session.completed]

@[simp] theorem sent_withRead {state : ReadState} : (s.withRead state).sent = s.sent := rfl

@[simp] theorem sent_withWrite {state : WriteState} : (s.withWrite state).sent = s.sent := rfl

@[simp] theorem sent_withClose {state : CloseState} : (s.withClose state).sent = s.sent := rfl

@[simp] theorem completed_withRead {state : ReadState} :
    (s.withRead state).completed = s.completed := rfl

@[simp] theorem completed_withWrite {state : WriteState} :
    (s.withWrite state).completed = s.completed := rfl

@[simp] theorem completed_withClose {state : CloseState} :
    (s.withClose state).completed = s.completed := rfl

@[simp] theorem Event.sent_write : Event.sent (.started (s.next (.write buf))) = buf := rfl

@[simp] theorem Event.sent_read : Event.sent (.started (s.next .read)) = [] := rfl

@[simp] theorem Event.sent_close : Event.sent (.started (s.next .close)) = [] := rfl

@[simp] theorem Event.completed_pending : Event.completed (.polled fut .pending) = [] := by
  simp [Event.completed]

@[simp] theorem Event.completed_error {e : JsValue} :
    Event.completed (.polled fut (.ready (.error e))) = [] := by
  simp [Event.completed]

@[simp] theorem Event.completed_write {fut : WriteFuture} {v : JsValue} :
    Event.completed (.polled fut.toJsFuture (.ready (.ok v))) = fut.chunk := by
  have h : fut.toJsFuture = ⟨fut.number, .write fut.chunk⟩ := by rw [← fut.asked]
  rw [h]
  rfl

@[simp] theorem Event.completed_read {fut : ReadFuture} {v : JsValue} :
    Event.completed (.polled fut.toJsFuture (.ready (.ok v))) = [] := by
  have h : fut.toJsFuture = ⟨fut.number, .read⟩ := by rw [← fut.asked]
  rw [h]
  rfl

@[simp] theorem Event.completed_close {fut : CloseFuture} {v : JsValue} :
    Event.completed (.polled fut.toJsFuture (.ready (.ok v))) = [] := by
  have h : fut.toJsFuture = ⟨fut.number, .close⟩ := by rw [← fut.asked]
  rw [h]
  rfl

end Log

/-! ## What a call does to the writer -/

/-- **What a call that meets no rejection does to the writer.** -/
inductive WriterStep (s : Session) : Call → Output → Session → Prop
  /-- The write in flight, if any, stays there. -/
  | still {c : Call} {out : Output} {s' : Session} (state : s'.io.writeState = s.io.writeState)
    (completed : s'.completed = s.completed) (sent : s'.sent = s.sent)
    (silent : ∀ n, out ≠ .write (.ready (.ok n))) (takes : TakesUp s c) : WriterStep s c out s'
  /-- A write starts, and is pending. -/
  | starts {buf : List UInt8} {s' : Session} (idle : s.io.writeState = .idle)
    (state : s'.io.writeState = .writing (s.nextWrite buf)) (completed : s'.completed = s.completed)
    (sent : s'.sent = s.sent ++ buf) : WriterStep s (.write buf []) (.write .pending) s'
  /-- A write starts, and completes at once. -/
  | passes {buf : List UInt8} {v : JsValue} {answers : List Settled} {s' : Session}
    (idle : s.io.writeState = .idle) (state : s'.io.writeState = .idle)
    (completed : s'.completed = s.completed ++ buf) (sent : s'.sent = s.sent ++ buf) :
    WriterStep s (.write buf (.ok v :: answers)) (.write (.ready (.ok buf.length))) s'
  /-- The write in flight completes for a write call. -/
  | reports {fut : WriteFuture} {buf : List UInt8} {v : JsValue} {answers : List Settled}
    {s' : Session} (writing : s.io.writeState = .writing fut)
    (state : s'.io.writeState = .idle) (completed : s'.completed = s.completed ++ fut.chunk)
    (sent : s'.sent = s.sent) : WriterStep s (.write buf (.ok v :: answers))
      (.write (.ready (.ok fut.n))) s'
  /-- The write in flight completes for a call that reports nothing. -/
  | drops {fut : WriteFuture} {c : Call} {out : Output} {s' : Session} (writing : s.io.writeState = .writing fut)
    (state : s'.io.writeState = .idle) (completed : s'.completed = s.completed ++ fut.chunk)
    (sent : s'.sent = s.sent) (silent : ∀ n, out ≠ .write (.ready (.ok n)))
    (takes : TakesUp s c ↔ fut.chunk = []) : WriterStep s c out s'

/-- **The writer is left alone**: the same write state, and nothing sent or
completed. -/
structure SameWriter (s s' : Session) : Prop where
  state : s'.io.writeState = s.io.writeState
  completed : s'.completed = s.completed
  sent : s'.sent = s.sent

theorem SameWriter.trans {t : Session} (h : SameWriter s t) (h' : SameWriter t s') :
    SameWriter s s' :=
  ⟨h'.state.trans h.state, h'.completed.trans h.completed, h'.sent.trans h.sent⟩

theorem sameWriter_pollReading {fut : ReadFuture} :
    SameWriter s (pollReading buf fut answers s).2 := by
  induction answers generalizing fut s with
  | nil => exact ⟨rfl, by simp [pollReading], by simp [pollReading]⟩
  | cons answer answers ih =>
    cases answer with
    | error e => exact ⟨rfl, by simp [pollReading], by simp [pollReading]⟩
    | ok chunk =>
      rw [pollReading]
      split
      · exact ⟨rfl, by simp, by simp⟩
      · split
        · exact ⟨rfl, by simp, by simp⟩
        · split
          · refine SameWriter.trans ⟨?_, ?_, ?_⟩ ih
            · rfl
            · simp
            · simp
          · exact ⟨rfl, by simp, by simp⟩

theorem sameWriter_pollRead : SameWriter s (pollRead buf answers s).2 := by
  unfold pollRead
  split
  · exact ⟨rfl, rfl, rfl⟩
  · exact ⟨rfl, by simp, by simp⟩
  · have hstart : SameWriter s ((s.start .read).withRead (.reading s.nextRead)) :=
      ⟨rfl, by simp, by simp⟩
    exact hstart.trans sameWriter_pollReading
  · exact sameWriter_pollReading

theorem sameWriter_pollClosing {fut : CloseFuture} :
    SameWriter s (pollClosing fut answers s).2 := by
  unfold pollClosing
  split <;> exact ⟨rfl, by simp, by simp⟩

theorem sameWriter_closeWriter : SameWriter s (closeWriter answers s).2 := by
  unfold closeWriter
  split
  · exact ⟨rfl, rfl, rfl⟩
  · exact sameWriter_pollClosing
  · have hstart : SameWriter s ((s.start .close).withClose (.closing s.nextClose)) :=
      ⟨rfl, by simp, by simp⟩
    exact hstart.trans sameWriter_pollClosing

theorem writerStep_write (h : (Call.write buf answers).Resolves) :
    WriterStep s (.write buf answers) (.write (pollWrite buf answers s).1)
      (pollWrite buf answers s).2 := by
  unfold pollWrite
  split
  · next fut hw =>
    cases answers with
    | nil =>
      exact .still rfl (by simp [pollWriting]) (by simp [pollWriting]) (fun _ h => nomatch h)
        (takesUp_pending rfl)
    | cons answer answers =>
      obtain ⟨v, rfl⟩ := h answer List.mem_cons_self
      exact .reports hw rfl (by simp [pollWriting]) (by simp [pollWriting])
  · next hw =>
    cases answers with
    | nil => exact .starts hw rfl (by simp [pollWriting]) (by simp [pollWriting])
    | cons answer answers =>
      obtain ⟨v, rfl⟩ := h answer List.mem_cons_self
      exact .passes hw rfl (by simp [pollWriting, Session.nextWrite, Session.next, Event.completed])
        (by simp [pollWriting])

theorem writerStep_flush (h : (Call.flush answers).Resolves) :
    WriterStep s (.flush answers) (.flush (pollFlush answers s).1) (pollFlush answers s).2 := by
  unfold pollFlush
  split
  · next hw => exact .still rfl rfl rfl (fun _ h => nomatch h) (takesUp_idle hw)
  · next fut hw =>
    cases answers with
    | nil =>
      exact .still rfl (by simp) (by simp) (fun _ h => nomatch h) (takesUp_pending rfl)
    | cons answer answers =>
      obtain ⟨v, rfl⟩ := h answer List.mem_cons_self
      exact .drops hw rfl (by simp) (by simp) (fun _ h => nomatch h) (by unfold TakesUp; rw [hw])

theorem writerStep_close (h : (Call.close answers).Resolves) :
    WriterStep s (.close answers) (.close (pollClose answers s).1) (pollClose answers s).2 := by
  unfold pollClose
  split
  · next hw =>
    have hsame := @sameWriter_closeWriter s answers
    exact .still hsame.state hsame.completed hsame.sent (fun _ h => nomatch h) (takesUp_idle hw)
  · next fut hw =>
    cases answers with
    | nil =>
      exact .still rfl (by simp) (by simp) (fun _ h => nomatch h) (takesUp_pending rfl)
    | cons answer answers =>
      obtain ⟨v, rfl⟩ := h answer List.mem_cons_self
      have hsame := @sameWriter_closeWriter
        ((s.polled fut.toJsFuture (.ready (.ok v))).withWrite .idle) answers
      exact .drops hw hsame.state (hsame.completed.trans (by simp)) (hsame.sent.trans (by simp))
        (fun _ h => nomatch h) (by unfold TakesUp; rw [hw])

theorem writerStep (h : c.Resolves) : WriterStep s c (s.step c).1 (s.step c).2 := by
  cases c with
  | read buf answers =>
    have hsame : SameWriter s (s.step (.read buf answers)).2 := sameWriter_pollRead
    exact .still hsame.state hsame.completed hsame.sent (fun _ h => nomatch h) takesUp_read
  | write buf answers => exact writerStep_write h
  | flush answers => exact writerStep_flush h
  | close answers => exact writerStep_close h

/-! ## Runs -/

theorem acknowledges_silent {out : Output} (h : ∀ n, out ≠ .write (.ready (.ok n))) :
    acknowledges (c, out) = [] := by
  unfold acknowledges
  split
  · next heq => exact absurd (Prod.mk.inj heq).2 (h _)
  · rfl

theorem acknowledged_concat {past : List (Call × Output)} {entry : Call × Output} :
    acknowledged (past ++ [entry]) = acknowledged past ++ acknowledges entry := by
  rw [acknowledged, List.flatMap_append, List.flatMap_singleton, ← acknowledged]

/-- The bytes sent are those completed and those in flight. -/
theorem sent_step (h : c.Resolves) (hs : s.sent = s.completed ++ s.io.writeState.inFlight) :
    (s.step c).2.sent = (s.step c).2.completed ++ (s.step c).2.io.writeState.inFlight := by
  have hidle : s.io.writeState = .idle → s.sent = s.completed := by
    intro h
    rw [hs, h]
    exact List.append_nil _
  have hstep := writerStep (s := s) h
  generalize (s.step c).2 = s' at hstep
  generalize (s.step c).1 = out at hstep
  cases hstep with
  | still state completed sent => rw [sent, completed, state, hs]
  | starts idle state completed sent =>
    rw [sent, completed, state, hidle idle]
    rfl
  | passes idle state completed sent =>
    rw [sent, completed, state, hidle idle]
    exact (List.append_nil _).symm
  | reports writing state completed sent =>
    rw [sent, completed, state, hs, writing]
    exact (List.append_nil _).symm
  | drops writing state completed sent =>
    rw [sent, completed, state, hs, writing]
    exact (List.append_nil _).symm

/-- **One step**: writes stay acknowledged exactly once if and only if the
call takes the write in flight up. -/
theorem exactlyOnce_step {past : List (Call × Output)} (h : c.Resolves)
    (hs : s.sent = s.completed ++ s.io.writeState.inFlight) (hpast : ExactlyOnce past s) :
    ExactlyOnce (past ++ [(c, (s.step c).1)]) (s.step c).2 ↔ TakesUp s c := by
  have hsent := sent_step h hs
  have hstep := writerStep (s := s) h
  generalize (s.step c).2 = s' at hstep hsent
  generalize (s.step c).1 = out at hstep
  -- What remains of the three properties is one equation about this call.
  have hiff : ExactlyOnce (past ++ [(c, out)]) s' ↔
      (∀ buf answers n, c = .write buf answers → out = .write (.ready (.ok n)) → n ≤ buf.length) ∧
        s'.completed = s.completed ++ acknowledges (c, out) := by
    constructor
    · intro hnow
      refine ⟨fun buf answers n hc hout => ?_, ?_⟩
      · exact hnow.within buf answers n (by simp [hc, hout])
      · rw [hnow.completed, acknowledged_concat, hpast.completed]
    · rintro ⟨hwithin, hcompleted⟩
      have hnow : s'.completed = acknowledged (past ++ [(c, out)]) := by
        rw [hcompleted, acknowledged_concat, hpast.completed]
      refine ⟨fun buf answers n hmem => ?_, hnow, hnow ▸ hsent⟩
      rcases List.mem_append.1 hmem with hmem | hmem
      · exact hpast.within buf answers n hmem
      · obtain ⟨hc, hout⟩ := Prod.mk.inj (List.mem_singleton.1 hmem)
        exact hwithin buf answers n hc.symm hout.symm
  rw [hiff]
  cases hstep with
  | still state completed sent silent takes =>
    rw [completed, acknowledges_silent silent]
    simp [takes, silent]
  | starts idle state completed sent =>
    rw [completed]
    simp [takesUp_idle idle, acknowledges]
  | passes idle state completed sent =>
    rw [completed]
    simp [takesUp_idle idle, acknowledges]
  | @reports fut buf v answers _ writing state completed sent =>
    have htakes : TakesUp s (.write buf (.ok v :: answers)) ↔ fut.chunk <+: buf := by
      unfold TakesUp
      rw [writing]
    have hack : acknowledges (.write buf (.ok v :: answers), .write (.ready (.ok fut.n))) =
        buf.take fut.chunk.length := by rw [← fut.output]; rfl
    rw [htakes, completed, hack, List.append_cancel_left_eq, List.prefix_iff_eq_take]
    refine ⟨fun hnow => hnow.2, fun htake => ⟨?_, htake⟩⟩
    intro buf' answers' n hc hout
    obtain ⟨rfl, -⟩ := Call.write.inj hc
    have hn : fut.n = n := by
      injection hout with hout
      injection hout with hout
      injection hout
    have hlen : fut.chunk.length ≤ buf.length := by
      rw [htake, List.length_take]
      exact Nat.min_le_right _ _
    rw [← hn, fut.output]
    exact hlen
  | drops writing state completed sent silent takes =>
    rw [completed, acknowledges_silent silent, takes]
    simp [silent]

/-- **When writes are exactly once.** In a run in which no promise rejects,
writes are acknowledged exactly once in every state reached, if and only
if each call takes the write in flight up: a write call that finds it
completed has a buffer that starts with its bytes, and no flush or close
finds one of some bytes completed. -/
theorem writes_exactly_once_iff {calls : List Call} (h : ∀ c ∈ calls, c.Resolves) :
    Throughout Session.step .fresh ExactlyOnce calls ↔
      EachStep Session.step .fresh (fun _ s c => TakesUp s c) calls := by
  refine throughout_iff_eachStep (I := fun _ s => s.sent = s.completed ++ s.io.writeState.inFlight)
    rfl ⟨fun _ _ _ h => (nomatch h), rfl, rfl⟩ ?_ ?_ h
  · exact fun past s c hc hs hpast => exactlyOnce_step hc hs hpast
  · exact fun past s c hc hs _ => sent_step hc hs

/-- A write that is pending, a flush that finds it pending too, and a write
of those bytes and one more, which the resolved promise acknowledges. -/
theorem writes_exactly_once_longerBuffer :
    Throughout Session.step .fresh ExactlyOnce
      ([] ++ [.write [1, 2] []] ++ [.flush []] ++
        [.write [1, 2, 3] [.ok ⟨"undefined", .ok none, .ok []⟩]]) := by
  refine (writes_exactly_once_iff (by simp [Call.Resolves, Call.answers])).2 ?_
  rw [eachStep_concat, eachStep_concat, eachStep_concat]
  have hstarts : ([1, 2] : List UInt8) <+: [1, 2, 3] := List.prefix_append [1, 2] [3]
  exact ⟨⟨⟨eachStep_nil, trivial⟩, trivial⟩, hstarts⟩

/-- **A flush in between sends bytes twice**: it finds the write completed and
reports no byte, so the same bytes are written again. -/
theorem not_forall_exactlyOnce :
    ¬ ∀ calls : List Call, (∀ c ∈ calls, c.Resolves) →
      Throughout Session.step .fresh ExactlyOnce calls := by
  intro hall
  have hrun := hall [.write [1, 2] [], .flush [.ok ⟨"undefined", .ok none, .ok []⟩],
    .write [1, 2] [.ok ⟨"undefined", .ok none, .ok []⟩]] (by simp [Call.Resolves, Call.answers])
  have htwice : [1, 2, 1, 2] = ([1, 2] : List UInt8) := hrun.run.completed
  exact absurd htwice (by decide)

end TlsnDemo.Wasm
