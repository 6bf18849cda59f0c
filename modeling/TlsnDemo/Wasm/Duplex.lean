import TlsnDemo.Wasm.Reads
import TlsnDemo.Wasm.Writes

/-!
# The two halves of the stream

The reads of a stream and its writes, flushes and the close share one
object and one count of futures, and may be called in any order. Neither
half can tell what the other does: the reads of a run give what they give
on their own, and ask JS for the same, and so do the rest
(`halves_apart`).
-/

namespace TlsnDemo.Wasm

open Mealy

variable {s t : Session} {buf : List UInt8} {answers : List Settled} {c : Call}

def Call.isRead : Call → Bool
  | .read _ _ => true
  | _ => false

def Request.isRead : Request → Bool
  | .read => true
  | _ => false

/-- The request that an event makes. -/
def Event.request : Event → Option Request
  | .started fut => some fut.request
  | .polled _ _ => none

/-- What JS was asked for, from the oldest. -/
def Session.requests (s : Session) : List Request := s.events.filterMap Event.request

/-! ## The half that reads -/

/-- Read states alike: the same, but for the future they hold. -/
inductive ReadState.Alike : ReadState → ReadState → Prop
  | idle : Alike .idle .idle
  | reading {fut fut' : ReadFuture} : Alike (.reading fut) (.reading fut')
  | buffered {data : List UInt8} {offset : ℕ} : Alike (.buffered data offset) (.buffered data offset)
  | closed : Alike .closed .closed

/-- **Sessions that read alike**: their read states are alike, and they were
delivered the same and asked for as many reads. -/
structure ReadAlike (s t : Session) : Prop where
  state : s.io.readState.Alike t.io.readState
  delivered : s.delivered = t.delivered
  requests : s.requests.filter Request.isRead = t.requests.filter Request.isRead

@[simp] theorem requests_start {request : Request} :
    (s.start request).requests = s.requests ++ [request] := by
  simp [Session.requests, Event.request, Session.next]

@[simp] theorem requests_polled {fut : JsFuture} {answer : Poll Settled} :
    (s.polled fut answer).requests = s.requests := by
  simp [Session.requests, Event.request]

@[simp] theorem requests_withRead {state : ReadState} : (s.withRead state).requests = s.requests := rfl

@[simp] theorem requests_withWrite {state : WriteState} :
    (s.withWrite state).requests = s.requests := rfl

@[simp] theorem requests_withClose {state : CloseState} :
    (s.withClose state).requests = s.requests := rfl

namespace ReadAlike

variable {fut fut' : ReadFuture} {state state' : ReadState}

theorem withRead (h : ReadAlike s t) (hstate : state.Alike state') :
    ReadAlike (s.withRead state) (t.withRead state') :=
  ⟨hstate, h.delivered, h.requests⟩

theorem start (h : ReadAlike s t) : ReadAlike (s.start .read) (t.start .read) :=
  ⟨h.state, by simpa using h.delivered, by simp [h.requests]⟩

theorem polled {answer : Poll Settled} (h : ReadAlike s t) :
    ReadAlike (s.polled fut.toJsFuture answer) (t.polled fut'.toJsFuture answer) := by
  refine ⟨h.state, ?_, by simpa using h.requests⟩
  match answer with
  | .pending => simpa using h.delivered
  | .ready (.error e) => simpa using h.delivered
  | .ready (.ok chunk) => simp [h.delivered]

/-- The future that a read is waiting for is not looked at. -/
theorem pollReading (h : ReadAlike s t) :
    (Wasm.pollReading buf fut answers s).1 = (Wasm.pollReading buf fut' answers t).1 ∧
      ReadAlike (Wasm.pollReading buf fut answers s).2 (Wasm.pollReading buf fut' answers t).2 := by
  induction answers generalizing fut fut' s t with
  | nil => exact ⟨rfl, h.polled⟩
  | cons answer answers ih =>
    cases answer with
    | error e => exact ⟨rfl, h.polled⟩
    | ok chunk =>
      rw [Wasm.pollReading, Wasm.pollReading]
      by_cases hdone : chunk.isDone = true
      · rw [if_pos hdone, if_pos hdone]
        exact ⟨rfl, h.polled.withRead .closed⟩
      · rw [if_neg hdone, if_neg hdone]
        cases chunk.value with
        | error text => exact ⟨rfl, h.polled⟩
        | ok data =>
          by_cases hempty : data.isEmpty = true
          · simp only [if_pos hempty]
            exact ih ((h.polled.withRead .idle).start.withRead .reading)
          · simp only [if_neg hempty]
            refine ⟨trivial, h.polled.withRead ?_⟩
            split
            · exact .buffered
            · exact .idle

theorem pollRead (h : ReadAlike s t) :
    (Wasm.pollRead buf answers s).1 = (Wasm.pollRead buf answers t).1 ∧
      ReadAlike (Wasm.pollRead buf answers s).2 (Wasm.pollRead buf answers t).2 := by
  have hstate := h.state
  unfold Wasm.pollRead
  cases hs : s.io.readState with
  | idle =>
    rw [hs] at hstate
    cases ht : t.io.readState <;> rw [ht] at hstate <;> cases hstate
    exact (h.start.withRead .reading).pollReading
  | reading fut =>
    rw [hs] at hstate
    cases ht : t.io.readState <;> rw [ht] at hstate <;> cases hstate
    exact h.pollReading
  | buffered data offset =>
    rw [hs] at hstate
    cases ht : t.io.readState <;> rw [ht] at hstate <;> cases hstate
    refine ⟨rfl, h.withRead ?_⟩
    split
    · exact .idle
    · exact .buffered
  | closed =>
    rw [hs] at hstate
    cases ht : t.io.readState <;> rw [ht] at hstate <;> cases hstate
    exact ⟨rfl, h⟩

end ReadAlike

/-- **The reader is left alone by the other calls**, which ask for no read. -/
theorem reads_left (hc : c.isRead = false) :
    SameReader s (s.step c).2 ∧
      (s.step c).2.requests.filter Request.isRead = s.requests.filter Request.isRead := by
  have hclosing : ∀ {s : Session} {fut : CloseFuture} {answers : List Settled},
      (pollClosing fut answers s).2.requests = s.requests := by
    intro s fut answers
    unfold pollClosing
    split <;> simp
  have hcloseWriter : ∀ {s : Session} {answers : List Settled},
      (closeWriter answers s).2.requests.filter Request.isRead = s.requests.filter Request.isRead := by
    intro s answers
    unfold closeWriter
    split
    · rfl
    · rw [hclosing]
    · rw [hclosing]
      simp [Request.isRead]
  have hwriting : ∀ {s : Session} {fut : WriteFuture} {answers : List Settled},
      (pollWriting fut answers s).2.requests = s.requests := by
    intro s fut answers
    unfold pollWriting
    split <;> simp
  cases c with
  | read buf answers => exact absurd hc (by simp [Call.isRead])
  | write buf answers =>
    refine ⟨sameReader_pollWrite, ?_⟩
    change (pollWrite buf answers s).2.requests.filter _ = _
    unfold pollWrite
    split
    · rw [hwriting]
    · rw [hwriting]
      simp [Request.isRead]
  | flush answers =>
    refine ⟨sameReader_pollFlush, ?_⟩
    change (pollFlush answers s).2.requests.filter _ = _
    unfold pollFlush
    split
    · rfl
    · split <;> simp
  | close answers =>
    refine ⟨sameReader_pollClose, ?_⟩
    change (pollClose answers s).2.requests.filter _ = _
    unfold pollClose
    split
    · exact hcloseWriter
    · split
      · simp
      · simp
      · rw [hcloseWriter]
        simp

/-- The reads of a run are followed by a run of reads. -/
theorem follows_reads : Follows Session.step Call.isRead ReadAlike where
  answer := by
    intro s t c h hc
    cases c with
    | read buf answers =>
      change Output.read (pollRead buf answers s).1.1 (pollRead buf answers s).1.2 = _
      have hsame : (pollRead buf answers s).1 = (pollRead buf answers t).1 := h.pollRead.1
      rw [hsame]
      rfl
    | write _ _ => exact absurd hc (by simp [Call.isRead])
    | flush _ => exact absurd hc (by simp [Call.isRead])
    | close _ => exact absurd hc (by simp [Call.isRead])
  keep := by
    intro s t c h hc
    cases c with
    | read buf answers => exact h.pollRead.2
    | write _ _ => exact absurd hc (by simp [Call.isRead])
    | flush _ => exact absurd hc (by simp [Call.isRead])
    | close _ => exact absurd hc (by simp [Call.isRead])
  leave := by
    intro s t c h hc
    obtain ⟨⟨hstate, hdelivered⟩, hrequests⟩ := reads_left (s := s) hc
    exact ⟨hstate ▸ h.state, hdelivered.trans h.delivered, hrequests.trans h.requests⟩

/-! ## The half that writes -/

/-- Write states alike: the same, but for the number of the future. -/
inductive WriteState.Alike : WriteState → WriteState → Prop
  | idle : Alike .idle .idle
  | writing {fut fut' : WriteFuture} : fut.chunk = fut'.chunk → Alike (.writing fut) (.writing fut')

/-- Close states alike. -/
inductive CloseState.Alike : CloseState → CloseState → Prop
  | open : Alike .open .open
  | closing {fut fut' : CloseFuture} : Alike (.closing fut) (.closing fut')
  | closed : Alike .closed .closed

/-- What JS was asked for, without the reads. -/
def Session.writerRequests (s : Session) : List Request := s.requests.filter fun r => !r.isRead

/-- **Sessions that write alike**: their write and close states are alike,
and JS was asked for the same writes and closes. -/
structure WriteAlike (s t : Session) : Prop where
  write : s.io.writeState.Alike t.io.writeState
  close : s.io.closeState.Alike t.io.closeState
  requests : s.writerRequests = t.writerRequests

/-- The writer, whole: its write and close states, and what it asked for. -/
def SameHalf (s t : Session) : Prop :=
  t.io.writeState = s.io.writeState ∧ t.io.closeState = s.io.closeState ∧
    t.writerRequests = s.writerRequests

@[simp] theorem writerRequests_start {request : Request} :
    (s.start request).writerRequests =
      s.writerRequests ++ if request.isRead then [] else [request] := by
  cases request <;> simp [Session.writerRequests, Request.isRead]

@[simp] theorem writerRequests_polled {fut : JsFuture} {answer : Poll Settled} :
    (s.polled fut answer).writerRequests = s.writerRequests := by
  simp [Session.writerRequests]

@[simp] theorem writerRequests_withRead {state : ReadState} :
    (s.withRead state).writerRequests = s.writerRequests := rfl

@[simp] theorem writerRequests_withWrite {state : WriteState} :
    (s.withWrite state).writerRequests = s.writerRequests := rfl

@[simp] theorem writerRequests_withClose {state : CloseState} :
    (s.withClose state).writerRequests = s.writerRequests := rfl

theorem sameHalf_pollReading {fut : ReadFuture} : SameHalf s (pollReading buf fut answers s).2 := by
  induction answers generalizing fut s with
  | nil => exact ⟨rfl, rfl, by simp [pollReading]⟩
  | cons answer answers ih =>
    cases answer with
    | error e => exact ⟨rfl, rfl, by simp [pollReading]⟩
    | ok chunk =>
      rw [pollReading]
      split
      · exact ⟨rfl, rfl, by simp⟩
      · split
        · exact ⟨rfl, rfl, by simp⟩
        · split
          · obtain ⟨hwrite, hclose, hrequests⟩ := ih (s := (((s.polled fut.toJsFuture
              (.ready (.ok chunk))).withRead .idle).start .read).withRead
                (.reading ((s.polled fut.toJsFuture (.ready (.ok chunk))).withRead .idle).nextRead))
            exact ⟨hwrite, hclose, hrequests.trans (by simp [Request.isRead])⟩
          · exact ⟨rfl, rfl, by simp⟩

/-- **A read leaves the writer alone.** -/
theorem sameHalf_pollRead : SameHalf s (pollRead buf answers s).2 := by
  unfold pollRead
  split
  · exact ⟨rfl, rfl, rfl⟩
  · exact ⟨rfl, rfl, by simp⟩
  · have hhalf : SameHalf ((s.start .read).withRead (.reading s.nextRead))
        (pollReading buf s.nextRead answers
          ((s.start .read).withRead (.reading s.nextRead))).2 := sameHalf_pollReading
    obtain ⟨hwrite, hclose, hrequests⟩ := hhalf
    exact ⟨hwrite, hclose, hrequests.trans (by simp [Request.isRead])⟩
  · exact sameHalf_pollReading

namespace WriteAlike

variable {fut fut' : WriteFuture} {gut gut' : CloseFuture}

theorem polled {f f' : JsFuture} {answer : Poll Settled} (h : WriteAlike s t) :
    WriteAlike (s.polled f answer) (t.polled f' answer) :=
  ⟨h.write, h.close, by simpa using h.requests⟩

theorem withWrite {state state' : WriteState} (h : WriteAlike s t) (hstate : state.Alike state') :
    WriteAlike (s.withWrite state) (t.withWrite state') :=
  ⟨hstate, h.close, h.requests⟩

theorem withClose {state state' : CloseState} (h : WriteAlike s t) (hstate : state.Alike state') :
    WriteAlike (s.withClose state) (t.withClose state') :=
  ⟨h.write, hstate, h.requests⟩

theorem start {request : Request} (h : WriteAlike s t) :
    WriteAlike (s.start request) (t.start request) :=
  ⟨h.write, h.close, by simp [h.requests]⟩

theorem pollWriting (h : WriteAlike s t) (hchunk : fut.chunk = fut'.chunk) :
    (Wasm.pollWriting fut answers s).1 = (Wasm.pollWriting fut' answers t).1 ∧
      WriteAlike (Wasm.pollWriting fut answers s).2 (Wasm.pollWriting fut' answers t).2 := by
  unfold Wasm.pollWriting
  match answers with
  | [] => exact ⟨rfl, h.polled⟩
  | .error e :: _ => exact ⟨rfl, h.polled.withWrite .idle⟩
  | .ok v :: _ =>
    refine ⟨?_, h.polled.withWrite .idle⟩
    simp only [fut.output, fut'.output, hchunk]

theorem pollWrite (h : WriteAlike s t) :
    (Wasm.pollWrite buf answers s).1 = (Wasm.pollWrite buf answers t).1 ∧
      WriteAlike (Wasm.pollWrite buf answers s).2 (Wasm.pollWrite buf answers t).2 := by
  have hstate := h.write
  unfold Wasm.pollWrite
  cases hs : s.io.writeState with
  | idle =>
    rw [hs] at hstate
    cases ht : t.io.writeState <;> rw [ht] at hstate <;> cases hstate
    have hchunk : (s.nextWrite buf).chunk = (t.nextWrite buf).chunk := rfl
    exact (h.start.withWrite (.writing hchunk)).pollWriting hchunk
  | writing fut =>
    rw [hs] at hstate
    cases ht : t.io.writeState <;> rw [ht] at hstate <;> cases hstate
    next hchunk => exact h.pollWriting hchunk

theorem pollFlush (h : WriteAlike s t) :
    (Wasm.pollFlush answers s).1 = (Wasm.pollFlush answers t).1 ∧
      WriteAlike (Wasm.pollFlush answers s).2 (Wasm.pollFlush answers t).2 := by
  have hstate := h.write
  unfold Wasm.pollFlush
  cases hs : s.io.writeState with
  | idle =>
    rw [hs] at hstate
    cases ht : t.io.writeState <;> rw [ht] at hstate <;> cases hstate
    exact ⟨rfl, h⟩
  | writing fut =>
    rw [hs] at hstate
    cases ht : t.io.writeState <;> rw [ht] at hstate <;> cases hstate
    match answers with
    | [] => exact ⟨rfl, h.polled⟩
    | .error e :: _ => exact ⟨rfl, h.polled.withWrite .idle⟩
    | .ok v :: _ => exact ⟨rfl, h.polled.withWrite .idle⟩

theorem pollClosing (h : WriteAlike s t) :
    (Wasm.pollClosing gut answers s).1 = (Wasm.pollClosing gut' answers t).1 ∧
      WriteAlike (Wasm.pollClosing gut answers s).2 (Wasm.pollClosing gut' answers t).2 := by
  unfold Wasm.pollClosing
  match answers with
  | [] => exact ⟨rfl, h.polled⟩
  | .error e :: _ => exact ⟨rfl, h.polled⟩
  | .ok v :: _ => exact ⟨rfl, h.polled.withClose .closed⟩

theorem closeWriter (h : WriteAlike s t) :
    (Wasm.closeWriter answers s).1 = (Wasm.closeWriter answers t).1 ∧
      WriteAlike (Wasm.closeWriter answers s).2 (Wasm.closeWriter answers t).2 := by
  have hstate := h.close
  unfold Wasm.closeWriter
  cases hs : s.io.closeState with
  | «open» =>
    rw [hs] at hstate
    cases ht : t.io.closeState <;> rw [ht] at hstate <;> cases hstate
    exact (h.start.withClose .closing).pollClosing
  | closing fut =>
    rw [hs] at hstate
    cases ht : t.io.closeState <;> rw [ht] at hstate <;> cases hstate
    exact h.pollClosing
  | closed =>
    rw [hs] at hstate
    cases ht : t.io.closeState <;> rw [ht] at hstate <;> cases hstate
    exact ⟨rfl, h⟩

theorem pollClose (h : WriteAlike s t) :
    (Wasm.pollClose answers s).1 = (Wasm.pollClose answers t).1 ∧
      WriteAlike (Wasm.pollClose answers s).2 (Wasm.pollClose answers t).2 := by
  have hstate := h.write
  unfold Wasm.pollClose
  cases hs : s.io.writeState with
  | idle =>
    rw [hs] at hstate
    cases ht : t.io.writeState <;> rw [ht] at hstate <;> cases hstate
    exact h.closeWriter
  | writing fut =>
    rw [hs] at hstate
    cases ht : t.io.writeState <;> rw [ht] at hstate <;> cases hstate
    match answers with
    | [] => exact ⟨rfl, h.polled⟩
    | .error e :: _ => exact ⟨rfl, h.polled.withWrite .idle⟩
    | .ok v :: answers => exact (h.polled.withWrite .idle).closeWriter

end WriteAlike

/-- The other calls of a run are followed by a run of theirs. -/
theorem follows_writes : Follows Session.step (fun c => !c.isRead) WriteAlike where
  answer := by
    intro s t c h hc
    cases c with
    | read _ _ => exact absurd hc (by simp [Call.isRead])
    | write buf answers => exact congrArg Output.write h.pollWrite.1
    | flush answers => exact congrArg Output.flush h.pollFlush.1
    | close answers => exact congrArg Output.close h.pollClose.1
  keep := by
    intro s t c h hc
    cases c with
    | read _ _ => exact absurd hc (by simp [Call.isRead])
    | write buf answers => exact h.pollWrite.2
    | flush answers => exact h.pollFlush.2
    | close answers => exact h.pollClose.2
  leave := by
    intro s t c h hc
    cases c with
    | read buf answers =>
      obtain ⟨hwrite, hclose, hrequests⟩ : SameHalf s (s.step (.read buf answers)).2 :=
        sameHalf_pollRead
      exact ⟨hwrite ▸ h.write, hclose ▸ h.close, hrequests.trans h.requests⟩
    | write _ _ => exact absurd hc (by simp [Call.isRead])
    | flush _ => exact absurd hc (by simp [Call.isRead])
    | close _ => exact absurd hc (by simp [Call.isRead])

/-! ## Both halves -/

/-- **The halves of a stream are apart.** In every run the reads give what
they give in the run of the reads alone, are delivered the same and ask JS
for as many reads; and the writes, flushes and closes give what they give
in the run without the reads, and ask JS for the same writes and closes. -/
theorem halves_apart (calls : List Call) :
    ((past calls).filter (fun p => p.1.isRead) = past (calls.filter Call.isRead) ∧
      (after calls).delivered = (after (calls.filter Call.isRead)).delivered ∧
      (after calls).requests.filter Request.isRead =
        (after (calls.filter Call.isRead)).requests.filter Request.isRead) ∧
    (past calls).filter (fun p => !p.1.isRead) = past (calls.filter fun c => !c.isRead) ∧
      (after calls).writerRequests = (after (calls.filter fun c => !c.isRead)).writerRequests := by
  obtain ⟨hreads, hread⟩ := follows_reads.run (s := .fresh) (t := .fresh)
    ⟨.idle, rfl, rfl⟩ calls
  obtain ⟨hwrites, hwrite⟩ := follows_writes.run (s := .fresh) (t := .fresh)
    ⟨.idle, .open, rfl⟩ calls
  exact ⟨⟨hreads, hread.delivered, hread.requests⟩, hwrites, hwrite.requests⟩

end TlsnDemo.Wasm
