import Mathlib.Data.List.Basic

/-!
# The WebTransport stream

The asynchronous reads and writes over a pair of JS streams. Each of the
poll functions is translated as a function of the session: the stream with
the futures made for it so far and the log of what was asked of JS. The
outcomes that a call finds its futures settled with are an input of the
call, in the order of its polls; a poll past them is pending, and a
pending poll ends every call.
-/

namespace TlsnDemo.Wasm

/-- A JS value, as far as the stream looks at it: its debug text, and what
getting each field of a read result gives, an error being given by its
debug text. -/
structure JsValue where
  debug : String
  /-- `done`, as a boolean if it is one. -/
  done : Except String (Option Bool)
  /-- `value`, as an array of bytes. -/
  value : Except String (List UInt8)

inductive IoError where
  | other (text : String)
  deriving DecidableEq

def jsToIo (e : JsValue) : IoError := .other e.debug

inductive Poll (α : Type) where
  | pending
  | ready (output : α)

/-- What JS was asked for. -/
inductive Request where
  | read
  | write (chunk : List UInt8)
  | close
  deriving DecidableEq

/-- A future over a promise, with its number among the futures made. -/
structure JsFuture where
  number : ℕ
  request : Request
  deriving DecidableEq

structure ReadFuture extends JsFuture where
  asked : request = .read

/-- The future of a write: its output is the length of the chunk. -/
structure WriteFuture extends JsFuture where
  chunk : List UInt8
  n : ℕ
  asked : request = .write chunk
  output : n = chunk.length

structure CloseFuture extends JsFuture where
  asked : request = .close

/-- The outcome of a promise. -/
abbrev Settled := Except JsValue JsValue

inductive Event where
  | started (fut : JsFuture)
  | polled (fut : JsFuture) (answer : Poll Settled)

inductive ReadState where
  | idle
  | reading (fut : ReadFuture)
  | buffered (data : List UInt8) (offset : ℕ)
  | closed

inductive WriteState where
  | idle
  | writing (fut : WriteFuture)

inductive CloseState where
  | open
  | closing (fut : CloseFuture)
  | closed

structure WebTransportIo where
  readState : ReadState
  writeState : WriteState
  closeState : CloseState

def WebTransportIo.fromBidi : WebTransportIo := ⟨.idle, .idle, .open⟩

/-- The stream, the number of futures made for it, and the events on the JS
side from the oldest. -/
structure Session where
  io : WebTransportIo
  made : ℕ
  events : List Event

namespace Session

/-- A stream nobody has called yet. -/
def fresh : Session := ⟨.fromBidi, 0, []⟩

/-- The future that the next request makes. -/
def next (s : Session) (request : Request) : JsFuture := ⟨s.made, request⟩

def nextRead (s : Session) : ReadFuture := ⟨s.next .read, rfl⟩

def nextWrite (s : Session) (buf : List UInt8) : WriteFuture :=
  ⟨s.next (.write buf), buf, buf.length, rfl, rfl⟩

def nextClose (s : Session) : CloseFuture := ⟨s.next .close, rfl⟩

def start (s : Session) (request : Request) : Session :=
  { s with made := s.made + 1, events := s.events ++ [.started (s.next request)] }

def polled (s : Session) (fut : JsFuture) (answer : Poll Settled) : Session :=
  { s with events := s.events ++ [.polled fut answer] }

def withRead (s : Session) (state : ReadState) : Session :=
  { s with io := { s.io with readState := state } }

def withWrite (s : Session) (state : WriteState) : Session :=
  { s with io := { s.io with writeState := state } }

def withClose (s : Session) (state : CloseState) : Session :=
  { s with io := { s.io with closeState := state } }

section Fields

variable {s : Session} {fut : JsFuture} {answer : Poll Settled} {request : Request}
variable {read : ReadState} {write : WriteState} {close : CloseState}

@[simp] theorem start_io : (s.start request).io = s.io := rfl

@[simp] theorem start_made : (s.start request).made = s.made + 1 := rfl

@[simp] theorem start_events :
    (s.start request).events = s.events ++ [.started (s.next request)] := rfl

@[simp] theorem polled_io : (s.polled fut answer).io = s.io := rfl

@[simp] theorem polled_made : (s.polled fut answer).made = s.made := rfl

@[simp] theorem polled_events :
    (s.polled fut answer).events = s.events ++ [.polled fut answer] := rfl

@[simp] theorem withRead_io : (s.withRead read).io = { s.io with readState := read } := rfl

@[simp] theorem withRead_made : (s.withRead read).made = s.made := rfl

@[simp] theorem withRead_events : (s.withRead read).events = s.events := rfl

@[simp] theorem withWrite_io : (s.withWrite write).io = { s.io with writeState := write } := rfl

@[simp] theorem withWrite_made : (s.withWrite write).made = s.made := rfl

@[simp] theorem withWrite_events : (s.withWrite write).events = s.events := rfl

@[simp] theorem withClose_io : (s.withClose close).io = { s.io with closeState := close } := rfl

@[simp] theorem withClose_made : (s.withClose close).made = s.made := rfl

@[simp] theorem withClose_events : (s.withClose close).events = s.events := rfl

end Fields

end Session

/-- `buf[..n].copy_from_slice(&data[offset..offset + n])`. -/
def copyFromSlice (buf data : List UInt8) (offset n : ℕ) : List UInt8 :=
  (data.drop offset).take n ++ buf.drop n

/-! ## Reading -/

/-- `done` of a read result: false when it is missing or no boolean. -/
def JsValue.isDone (chunk : JsValue) : Bool :=
  match chunk.done with
  | .ok v => v.getD false
  | .error _ => false

/-- The `Reading` branch of the loop, with the future it holds. Gives the
buffer and the result of the call, and the session after it. -/
def pollReading (buf : List UInt8) :
    ReadFuture → List Settled → Session → (List UInt8 × Poll (Except IoError ℕ)) × Session
  | fut, [], s => ((buf, .pending), s.polled fut.toJsFuture .pending)
  | fut, .error e :: _, s =>
    ((buf, .ready (.error (jsToIo e))), s.polled fut.toJsFuture (.ready (.error e)))
  | fut, .ok chunk :: answers, s =>
    let s := s.polled fut.toJsFuture (.ready (.ok chunk))
    if chunk.isDone then
      ((buf, .ready (.ok 0)), s.withRead .closed)
    else
      match chunk.value with
      | .error text => ((buf, .ready (.error (.other text))), s)
      | .ok data =>
        if data.isEmpty then
          -- Once more around the loop: idle, then reading the next chunk.
          let s := s.withRead .idle
          pollReading buf s.nextRead answers ((s.start .read).withRead (.reading s.nextRead))
        else
          let n := min data.length buf.length
          let state := if n < data.length then .buffered data n else .idle
          ((copyFromSlice buf data 0 n, .ready (.ok n)), s.withRead state)

/-- Reads into `buf`. -/
def pollRead (buf : List UInt8) (answers : List Settled) (s : Session) :
    (List UInt8 × Poll (Except IoError ℕ)) × Session :=
  match s.io.readState with
  | .closed => ((buf, .ready (.ok 0)), s)
  | .buffered data offset =>
    let remaining := data.length - offset
    let n := min remaining buf.length
    let state := if offset + n = data.length then .idle else .buffered data (offset + n)
    ((copyFromSlice buf data offset n, .ready (.ok n)), s.withRead state)
  | .idle => pollReading buf s.nextRead answers ((s.start .read).withRead (.reading s.nextRead))
  | .reading fut => pollReading buf fut answers s

/-! ## Writing -/

/-- The `Writing` branch of the loop, with the future it holds. -/
def pollWriting (fut : WriteFuture) (answers : List Settled) (s : Session) :
    Poll (Except IoError ℕ) × Session :=
  match answers with
  | [] => (.pending, s.polled fut.toJsFuture .pending)
  | .error e :: _ =>
    (.ready (.error (jsToIo e)), (s.polled fut.toJsFuture (.ready (.error e))).withWrite .idle)
  | .ok v :: _ =>
    (.ready (.ok fut.n), (s.polled fut.toJsFuture (.ready (.ok v))).withWrite .idle)

/-- Writes `buf`: the result is reported when the promise resolves. -/
def pollWrite (buf : List UInt8) (answers : List Settled) (s : Session) :
    Poll (Except IoError ℕ) × Session :=
  match s.io.writeState with
  | .writing fut => pollWriting fut answers s
  | .idle =>
    let fut := s.nextWrite buf
    pollWriting fut answers ((s.start (.write buf)).withWrite (.writing fut))

def pollFlush (answers : List Settled) (s : Session) : Poll (Except IoError Unit) × Session :=
  match s.io.writeState with
  | .idle => (.ready (.ok ()), s)
  | .writing fut =>
    match answers with
    | [] => (.pending, s.polled fut.toJsFuture .pending)
    | .error e :: _ =>
      (.ready (.error (jsToIo e)), (s.polled fut.toJsFuture (.ready (.error e))).withWrite .idle)
    | .ok v :: _ =>
      (.ready (.ok ()), (s.polled fut.toJsFuture (.ready (.ok v))).withWrite .idle)

/-- The `Closing` branch of the loop, with the future it holds. -/
def pollClosing (fut : CloseFuture) (answers : List Settled) (s : Session) :
    Poll (Except IoError Unit) × Session :=
  match answers with
  | [] => (.pending, s.polled fut.toJsFuture .pending)
  | .error e :: _ => (.ready (.error (jsToIo e)), s.polled fut.toJsFuture (.ready (.error e)))
  | .ok v :: _ =>
    (.ready (.ok ()), (s.polled fut.toJsFuture (.ready (.ok v))).withClose .closed)

/-- The loop of `pollClose` from its second match, with no write in flight. -/
def closeWriter (answers : List Settled) (s : Session) : Poll (Except IoError Unit) × Session :=
  match s.io.closeState with
  | .closed => (.ready (.ok ()), s)
  | .closing fut => pollClosing fut answers s
  | .open =>
    let fut := s.nextClose
    pollClosing fut answers ((s.start .close).withClose (.closing fut))

def pollClose (answers : List Settled) (s : Session) : Poll (Except IoError Unit) × Session :=
  match s.io.writeState with
  | .idle => closeWriter answers s
  | .writing fut =>
    match answers with
    | [] => (.pending, s.polled fut.toJsFuture .pending)
    | .error e :: _ =>
      (.ready (.error (jsToIo e)), (s.polled fut.toJsFuture (.ready (.error e))).withWrite .idle)
    | .ok v :: answers =>
      closeWriter answers ((s.polled fut.toJsFuture (.ready (.ok v))).withWrite .idle)

/-! ## Calls -/

/-- A call of a poll function, with the outcomes its polls find. -/
inductive Call where
  | read (buf : List UInt8) (answers : List Settled)
  | write (buf : List UInt8) (answers : List Settled)
  | flush (answers : List Settled)
  | close (answers : List Settled)

def Call.answers : Call → List Settled
  | .read _ answers | .write _ answers | .flush answers | .close answers => answers

/-- What a call gives; a read gives its buffer back. -/
inductive Output where
  | read (buf : List UInt8) (result : Poll (Except IoError ℕ))
  | write (result : Poll (Except IoError ℕ))
  | flush (result : Poll (Except IoError Unit))
  | close (result : Poll (Except IoError Unit))

def Session.step (s : Session) : Call → Output × Session
  | .read buf answers =>
    let ((buf, result), s) := pollRead buf answers s
    (.read buf result, s)
  | .write buf answers =>
    let (result, s) := pollWrite buf answers s
    (.write result, s)
  | .flush answers =>
    let (result, s) := pollFlush answers s
    (.flush result, s)
  | .close answers =>
    let (result, s) := pollClose answers s
    (.close result, s)

end TlsnDemo.Wasm
