import TlsnDemo.Support.ByteStream
import TlsnDemo.Wasm.Reads

/-!
# The stream as a source of bytes

JS gives the reader of a stream one chunk for each promise, and then
`done`. However the bytes are cut into chunks, and however long the
promises take, the stream is a source that gives exactly these bytes, from
whatever state a run of calls has left it in (`gives_chunks`).
-/

namespace TlsnDemo.Wasm

open ByteStream Mealy

/-! ## What the reader is given -/

/-- The read result with a chunk. -/
def chunkResult (data : List UInt8) : JsValue := ⟨"Object", .ok (some false), .ok data⟩

/-- The read result at the end, from whose value an empty array is made. -/
def doneResult : JsValue := ⟨"Object", .ok (some true), .ok []⟩

def results (chunks : List (List UInt8)) : List JsValue := chunks.map chunkResult ++ [doneResult]

/-- A run of read results from the first. -/
theorem delivers_of_isPrefix {chunks : List (List UInt8)} {new : List JsValue}
    (h : new <+: results chunks) : Delivers chunks new := by
  refine ⟨chunks.map chunkResult, doneResult, ?_, rfl, h⟩
  rw [List.forall₂_map_right_iff]
  exact List.forall₂_same.2 fun data _ => ⟨rfl, rfl⟩

variable {s : Session} {buf : List UInt8} {fut : ReadFuture} {batch : List JsValue}
  {chunks : List (List UInt8)}

/-- A poll takes over the first of the results that it finds. -/
theorem delivered_pollReading : ∃ new,
    (pollReading buf fut (batch.map .ok) s).2.delivered = s.delivered ++ new ∧ new <+: batch := by
  induction batch generalizing fut s with
  | nil => exact ⟨[], by simp [pollReading], List.nil_prefix⟩
  | cons chunk batch ih =>
    rw [List.map_cons, pollReading]
    by_cases hdone : chunk.isDone = true
    · rw [if_pos hdone]
      exact ⟨[chunk], by simp, List.prefix_append [chunk] batch⟩
    · rw [if_neg hdone]
      cases hvalue : chunk.value with
      | error text => exact ⟨[chunk], by simp, List.prefix_append [chunk] batch⟩
      | ok data =>
        dsimp only
        split
        · -- The chunk is empty: it is taken over, and the loop goes on.
          let idle := (s.polled fut.toJsFuture (.ready (.ok chunk))).withRead .idle
          obtain ⟨new, hnew, hbatch⟩ := @ih ((idle.start .read).withRead (.reading idle.nextRead))
            idle.nextRead
          refine ⟨chunk :: new, ?_, List.cons_prefix_cons.2 ⟨rfl, hbatch⟩⟩
          rw [hnew]
          simp [idle]
        · exact ⟨[chunk], by simp, List.prefix_append [chunk] batch⟩

theorem delivered_pollRead : ∃ new,
    (pollRead buf (batch.map .ok) s).2.delivered = s.delivered ++ new ∧ new <+: batch := by
  unfold pollRead
  split
  · exact ⟨[], by simp, List.nil_prefix⟩
  · exact ⟨[], by simp, List.nil_prefix⟩
  · obtain ⟨new, hnew, hbatch⟩ := @delivered_pollReading ((s.start .read).withRead (.reading s.nextRead))
      buf s.nextRead batch
    exact ⟨new, by rw [hnew]; simp, hbatch⟩
  · exact delivered_pollReading

/-- No chunk makes a poll fail. -/
theorem pollReading_ne_error (hbatch : ∀ chunk ∈ batch, ∃ data, chunk.value = .ok data) {e : IoError} :
    (pollReading buf fut (batch.map .ok) s).1.2 ≠ .ready (.error e) := by
  induction batch generalizing fut s with
  | nil => simp [pollReading]
  | cons chunk batch ih =>
    obtain ⟨data, hdata⟩ := hbatch chunk List.mem_cons_self
    rw [List.map_cons, pollReading, hdata]
    split
    · simp
    · dsimp only
      split
      · exact ih fun other hother => hbatch other (List.mem_cons_of_mem _ hother)
      · simp

theorem pollRead_ne_error (hbatch : ∀ chunk ∈ batch, ∃ data, chunk.value = .ok data) {e : IoError} :
    (pollRead buf (batch.map .ok) s).1.2 ≠ .ready (.error e) := by
  unfold pollRead
  split
  · simp
  · simp
  · exact pollReading_ne_error hbatch
  · exact pollReading_ne_error hbatch

/-- With all results to be found, no poll is pending. -/
theorem pollReading_ne_pending : (pollReading buf fut ((results chunks).map .ok) s).1.2 ≠ .pending := by
  induction chunks generalizing fut s with
  | nil => simp [results, doneResult, pollReading, JsValue.isDone]
  | cons data chunks ih =>
    rw [results, List.map_cons, List.cons_append, List.map_cons, pollReading]
    have hnot : ¬ (chunkResult data).isDone = true := Bool.false_ne_true
    have hvalue : (chunkResult data).value = .ok data := rfl
    rw [if_neg hnot, hvalue]
    dsimp only
    split
    · exact ih
    · simp

theorem pollRead_ne_pending : (pollRead buf ((results chunks).map .ok) s).1.2 ≠ .pending := by
  unfold pollRead
  split
  · simp
  · simp
  · exact pollReading_ne_pending
  · exact pollReading_ne_pending

/-! ## The source -/

/-- **A stream with the chunks that its reader is still to be given**, and how
many promises each of the next polls finds settled; every later poll finds
all of them. -/
structure Incoming where
  session : Session
  chunks : List (List UInt8)
  found : List ℕ
  sound : session.io.readState.Sound
  closed : session.io.readState = .closed → chunks = []

namespace Incoming

/-- The results that the next poll finds. -/
def given (this : Incoming) : List JsValue :=
  (results this.chunks).take (this.found.headD (this.chunks.length + 1))

/-- A poll for a buffer with some room. -/
def polled (this : Incoming) (room : ℕ) : (List UInt8 × Poll (Except IoError ℕ)) × Session :=
  Wasm.pollRead (List.replicate room 0) (this.given.map .ok) this.session

/-- The number of results that the poll takes over. -/
def taken (this : Incoming) (room : ℕ) : ℕ :=
  (this.polled room).2.delivered.length - this.session.delivered.length

variable {this : Incoming} {room : ℕ}

theorem given_isPrefix : this.given <+: results this.chunks := List.take_prefix _ _

/-- **What a poll moves** are the first of the results. -/
theorem moves_polled (this : Incoming) (room : ℕ) : ∃ new,
    Moves this.session (readOutput (this.polled room)) (this.polled room).2 new ∧
      Delivers this.chunks new ∧ this.taken room = new.length := by
  obtain ⟨new, hmoves⟩ := @moves_pollRead this.session (List.replicate room 0) (this.given.map .ok)
    this.sound
  obtain ⟨first, hdelivered, hfirst⟩ := @delivered_pollRead this.session (List.replicate room 0) this.given
  have hsame : new = first := by
    rw [hmoves.delivered] at hdelivered
    exact List.append_cancel_left hdelivered
  subst hsame
  refine ⟨new, hmoves, delivers_of_isPrefix (hfirst.trans given_isPrefix), ?_⟩
  have hdelivered' : (this.polled room).2.delivered = this.session.delivered ++ new := hdelivered
  rw [taken, hdelivered', List.length_append]
  omega

/-- The stream after a poll. -/
def next (this : Incoming) (room : ℕ) : Incoming where
  session := (this.polled room).2
  chunks := this.chunks.drop (this.taken room)
  found := this.found.tail
  sound := by
    obtain ⟨new, hmoves, -⟩ := moves_polled this room
    exact hmoves.sound
  closed := by
    intro hclosed
    obtain ⟨new, hmoves, hdelivers, htaken⟩ := moves_polled this room
    rcases hmoves.closed hclosed with ⟨hbefore, -⟩ | hends
    · rw [this.closed hbefore, List.drop_nil]
    · rw [htaken, hdelivers.all hends]
      exact List.drop_of_length_le (Nat.le_succ _)

/-- The bytes of a poll. -/
def output (read : List UInt8 × Poll (Except IoError ℕ)) :
    ByteStream.Poll (Except String (List UInt8)) :=
  match read.2 with
  | .pending => .pending
  | .ready (.error (.other text)) => .ready (.error text)
  | .ready (.ok n) => .ready (.ok (read.1.take n))

section

variable {read : List UInt8 × Poll (Except IoError ℕ)} {text : String} {out : List UInt8}

theorem output_eq_pending : output read = .pending ↔ read.2 = .pending := by
  unfold output
  split <;> simp_all

theorem output_eq_error : output read = .ready (.error text) ↔ read.2 = .ready (.error (.other text)) := by
  unfold output
  split <;> simp_all

theorem output_eq_ok :
    output read = .ready (.ok out) ↔ ∃ n, read.2 = .ready (.ok n) ∧ read.1.take n = out := by
  unfold output
  split <;> simp_all

/-- What a poll returns are the bytes of its output. -/
theorem bytes_output : (output read).bytes = (Output.read read.1 read.2).returned := by
  unfold output
  split
  · next h =>
    rw [h]
    rfl
  · next h =>
    rw [h]
    rfl
  · next h =>
    rw [h]
    rfl

end

def pollRead (this : Incoming) (room : ℕ) : ByteStream.Poll (Except String (List UInt8)) × Incoming :=
  (output (this.polled room).1, this.next room)

/-- The bytes to come. -/
def rest (this : Incoming) : List UInt8 := this.session.io.readState.tail ++ this.chunks.flatten

/-- A poll moves bytes from the stream to its output. -/
theorem returned_append_rest :
    (readOutput (this.polled room)).returned ++ (this.next room).rest = this.rest := by
  obtain ⟨new, hmoves, hdelivers, htaken⟩ := moves_polled this room
  have hbytes := hdelivers.bytes
  rw [← htaken] at hbytes
  calc (readOutput (this.polled room)).returned ++ (this.next room).rest
      = ((readOutput (this.polled room)).returned ++ (this.polled room).2.io.readState.tail) ++
          (this.chunks.drop (this.taken room)).flatten := (List.append_assoc ..).symm
    _ = this.session.io.readState.tail ++ (new.flatMap JsValue.bytes ++
          (this.chunks.drop (this.taken room)).flatten) := by
        rw [← hmoves.bytes, List.append_assoc]
    _ = this.rest := by rw [hbytes, rest]

theorem bytes_append_rest : (this.pollRead room).1.bytes ++ (this.next room).rest = this.rest := by
  rw [pollRead, bytes_output]
  exact returned_append_rest

/-- A poll that finds all results is not pending. -/
theorem found_ne_nil (h : (this.polled room).1.2 = .pending) : this.found ≠ [] := by
  intro hnil
  have hall : this.given = results this.chunks := by
    rw [given, hnil]
    refine List.take_of_length_le ?_
    rw [results, List.length_append, List.length_map]
    exact le_rfl
  rw [polled, hall] at h
  exact pollRead_ne_pending h

theorem polled_ne_error {e : IoError} : (this.polled room).1.2 ≠ .ready (.error e) := by
  refine pollRead_ne_error fun chunk hchunk => ?_
  have hmem : chunk ∈ results this.chunks := given_isPrefix.subset hchunk
  rw [results, List.mem_append, List.mem_map, List.mem_singleton] at hmem
  rcases hmem with ⟨data, -, rfl⟩ | rfl
  · exact ⟨data, rfl⟩
  · exact ⟨[], rfl⟩

/-- The buffer that a poll gives back. -/
theorem length_polled : (this.polled room).1.1.length = room := by
  have hlen : (this.polled room).1.1.length = (List.replicate room (0 : UInt8)).length :=
    @length_pollRead this.session _ (this.given.map .ok) _ _ rfl
  rw [hlen, List.length_replicate]

/-- A poll that gives no byte for some room is at the end. -/
theorem rest_eq_nil {n : ℕ} (h : (this.polled room).1.2 = .ready (.ok n))
    (hnone : (this.polled room).1.1.take n = []) (hroom : 0 < room) : this.rest = [] := by
  have hlen : (this.polled room).1.1.length = room := length_polled
  have hn : n = 0 := by
    rcases List.take_eq_nil_iff.1 hnone with hn | hnil
    · exact hn
    · rw [hnil, List.length_nil] at hlen
      omega
  subst hn
  obtain ⟨new, hmoves, -⟩ := moves_polled this room
  have hbuf : (this.polled room).1.1 ≠ [] := by
    intro hnil
    rw [hnil, List.length_nil] at hlen
    omega
  have hclosed : (this.next room).session.io.readState = .closed :=
    hmoves.zero (this.polled room).1.1 (by rw [readOutput, h]) hbuf
  have hrest : (this.next room).rest = [] := by
    rw [rest, (this.next room).closed hclosed, hclosed]
    rfl
  rw [← @bytes_append_rest this room, hrest, pollRead, output, h]
  rfl

instance : Source Incoming where
  pollRead := pollRead
  rest := rest
  waits := fun this => this.found.length
  read_pending := by
    intro this that room h
    have hbytes := @bytes_append_rest this room
    obtain ⟨hpending, rfl⟩ := Prod.mk.inj h
    have hpos : 0 < this.found.length :=
      List.length_pos_iff.2 (found_ne_nil (output_eq_pending.1 hpending))
    rw [h] at hbytes
    refine ⟨hbytes, ?_⟩
    change this.found.tail.length < this.found.length
    rw [List.length_tail]
    omega
  read_failed := by
    intro this that room e h
    have hbytes := @bytes_append_rest this room
    obtain ⟨-, rfl⟩ := Prod.mk.inj h
    rw [h] at hbytes
    exact hbytes
  read_ready := by
    intro this that room out h
    have hbytes := @bytes_append_rest this room
    obtain ⟨hout, rfl⟩ := Prod.mk.inj h
    obtain ⟨n, -, htake⟩ := output_eq_ok.1 hout
    rw [h] at hbytes
    refine ⟨hbytes.symm, ?_⟩
    rw [← htake]
    exact le_trans (List.length_take_le' _ _) (le_of_eq length_polled)
  read_end := by
    intro this that room h hroom
    obtain ⟨hout, rfl⟩ := Prod.mk.inj h
    obtain ⟨n, hn, hnone⟩ := output_eq_ok.1 hout
    exact rest_eq_nil hn hnone hroom

instance : Source.Reliable Incoming where
  read_ok := by
    intro this that room e h
    obtain ⟨hout, -⟩ := Prod.mk.inj h
    exact polled_ne_error (output_eq_error.1 hout)

/-! ## After a run -/

variable {chunks : List (List UInt8)} {calls : List Call}

/-- **The stream as some calls have left it**, with the chunks that they were
not given. -/
def ofRun (hdeliver : Delivers chunks (after calls).delivered) (found : List ℕ) : Incoming where
  session := after calls
  chunks := chunks.drop (after calls).delivered.length
  found
  sound := (conserved_run calls).sound
  closed := by
    intro hclosed
    rw [hdeliver.all ((conserved_run calls).closed hclosed)]
    exact List.drop_of_length_le (Nat.le_succ _)

theorem returned_append_ofRun (hdeliver : Delivers chunks (after calls).delivered) (found : List ℕ) :
    returned (past calls) ++ Source.rest (ofRun hdeliver found) = chunks.flatten := by
  rw [← returned_append_undelivered hdeliver, List.append_assoc]
  rfl

/-- **The chunks, and no byte else.** After every run of calls, the stream gives
exactly those bytes of the chunks that the calls did not return. -/
theorem gives_chunks (hdeliver : Delivers chunks (after calls).delivered) (found : List ℕ) :
    Gives (ofRun hdeliver found) (chunks.flatten.drop (returned (past calls)).length) := by
  have hrest := returned_append_ofRun hdeliver found
  have hgives : Gives (ofRun hdeliver found) (Source.rest (ofRun hdeliver found)) := gives_rest _
  rwa [← hrest, List.drop_left]

end Incoming

end TlsnDemo.Wasm
