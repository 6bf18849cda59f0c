import TlsnDemo.Support.Maps
import TlsnDemo.Support.Mealy
import TlsnDemo.Wasm.Io

/-!
# The bytes of the reads

What the reads of a run give back, with the tail that the stream buffers,
is the concatenation of the chunks delivered to it, whatever the sizes of
the chunks and of the buffers (`conserved_run`). Against a script of
chunks followed by `done`, nothing is lost, and an empty read of a
non-empty buffer means the end (`reads_lossless`).
-/

namespace TlsnDemo.Wasm

open Mealy Support

variable {s s' : Session} {buf : List UInt8} {answers : List Settled} {c : Call}

/-! ## What is delivered and what is returned -/

/-- The read result that an event hands over. -/
def Event.delivered : Event → List JsValue
  | .polled fut (.ready (.ok chunk)) => if fut.request = .read then [chunk] else []
  | _ => []

/-- The read results delivered so far. -/
def Session.delivered (s : Session) : List JsValue := s.events.flatMap Event.delivered

/-- The bytes of a read result. -/
def JsValue.bytes (chunk : JsValue) : List UInt8 :=
  if chunk.isDone then []
  else
    match chunk.value with
    | .ok data => data
    | .error _ => []

/-- The bytes that a read state keeps for the next read. -/
def ReadState.tail : ReadState → List UInt8
  | .buffered data offset => data.drop offset
  | _ => []

/-- The bytes a call returned to a reader. -/
def Output.returned : Output → List UInt8
  | .read buf (.ready (.ok n)) => buf.take n
  | _ => []

/-- The bytes returned by the reads of a run. -/
def returned (past : List (Call × Output)) : List UInt8 :=
  past.flatMap fun entry => entry.2.returned

@[simp] theorem delivered_start {request : Request} : (s.start request).delivered = s.delivered := by
  simp [Session.delivered, Event.delivered]

@[simp] theorem delivered_withRead {state : ReadState} : (s.withRead state).delivered = s.delivered :=
  rfl

@[simp] theorem delivered_withWrite {state : WriteState} :
    (s.withWrite state).delivered = s.delivered := rfl

@[simp] theorem delivered_withClose {state : CloseState} :
    (s.withClose state).delivered = s.delivered := rfl

@[simp] theorem delivered_pending {fut : JsFuture} :
    (s.polled fut .pending).delivered = s.delivered := by
  simp [Session.delivered, Event.delivered]

@[simp] theorem delivered_error {fut : JsFuture} {e : JsValue} :
    (s.polled fut (.ready (.error e))).delivered = s.delivered := by
  simp [Session.delivered, Event.delivered]

@[simp] theorem delivered_read {fut : ReadFuture} {chunk : JsValue} :
    (s.polled fut.toJsFuture (.ready (.ok chunk))).delivered = s.delivered ++ [chunk] := by
  simp [Session.delivered, Event.delivered, fut.asked]

@[simp] theorem delivered_write {fut : WriteFuture} {v : JsValue} :
    (s.polled fut.toJsFuture (.ready (.ok v))).delivered = s.delivered := by
  simp [Session.delivered, Event.delivered, fut.asked]

@[simp] theorem delivered_close {fut : CloseFuture} {v : JsValue} :
    (s.polled fut.toJsFuture (.ready (.ok v))).delivered = s.delivered := by
  simp [Session.delivered, Event.delivered, fut.asked]

/-- What is handed out and what is left of some data, after a hand-out of
`n` bytes at an offset. -/
theorem returned_copyFromSlice {data : List UInt8} {offset n : ℕ} (h : n ≤ data.length - offset) :
    (Output.read (copyFromSlice buf data offset n) (.ready (.ok n))).returned ++
      data.drop (offset + n) = data.drop offset := by
  have hlen : ((data.drop offset).take n).length = n := by
    rw [List.length_take, List.length_drop]
    omega
  change (copyFromSlice buf data offset n).take n ++ _ = _
  rw [copyFromSlice, List.take_append_of_le_length (by omega), List.take_take, Nat.min_self,
    ← List.drop_drop, List.take_append_drop]

/-! ## One call -/

/-- A buffered tail is not empty. -/
def ReadState.Sound : ReadState → Prop
  | .buffered data offset => offset < data.length
  | _ => True

/-- The last read result says that the stream is done. -/
def EndsDone (delivered : List JsValue) : Prop :=
  ∃ chunks chunk, delivered = chunks ++ [chunk] ∧ chunk.isDone = true

/-- **What a call does to the bytes**: it takes over new read results, and
what it returns and keeps is what was kept before and their bytes. -/
structure Moves (s : Session) (out : Output) (s' : Session) (new : List JsValue) : Prop where
  delivered : s'.delivered = s.delivered ++ new
  bytes : s.io.readState.tail ++ new.flatMap JsValue.bytes = out.returned ++ s'.io.readState.tail
  sound : s'.io.readState.Sound
  closed : s'.io.readState = .closed → (s.io.readState = .closed ∧ new = []) ∨ EndsDone new
  done : ∀ chunk ∈ new, chunk.isDone = true → s'.io.readState = .closed
  zero : ∀ buf, out = .read buf (.ready (.ok 0)) → buf ≠ [] → s'.io.readState = .closed

/-- A call that leaves the reader alone. -/
theorem Moves.frame {out : Output} (hs : s.io.readState.Sound) (hout : ∀ buf r, out ≠ .read buf r)
    (hread : s'.io.readState = s.io.readState) (hdelivered : s'.delivered = s.delivered) :
    Moves s out s' [] where
  delivered := by rw [hdelivered, List.append_nil]
  bytes := by
    have hnone : out.returned = [] := by
      cases out with
      | read buf r => exact absurd rfl (hout buf r)
      | write | flush | close => rfl
    rw [hnone, hread, List.flatMap_nil, List.append_nil, List.nil_append]
  sound := by rwa [hread]
  closed := fun h => Or.inl ⟨hread ▸ h, rfl⟩
  done := fun _ hmem => absurd hmem List.not_mem_nil
  zero := fun buf h => absurd h (hout buf _)

theorem EndsDone.cons {new : List JsValue} {chunk : JsValue} (h : EndsDone new) :
    EndsDone (chunk :: new) := by
  obtain ⟨chunks, last, rfl, hlast⟩ := h
  exact ⟨chunk :: chunks, last, rfl, hlast⟩

/-- The result of a read as an output. -/
abbrev readOutput (r : (List UInt8 × Poll (Except IoError ℕ)) × Session) : Output :=
  .read r.1.1 r.1.2

/-- A read that hands out data from an offset, as far as the buffer goes,
and keeps the rest of it. -/
theorem moves_hand {data : List UInt8} {offset n : ℕ} {state : ReadState} {new : List JsValue}
    (hlt : offset < data.length) (hn : min (data.length - offset) buf.length = n)
    (hdelivered : s'.delivered = s.delivered ++ new)
    (hdata : s.io.readState.tail ++ new.flatMap JsValue.bytes = data.drop offset)
    (hkept : state.tail = data.drop (offset + n)) (hsound : state.Sound)
    (hopen : state ≠ .closed) (hmore : ∀ chunk ∈ new, ¬ chunk.isDone = true) :
    Moves s (.read (copyFromSlice buf data offset n) (.ready (.ok n))) (s'.withRead state) new := by
  refine ⟨by rw [delivered_withRead, hdelivered], ?_, hsound, fun h => absurd h hopen,
    fun chunk hmem hdone => absurd hdone (hmore chunk hmem), ?_⟩
  · change _ = _ ++ state.tail
    rw [hdata, hkept, returned_copyFromSlice (by omega)]
  · -- Nothing is handed out only to an empty buffer.
    intro out hout hne
    injection hout with hbuf hzero
    have hzero : n = 0 := by injection hzero with h; injection h
    have hnil : buf = [] := List.length_eq_zero_iff.1 (by omega)
    rw [← hbuf, hzero, hnil] at hne
    exact absurd rfl hne

theorem moves_pollReading {fut : ReadFuture} (hs : s.io.readState = .reading fut) :
    ∃ new, Moves s (readOutput (pollReading buf fut answers s)) (pollReading buf fut answers s).2
      new := by
  have hsound : s.io.readState.Sound := by rw [hs]; trivial
  have htail : s.io.readState.tail = [] := by rw [hs]; rfl
  have hopen : s.io.readState ≠ .closed := by rw [hs]; exact fun h => nomatch h
  induction answers generalizing fut s with
  | nil =>
    refine ⟨[], by simp [pollReading], ?_, hsound, fun h => absurd h hopen,
      fun _ hmem => absurd hmem List.not_mem_nil, fun _ h => nomatch h⟩
    rw [pollReading, List.flatMap_nil, List.append_nil]
    rfl
  | cons answer answers ih =>
    cases answer with
    | error e =>
      refine ⟨[], by simp [pollReading], ?_, hsound, fun h => absurd h hopen,
        fun _ hmem => absurd hmem List.not_mem_nil, fun _ h => nomatch h⟩
      rw [pollReading, List.flatMap_nil, List.append_nil]
      rfl
    | ok chunk =>
      rw [pollReading]
      by_cases hdone : chunk.isDone = true
      · rw [if_pos hdone]
        refine ⟨[chunk], by simp, ?_, trivial, fun _ => Or.inr ⟨[], chunk, rfl, hdone⟩,
          fun _ _ _ => rfl, fun _ _ _ => rfl⟩
        rw [htail, List.flatMap_cons, JsValue.bytes, if_pos hdone]
        rfl
      · rw [if_neg hdone]
        have hmore : ∀ other ∈ [chunk], ¬ other.isDone = true := by simpa using hdone
        cases hvalue : chunk.value with
        | error text =>
          refine ⟨[chunk], by simp, ?_, hsound, fun h => absurd h hopen,
            fun other hmem h => absurd h (hmore other hmem), fun _ h => nomatch h⟩
          rw [htail, List.flatMap_cons, JsValue.bytes, if_neg hdone, hvalue]
          exact htail.symm
        | ok data =>
          dsimp only
          by_cases hempty : data.isEmpty = true
          · -- The chunk adds nothing; the loop goes on with the next read.
            have hbytes : chunk.bytes = [] := by
              rw [JsValue.bytes, if_neg hdone, hvalue]
              exact List.isEmpty_iff.1 hempty
            rw [if_pos hempty]
            obtain ⟨new, hnew⟩ := ih (s := (((s.polled fut.toJsFuture (.ready (.ok chunk))).withRead
              .idle).start .read).withRead (.reading _)) rfl trivial rfl (fun h => nomatch h)
            refine ⟨chunk :: new, ?_, ?_, hnew.sound, ?_, ?_, hnew.zero⟩
            · rw [hnew.delivered]
              simp
            · rw [htail, List.flatMap_cons, hbytes]
              exact hnew.bytes
            · intro h
              rcases hnew.closed h with ⟨h', -⟩ | h'
              · exact nomatch h'
              · exact Or.inr h'.cons
            · intro other hmem hother
              rcases List.mem_cons.1 hmem with rfl | hmem
              · exact absurd hother hdone
              · exact hnew.done other hmem hother
          · have hbytes : chunk.bytes = data := by
              rw [JsValue.bytes, if_neg hdone, hvalue]
            have hpos : 0 < data.length := List.length_pos_iff.2 (by simpa using hempty)
            rw [if_neg hempty]
            generalize hn : min data.length buf.length = n
            refine ⟨[chunk], moves_hand hpos hn (by simp) ?_ ?_ ?_ ?_ ?_⟩
            · rw [htail, List.flatMap_cons, hbytes, List.flatMap_nil, List.append_nil]
              rfl
            · rw [Nat.zero_add]
              split
              · rfl
              · exact (List.drop_of_length_le (by omega)).symm
            · split
              · assumption
              · trivial
            · split <;> exact fun h => nomatch h
            · exact hmore

theorem moves_pollRead (hs : s.io.readState.Sound) :
    ∃ new, Moves s (readOutput (pollRead buf answers s)) (pollRead buf answers s).2 new := by
  unfold pollRead
  split
  · next h =>
    refine ⟨[], by simp, ?_, hs, fun h => Or.inl ⟨h, rfl⟩, fun _ _ _ => h, fun _ _ _ => h⟩
    rw [h]
    rfl
  · next data offset h =>
    have hlt : offset < data.length := by rw [h] at hs; exact hs
    dsimp only
    generalize hn : min (data.length - offset) buf.length = n
    refine ⟨[], moves_hand hlt hn (by simp) ?_ ?_ ?_ ?_ ?_⟩
    · rw [h, List.flatMap_nil, List.append_nil]
      rfl
    · split
      · next heq => exact (List.drop_of_length_le (by omega)).symm
      · rfl
    · split
      · trivial
      · change offset + n < data.length
        omega
    · split <;> exact fun h => nomatch h
    · simp
  · next h =>
    obtain ⟨new, hnew⟩ := moves_pollReading (s := (s.start .read).withRead
      (.reading s.nextRead)) rfl
    refine ⟨new, ?_, ?_, hnew.sound, ?_, hnew.done, hnew.zero⟩
    · rw [hnew.delivered]
      simp
    · rw [h]
      exact hnew.bytes
    · intro hc
      rcases hnew.closed hc with ⟨h', -⟩ | h'
      · exact nomatch h'
      · exact Or.inr h'
  · next fut h => exact moves_pollReading h

/-- A read gives a buffer of the same length back. -/
theorem length_copyFromSlice {data : List UInt8} {offset n : ℕ} (h : n ≤ data.length - offset)
    (h' : n ≤ buf.length) : (copyFromSlice buf data offset n).length = buf.length := by
  rw [copyFromSlice, List.length_append, List.length_take, List.length_drop, List.length_drop]
  omega

theorem length_pollReading {fut : ReadFuture} :
    (pollReading buf fut answers s).1.1.length = buf.length := by
  induction answers generalizing fut s with
  | nil => rfl
  | cons answer answers ih =>
    cases answer with
    | error e => rfl
    | ok chunk =>
      rw [pollReading]
      split
      · rfl
      · split
        · rfl
        · split
          · exact ih
          · exact length_copyFromSlice (by omega) (by omega)

theorem length_pollRead {out : List UInt8} {r : Poll (Except IoError ℕ)}
    (h : (s.step (.read buf answers)).1 = .read out r) : out.length = buf.length := by
  have hlen : (pollRead buf answers s).1.1.length = buf.length := by
    unfold pollRead
    split
    · rfl
    · exact length_copyFromSlice (by omega) (by omega)
    · exact length_pollReading
    · exact length_pollReading
  have hout : (pollRead buf answers s).1.1 = out := by
    injection h
  rw [← hout, hlen]

/-! ## The other calls -/

/-- **The reader is left alone**: the same read state, and nothing new
delivered. -/
def SameReader (s s' : Session) : Prop :=
  s'.io.readState = s.io.readState ∧ s'.delivered = s.delivered

theorem SameReader.trans {t : Session} (h : SameReader s t) (h' : SameReader t s') :
    SameReader s s' :=
  ⟨h'.1.trans h.1, h'.2.trans h.2⟩

theorem sameReader_pollWriting {fut : WriteFuture} :
    SameReader s (pollWriting fut answers s).2 := by
  unfold pollWriting
  split <;> exact ⟨rfl, by simp⟩

theorem sameReader_pollWrite : SameReader s (pollWrite buf answers s).2 := by
  unfold pollWrite
  split
  · exact sameReader_pollWriting
  · have hstart : SameReader s ((s.start (.write buf)).withWrite (.writing (s.nextWrite buf))) :=
      ⟨rfl, by simp⟩
    exact hstart.trans sameReader_pollWriting

theorem sameReader_pollFlush : SameReader s (pollFlush answers s).2 := by
  unfold pollFlush
  split
  · exact ⟨rfl, rfl⟩
  · split <;> exact ⟨rfl, by simp⟩

theorem sameReader_pollClosing {fut : CloseFuture} :
    SameReader s (pollClosing fut answers s).2 := by
  unfold pollClosing
  split <;> exact ⟨rfl, by simp⟩

theorem sameReader_closeWriter : SameReader s (closeWriter answers s).2 := by
  unfold closeWriter
  split
  · exact ⟨rfl, rfl⟩
  · exact sameReader_pollClosing
  · have hstart : SameReader s ((s.start .close).withClose (.closing s.nextClose)) :=
      ⟨rfl, by simp⟩
    exact hstart.trans sameReader_pollClosing

theorem sameReader_pollClose : SameReader s (pollClose answers s).2 := by
  unfold pollClose
  split
  · exact sameReader_closeWriter
  · next fut h =>
    split
    · exact ⟨rfl, by simp⟩
    · exact ⟨rfl, by simp⟩
    · next v answers =>
      have hpolled : SameReader s ((s.polled fut.toJsFuture (.ready (.ok v))).withWrite .idle) :=
        ⟨rfl, by simp⟩
      exact hpolled.trans sameReader_closeWriter

/-- **What each call does to the bytes.** -/
theorem moves_step (hs : s.io.readState.Sound) (c : Call) :
    ∃ new, Moves s (s.step c).1 (s.step c).2 new := by
  cases c with
  | read buf answers => exact moves_pollRead hs
  | write buf answers =>
    have h : SameReader s (s.step (.write buf answers)).2 := sameReader_pollWrite
    exact ⟨[], Moves.frame hs (fun _ _ => Output.noConfusion) h.1 h.2⟩
  | flush answers =>
    have h : SameReader s (s.step (.flush answers)).2 := sameReader_pollFlush
    exact ⟨[], Moves.frame hs (fun _ _ => Output.noConfusion) h.1 h.2⟩
  | close answers =>
    have h : SameReader s (s.step (.close answers)).2 := sameReader_pollClose
    exact ⟨[], Moves.frame hs (fun _ _ => Output.noConfusion) h.1 h.2⟩

/-- A closed reader stays closed. -/
theorem closed_step (h : s.io.readState = .closed) (c : Call) :
    (s.step c).2.io.readState = .closed := by
  cases c with
  | read buf answers =>
    change (pollRead buf answers s).2.io.readState = _
    rw [pollRead, h]
    exact h
  | write buf answers => exact sameReader_pollWrite.1.trans h
  | flush answers => exact sameReader_pollFlush.1.trans h
  | close answers => exact sameReader_pollClose.1.trans h

/-! ## Runs -/

/-- **The bytes of a run are conserved**: what was returned and what is
kept is what was delivered, and the reader is closed by `done` and by
nothing else. -/
structure Conserved (past : List (Call × Output)) (s : Session) : Prop where
  bytes : returned past ++ s.io.readState.tail = s.delivered.flatMap JsValue.bytes
  sound : s.io.readState.Sound
  closed : s.io.readState = .closed → EndsDone s.delivered
  done : ∀ chunk ∈ s.delivered, chunk.isDone = true → s.io.readState = .closed

theorem EndsDone.append {before new : List JsValue} (h : EndsDone new) : EndsDone (before ++ new) := by
  obtain ⟨chunks, chunk, rfl, hdone⟩ := h
  exact ⟨before ++ chunks, chunk, (List.append_assoc ..).symm, hdone⟩

theorem conserved_step {past : List (Call × Output)} (h : Conserved past s) (c : Call) :
    Conserved (past ++ [(c, (s.step c).1)]) (s.step c).2 := by
  obtain ⟨new, hnew⟩ := moves_step h.sound c
  refine ⟨?_, hnew.sound, ?_, ?_⟩
  · have hreturned : returned (past ++ [(c, (s.step c).1)]) =
        returned past ++ (s.step c).1.returned := by
      rw [returned, List.flatMap_append, List.flatMap_singleton, ← returned]
    rw [hreturned, List.append_assoc, ← hnew.bytes, ← List.append_assoc, h.bytes, hnew.delivered,
      List.flatMap_append]
  · intro hclosed
    rw [hnew.delivered]
    rcases hnew.closed hclosed with ⟨hc, rfl⟩ | hends
    · rw [List.append_nil]
      exact h.closed hc
    · exact hends.append
  · intro chunk hmem hdone
    rw [hnew.delivered, List.mem_append] at hmem
    rcases hmem with hold | hmem
    · exact closed_step (h.done chunk hold hdone) c
    · exact hnew.done chunk hmem hdone

theorem Conserved.closed_of_ends {past : List (Call × Output)} (h : Conserved past s)
    (hends : EndsDone s.delivered) : s.io.readState = .closed := by
  obtain ⟨chunks, chunk, hdelivered, hdone⟩ := hends
  exact h.done chunk (by rw [hdelivered]; simp) hdone

/-- The state of a stream after some calls. -/
abbrev after (calls : List Call) : Session := final Session.step .fresh calls

/-- The calls with what they gave. -/
abbrev past (calls : List Call) : List (Call × Output) := history Session.step .fresh calls

theorem conserved_run (calls : List Call) : Conserved (past calls) (after calls) := by
  have hfresh : Conserved [] .fresh :=
    ⟨rfl, trivial, fun h => (nomatch h), by simp [Session.delivered, Session.fresh]⟩
  exact run_invariant hfresh (fun _ _ c h => conserved_step h c) calls

theorem delivered_grows (calls more : List Call) :
    (after calls).delivered <+: (after (calls ++ more)).delivered := by
  induction more using List.reverseRecOn with
  | nil =>
    have hsame : calls ++ [] = calls := List.append_nil calls
    exact hsame.symm ▸ List.prefix_rfl
  | append_singleton more c ih =>
    obtain ⟨new, hnew⟩ := moves_step (conserved_run (calls ++ more)).sound c
    have hafter : after (calls ++ (more ++ [c])) = ((after (calls ++ more)).step c).2 := by
      rw [← List.append_assoc]
      exact final_concat
    rw [hafter, hnew.delivered]
    exact ih.trans (List.prefix_append _ _)

theorem closed_run (h : s.io.readState = .closed) (calls : List Call) :
    (final Session.step s calls).io.readState = .closed :=
  final_invariant (I := fun t : Session => t.io.readState = .closed) h
    (fun _ c hc => closed_step hc c) calls

theorem read_of_closed (h : s.io.readState = .closed) :
    (s.step (.read buf answers)).1 = .read buf (.ready (.ok 0)) := by
  change readOutput (pollRead buf answers s) = _
  rw [pollRead, h]

/-! ## Against a script -/

/-- **The results of a reader that delivers some chunks and then `done`**,
as far as they have been delivered. -/
def Delivers (chunks : List (List UInt8)) (delivered : List JsValue) : Prop :=
  ∃ results last, List.Forall₂ (fun data chunk => chunk.isDone = false ∧ chunk.value = .ok data)
    chunks results ∧ last.isDone = true ∧ delivered <+: results ++ [last]

theorem flatMap_bytes {chunks : List (List UInt8)} {results : List JsValue}
    (h : List.Forall₂ (fun data chunk => chunk.isDone = false ∧ chunk.value = .ok data)
      chunks results) : results.flatMap JsValue.bytes = chunks.flatten := by
  induction h with
  | nil => rfl
  | cons hchunk _ ih =>
    rw [List.flatMap_cons, List.flatten_cons, ih, JsValue.bytes, hchunk.1, hchunk.2]
    rfl

/-- What is delivered, and the chunks that are not, are all chunks. -/
theorem Delivers.bytes {chunks : List (List UInt8)} {delivered : List JsValue}
    (h : Delivers chunks delivered) :
    delivered.flatMap JsValue.bytes ++ (chunks.drop delivered.length).flatten = chunks.flatten := by
  obtain ⟨results, last, hall, hlast, hprefix⟩ := h
  rcases List.prefix_concat_iff.1 hprefix with rfl | ⟨rest, rfl⟩
  · have hdrop : chunks.drop (results ++ [last]).length = [] := by
      refine List.drop_of_length_le ?_
      rw [hall.length_eq, List.length_append]
      omega
    rw [hdrop, List.flatMap_append, flatMap_bytes hall, List.flatMap_singleton, JsValue.bytes,
      if_pos hlast]
    simp
  · have htake := List.forall₂_take_append _ _ _ hall
    rw [flatMap_bytes htake, ← List.flatten_append, List.take_append_drop]

/-- With `done` delivered, all chunks have been. -/
theorem Delivers.all {chunks : List (List UInt8)} {delivered : List JsValue}
    (h : Delivers chunks delivered) (hends : EndsDone delivered) :
    delivered.length = chunks.length + 1 := by
  obtain ⟨results, last, hall, -, hprefix⟩ := h
  obtain ⟨before, chunk, rfl, hdone⟩ := hends
  rcases List.prefix_concat_iff.1 hprefix with heq | ⟨rest, rfl⟩
  · rw [heq, List.length_append, hall.length_eq]
    rfl
  · -- No chunk of the script is a `done`.
    have hmem : chunk ∈ before ++ [chunk] ++ rest := by simp
    obtain ⟨data, -, hnot, -⟩ := exists_of_forall₂_right hall hmem
    rw [hdone] at hnot
    exact nomatch hnot

/-- The bytes returned, the buffered tail and the chunks not delivered yet are
the bytes of all chunks. -/
theorem returned_append_undelivered {chunks : List (List UInt8)} {calls : List Call}
    (hdeliver : Delivers chunks (after calls).delivered) :
    returned (past calls) ++ (after calls).io.readState.tail ++
      (chunks.drop (after calls).delivered.length).flatten = chunks.flatten := by
  rw [(conserved_run calls).bytes]
  exact hdeliver.bytes

/-- With `done` delivered, all bytes have been handed out. -/
theorem returned_of_ends {chunks : List (List UInt8)} {calls : List Call}
    (hdeliver : Delivers chunks (after calls).delivered) (hends : EndsDone (after calls).delivered) :
    returned (past calls) = chunks.flatten := by
  have htail : (after calls).io.readState.tail = [] := by
    rw [(conserved_run calls).closed_of_ends hends]
    rfl
  have hall := returned_append_undelivered hdeliver
  rw [htail, List.drop_of_length_le (by rw [hdeliver.all hends]; omega), List.flatten_nil,
    List.append_nil, List.append_nil] at hall
  exact hall

/-- **Reads lose nothing.** In every run against a reader that delivers some
chunks and then `done`, the bytes returned, the buffered tail and the
chunks not delivered yet are the bytes of the chunks in order. Once `done`
is delivered, all bytes are handed out, and each read gives `0`; and a
read of a non-empty buffer gives `0` only then. -/
theorem reads_lossless {chunks : List (List UInt8)} {calls : List Call}
    (hdeliver : Delivers chunks (after calls).delivered) :
    returned (past calls) ++ (after calls).io.readState.tail ++
        (chunks.drop (after calls).delivered.length).flatten = chunks.flatten ∧
      (EndsDone (after calls).delivered → returned (past calls) = chunks.flatten ∧
        ∀ buf answers, ((after calls).step (.read buf answers)).1 = .read buf (.ready (.ok 0))) ∧
      ∀ before buf answers more out, calls = before ++ [.read buf answers] ++ more → buf ≠ [] →
        ((after before).step (.read buf answers)).1 = .read out (.ready (.ok 0)) →
        EndsDone (after (before ++ [.read buf answers])).delivered ∧
          returned (past (before ++ [.read buf answers])) = chunks.flatten ∧
          ∀ buf' answers', ((after calls).step (.read buf' answers')).1 =
            .read buf' (.ready (.ok 0)) := by
  refine ⟨returned_append_undelivered hdeliver, ?_, ?_⟩
  · intro hends
    have hclosed := (conserved_run calls).closed_of_ends hends
    exact ⟨returned_of_ends hdeliver hends, fun buf answers => read_of_closed hclosed⟩
  · intro before buf answers more out hcalls hne hzero
    have hbefore : Conserved (past before) (after before) := conserved_run before
    obtain ⟨new, hnew⟩ := moves_step hbefore.sound (.read buf answers)
    -- The run up to this read.
    have hthen : after (before ++ [.read buf answers]) =
        ((after before).step (.read buf answers)).2 := final_concat
    have hout : out ≠ [] := by
      have hlen : out.length = buf.length := length_pollRead hzero
      intro h
      rw [h] at hlen
      exact hne (List.length_eq_zero_iff.1 hlen.symm)
    have hclosed : (after (before ++ [.read buf answers])).io.readState = .closed := by
      rw [hthen]
      exact hnew.zero out hzero hout
    have hends := (conserved_run (before ++ [.read buf answers])).closed hclosed
    have hd : Delivers chunks (after (before ++ [.read buf answers])).delivered := by
      obtain ⟨results, last, hall, hlast, hprefix⟩ := hdeliver
      rw [hcalls] at hprefix
      exact ⟨results, last, hall, hlast, (delivered_grows _ more).trans hprefix⟩
    refine ⟨hends, returned_of_ends hd hends, fun buf' answers' => read_of_closed ?_⟩
    rw [hcalls, after, final_append]
    exact closed_run hclosed more

/-- Two bytes, no byte and one byte, read into buffers of one, no and four
bytes, with polls that find nothing in between, to the end and past it:
`done` comes to a read of no bytes, and the read behind it gives `0`. -/
theorem reads_lossless_threeChunks :
    let chunk (data : List UInt8) : JsValue := ⟨"Object", .ok (some false), .ok data⟩
    let done : JsValue := ⟨"Object", .ok (some true), .ok []⟩
    let calls : List Call := [.read [0] [], .read [0] [.ok (chunk [7, 8])], .read [] [],
      .read [0, 0, 0, 0] [], .read [0, 0, 0, 0] [.ok (chunk [])], .read [0] [.ok (chunk [9])],
      .read [] [.ok done]]
    returned (past calls) ++ (after calls).io.readState.tail ++
        (([[7, 8], [], [9]] : List (List UInt8)).drop (after calls).delivered.length).flatten =
      [7, 8, 9] ∧
    returned (past calls) = [7, 8, 9] ∧
      ((after calls).step (.read [0] [])).1 = .read [0] (.ready (.ok 0)) ∧
      ((after (calls ++ [.read [0] []])).step (.read [0, 0] [])).1 =
        .read [0, 0] (.ready (.ok 0)) := by
  intro chunk done calls
  have hdeliver : Delivers [[7, 8], [], [9]] (after calls).delivered :=
    ⟨[chunk [7, 8], chunk [], chunk [9]], done,
      .cons ⟨rfl, rfl⟩ (.cons ⟨rfl, rfl⟩ (.cons ⟨rfl, rfl⟩ .nil)), rfl, List.prefix_rfl⟩
  obtain ⟨hbytes, hends, -⟩ := reads_lossless hdeliver
  obtain ⟨hall, hread⟩ := hends ⟨[chunk [7, 8], chunk [], chunk [9]], done, rfl, rfl⟩
  -- the same of the run with the read behind it
  have hdeliver' : Delivers [[7, 8], [], [9]] (after (calls ++ [.read [0] []])).delivered := hdeliver
  obtain ⟨-, -, hzero⟩ := reads_lossless hdeliver'
  have hlast := hzero calls [0] [] [] [0] (List.append_nil _).symm (by simp) (hread [0] [])
  exact ⟨hbytes, hall, hread [0] [], hlast.2.2 [0, 0] []⟩

end TlsnDemo.Wasm
