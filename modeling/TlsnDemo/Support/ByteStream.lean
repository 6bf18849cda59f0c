import Mathlib.Data.List.Basic
import TlsnDemo.Support.Mealy

/-!
# Streams of bytes that are polled

A source gives its bytes in reads, as many of them at a time as it likes,
and may be pending in between; a sink takes bytes in the same way. What a
source still has to give and what a sink was given are lists of bytes, and
the laws say what one poll does to them. From these come the operations
that wait for their polls, for every source and sink.
-/

namespace ByteStream

inductive Poll (α : Type) where
  | pending
  | ready (output : α)

section Await

variable {σ α : Type} {poll : σ → Poll α × σ} {waits : σ → ℕ}
  {hwaits : ∀ s s', poll s = (.pending, s') → waits s' < waits s} {s s' : σ} {a : α}

/-- Polls until the output is there, which the bound on the polls that are
pending sees to. -/
def await (poll : σ → Poll α × σ) (waits : σ → ℕ)
    (hwaits : ∀ s s', poll s = (.pending, s') → waits s' < waits s) (s : σ) : α × σ :=
  match _h : poll s with
  | (.pending, s') => await poll waits hwaits s'
  | (.ready a, s') => (a, s')
termination_by waits s
decreasing_by exact hwaits s s' _h

theorem await_pending (h : poll s = (.pending, s')) :
    await poll waits hwaits s = await poll waits hwaits s' := by
  rw [await]
  split
  · next s'' h' =>
    rw [h] at h'
    rw [(Prod.mk.inj h').2]
  · next h' =>
    rw [h] at h'
    exact nomatch h'

theorem await_ready (h : poll s = (.ready a, s')) : await poll waits hwaits s = (a, s') := by
  rw [await]
  split
  · next h' =>
    rw [h] at h'
    exact nomatch h'
  · next a' s'' h' =>
    rw [h] at h'
    obtain ⟨ha, hs⟩ := Prod.mk.inj h'
    rw [Poll.ready.inj ha, hs]

/-- What a pending poll keeps holds when the last one is made. -/
theorem await_induction {I : σ → Prop} (hpending : ∀ t t', I t → poll t = (.pending, t') → I t')
    (hstart : I s) :
    ∃ t, I t ∧ poll t = (.ready (await poll waits hwaits s).1, (await poll waits hwaits s).2) := by
  induction hn : waits s using Nat.strongRecOn generalizing s with
  | ind n ih =>
    cases hpoll : poll s with
    | mk p s' =>
      cases p with
      | pending =>
        rw [await_pending hpoll]
        exact ih (waits s') (hn ▸ hwaits s s' hpoll) (hpending s s' hstart hpoll) rfl
      | ready a =>
        rw [await_ready hpoll]
        exact ⟨s, hstart, hpoll⟩

end Await

/-! ## Sources -/

/-- **A source of bytes.** A poll says how many bytes the buffer has room for. -/
class Source (R : Type) where
  pollRead : R → ℕ → Poll (Except String (List UInt8)) × R
  /-- The bytes that are still to come. -/
  rest : R → List UInt8
  /-- A bound on the pending polls before the next output. -/
  waits : R → ℕ
  read_pending : ∀ {r r' room}, pollRead r room = (.pending, r') →
    rest r' = rest r ∧ waits r' < waits r
  read_failed : ∀ {r r' room e}, pollRead r room = (.ready (.error e), r') → rest r' = rest r
  read_ready : ∀ {r r' room out}, pollRead r room = (.ready (.ok out), r') →
    rest r = out ++ rest r' ∧ out.length ≤ room
  /-- No byte for some room is the end. -/
  read_end : ∀ {r r' room}, pollRead r room = (.ready (.ok []), r') → 0 < room → rest r = []

/-- A source whose reads succeed. -/
class Source.Reliable (R : Type) [Source R] : Prop where
  read_ok : ∀ (r r' : R) (room : ℕ) (e : String), Source.pollRead r room ≠ (.ready (.error e), r')

/-- The bytes of a poll. -/
def Poll.bytes : Poll (Except String (List UInt8)) → List UInt8
  | .ready (.ok out) => out
  | _ => []

/-- The bytes of a history of polls. -/
def received (past : List (ℕ × Poll (Except String (List UInt8)))) : List UInt8 :=
  past.flatMap fun p => p.2.bytes

section Sources

open Source

variable {R : Type} [Source R] {r r' : R} {room n : ℕ} {out : List UInt8} {e : String}

/-- A poll moves bytes from the source to its output. -/
theorem bytes_append_rest : (pollRead r room).1.bytes ++ rest (pollRead r room).2 = rest r := by
  match h : pollRead r room with
  | (.pending, r') => exact (read_pending h).1
  | (.ready (.error e), r') => exact read_failed h
  | (.ready (.ok out), r') => exact (read_ready h).1.symm

/-- **Polls lose and repeat no byte**, whatever room each of them has. -/
theorem received_append_rest (rooms : List ℕ) :
    received (Mealy.history pollRead r rooms) ++ rest (Mealy.final pollRead r rooms) = rest r := by
  refine Mealy.run_invariant (I := fun past t => received past ++ rest t = rest r) rfl ?_ rooms
  intro past t room h
  have hstep : (pollRead t room).1.bytes ++ rest (pollRead t room).2 = rest t := bytes_append_rest
  rw [← h, ← hstep, received, List.flatMap_append, List.flatMap_singleton, List.append_assoc]
  rfl

/-- With room for a byte in each of the polls, the end is reached. -/
theorem exists_rest_nil [Reliable R] (r : R) {rooms : ℕ → ℕ} (hrooms : ∀ i, 0 < rooms i) :
    ∃ n, rest (Mealy.final pollRead r ((List.range n).map rooms)) = [] := by
  -- On the bytes to come, and for these on the polls that may be pending.
  induction hlen : (rest r).length using Nat.strongRecOn generalizing r rooms with
  | ind len ihlen =>
    induction hwaits : waits r using Nat.strongRecOn generalizing r rooms with
    | ind k ihwaits =>
      have hnext : ∀ n, Mealy.final pollRead r ((List.range (n + 1)).map rooms) =
          Mealy.final pollRead (pollRead r (rooms 0)).2 ((List.range n).map fun i => rooms (i + 1)) := by
        intro n
        rw [List.range_succ_eq_map, List.map_cons, List.map_map]
        rfl
      have hrooms' : ∀ i, 0 < rooms (i + 1) := fun i => hrooms (i + 1)
      match h : pollRead r (rooms 0) with
      | (.pending, r') =>
        obtain ⟨hrest, hlt⟩ := read_pending h
        obtain ⟨n, hn⟩ := ihwaits (waits r') (hwaits ▸ hlt) r' hrooms' (by rw [hrest, hlen]) rfl
        exact ⟨n + 1, by rw [hnext, h]; exact hn⟩
      | (.ready (.error e), r') => exact absurd h (Reliable.read_ok r r' (rooms 0) e)
      | (.ready (.ok []), r') => exact ⟨0, read_end h (hrooms 0)⟩
      | (.ready (.ok (b :: out)), r') =>
        have hlt : (rest r').length < len := by
          rw [← hlen, (read_ready h).1, List.length_append, List.length_cons]
          omega
        obtain ⟨n, hn⟩ := ihlen _ hlt r' hrooms' rfl
        exact ⟨n + 1, by rw [hnext, h]; exact hn⟩

/-- **A source gives exactly some bytes**, in order and each of them once, to
every sequence of polls: never others, all of them when it says that it is
at its end, and that after enough polls with room for a byte. -/
structure Gives (r : R) (bytes : List UInt8) : Prop where
  received_isPrefix : ∀ rooms, received (Mealy.history pollRead r rooms) <+: bytes
  received_end : ∀ rooms room r', pollRead (Mealy.final pollRead r rooms) room = (.ready (.ok []), r') →
    0 < room → received (Mealy.history pollRead r rooms) = bytes
  exists_received : ∀ rooms : ℕ → ℕ, (∀ i, 0 < rooms i) →
    ∃ n, received (Mealy.history pollRead r ((List.range n).map rooms)) = bytes

theorem gives_rest [Reliable R] (r : R) : Gives r (rest r) where
  received_isPrefix := fun rooms => ⟨_, received_append_rest rooms⟩
  received_end := by
    intro rooms room r' hpoll hroom
    have hrest := @received_append_rest R _ r rooms
    rwa [read_end hpoll hroom, List.append_nil] at hrest
  exists_received := by
    intro rooms hrooms
    obtain ⟨n, hn⟩ := exists_rest_nil r hrooms
    have hrest := @received_append_rest R _ r ((List.range n).map rooms)
    rw [hn, List.append_nil] at hrest
    exact ⟨n, hrest⟩

/-- `r.read(buf).await`, for a buffer with some room. -/
def read (r : R) (room : ℕ) : Except String (List UInt8) × R :=
  await (fun r => pollRead r room) waits (fun _ _ h => (read_pending h).2) r

theorem read_of_pending (h : pollRead r room = (.pending, r')) : read r room = read r' room :=
  await_pending h

theorem read_of_ready {output : Except String (List UInt8)}
    (h : pollRead r room = (.ready output, r')) : read r room = (output, r') :=
  await_ready h

/-- The poll that a read ends with. -/
theorem exists_pollRead (r : R) (room : ℕ) :
    ∃ t, rest t = rest r ∧ pollRead t room = (.ready (read r room).1, (read r room).2) :=
  await_induction (I := fun t => rest t = rest r)
    (fun _ _ hrest h => (read_pending h).1.trans hrest) rfl

theorem read_ok (h : read r room = (.ok out, r')) :
    rest r = out ++ rest r' ∧ out.length ≤ room ∧ (out = [] → 0 < room → rest r = []) := by
  obtain ⟨t, hrest, hpoll⟩ := exists_pollRead r room
  rw [h] at hpoll
  rw [← hrest]
  refine ⟨(read_ready hpoll).1, (read_ready hpoll).2, ?_⟩
  intro hout
  subst hout
  exact read_end hpoll

theorem read_ne_error [Reliable R] : read r room ≠ (.error e, r') := by
  intro h
  obtain ⟨t, -, hpoll⟩ := exists_pollRead r room
  rw [h] at hpoll
  exact Reliable.read_ok _ _ _ _ hpoll

/-- A read of some bytes leaves fewer to come. -/
theorem length_rest_lt (h : read r room = (.ok out, r')) (hout : out ≠ []) :
    (rest r').length < (rest r).length := by
  have hpos : 0 < out.length := List.length_pos_iff.2 hout
  rw [(read_ok h).1, List.length_append]
  omega

/-- `r.read_exact(buf).await`, for a buffer of `n` bytes. -/
def readExact (r : R) (n : ℕ) : Except String (List UInt8) × R :=
  if n = 0 then (.ok [], r)
  else
    match read r n with
    | (.error e, r') => (.error e, r')
    | (.ok [], r') => (.error "unexpected end of file", r')
    | (.ok (b :: out), r') =>
      match readExact r' (n - (out.length + 1)) with
      | (.error e, r'') => (.error e, r'')
      | (.ok more, r'') => (.ok (b :: out ++ more), r'')
termination_by n
decreasing_by omega

/-- **The next bytes, exactly**, if there are so many. -/
theorem readExact_eq [Reliable R] (r : R) (hn : n ≤ (rest r).length) :
    ∃ r', readExact r n = (.ok ((rest r).take n), r') ∧ rest r' = (rest r).drop n := by
  induction n using Nat.strongRecOn generalizing r with
  | ind n ih =>
    rw [readExact]
    rcases Nat.eq_zero_or_pos n with rfl | hpos
    · exact ⟨r, rfl, rfl⟩
    · rw [if_neg (by omega)]
      match h : read r n with
      | (.error e, r') => exact absurd h read_ne_error
      | (.ok [], r') =>
        have hend : rest r = [] := (read_ok h).2.2 rfl hpos
        rw [hend, List.length_nil] at hn
        omega
      | (.ok (b :: out), r') =>
        obtain ⟨hrest, hlen, -⟩ := read_ok h
        have hmore : n - (out.length + 1) ≤ (rest r').length := by
          rw [hrest, List.length_append, List.length_cons] at hn
          omega
        obtain ⟨r'', hexact, hrest'⟩ := ih (n - (out.length + 1)) (by omega) r' hmore
        refine ⟨r'', ?_, ?_⟩
        · simp only [hexact]
          rw [hrest, List.take_append, List.take_of_length_le hlen, List.length_cons]
        · rw [hrest', hrest, List.drop_append, List.drop_of_length_le hlen, List.length_cons]
          rfl

/-- What was read exactly are the next bytes. -/
theorem readExact_ok (h : readExact r n = (.ok out, r')) : rest r = out ++ rest r' ∧ out.length = n := by
  induction n using Nat.strongRecOn generalizing r out with
  | ind n ih =>
    rw [readExact] at h
    rcases Nat.eq_zero_or_pos n with rfl | hpos
    · rw [if_pos rfl] at h
      obtain ⟨hout, rfl⟩ := Prod.mk.inj h
      rw [← Except.ok.inj hout]
      exact ⟨rfl, rfl⟩
    · rw [if_neg (by omega)] at h
      match hread : read r n with
      | (.error e, r₁) =>
        simp only [hread] at h
        exact nomatch h
      | (.ok [], r₁) =>
        simp only [hread] at h
        exact nomatch h
      | (.ok (b :: first), r₁) =>
        simp only [hread] at h
        obtain ⟨hrest, hlen, -⟩ := read_ok hread
        match hmore : readExact r₁ (n - (first.length + 1)) with
        | (.error e, r₂) =>
          simp only [hmore] at h
          exact nomatch h
        | (.ok more, r₂) =>
          simp only [hmore] at h
          obtain ⟨hout, rfl⟩ := Prod.mk.inj h
          obtain ⟨hrest', hlen'⟩ := ih _ (by omega) hmore
          rw [← Except.ok.inj hout]
          refine ⟨by rw [hrest, hrest', List.append_assoc], ?_⟩
          rw [List.length_append, hlen', List.length_cons] at *
          omega

end Sources

/-- The source of a list of chunks: each poll gives the next of them, or as
much of it as there is room for, and is pending at an empty one. -/
structure Chunked where
  chunks : List (List UInt8)

def Chunked.pollRead (c : Chunked) (room : ℕ) : Poll (Except String (List UInt8)) × Chunked :=
  match c.chunks with
  | [] => (.ready (.ok []), c)
  | [] :: chunks => (.pending, ⟨chunks⟩)
  | (b :: chunk) :: chunks =>
    if chunk.length < room then (.ready (.ok (b :: chunk)), ⟨chunks⟩)
    else (.ready (.ok ((b :: chunk).take room)), ⟨(b :: chunk).drop room :: chunks⟩)

instance : Source Chunked where
  pollRead := Chunked.pollRead
  rest := fun c => c.chunks.flatten
  waits := fun c => c.chunks.length
  read_pending := by
    rintro ⟨_ | ⟨_ | ⟨b, chunk⟩, chunks⟩⟩ r' room h
    · exact nomatch h
    · obtain rfl : ⟨chunks⟩ = r' := (Prod.mk.inj h).2
      exact ⟨rfl, Nat.lt_succ_self _⟩
    · simp only [Chunked.pollRead] at h
      split at h <;> exact nomatch h
  read_failed := by
    rintro ⟨_ | ⟨_ | ⟨b, chunk⟩, chunks⟩⟩ r' room e h
    · exact nomatch h
    · exact nomatch h
    · simp only [Chunked.pollRead] at h
      split at h <;> exact nomatch h
  read_ready := by
    rintro ⟨_ | ⟨_ | ⟨b, chunk⟩, chunks⟩⟩ r' room out h
    · obtain ⟨rfl, rfl⟩ : [] = out ∧ ⟨[]⟩ = r' := by simpa [Chunked.pollRead] using h
      exact ⟨rfl, Nat.zero_le _⟩
    · exact nomatch h
    · simp only [Chunked.pollRead] at h
      split at h
      · next hlt =>
        obtain ⟨rfl, rfl⟩ : b :: chunk = out ∧ ⟨chunks⟩ = r' := by simpa using h
        exact ⟨rfl, hlt⟩
      · obtain ⟨rfl, rfl⟩ : (b :: chunk).take room = out ∧
            ⟨(b :: chunk).drop room :: chunks⟩ = r' := by simpa using h
        rw [List.flatten_cons, List.flatten_cons, ← List.append_assoc, List.take_append_drop]
        exact ⟨rfl, List.length_take_le _ _⟩
  read_end := by
    rintro ⟨_ | ⟨_ | ⟨b, chunk⟩, chunks⟩⟩ r' room h hroom
    · rfl
    · exact nomatch h
    · simp only [Chunked.pollRead] at h
      split at h
      · exact nomatch h
      · have hout : (b :: chunk).take room = [] := by
          have hinj := (Prod.mk.inj h).1
          exact Except.ok.inj (Poll.ready.inj hinj)
        rcases List.take_eq_nil_iff.1 hout with rfl | hnil
        · exact absurd hroom (Nat.lt_irrefl 0)
        · exact nomatch hnil

instance : Source.Reliable Chunked where
  read_ok := by
    rintro ⟨_ | ⟨_ | ⟨b, chunk⟩, chunks⟩⟩ r' room e h
    · exact nomatch h
    · exact nomatch h
    · simp only [Source.pollRead, Chunked.pollRead] at h
      split at h <;> exact nomatch h

/-- A chunk that there is room for is read whole. -/
theorem read_chunk {chunk : List UInt8} {chunks : List (List UInt8)} {room : ℕ} (hne : chunk ≠ [])
    (hfits : chunk.length ≤ room) : read (⟨chunk :: chunks⟩ : Chunked) room = (.ok chunk, ⟨chunks⟩) := by
  obtain ⟨b, rest, rfl⟩ := List.exists_cons_of_ne_nil hne
  exact read_of_ready (if_pos hfits)

theorem read_no_chunk {room : ℕ} : read (⟨[]⟩ : Chunked) room = (.ok [], ⟨[]⟩) := read_of_ready rfl

/-! ## Sinks -/

/-- **A sink of bytes.** The output of a poll is how many of the bytes it took. -/
class Sink (W : Type) where
  pollWrite : W → List UInt8 → Poll (Except String ℕ) × W
  pollFlush : W → Poll (Except String Unit) × W
  pollShutdown : W → Poll (Except String Unit) × W
  /-- The bytes that were taken. -/
  written : W → List UInt8
  /-- A bound on the pending polls before the next output. -/
  waits : W → ℕ
  write_pending : ∀ {w w' bytes}, pollWrite w bytes = (.pending, w') →
    written w' = written w ∧ waits w' < waits w
  write_failed : ∀ {w w' bytes e}, pollWrite w bytes = (.ready (.error e), w') → written w' = written w
  write_ready : ∀ {w w' bytes k}, pollWrite w bytes = (.ready (.ok k), w') →
    k ≤ bytes.length ∧ written w' = written w ++ bytes.take k
  flush_pending : ∀ {w w'}, pollFlush w = (.pending, w') → waits w' < waits w
  flush_written : ∀ w, written (pollFlush w).2 = written w
  shutdown_pending : ∀ {w w'}, pollShutdown w = (.pending, w') → waits w' < waits w
  shutdown_written : ∀ w, written (pollShutdown w).2 = written w

/-- A sink whose writes succeed, each of them taking some of the bytes. -/
class Sink.Reliable (W : Type) [Sink W] : Prop where
  write_ok : ∀ (w w' : W) (bytes : List UInt8) (e : String),
    Sink.pollWrite w bytes ≠ (.ready (.error e), w')
  write_some : ∀ (w w' : W) (bytes : List UInt8), bytes ≠ [] →
    Sink.pollWrite w bytes ≠ (.ready (.ok 0), w')
  flush_ok : ∀ (w w' : W) (e : String), Sink.pollFlush w ≠ (.ready (.error e), w')

section Sinks

open Sink

variable {W : Type} [Sink W] {w w' : W} {bytes : List UInt8} {k : ℕ} {e : String}

/-- `w.write(bytes).await`. -/
def write (w : W) (bytes : List UInt8) : Except String ℕ × W :=
  await (fun w => pollWrite w bytes) waits (fun _ _ h => (write_pending h).2) w

/-- `w.flush().await`. -/
def flush (w : W) : Except String Unit × W :=
  await pollFlush waits (fun _ _ h => flush_pending h) w

/-- `w.shutdown().await`. -/
def shutdown (w : W) : Except String Unit × W :=
  await pollShutdown waits (fun _ _ h => shutdown_pending h) w

/-- The poll that a write ends with. -/
theorem exists_pollWrite (w : W) (bytes : List UInt8) :
    ∃ t, written t = written w ∧ pollWrite t bytes = (.ready (write w bytes).1, (write w bytes).2) :=
  await_induction (I := fun t => written t = written w)
    (fun _ _ hw h => (write_pending h).1.trans hw) rfl

/-- A sink that is polled without bytes keeps what it has. -/
theorem written_await {poll : W → Poll (Except String Unit) × W}
    {hwaits : ∀ w w', poll w = (.pending, w') → waits w' < waits w}
    (hpoll : ∀ w, written (poll w).2 = written w) :
    written (await poll waits hwaits w).2 = written w := by
  have hlast : ∃ t, written t = written w ∧
      poll t = (.ready (await poll waits hwaits w).1, (await poll waits hwaits w).2) :=
    await_induction (I := fun t => written t = written w)
      (fun t t' ht h => by rw [← ht, ← hpoll t, h]) rfl
  obtain ⟨t, ht, hready⟩ := hlast
  rw [← ht, ← hpoll t, hready]

@[simp] theorem written_flush : written (flush w).2 = written w := written_await flush_written

@[simp] theorem written_shutdown : written (shutdown w).2 = written w := written_await shutdown_written

theorem flush_ok [Reliable W] : (flush w).1 = .ok () := by
  have hlast : ∃ t, True ∧ pollFlush t = (.ready (flush w).1, (flush w).2) :=
    await_induction (I := fun _ => True) (fun _ _ _ _ => trivial) trivial
  obtain ⟨t, -, hready⟩ := hlast
  match h : (flush w).1 with
  | .ok () => rfl
  | .error e =>
    rw [h] at hready
    exact absurd hready (Reliable.flush_ok _ _ _)

/-- `w.write_all(bytes).await`. -/
def writeAll (w : W) (bytes : List UInt8) : Except String Unit × W :=
  if bytes = [] then (.ok (), w)
  else
    match write w bytes with
    | (.error e, w') => (.error e, w')
    | (.ok 0, w') => (.error "write zero", w')
    | (.ok (k + 1), w') => writeAll w' (bytes.drop (k + 1))
termination_by bytes.length
decreasing_by
  have hpos : 0 < bytes.length := List.length_pos_iff.2 ‹_›
  rw [List.length_drop]
  omega

/-- What was written when `writeAll` returns: all of the bytes, or at an
error the first of them. -/
theorem written_writeAll (w : W) (bytes : List UInt8) :
    written (writeAll w bytes).2 <+: written w ++ bytes ∧
      ((writeAll w bytes).1 = .ok () → written (writeAll w bytes).2 = written w ++ bytes) := by
  induction hlen : bytes.length using Nat.strongRecOn generalizing w bytes with
  | ind len ih =>
    rw [writeAll]
    by_cases hnil : bytes = []
    · rw [if_pos hnil, hnil, List.append_nil]
      exact ⟨List.prefix_rfl, fun _ => rfl⟩
    · rw [if_neg hnil]
      have hpos : 0 < bytes.length := List.length_pos_iff.2 hnil
      obtain ⟨t, ht, hready⟩ := exists_pollWrite w bytes
      match h : write w bytes with
      | (.error e, w') =>
        rw [h] at hready
        have hw : written w' = written w := (write_failed hready).trans ht
        exact ⟨hw ▸ List.prefix_append _ _, fun hok => nomatch hok⟩
      | (.ok 0, w') =>
        rw [h] at hready
        have hw : written w' = written w := by
          rw [(write_ready hready).2, List.take_zero, List.append_nil, ht]
        exact ⟨hw ▸ List.prefix_append _ _, fun hok => nomatch hok⟩
      | (.ok (k + 1), w') =>
        rw [h] at hready
        have hall : written w' ++ bytes.drop (k + 1) = written w ++ bytes := by
          rw [(write_ready hready).2, List.append_assoc, List.take_append_drop, ht]
        have hlt : (bytes.drop (k + 1)).length < len := by
          rw [List.length_drop]
          omega
        rw [← hall]
        exact ih _ hlt w' _ rfl

theorem writeAll_ok [Reliable W] (w : W) (bytes : List UInt8) : (writeAll w bytes).1 = .ok () := by
  induction hlen : bytes.length using Nat.strongRecOn generalizing w bytes with
  | ind len ih =>
    rw [writeAll]
    by_cases hnil : bytes = []
    · rw [if_pos hnil]
    · rw [if_neg hnil]
      have hpos : 0 < bytes.length := List.length_pos_iff.2 hnil
      obtain ⟨t, -, hready⟩ := exists_pollWrite w bytes
      match h : write w bytes with
      | (.error e, w') =>
        rw [h] at hready
        exact absurd hready (Reliable.write_ok t w' bytes e)
      | (.ok 0, w') =>
        rw [h] at hready
        exact absurd hready (Reliable.write_some t w' bytes hnil)
      | (.ok (k + 1), w') =>
        refine ih _ ?_ w' _ rfl
        rw [List.length_drop]
        omega

end Sinks

/-- The sink that takes some bytes at a time, `most` and one more at most. -/
structure Tray where
  most : ℕ
  taken : List UInt8

instance : Sink Tray where
  pollWrite := fun w bytes =>
    (.ready (.ok (min bytes.length (w.most + 1))),
      { w with taken := w.taken ++ bytes.take (min bytes.length (w.most + 1)) })
  pollFlush := fun w => (.ready (.ok ()), w)
  pollShutdown := fun w => (.ready (.ok ()), w)
  written := Tray.taken
  waits := fun _ => 0
  write_pending := fun h => nomatch h
  write_failed := fun h => nomatch h
  write_ready := by
    intro w w' bytes k h
    obtain ⟨rfl, rfl⟩ : min bytes.length (w.most + 1) = k ∧
        { w with taken := w.taken ++ bytes.take (min bytes.length (w.most + 1)) } = w' := by
      simpa using h
    exact ⟨Nat.min_le_left _ _, rfl⟩
  flush_pending := fun h => nomatch h
  flush_written := fun _ => rfl
  shutdown_pending := fun h => nomatch h
  shutdown_written := fun _ => rfl

instance : Sink.Reliable Tray where
  write_ok := fun _ _ _ _ h => nomatch h
  write_some := by
    intro w w' bytes hne h
    have hpos : 0 < bytes.length := List.length_pos_iff.2 hne
    have hzero : min bytes.length (w.most + 1) = 0 := by
      have hinj := (Prod.mk.inj h).1
      exact Except.ok.inj (Poll.ready.inj hinj)
    omega
  flush_ok := fun _ _ _ h => nomatch h

end ByteStream
