import TlsnDemo.Demo.Connect

/-!
# The streams behind the preamble

A stream of the demo server is read for its role first, and the bytes that
came with the preamble but belong to what follows are handed on: to the
notarization by a reader that gives them before the rest of the stream, to
the target of a proxy connection by a write before the rest is forwarded.
Either way they arrive exactly as the stream has them behind its first
line feed (`dispatch_exact`).
-/

namespace TlsnDemo.Demo.Dispatch

open ByteStream

/-! ## The reader of the rest -/

/-- A reader of some bytes that were read already, and then of a stream. -/
structure ChainedRead (R : Type) where
  buf : List UInt8
  pos : ℕ
  inner : R

section

variable {R : Type}

def ChainedRead.new (buf : List UInt8) (inner : R) : ChainedRead R := ⟨buf, 0, inner⟩

variable [Source R]

def ChainedRead.pollRead (this : ChainedRead R) (room : ℕ) :
    Poll (Except String (List UInt8)) × ChainedRead R :=
  if this.pos < this.buf.length then
    let remaining := this.buf.drop this.pos
    let n := min remaining.length room
    (.ready (.ok (remaining.take n)), { this with pos := this.pos + n })
  else
    let (output, inner) := Source.pollRead this.inner room
    (output, { this with inner })

variable {this this' : ChainedRead R} {room : ℕ} {output : Poll (Except String (List UInt8))}

/-- What a poll gives, from the bytes read already or from the stream. -/
theorem ChainedRead.pollRead_cases (h : this.pollRead room = (output, this')) :
    (∃ n, output = .ready (.ok ((this.buf.drop this.pos).take n)) ∧ n ≤ room ∧
      (0 < room → 0 < n) ∧ this.pos < this.buf.length ∧ this' = { this with pos := this.pos + n }) ∨
    (this.buf.length ≤ this.pos ∧ ∃ inner, Source.pollRead this.inner room = (output, inner) ∧
      this' = { this with inner }) := by
  unfold pollRead at h
  split at h
  · next hlt =>
    obtain ⟨rfl, rfl⟩ := Prod.mk.inj h
    refine .inl ⟨_, rfl, Nat.min_le_right _ _, ?_, hlt, rfl⟩
    rw [List.length_drop]
    omega
  · obtain ⟨rfl, rfl⟩ := Prod.mk.inj h
    exact .inr ⟨by omega, _, rfl, rfl⟩

instance : Source (ChainedRead R) where
  pollRead := ChainedRead.pollRead
  rest := fun this => this.buf.drop this.pos ++ Source.rest this.inner
  waits := fun this => Source.waits this.inner
  read_pending := by
    intro this this' room h
    obtain ⟨n, hout, -⟩ | ⟨-, inner, hinner, rfl⟩ := ChainedRead.pollRead_cases h
    · exact nomatch hout
    · have hpending := Source.read_pending hinner
      exact ⟨by rw [hpending.1], hpending.2⟩
  read_failed := by
    intro this this' room e h
    obtain ⟨n, hout, -⟩ | ⟨-, inner, hinner, rfl⟩ := ChainedRead.pollRead_cases h
    · exact nomatch hout
    · rw [Source.read_failed hinner]
  read_ready := by
    intro this this' room out h
    obtain ⟨n, hout, hn, -, -, rfl⟩ | ⟨hpos, inner, hinner, rfl⟩ := ChainedRead.pollRead_cases h
    · obtain rfl : out = (this.buf.drop this.pos).take n := Except.ok.inj (Poll.ready.inj hout)
      have hlen := List.length_take_le n (this.buf.drop this.pos)
      refine ⟨?_, by omega⟩
      rw [← List.append_assoc, ← List.drop_drop, List.take_append_drop]
    · obtain ⟨hrest, hlen⟩ := Source.read_ready hinner
      have hdrop : this.buf.drop this.pos = [] := List.drop_of_length_le hpos
      rw [hdrop, List.nil_append, List.nil_append]
      exact ⟨hrest, hlen⟩
  read_end := by
    intro this this' room h hroom
    obtain ⟨n, hout, -, hn, hpos, rfl⟩ | ⟨hpos, inner, hinner, rfl⟩ := ChainedRead.pollRead_cases h
    · have hnil : [] = (this.buf.drop this.pos).take n := Except.ok.inj (Poll.ready.inj hout)
      have hlen : ((this.buf.drop this.pos).take n).length = 0 := by rw [← hnil, List.length_nil]
      rw [List.length_take, List.length_drop] at hlen
      have hpos' := hn hroom
      omega
    · rw [List.drop_of_length_le hpos, List.nil_append]
      exact Source.read_end hinner hroom

instance [Source.Reliable R] : Source.Reliable (ChainedRead R) where
  read_ok := by
    intro this this' room e h
    obtain ⟨n, hout, -⟩ | ⟨-, inner, hinner, -⟩ := ChainedRead.pollRead_cases h
    · exact nomatch hout
    · exact Source.Reliable.read_ok _ _ _ _ hinner

theorem rest_new (buf : List UInt8) (inner : R) :
    Source.rest (ChainedRead.new buf inner) = buf ++ Source.rest inner := rfl

/-- **No byte for some room** is reported only when all bytes read already
were given and the stream is at its end. -/
theorem ChainedRead.read_end (h : this.pollRead room = (.ready (.ok []), this')) (hroom : 0 < room) :
    this.buf.length ≤ this.pos ∧ Source.rest this.inner = [] := by
  have hrest : Source.rest this = [] := Source.read_end (r := this) h hroom
  obtain ⟨hbuf, hinner⟩ := List.append_eq_nil_iff.1 hrest
  exact ⟨List.drop_eq_nil_iff.1 hbuf, hinner⟩

end

/-! ## The preamble of a source -/

section

variable {R : Type} [Source R] {recv recv' : R} {buf leftover : List UInt8} {role : Role}

/-- What follows the first line of a stream. -/
def afterLine (stream : List UInt8) : List UInt8 := (stream.dropWhile (· != lineFeed)).drop 1

theorem afterLine_append {line after : List UInt8} (h : lineFeed ∉ line) :
    afterLine (line ++ lineFeed :: after) = after := by
  have hline : ∀ b ∈ line, (b != lineFeed) = true := by
    intro b hb
    exact bne_iff_ne.2 fun heq => h (heq ▸ hb)
  rw [afterLine, List.dropWhile_append_of_pos hline]
  rfl

/-- A list of bytes, cut at its first line feed. -/
theorem cut_lineFeed {bytes : List UInt8} {idx : ℕ}
    (h : bytes.findIdx? (· == lineFeed) = some idx) :
    lineFeed ∉ bytes.take idx ∧ bytes = bytes.take idx ++ lineFeed :: bytes.drop (idx + 1) := by
  obtain ⟨hlt, hat, hbefore⟩ := List.findIdx?_eq_some_iff_getElem.1 h
  refine ⟨?_, ?_⟩
  · intro hmem
    obtain ⟨i, hi, heq⟩ := List.mem_take_iff_getElem.1 hmem
    have hne := hbefore i (by omega)
    rw [heq] at hne
    exact hne rfl
  · rw [← eq_of_beq hat, List.getElem_cons_drop, List.take_append_drop]

/-- A role that is found was read from the bytes up to the first line feed,
and what is left of the stream comes behind it. -/
theorem readRoleFrom_ok (hbuf : lineFeed ∉ buf)
    (h : readRoleFrom buf recv = (.ok (role, leftover), recv')) :
    ∃ line, lineFeed ∉ line ∧ roleOf line = .ok role ∧
      buf ++ Source.rest recv = line ++ lineFeed :: (leftover ++ Source.rest recv') := by
  induction hlen : maxPreambleBytes - buf.length using Nat.strongRecOn generalizing buf recv with
  | ind len ih =>
    rw [readRoleFrom] at h
    split at h
    · simp at h
    · next hlimit =>
      rcases hread : read recv maxPreambleBytes with ⟨_ | (_ | ⟨b, chunk⟩), next⟩
      · simp [hread] at h
      · simp [hread] at h
      · have hstream : buf ++ Source.rest recv = (buf ++ b :: chunk) ++ Source.rest next := by
          rw [(read_ok hread).1, List.append_assoc]
        simp only [hread] at h
        cases hidx : (buf ++ b :: chunk).findIdx? (· == lineFeed) with
        | none =>
          simp only [hidx] at h
          have hnone : lineFeed ∉ buf ++ b :: chunk := by
            rw [List.findIdx?_eq_none_iff] at hidx
            intro hmem
            have hne := hidx lineFeed hmem
            exact absurd hne (by decide)
          have hlt : maxPreambleBytes - (buf ++ b :: chunk).length < len := by
            rw [List.length_append, List.length_cons]
            omega
          rw [hstream]
          exact ih _ hlt hnone h rfl
        | some idx =>
          simp only [hidx] at h
          obtain ⟨hline, hcut⟩ := cut_lineFeed hidx
          cases hrole : roleOf ((buf ++ b :: chunk).take idx) with
          | error e =>
            simp [hrole, Except.map] at h
          | ok found =>
            rw [hrole] at h
            obtain ⟨hpair, rfl⟩ := Prod.mk.inj h
            obtain ⟨rfl, rfl⟩ := Prod.mk.inj (Except.ok.inj hpair)
            refine ⟨_, hline, hrole, ?_⟩
            rw [hstream, ← List.cons_append, ← List.append_assoc, ← hcut]

theorem readRolePreamble_ok (h : readRolePreamble recv = (.ok (role, leftover), recv')) :
    leftover ++ Source.rest recv' = afterLine (Source.rest recv) := by
  obtain ⟨line, hline, -, hstream⟩ := readRoleFrom_ok List.not_mem_nil h
  rw [List.nil_append] at hstream
  rw [hstream, afterLine_append hline]

end

/-! ## The proxy connection -/

structure SocketAddr where
  ip : String
  port : UInt16
  deriving DecidableEq

structure ProxyConfig where
  allowedTarget : SocketAddr
  allowedHost : String

section

variable {R W TR TW : Type} [Source R] [Sink W] [Source TR] [Sink TW]

def forward (src : R) (dst : W) : Except String Unit × R × W :=
  match _h : read src 8192 with
  | (.error text, src) => (.error text, src, dst)
  | (.ok [], src) => (.ok (), src, (shutdown dst).2)
  | (.ok (b :: out), src) =>
    match writeAll dst (b :: out) with
    | (.error text, dst) => (.error text, src, dst)
    | (.ok (), dst) => forward src dst
termination_by (Source.rest src).length
decreasing_by exact length_rest_lt _h (List.cons_ne_nil _ _)

theorem forward_eq (src : R) (dst : W) :
    forward src dst =
      match read src 8192 with
      | (.error text, src) => (.error text, src, dst)
      | (.ok [], src) => (.ok (), src, (shutdown dst).2)
      | (.ok (b :: out), src) =>
        match writeAll dst (b :: out) with
        | (.error text, dst) => (.error text, src, dst)
        | (.ok (), dst) => forward src dst := by
  rw [forward]
  split <;> next h => simp only [h]

/-- What `forward` has written when it returns: all that the source had to
give, or at an error the first of it. -/
theorem written_forward (src : R) (dst : W) :
    Sink.written (forward src dst).2.2 <+: Sink.written dst ++ Source.rest src ∧
      ((forward src dst).1 = .ok () →
        Sink.written (forward src dst).2.2 = Sink.written dst ++ Source.rest src) := by
  induction hlen : (Source.rest src).length using Nat.strongRecOn generalizing src dst with
  | ind len ih =>
    rw [forward_eq]
    match hread : read src 8192 with
    | (.error text, src') => exact ⟨List.prefix_append _ _, fun h => nomatch h⟩
    | (.ok [], src') =>
      have hend : Source.rest src = [] := (read_ok hread).2.2 rfl (by omega)
      have hshut : Sink.written (shutdown dst).2 = Sink.written dst := written_shutdown
      rw [hend, List.append_nil]
      exact ⟨⟨[], (List.append_nil _).trans hshut⟩, fun _ => hshut⟩
    | (.ok (b :: out), src') =>
      have hrest : Source.rest src = b :: out ++ Source.rest src' := (read_ok hread).1
      obtain ⟨hfirst, hall⟩ := written_writeAll dst (b :: out)
      rw [hrest, ← List.append_assoc]
      simp only
      match hwrite : writeAll dst (b :: out) with
      | (.error text, dst') =>
        rw [hwrite] at hfirst
        exact ⟨hfirst.trans (List.prefix_append _ _), fun h => nomatch h⟩
      | (.ok (), dst') =>
        rw [hwrite] at hall
        have hdst : Sink.written dst' = Sink.written dst ++ b :: out := hall rfl
        rw [← hdst]
        exact ih _ (hlen ▸ length_rest_lt hread (List.cons_ne_nil _ _)) src' dst' rfl

theorem forward_ok [Source.Reliable R] [Sink.Reliable W] (src : R) (dst : W) :
    (forward src dst).1 = .ok () := by
  induction hlen : (Source.rest src).length using Nat.strongRecOn generalizing src dst with
  | ind len ih =>
    rw [forward_eq]
    match hread : read src 8192 with
    | (.error text, src') => exact absurd hread read_ne_error
    | (.ok [], src') => rfl
    | (.ok (b :: out), src') =>
      have hok : (writeAll dst (b :: out)).1 = .ok () := writeAll_ok dst (b :: out)
      simp only
      match hwrite : writeAll dst (b :: out) with
      | (.error text, dst') =>
        rw [hwrite] at hok
        exact nomatch hok
      | (.ok (), dst') => exact ih _ (hlen ▸ length_rest_lt hread (List.cons_ne_nil _ _)) src' dst' rfl

/-- `dial` opens a TCP connection: what is read from it and what is written
to it. The two ways of forwarding share nothing, so what both come to does
not depend on how they are interleaved. Gives the result and the writing
side of the connection, if one was opened. -/
def proxyConnect (dial : SocketAddr → Except String (TR × TW)) (wtRecv : R) (wtSend : W)
    (proxyConfig : ProxyConfig) (host : String) (port : UInt16) (leftover : List UInt8) :
    Except ConnectError Unit × Option TW :=
  if host ≠ proxyConfig.allowedHost ∨ port ≠ proxyConfig.allowedTarget.port then
    (.error (.targetNotAllowed (host ++ ":" ++ toString port)
      (proxyConfig.allowedHost ++ ":" ++ toString proxyConfig.allowedTarget.port)), none)
  else
    match dial proxyConfig.allowedTarget with
    | .error text => (.error (.tcpConnect text), none)
    | .ok (tcpRead, tcpWrite) =>
      match if leftover ≠ [] then writeAll tcpWrite leftover else (.ok (), tcpWrite) with
      | (.error text, tcpWrite) => (.error (.io text), some tcpWrite)
      | (.ok (), tcpWrite) =>
        let (wtToTcp, _, tcpWrite) := forward wtRecv tcpWrite
        let (tcpToWt, _, _) := forward tcpRead wtSend
        match wtToTcp, tcpToWt with
        | .error text, _ => (.error (.io text), some tcpWrite)
        | .ok (), .error text => (.error (.io text), some tcpWrite)
        | .ok (), .ok () => (.ok (), some tcpWrite)

/-- `notarize` is `run_notarize_stream`. Gives the result, whether the session
has `verified` by then, and the writing side of a proxy connection. -/
def dispatchStream (notarize : ChainedRead R → W → ProxyConfig → Except ConnectError Unit)
    (dial : SocketAddr → Except String (TR × TW)) (wtRecv : R) (wtSend : W)
    (proxyConfig : ProxyConfig) (verified : Bool) :
    Except ConnectError Unit × Bool × Option TW :=
  match readRolePreamble wtRecv with
  | (.error err, _) => (.error err, verified, none)
  | (.ok (.verify, leftover), wtRecv) =>
    let outcome := notarize (.new leftover wtRecv) wtSend proxyConfig
    (outcome, true, none)
  | (.ok (.connect host port, leftover), wtRecv) =>
    let (result, tcpWrite) := proxyConnect dial wtRecv wtSend proxyConfig host port leftover
    (result, verified, tcpWrite)

variable {dial : SocketAddr → Except String (TR × TW)} {recv : R} {send : W} {config : ProxyConfig}
  {host : String} {port : UInt16} {leftover : List UInt8} {tcpRead : TR} {tcpWrite : TW}

/-- A permitted connection gets what came with the preamble, and then the
rest of the stream. -/
theorem proxyConnect_permitted [Source.Reliable R] [Sink.Reliable W] [Source.Reliable TR]
    [Sink.Reliable TW] (hhost : host = config.allowedHost) (hport : port = config.allowedTarget.port)
    (hdial : dial config.allowedTarget = .ok (tcpRead, tcpWrite)) :
    ∃ tcpWrite', proxyConnect dial recv send config host port leftover = (.ok (), some tcpWrite') ∧
      Sink.written tcpWrite' = Sink.written tcpWrite ++ (leftover ++ Source.rest recv) := by
  have hpermitted : ¬ (host ≠ config.allowedHost ∨ port ≠ config.allowedTarget.port) := by
    rintro (h | h)
    · exact h hhost
    · exact h hport
  -- What came with the preamble is written first.
  obtain ⟨tcpWrite₁, hfirst, hwritten₁⟩ : ∃ tcpWrite₁,
      (if leftover ≠ [] then writeAll tcpWrite leftover else (.ok (), tcpWrite)) =
        (.ok (), tcpWrite₁) ∧ Sink.written tcpWrite₁ = Sink.written tcpWrite ++ leftover := by
    by_cases hnil : leftover = []
    · exact ⟨tcpWrite, if_neg (not_not_intro hnil), by rw [hnil, List.append_nil]⟩
    · have hok : (writeAll tcpWrite leftover).1 = .ok () := writeAll_ok tcpWrite leftover
      refine ⟨(writeAll tcpWrite leftover).2, ?_, (written_writeAll tcpWrite leftover).2 hok⟩
      rw [if_pos hnil, ← hok]
  have hforward : (forward recv tcpWrite₁).1 = .ok () := forward_ok recv tcpWrite₁
  have hback : (forward tcpRead send).1 = .ok () := forward_ok tcpRead send
  refine ⟨(forward recv tcpWrite₁).2.2, ?_, ?_⟩
  · rw [proxyConnect, if_neg hpermitted, hdial]
    simp only [hfirst, hforward, hback]
  · rw [(written_forward recv tcpWrite₁).2 hforward, hwritten₁, List.append_assoc]

/-- **The preamble is cut off without losing or repeating a byte.** However
the stream arrives, if its preamble is read as a role, what is handed on
are the bytes after its first line feed, in order, each of them once: by
the reader that the notarization gets, for each sequence of reads, and to
the writing side of a permitted proxy connection. And the reader of any
bytes and any stream reports no byte for some room only when the bytes were
all given and the stream is at its end. -/
theorem dispatch_exact [Source.Reliable R] [Sink.Reliable W] [Source.Reliable TR]
    [Sink.Reliable TW] {recv recv' : R} {role : Role} {leftover : List UInt8}
    (hrole : readRolePreamble recv = (.ok (role, leftover), recv')) :
    (role = .verify →
      Gives (ChainedRead.new leftover recv') (afterLine (Source.rest recv)) ∧
        ∀ (notarize : ChainedRead R → W → ProxyConfig → Except ConnectError Unit)
          (dial : SocketAddr → Except String (TR × TW)) (send : W) (config : ProxyConfig)
          (verified : Bool),
          dispatchStream notarize dial recv send config verified =
            (notarize (ChainedRead.new leftover recv') send config, true, none)) ∧
    (∀ (notarize : ChainedRead R → W → ProxyConfig → Except ConnectError Unit)
        (dial : SocketAddr → Except String (TR × TW)) (send : W) (config : ProxyConfig)
        (verified : Bool) (tcpRead : TR) (tcpWrite : TW),
      role = .connect config.allowedHost config.allowedTarget.port →
      dial config.allowedTarget = .ok (tcpRead, tcpWrite) →
      ∃ tcpWrite',
        dispatchStream notarize dial recv send config verified =
          (.ok (), verified, some tcpWrite') ∧
        Sink.written tcpWrite' = Sink.written tcpWrite ++ afterLine (Source.rest recv)) ∧
    (∀ (this this' : ChainedRead R) (room : ℕ),
      this.pollRead room = (.ready (.ok []), this') → 0 < room →
        this.buf.length ≤ this.pos ∧ Source.rest this.inner = []) := by
  have hafter : leftover ++ Source.rest recv' = afterLine (Source.rest recv) :=
    readRolePreamble_ok hrole
  refine ⟨?_, ?_, fun _ _ _ => ChainedRead.read_end⟩
  · rintro rfl
    refine ⟨?_, ?_⟩
    · rw [← hafter, ← rest_new]
      exact gives_rest _
    · intro notarize dial send config verified
      rw [dispatchStream, hrole]
  · rintro notarize dial send config verified tcpRead tcpWrite rfl hdial
    have hpermitted : ∃ tcpWrite',
        proxyConnect dial recv' send config config.allowedHost config.allowedTarget.port leftover =
          (.ok (), some tcpWrite') ∧
        Sink.written tcpWrite' = Sink.written tcpWrite ++ (leftover ++ Source.rest recv') :=
      proxyConnect_permitted rfl rfl hdial
    obtain ⟨tcpWrite', hproxy, hwritten⟩ := hpermitted
    refine ⟨tcpWrite', ?_, ?_⟩
    · rw [dispatchStream, hrole]
      simp only [hproxy]
    · rw [hwritten, hafter]

/-- The preamble of a proxy connection in two chunks, with a pending poll
between them; the second brings a byte of what follows. And so one of a
notarization, that is given two bytes, of which one came with the preamble. -/
theorem dispatch_exact_connect :
    (∃ tcpWrite : Tray,
      dispatchStream (fun _ _ _ => .ok ())
        (fun _ => .ok ((⟨[]⟩ : Chunked), (⟨0, []⟩ : Tray)))
        (⟨[[67, 79, 78, 78, 69, 67, 84, 32], [], [97, 58, 49, 10, 7], [8, 9]]⟩ : Chunked)
        (⟨0, []⟩ : Tray) ⟨⟨"127.0.0.1", 1⟩, "a"⟩ false = (.ok (), false, some tcpWrite) ∧
      tcpWrite.taken = [7, 8, 9]) ∧
    Gives (ChainedRead.new [1] (⟨[[2]]⟩ : Chunked)) [1, 2] ∧
      dispatchStream (fun chained _ _ => .error (.frameTooLarge chained.buf.length))
        (fun _ => .ok ((⟨[]⟩ : Chunked), (⟨0, []⟩ : Tray)))
        (⟨[[86, 69, 82, 73, 70], [], [89, 10, 1], [2]]⟩ : Chunked) (⟨0, []⟩ : Tray)
        ⟨⟨"127.0.0.1", 1⟩, "a"⟩ false = (.error (.frameTooLarge 1), true, none) := by
  have hconnect : readRolePreamble
      (⟨[[67, 79, 78, 78, 69, 67, 84, 32], [], [97, 58, 49, 10, 7], [8, 9]]⟩ : Chunked) =
      (.ok (.connect "a" 1, [7]), ⟨[[8, 9]]⟩) := by
    have hsecond : read (⟨[[], [97, 58, 49, 10, 7], [8, 9]]⟩ : Chunked) maxPreambleBytes =
        (.ok [97, 58, 49, 10, 7], ⟨[[8, 9]]⟩) := (read_of_pending rfl).trans (read_of_ready rfl)
    rw [readRolePreamble, readRoleFrom, if_neg (by decide), read_chunk (by simp) (by decide)]
    change readRoleFrom _ _ = _
    rw [readRoleFrom, if_neg (by decide), hsecond]
    rfl
  have hverify : readRolePreamble (⟨[[86, 69, 82, 73, 70], [], [89, 10, 1], [2]]⟩ : Chunked) =
      (.ok (.verify, [1]), ⟨[[2]]⟩) := by
    have hsecond : read (⟨[[], [89, 10, 1], [2]]⟩ : Chunked) maxPreambleBytes =
        (.ok [89, 10, 1], ⟨[[2]]⟩) := (read_of_pending rfl).trans (read_of_ready rfl)
    rw [readRolePreamble, readRoleFrom, if_neg (by decide), read_chunk (by simp) (by decide)]
    change readRoleFrom _ _ = _
    rw [readRoleFrom, if_neg (by decide), hsecond]
    rfl
  refine ⟨?_, ?_⟩
  · exact (dispatch_exact hconnect).2.1 _ (fun _ => .ok ((⟨[]⟩ : Chunked), (⟨0, []⟩ : Tray))) _
      ⟨⟨"127.0.0.1", 1⟩, "a"⟩ false _ _ rfl rfl
  · have hnotarized := @dispatch_exact Chunked Tray Chunked Tray _ _ _ _ _ _ _ _ _ _ _ _ hverify
    obtain ⟨hgives, hdispatch⟩ := hnotarized.1 rfl
    exact ⟨hgives, hdispatch _ _ _ _ _⟩

end

end TlsnDemo.Demo.Dispatch
