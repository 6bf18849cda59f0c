import TlsnDemo.Demo.Dispatch
import TlsnDemo.Demo.Worker

/-!
# The lines of the roles

Which lines are roles, by their text (`parseRole_exact`); and that a stream
that begins with the line of a role is read as it, with all that follows
handed on, however it arrives (`role_read_back`). The two lines that the
worker writes are of this kind, so that its streams come to the notarization
and to the bank.
-/

namespace TlsnDemo.Demo

open ByteStream Encoding

/-! ## Numbers and parts of a line -/

section

variable {text rest before after : String} {digits : List Char} {c : Char} {n m : ℕ} {port : UInt16}

/-- A number does not get smaller with more digits. -/
theorem le_ofDigitChars : m ≤ Nat.ofDigitChars 10 digits m := by
  induction digits generalizing m with
  | nil => rw [Nat.ofDigitChars_nil]
  | cons c digits ih =>
    rw [Nat.ofDigitChars_cons]
    refine le_trans ?_ ih
    omega

/-- **Digits are pushed** as long as their number fits. -/
theorem foldlM_pushDigit (hm : m < UInt16.size) :
    digits.foldlM pushDigit m = some n ↔
      (∀ c ∈ digits, c.isDigit = true) ∧ Nat.ofDigitChars 10 digits m = n ∧ n < UInt16.size := by
  induction digits generalizing m with
  | nil =>
    rw [Nat.ofDigitChars_nil]
    simp only [List.foldlM_nil, Option.pure_def, Option.some.injEq, List.not_mem_nil, false_implies,
      implies_true, true_and]
    constructor
    · rintro rfl
      exact ⟨rfl, hm⟩
    · exact fun h => h.1
  | cons c digits ih =>
    rw [List.foldlM_cons, Nat.ofDigitChars_cons, List.forall_mem_cons, pushDigit]
    by_cases hdigit : c.isDigit = true
    · rw [if_pos hdigit, Nat.mul_comm m 10]
      by_cases hfits : 10 * m + (c.toNat - '0'.toNat) < UInt16.size
      · simp only [if_pos hfits, Option.bind_eq_bind, Option.bind_some, ih hfits, hdigit, true_and]
      · -- what does not fit at a digit does not fit in the end
        simp only [if_neg hfits, Option.bind_eq_bind, Option.bind_none, reduceCtorEq, false_iff]
        rintro ⟨-, rfl, hsize⟩
        have hle : 10 * m + (c.toNat - '0'.toNat) ≤
            Nat.ofDigitChars 10 digits (10 * m + (c.toNat - '0'.toNat)) := le_ofDigitChars
        omega
    · simp [hdigit]

/-- **A port is parsed** from digits after an optional plus sign. -/
theorem parseU16_eq_some : parseU16 text = some port ↔
    ∃ digits, (text.toList = digits ∨ text.toList = '+' :: digits) ∧ digits ≠ [] ∧
      (∀ c ∈ digits, c.isDigit = true) ∧ Nat.ofDigitChars 10 digits 0 = port.toNat := by
  have hparse : ∀ digits : List Char,
      (if digits.isEmpty then none else (digits.foldlM pushDigit 0).map UInt16.ofNat) = some port ↔
        digits ≠ [] ∧ (∀ c ∈ digits, c.isDigit = true) ∧
          Nat.ofDigitChars 10 digits 0 = port.toNat := by
    intro digits
    by_cases hempty : digits = []
    · simp [hempty]
    · rw [if_neg (by simpa using hempty), Option.map_eq_some_iff]
      constructor
      · rintro ⟨n, hn, rfl⟩
        obtain ⟨hdigits, hvalue, hsize⟩ := (foldlM_pushDigit (by decide)).1 hn
        refine ⟨hempty, hdigits, ?_⟩
        rw [UInt16.toNat_ofNat_of_lt' hsize, hvalue]
      · rintro ⟨-, hdigits, hvalue⟩
        exact ⟨port.toNat, (foldlM_pushDigit (by decide)).2 ⟨hdigits, hvalue, port.toNat_lt⟩,
          UInt16.ofNat_toNat⟩
  rcases hlist : text.toList with _ | ⟨c, cs⟩
  · simp [parseU16, hlist]
  · by_cases hplus : c = '+'
    · subst hplus
      simp only [parseU16, hlist, hparse, List.cons.injEq, true_and]
      constructor
      · exact fun h => ⟨cs, Or.inr rfl, h⟩
      · rintro ⟨digits, rfl | rfl, hne, hdigits, hvalue⟩
        · exact absurd (hdigits '+' List.mem_cons_self) (by decide)
        · exact ⟨hne, hdigits, hvalue⟩
    · have hdigits : parseU16 text = if (c :: cs).isEmpty then none
          else ((c :: cs).foldlM pushDigit 0).map UInt16.ofNat := by
        simp only [parseU16, hlist]
        split
        · next digits heq => exact absurd (List.cons.inj heq).1 hplus
        · rfl
      rw [hdigits, hparse]
      simp only [List.cons.injEq]
      constructor
      · exact fun h => ⟨c :: cs, Or.inl rfl, h⟩
      · rintro ⟨digits, rfl | ⟨heq, -⟩, h⟩
        · exact h
        · exact absurd heq hplus

theorem stripStart_eq_some {start : String} : stripStart text start = some rest ↔
    text = start ++ rest := by
  unfold stripStart
  constructor
  · intro h
    split at h
    · next hprefix =>
      obtain ⟨tail, htail⟩ := hprefix
      rw [← htail, List.drop_left] at h
      rw [← Option.some.inj h, ← String.toList_inj, String.toList_append, String.toList_ofList, htail]
    · exact nomatch h
  · rintro rfl
    rw [if_pos (by rw [String.toList_append]; exact List.prefix_append _ _), String.toList_append,
      List.drop_left, String.ofList_toList]

/-- **A split** is at the last place of the character. -/
theorem rsplitOnce_eq_some : rsplitOnce text c = some (before, after) ↔
    text.toList = before.toList ++ c :: after.toList ∧ c ∉ after.toList := by
  unfold rsplitOnce
  dsimp only
  constructor
  · intro h
    have hcut := List.takeWhile_append_dropWhile (p := (· ≠ c)) (l := text.toList.reverse)
    rcases hdrop : text.toList.reverse.dropWhile (· ≠ c) with _ | ⟨c', back⟩
    · rw [hdrop] at h
      exact nomatch h
    · have hc : c' = c := by
        have hhead := List.head?_dropWhile_not (· ≠ c) text.toList.reverse
        rw [hdrop] at hhead
        simpa using hhead
      rw [hdrop] at h hcut
      simp only [Option.some.injEq, Prod.mk.injEq] at h
      obtain ⟨rfl, rfl⟩ := h
      rw [String.toList_ofList, String.toList_ofList]
      have hback : text.toList =
          (text.toList.reverse.takeWhile (· ≠ c) ++ c' :: back).reverse := by
        rw [hcut, List.reverse_reverse]
      refine ⟨hback.trans ?_, ?_⟩
      · rw [hc, List.reverse_append, List.reverse_cons, List.append_assoc, List.singleton_append]
      · intro hmem
        have hne := List.all_eq_true.1 List.all_takeWhile c (List.mem_reverse.1 hmem)
        simp at hne
  · rintro ⟨htext, hafter⟩
    have hback : text.toList.reverse = after.toList.reverse ++ c :: before.toList.reverse := by
      rw [htext, List.reverse_append, List.reverse_cons, List.append_assoc, List.singleton_append]
    have hne : ∀ c' ∈ after.toList.reverse, decide (c' ≠ c) = true := by
      intro c' hc'
      exact decide_eq_true fun heq => hafter (heq ▸ List.mem_reverse.1 hc')
    rw [hback, List.dropWhile_append_of_pos hne, List.takeWhile_append_of_pos hne]
    simp

end

/-! ## Roles -/

/-- The line of a role. -/
def Role.line : Role → String
  | .verify => "VERIFY"
  | .connect host port => "CONNECT " ++ (host ++ (":" ++ toString port))

section

variable {line : String} {role : Role}

/-- The line of a target is read as it. -/
theorem parseRole_target {host portText : String} {digits : List Char} {port : UInt16}
    (hlist : portText.toList = digits ∨ portText.toList = '+' :: digits) (hne : digits ≠ [])
    (hdigits : ∀ c ∈ digits, c.isDigit = true)
    (hvalue : Nat.ofDigitChars 10 digits 0 = port.toNat) :
    parseRole ("CONNECT " ++ (host ++ (":" ++ portText))) = .ok (.connect host port) := by
  have hstart : "CONNECT " ++ (host ++ (":" ++ portText)) ≠ "VERIFY" := by
    intro heq
    have hlist := congrArg String.toList heq
    rw [String.toList_append] at hlist
    have hhead : 'C' = 'V' := (List.cons.inj hlist).1
    exact absurd hhead (by decide)
  have hport : parseU16 portText = some port :=
    parseU16_eq_some.2 ⟨digits, hlist, hne, hdigits, hvalue⟩
  have hcolon : ':' ∉ portText.toList := by
    intro hmem
    have hdigit : ':' ∈ digits := by
      rcases hlist with hlist | hlist
      · exact hlist ▸ hmem
      · rw [hlist] at hmem
        exact (List.mem_cons.1 hmem).resolve_left (by decide)
    exact absurd (hdigits ':' hdigit) (by decide)
  have hsplit : rsplitOnce (host ++ (":" ++ portText)) ':' = some (host, portText) := by
    refine rsplitOnce_eq_some.2 ⟨?_, hcolon⟩
    rw [String.toList_append, String.toList_append]
    rfl
  rw [parseRole, if_neg hstart, stripStart_eq_some.2 rfl]
  simp only [hsplit, hport]

/-- **Which lines are roles**: the word of the verifier, and a target, which is
a host of any kind and behind the last colon a port, in digits after an
optional plus sign. -/
theorem parseRole_exact : parseRole line = .ok role ↔
    (line = "VERIFY" ∧ role = .verify) ∨
      ∃ host portText digits port, line = "CONNECT " ++ (host ++ (":" ++ portText)) ∧
        (portText.toList = digits ∨ portText.toList = '+' :: digits) ∧ digits ≠ [] ∧
        (∀ c ∈ digits, c.isDigit = true) ∧ Nat.ofDigitChars 10 digits 0 = port.toNat ∧
        role = .connect host port := by
  constructor
  · intro h
    unfold parseRole at h
    split at h
    · next hverify => exact Or.inl ⟨hverify, (Except.ok.inj h).symm⟩
    · split at h
      · next rest hrest =>
        split at h
        · exact nomatch h
        · next host portText hsplit =>
          split at h
          · exact nomatch h
          · next port hport =>
            obtain ⟨htext, -⟩ := rsplitOnce_eq_some.1 hsplit
            obtain ⟨digits, hdigits⟩ := parseU16_eq_some.1 hport
            have hrest' : rest = host ++ (":" ++ portText) := by
              rw [← String.toList_inj, String.toList_append, String.toList_append, htext]
              rfl
            rw [stripStart_eq_some.1 hrest, hrest']
            exact Or.inr ⟨host, portText, digits, port, rfl, hdigits.1, hdigits.2.1, hdigits.2.2.1,
              hdigits.2.2.2, (Except.ok.inj h).symm⟩
      · exact nomatch h
  · rintro (⟨rfl, rfl⟩ | ⟨host, portText, digits, port, rfl, hlist, hne, hdigits, hvalue, rfl⟩)
    · rfl
    · exact parseRole_target hlist hne hdigits hvalue

theorem parseRole_line (role : Role) : parseRole role.line = .ok role := by
  cases role with
  | verify => rfl
  | connect host port =>
    have hlist : (toString port).toList = Nat.toDigits 10 port.toNat := Nat.toList_repr
    refine parseRole_target (Or.inl hlist) Nat.toDigits_ne_nil (fun c hc => ?_)
      Nat.ofDigitChars_ten_toDigits
    exact Nat.isDigit_of_mem_toDigits (by decide) (by decide) hc

/-- The role of the bytes of a line. -/
theorem roleOf_utf8 : roleOf line.toUTF8.data.toList = parseRole line := by
  have htext : String.fromUTF8? ⟨line.toUTF8.data.toList.toArray⟩ = some line := textOf_utf8 line
  rw [roleOf, htext]

end

/-! ## Streams -/

section

variable {R : Type} [Source R] {recv : R} {buf line line' after after' : List UInt8} {role : Role}

/-- A line ends at the first line feed. -/
theorem line_unique (hline : lineFeed ∉ line) (hline' : lineFeed ∉ line')
    (h : line ++ lineFeed :: after = line' ++ lineFeed :: after') : line = line' ∧ after = after' := by
  have hafter : after = after' := by
    calc after = Dispatch.afterLine (line ++ lineFeed :: after) :=
          (Dispatch.afterLine_append hline).symm
      _ = Dispatch.afterLine (line' ++ lineFeed :: after') := by rw [h]
      _ = after' := Dispatch.afterLine_append hline'
  rw [hafter] at h
  exact ⟨List.append_cancel_right h, hafter⟩

/-- What is read without a line feed is of the line. -/
theorem length_le_line {rest : List UInt8} (hbuf : lineFeed ∉ buf)
    (h : buf ++ rest = line ++ lineFeed :: after) : buf.length ≤ line.length := by
  rcases List.append_eq_append_iff.1 h with ⟨more, rfl, -⟩ | ⟨more, rfl, hmore⟩
  · rw [List.length_append]
    omega
  · cases more with
    | nil => rw [List.append_nil]
    | cons b more =>
      obtain ⟨rfl, -⟩ := List.cons.inj hmore
      exact absurd (List.mem_append_right _ List.mem_cons_self) hbuf

/-- **A short line is read**, however it arrives. -/
theorem readRoleFrom_line [Source.Reliable R] (hbuf : lineFeed ∉ buf) (hline : lineFeed ∉ line)
    (hshort : line.length < maxPreambleBytes) (hrole : roleOf line = .ok role)
    (h : buf ++ Source.rest recv = line ++ lineFeed :: after) :
    ∃ leftover recv', readRoleFrom buf recv = (.ok (role, leftover), recv') ∧
      leftover ++ Source.rest recv' = after := by
  induction hlen : (Source.rest recv).length using Nat.strongRecOn generalizing buf recv with
  | ind len ih =>
    have hle := length_le_line hbuf h
    rw [readRoleFrom, if_neg (by omega)]
    rcases hread : read recv maxPreambleBytes with ⟨text | _ | ⟨b, chunk⟩, next⟩
    · exact absurd hread read_ne_error
    · -- the stream is not at its end before the line feed
      have hend : Source.rest recv = [] := (read_ok hread).2.2 rfl (by decide)
      rw [hend, List.append_nil] at h
      rw [h] at hbuf
      exact absurd (List.mem_append_right _ List.mem_cons_self) hbuf
    · have hstream : buf ++ Source.rest recv = (buf ++ b :: chunk) ++ Source.rest next := by
        rw [(read_ok hread).1, List.append_assoc]
      have hlt : (Source.rest next).length < len := hlen ▸ length_rest_lt hread (List.cons_ne_nil _ _)
      rw [hstream] at h
      rcases hidx : (buf ++ b :: chunk).findIdx? (· == lineFeed) with _ | idx
      · have hnone : lineFeed ∉ buf ++ b :: chunk := by
          rw [List.findIdx?_eq_none_iff] at hidx
          intro hmem
          exact absurd (hidx lineFeed hmem) (by decide)
        simp only [hidx]
        exact ih _ hlt hnone h rfl
      · obtain ⟨htaken, hcut⟩ := Dispatch.cut_lineFeed hidx
        rw [hcut, List.append_assoc, List.cons_append] at h
        obtain ⟨htake, hafter⟩ := line_unique htaken hline h
        simp only [hidx, htake, hrole]
        exact ⟨_, _, rfl, hafter⟩

/-- **The line of a role is read back**: from each stream that begins with it,
however it arrives, with all that follows handed on. -/
theorem role_read_back [Source.Reliable R] (hline : lineFeed ∉ role.line.toUTF8.data.toList)
    (hshort : role.line.toUTF8.data.toList.length < maxPreambleBytes)
    (hrest : Source.rest recv = role.line.toUTF8.data.toList ++ lineFeed :: after) :
    ∃ leftover recv', readRolePreamble recv = (.ok (role, leftover), recv') ∧
      leftover ++ Source.rest recv' = after := by
  have hrole : roleOf role.line.toUTF8.data.toList = .ok role := roleOf_utf8.trans (parseRole_line role)
  exact readRoleFrom_line List.not_mem_nil hline hshort hrole (by rw [List.nil_append, hrest])

end

/-- A target in two chunks, with a pending poll between them. -/
theorem role_read_back_connect :
    ∃ leftover recv', readRolePreamble
        (⟨[[67, 79, 78, 78, 69, 67, 84, 32], [], [97, 58, 49, 10, 7], [8, 9]]⟩ : Chunked) =
          (.ok (.connect "a" 1, leftover), recv') ∧ leftover ++ Source.rest recv' = [7, 8, 9] :=
  role_read_back (by decide +kernel) (by decide +kernel) (by decide +kernel)

/-! ## The streams of the worker -/

section

open Dispatch (ProxyConfig SocketAddr ChainedRead dispatchStream proxyConnect)

/-- The proxy configuration of `main`, with the first address of the bank. -/
def mainProxyConfig (ip : String) : ProxyConfig where
  allowedTarget := ⟨ip, 443⟩
  allowedHost := "swissbank.tlsnotary.org"

/-- The roles of the worker's streams. -/
def workerRole : Worker.Stream → Role
  | .verifier => .verify
  | .proxy => .connect "swissbank.tlsnotary.org" 443

/-- What the worker writes on a stream. -/
def preambleOf (stream : Worker.Stream) : List UInt8 :=
  (workerRole stream).line.toUTF8.data.toList ++ [lineFeed]

/-- The worker writes a line on each of its streams, and no other. -/
theorem mem_proving_iff {stream : Worker.Stream} {line : String} :
    .writePreamble stream line ∈ Worker.proving ↔ line = (workerRole stream).line ++ "\n" := by
  have hverify : (workerRole .verifier).line ++ "\n" = "VERIFY\n" := by decide
  have hconnect : (workerRole .proxy).line ++ "\n" =
      "CONNECT swissbank.tlsnotary.org:443\n" := by decide
  cases stream with
  | verifier =>
    rw [hverify]
    simp [Worker.proving]
  | proxy =>
    rw [hconnect]
    simp [Worker.proving]

variable {R W TR TW : Type} [Source R] [Sink W] [Source TR] [Sink TW]
  {notarize : ChainedRead R → W → ProxyConfig → Except ConnectError Unit}
  {dial : SocketAddr → Except String (TR × TW)} {recv : R} {after : List UInt8} {ip : String}

/-- The preamble of each stream is read back. -/
theorem readRolePreamble_preambleOf [Source.Reliable R] {stream : Worker.Stream}
    (hrest : Source.rest recv = preambleOf stream ++ after) :
    ∃ leftover recv', readRolePreamble recv = (.ok (workerRole stream, leftover), recv') ∧
      leftover ++ Source.rest recv' = after := by
  have hline : lineFeed ∉ (workerRole stream).line.toUTF8.data.toList := by
    cases stream <;> decide +kernel
  have hshort : (workerRole stream).line.toUTF8.data.toList.length < maxPreambleBytes := by
    cases stream <;> decide +kernel
  have hrole : roleOf (workerRole stream).line.toUTF8.data.toList = .ok (workerRole stream) :=
    roleOf_utf8.trans (parseRole_line _)
  refine readRoleFrom_line List.not_mem_nil hline hshort hrole ?_
  rw [List.nil_append, hrest, preambleOf, List.append_assoc, List.singleton_append]

/-- **The streams of the worker come to where they should**, over streams that
do not fail: whatever follows their lines, and however it arrives, the one for
the verifier is notarized from all that follows, and the other one is connected
to the bank, if it can be dialled, which gets all that follows and nothing
else. -/
theorem worker_streams_dispatched [Source.Reliable R] [Sink.Reliable W] [Source.Reliable TR]
    [Sink.Reliable TW] (send : W) (verified : Bool) :
    (Source.rest recv = preambleOf .verifier ++ after →
      ∃ chained : ChainedRead R, Source.rest chained = after ∧
        dispatchStream notarize dial recv send (mainProxyConfig ip) verified =
          (notarize chained send (mainProxyConfig ip), true, none)) ∧
    ∀ (tcpRead : TR) (tcpWrite : TW), Source.rest recv = preambleOf .proxy ++ after →
      dial ⟨ip, 443⟩ = .ok (tcpRead, tcpWrite) →
      ∃ tcpWrite', dispatchStream notarize dial recv send (mainProxyConfig ip) verified =
          (.ok (), verified, some tcpWrite') ∧
        Sink.written tcpWrite' = Sink.written tcpWrite ++ after := by
  refine ⟨fun hrest => ?_, fun tcpRead tcpWrite hrest hdial => ?_⟩
  · obtain ⟨leftover, recv', hrole, hafter⟩ := readRolePreamble_preambleOf hrest
    refine ⟨.new leftover recv', by rw [Dispatch.rest_new, hafter], ?_⟩
    rw [dispatchStream, hrole]
    rfl
  · obtain ⟨leftover, recv', hrole, hafter⟩ := readRolePreamble_preambleOf hrest
    obtain ⟨tcpWrite', hproxy, hwritten⟩ : ∃ tcpWrite',
        proxyConnect dial recv' send (mainProxyConfig ip) "swissbank.tlsnotary.org" 443 leftover =
          (.ok (), some tcpWrite') ∧
        Sink.written tcpWrite' = Sink.written tcpWrite ++ (leftover ++ Source.rest recv') :=
      Dispatch.proxyConnect_permitted rfl rfl hdial
    refine ⟨tcpWrite', ?_, by rw [hwritten, hafter]⟩
    rw [dispatchStream, hrole]
    simp only [workerRole, hproxy]

/-- A stream for the verifier and one for the bank, each with two bytes behind its line. -/
theorem worker_streams_dispatched_verifier :
    (∃ chained : ChainedRead Chunked, Source.rest chained = [1, 2] ∧
      dispatchStream (fun _ _ _ => .error (.frameTooLarge 7))
          (fun _ => .ok ((⟨[]⟩ : Chunked), (⟨0, []⟩ : Tray)))
          (⟨[[86, 69, 82, 73, 70], [], [89, 10, 1], [2]]⟩ : Chunked) (⟨0, []⟩ : Tray)
          (mainProxyConfig "127.0.0.1") false =
        (.error (.frameTooLarge 7), true, none)) ∧
    ∃ tcpWrite : Tray,
      dispatchStream (fun _ _ _ => .error (.frameTooLarge 7))
          (fun _ => .ok ((⟨[]⟩ : Chunked), (⟨0, []⟩ : Tray)))
          (⟨[bytes "CONNECT swiss", [], bytes "bank.tlsnotary.org:443\n", [1, 2]]⟩ : Chunked)
          (⟨0, []⟩ : Tray) (mainProxyConfig "127.0.0.1") false =
        (.ok (), false, some tcpWrite) ∧
      Sink.written tcpWrite = [1, 2] := by
  have hdispatched := fun chunks => @worker_streams_dispatched Chunked Tray Chunked Tray _ _ _ _
    (fun _ _ _ => .error (.frameTooLarge 7)) (fun _ => .ok (⟨[]⟩, ⟨0, []⟩))
    ⟨chunks⟩ [1, 2] "127.0.0.1" _ _ _ _ ⟨0, []⟩ false
  exact ⟨(hdispatched _).1 (by decide +kernel), (hdispatched _).2 _ _ (by decide +kernel) rfl⟩

end

end TlsnDemo.Demo
