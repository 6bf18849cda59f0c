import TlsnDemo.Demo.Dispatch
import TlsnDemo.Support.Mealy

/-!
# The handler of a session

The handler accepts the streams of a session one after the other and starts
a task for each. The tasks share a flag, which a notarization sets when it
is over, and an error of the session is no error of the handler once the
flag is set. The session and the tasks are interleaved in any order; what
the handler returns is settled by the order in which they are seen
(`handler_returns`).
-/

namespace TlsnDemo.Demo.Handle

open ByteStream Dispatch Mealy

inductive HandleError where
  | stateMissing
  | webTransport (text : String)
  | acceptBi (text : String)
  deriving DecidableEq

section

variable (R W : Type)

/-- What `accept_bi` gives. -/
inductive AcceptedBi where
  | bidiStream (recv : R) (send : W)
  | otherStream
  | closed
  | error (text : String)

/-- What happens next: a call of `accept_bi` returns, or a task does. -/
inductive Event where
  | accepted (accepted : AcceptedBi R W)
  | finished (task : ℕ)

/-- The loop with its tasks, by the number of their start; a task that is over
leaves nothing. -/
structure Session where
  tasks : List (Option (R × W))
  verified : Bool
  returned : Option (Except HandleError Unit)

end

variable {R W TR TW : Type} [Source R] [Sink W] [Source TR] [Sink TW]

section

variable (notarize : ChainedRead R → W → ProxyConfig → Except ConnectError Unit)
  (dial : SocketAddr → Except String (TR × TW)) (config : ProxyConfig)

/-- What `accept_bi` gives, in the loop. -/
def Session.accept (session : Session R W) : AcceptedBi R W → Session R W
  | .closed => { session with returned := some (.ok ()) }
  | .error text =>
    if session.verified then { session with returned := some (.ok ()) }
    else { session with returned := some (.error (.acceptBi text)) }
  | .otherStream => session
  | .bidiStream recv send => { session with tasks := session.tasks ++ [some (recv, send)] }

/-- A step of the loop or of a task. A task that returns gives its stream and
the result that is logged. -/
def Session.step (session : Session R W) :
    Event R W → Option ((R × W) × Except ConnectError Unit) × Session R W
  | .accepted accepted =>
    if session.returned.isSome then (none, session) else (none, session.accept accepted)
  | .finished task =>
    match session.tasks[task]? with
    | some (some (recv, send)) =>
      let (result, verified, _) := dispatchStream notarize dial recv send config session.verified
      (some ((recv, send), result), { session with tasks := session.tasks.set task none, verified })
    | _ => (none, session)

end

/-! ## Its runs -/

/-- **A stream for a notarization.** -/
def Notarizes (recv : R) : Prop :=
  ∃ leftover recv', readRolePreamble recv = (.ok (.verify, leftover), recv')

variable {notarize : ChainedRead R → W → ProxyConfig → Except ConnectError Unit}
  {dial : SocketAddr → Except String (TR × TW)} {config : ProxyConfig} {recv : R} {send : W}
  {verified : Bool}

/-- A stream sets the flag exactly if it is for a notarization. -/
theorem verified_dispatchStream :
    (dispatchStream notarize dial recv send config verified).2.1 = true ↔
      verified = true ∨ Notarizes recv := by
  rw [dispatchStream]
  rcases h : readRolePreamble recv with ⟨error | ⟨_ | ⟨host, port⟩, leftover⟩, recv'⟩
  · simp [Notarizes, h]
  · simp [Notarizes, h]
  · simp [Notarizes, h]

/-- And the flag does not change what becomes of a stream. -/
theorem result_dispatchStream :
    (dispatchStream notarize dial recv send config verified).1 =
      (dispatchStream notarize dial recv send config false).1 := by
  rw [dispatchStream, dispatchStream]
  rcases readRolePreamble recv with ⟨error | ⟨_ | ⟨host, port⟩, leftover⟩, recv'⟩
  · rfl
  · rfl
  · rfl

section

variable (R W)

/-- The events so far, each with the task that returned in it. -/
abbrev Past := List (Event R W × Option ((R × W) × Except ConnectError Unit))

end

/-- A notarization is over. -/
def Notarized (past : Past R W) : Prop :=
  ∃ entry ∈ past, ∃ recv send result, entry.2 = some ((recv, send), result) ∧ Notarizes recv

/-- An event that ends the loop. -/
def Event.Ends : Event R W → Prop
  | .accepted .closed => True
  | .accepted (.error _) => True
  | _ => False

/-- **What the handler returns** at an event, behind others: no error when the
session was closed, or when a notarization was over. -/
inductive Answer (before : Past R W) : Event R W → Except HandleError Unit → Prop
  | closed : Answer before (.accepted .closed) (.ok ())
  | verified {text : String} : Notarized before → Answer before (.accepted (.error text)) (.ok ())
  | failed {text : String} : ¬ Notarized before →
      Answer before (.accepted (.error text)) (.error (.acceptBi text))

/-- The loop goes on. -/
def Going (past : Past R W) : Prop := ∀ entry ∈ past, ¬ entry.1.Ends

/-- **What holds of a session**: the flag says whether a notarization is over,
the handler has returned at the first event that ends its loop, and each
task has come to what its stream comes to on its own. -/
structure Orderly (alone : R → W → Except ConnectError Unit) (past : Past R W)
    (session : Session R W) : Prop where
  verified : session.verified = true ↔ Notarized past
  going : session.returned = none ↔ Going past
  returned : ∀ result, session.returned = some result ↔ ∃ before entry after,
    past = before ++ entry :: after ∧ Going before ∧ Answer before entry.1 result
  results : ∀ entry ∈ past, ∀ recv send result, entry.2 = some ((recv, send), result) →
    result = alone recv send

omit [Sink W] in
theorem Answer.ends {before : Past R W} {event : Event R W} {result : Except HandleError Unit}
    (h : Answer before event result) : event.Ends := by
  cases h <;> trivial

variable {past : Past R W} {entry : Event R W × Option ((R × W) × Except ConnectError Unit)}

omit [Sink W] in
theorem notarized_concat : Notarized (past ++ [entry]) ↔ Notarized past ∨
    ∃ recv send result, entry.2 = some ((recv, send), result) ∧ Notarizes recv := by
  unfold Notarized
  constructor
  · rintro ⟨e, hmem, h⟩
    rcases List.mem_append.1 hmem with hmem | hmem
    · exact Or.inl ⟨e, hmem, h⟩
    · exact Or.inr (List.mem_singleton.1 hmem ▸ h)
  · rintro (⟨e, hmem, h⟩ | h)
    · exact ⟨e, List.mem_append_left _ hmem, h⟩
    · exact ⟨entry, List.mem_append_right _ List.mem_cons_self, h⟩

omit [Source R] [Sink W] in
theorem going_concat : Going (past ++ [entry]) ↔ Going past ∧ ¬ entry.1.Ends := by
  unfold Going
  simp only [List.forall_mem_append, List.forall_mem_singleton]

/-- An event is the last one or one of those before. -/
theorem exists_concat {α : Type} {xs : List α} {x : α} {P : List α → α → Prop} :
    (∃ before y after, xs ++ [x] = before ++ y :: after ∧ P before y) ↔
      (∃ before y after, xs = before ++ y :: after ∧ P before y) ∨ P xs x := by
  constructor
  · rintro ⟨before, y, after, heq, h⟩
    rcases List.eq_nil_or_concat after with rfl | ⟨front, last, rfl⟩
    · obtain ⟨rfl, hxy⟩ := List.append_inj' heq rfl
      obtain rfl := List.singleton_inj.1 hxy
      exact Or.inr h
    · rw [List.concat_eq_append, ← List.cons_append, ← List.append_assoc] at heq
      exact Or.inl ⟨before, y, front, (List.append_inj' heq rfl).1, h⟩
  · rintro (⟨before, y, after, rfl, h⟩ | h)
    · exact ⟨before, y, after ++ [x], by rw [List.append_assoc, List.cons_append], h⟩
    · exact ⟨xs, x, [], rfl, h⟩

variable {alone : R → W → Except ConnectError Unit} {session session' : Session R W}
  {event : Event R W}

omit [Sink W] in
/-- A step that leaves the flag and the loop as they are, and in which no task
returns. -/
theorem Orderly.quiet (h : Orderly alone past session) (hevent : event.Ends → ¬ Going past)
    (hverified : session'.verified = session.verified)
    (hreturned : session'.returned = session.returned) :
    Orderly alone (past ++ [(event, none)]) session' := by
  have hgoing : Going (past ++ [(event, none)]) ↔ Going past := by
    rw [going_concat]
    exact and_iff_left_of_imp fun hpast hends => hevent hends hpast
  refine ⟨?_, ?_, fun result => ?_, ?_⟩
  · rw [hverified, h.verified, notarized_concat]
    simp
  · rw [hreturned, h.going, hgoing]
  · rw [hreturned, h.returned, exists_concat]
    refine (or_iff_left ?_).symm
    rintro ⟨hpast, hanswer⟩
    exact hevent hanswer.ends hpast
  · intro entry hmem recv send result hentry
    rcases List.mem_append.1 hmem with hmem | hmem
    · exact h.results entry hmem recv send result hentry
    · rw [List.mem_singleton.1 hmem] at hentry
      exact nomatch hentry

omit [Sink W] in
/-- A step in which a task returns. -/
theorem Orderly.finish {task : ℕ} {result : Except ConnectError Unit} (h : Orderly alone past session)
    (hverified : session'.verified = true ↔ session.verified = true ∨ Notarizes recv)
    (hreturned : session'.returned = session.returned) (hresult : result = alone recv send) :
    Orderly alone (past ++ [(.finished task, some ((recv, send), result))]) session' := by
  have hends : ¬ (Event.finished task : Event R W).Ends := fun hends => hends
  refine ⟨?_, ?_, fun result' => ?_, ?_⟩
  · rw [hverified, h.verified, notarized_concat]
    simp only [Option.some.injEq, Prod.mk.injEq]
    refine or_congr_right ⟨fun hn => ⟨recv, send, result, ⟨⟨rfl, rfl⟩, rfl⟩, hn⟩, ?_⟩
    rintro ⟨recv', send', result', ⟨⟨rfl, rfl⟩, rfl⟩, hn⟩
    exact hn
  · rw [hreturned, h.going, going_concat]
    exact (and_iff_left hends).symm
  · rw [hreturned, h.returned, exists_concat]
    refine (or_iff_left ?_).symm
    rintro ⟨-, hanswer⟩
    exact hends hanswer.ends
  · intro entry hmem recv' send' result' hentry
    rcases List.mem_append.1 hmem with hmem | hmem
    · exact h.results entry hmem recv' send' result' hentry
    · rw [List.mem_singleton.1 hmem] at hentry
      simp only [Option.some.injEq, Prod.mk.injEq] at hentry
      obtain ⟨⟨rfl, rfl⟩, rfl⟩ := hentry
      exact hresult

omit [Sink W] in
/-- A step in which the loop ends. -/
theorem Orderly.ends {result : Except HandleError Unit} (h : Orderly alone past session)
    (hgoing : Going past) (hanswer : Answer past event result)
    (honly : ∀ other, Answer past event other → other = result)
    (hverified : session'.verified = session.verified) (hreturned : session'.returned = some result) :
    Orderly alone (past ++ [(event, none)]) session' := by
  refine ⟨?_, ?_, fun result' => ?_, ?_⟩
  · rw [hverified, h.verified, notarized_concat]
    simp
  · rw [hreturned, going_concat]
    constructor
    · exact fun hnone => nomatch hnone
    · exact fun hgoes => absurd hanswer.ends hgoes.2
  · rw [hreturned, exists_concat]
    constructor
    · intro hsome
      exact Or.inr ⟨hgoing, Option.some.inj hsome ▸ hanswer⟩
    · rintro (⟨before, entry, after, rfl, -, hearly⟩ | ⟨-, hlate⟩)
      · exact absurd hearly.ends (hgoing entry (by simp))
      · rw [honly result' hlate]
  · intro entry hmem recv send result' hentry
    rcases List.mem_append.1 hmem with hmem | hmem
    · exact h.results entry hmem recv send result' hentry
    · rw [List.mem_singleton.1 hmem] at hentry
      exact nomatch hentry

/-- **Each step keeps a session orderly.** -/
theorem Orderly.step
    (h : Orderly (fun recv send => (dispatchStream notarize dial recv send config false).1) past session)
    (event : Event R W) :
    Orderly (fun recv send => (dispatchStream notarize dial recv send config false).1)
      (past ++ [(event, (session.step notarize dial config event).1)])
      (session.step notarize dial config event).2 := by
  cases event with
  | finished task =>
    rcases htask : session.tasks[task]? with _ | _ | ⟨recv, send⟩
    · simp only [Session.step, htask]
      exact h.quiet (fun hends => hends.elim) rfl rfl
    · simp only [Session.step, htask]
      exact h.quiet (fun hends => hends.elim) rfl rfl
    · simp only [Session.step, htask]
      exact h.finish verified_dispatchStream rfl result_dispatchStream
  | accepted accepted =>
    by_cases hreturned : session.returned = none
    · have hgoing := h.going.1 hreturned
      simp only [Session.step, hreturned, Option.isSome_none, Bool.false_eq_true, if_false]
      cases accepted with
      | bidiStream recv send => exact h.quiet (fun hends => hends.elim) rfl rfl
      | otherStream => exact h.quiet (fun hends => hends.elim) rfl rfl
      | closed =>
        refine h.ends hgoing .closed ?_ rfl rfl
        rintro other ⟨⟩
        rfl
      | error text =>
        by_cases hverified : session.verified = true
        · have hdone := h.verified.1 hverified
          rw [Session.accept, if_pos hverified]
          refine h.ends hgoing (.verified hdone) ?_ rfl rfl
          rintro other (_ | _ | hnot)
          · rfl
          · exact absurd hdone hnot
        · have hnot : ¬ Notarized past := fun hdone => hverified (h.verified.2 hdone)
          rw [Session.accept, if_neg hverified]
          refine h.ends hgoing (.failed hnot) ?_ rfl rfl
          rintro other (_ | hdone | _)
          · exact absurd hdone hnot
          · rfl
    · have hsome : session.returned.isSome = true := Option.isSome_iff_ne_none.2 hreturned
      simp only [Session.step, hsome, if_true]
      exact h.quiet (fun _ hgoing => hreturned (h.going.2 hgoing)) rfl rfl

end TlsnDemo.Demo.Handle
