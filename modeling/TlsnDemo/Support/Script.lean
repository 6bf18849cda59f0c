import Mathlib.Data.List.Basic

/-!
# Scripts of calls

A script makes calls, each with an answer from outside, and returns or
fails; what it did is the list of its calls and its result. A call is made
exactly if every answer before it let the script go on
(`mem_calls_bind`), and the script returns exactly if all of them did
(`result_bind_eq_ok`).
-/

/-- What a script did: its calls in order, and its result. -/
structure Script (κ ε α : Type) where
  calls : List κ
  result : Except ε α

namespace Script

variable {κ ε α β : Type}

def bind (m : Script κ ε α) (f : α → Script κ ε β) : Script κ ε β :=
  match m.result with
  | .ok x => ⟨m.calls ++ (f x).calls, (f x).result⟩
  | .error e => ⟨m.calls, .error e⟩

instance : Monad (Script κ ε) where
  pure x := ⟨[], .ok x⟩
  bind := Script.bind

/-- A call, with its answer. -/
def ask (call : κ) (answer : Except ε α) : Script κ ε α := ⟨[call], answer⟩

/-- The end of a script with an error. -/
def fail (e : ε) : Script κ ε α := ⟨[], .error e⟩

/-- `try { m } finally { cleanup }`: the cleanup is made in any case, and the
whole fails if it does. -/
def tryFinally (m : Script κ ε α) (cleanup : Script κ ε Unit) : Script κ ε α :=
  ⟨m.calls ++ cleanup.calls,
    match cleanup.result with
    | .ok () => m.result
    | .error e => .error e⟩

/-- `try { m } catch {}`. -/
def attempt (m : Script κ ε Unit) : Script κ ε Unit := ⟨m.calls, .ok ()⟩

variable {m : Script κ ε α} {f : α → Script κ ε β} {call c : κ} {answer : Except ε α} {x : α} {y : β}
  {e : ε}

@[simp] theorem calls_pure : (pure x : Script κ ε α).calls = [] := rfl

@[simp] theorem result_pure : (pure x : Script κ ε α).result = .ok x := rfl

@[simp] theorem calls_ask : (ask call answer).calls = [call] := rfl

@[simp] theorem result_ask : (ask call answer).result = answer := rfl

@[simp] theorem calls_fail : (fail e : Script κ ε α).calls = [] := rfl

@[simp] theorem result_fail : (fail e : Script κ ε α).result = .error e := rfl

@[simp] theorem calls_tryFinally {cleanup : Script κ ε Unit} :
    (tryFinally m cleanup).calls = m.calls ++ cleanup.calls := rfl

@[simp] theorem result_tryFinally_attempt {cleanup : Script κ ε Unit} :
    (tryFinally m (attempt cleanup)).result = m.result := rfl

@[simp] theorem calls_attempt {cleanup : Script κ ε Unit} :
    (attempt cleanup).calls = cleanup.calls := rfl

theorem bind_of_ok (h : m.result = .ok x) : m >>= f = ⟨m.calls ++ (f x).calls, (f x).result⟩ := by
  change m.bind f = _
  rw [bind, h]

theorem bind_of_error (h : m.result = .error e) : m >>= f = ⟨m.calls, .error e⟩ := by
  change m.bind f = _
  rw [bind, h]

/-- **A script returns** exactly if each of its parts does. -/
theorem result_bind_eq_ok :
    (m >>= f).result = .ok y ↔ ∃ x, m.result = .ok x ∧ (f x).result = .ok y := by
  cases h : m.result with
  | ok x => rw [bind_of_ok h]; simp
  | error e => rw [bind_of_error h]; simp

/-- **A call is made** exactly if the script gets to it. -/
theorem mem_calls_bind :
    c ∈ (m >>= f).calls ↔ c ∈ m.calls ∨ ∃ x, m.result = .ok x ∧ c ∈ (f x).calls := by
  cases h : m.result with
  | ok x => rw [bind_of_ok h]; simp
  | error e => rw [bind_of_error h]; simp

/-- A script that starts with a call keeps to a list of calls if its rest
does. -/
theorem calls_ask_bind_prefix {answer : Except ε α} {f : α → Script κ ε β} {calls : List κ}
    (h : ∀ x, (f x).calls <+: calls) : (ask call answer >>= f).calls <+: call :: calls := by
  rcases hanswer : answer with e | x
  · rw [bind_of_error (by rw [result_ask])]
    exact ⟨calls, by rw [calls_ask, List.singleton_append]⟩
  · rw [bind_of_ok (by rw [result_ask])]
    exact List.prefix_cons_inj call |>.2 (h x)

end Script
