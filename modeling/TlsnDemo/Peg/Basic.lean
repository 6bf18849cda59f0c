import Mathlib.Data.List.Basic

/-!
# Parsing expressions with implicit whitespace

The state combinators a generated parser is made of: a parser reads a
fixed input from a position, under an atomicity, and either fails or
returns the position it stopped at with the pairs it emitted. Choice is
ordered, repetition is greedy, and nothing backtracks into a success.

Sequencing (`seq`) and repetition (`rep`) skip the grammar's whitespace
between their parts, but only in the non-atomic mode; a rule changes the
mode for everything it calls.
-/

namespace Peg

/-- Whether whitespace is skipped, and whether inner rules emit pairs. -/
inductive Atomicity where
  | atomic
  | compoundAtomic
  | nonAtomic
  deriving DecidableEq, Repr

/-- A matched rule, with its span and the pairs matched inside it. -/
inductive Pair (R : Type) where
  | node (rule : R) (start stop : ℕ) (inner : List (Pair R))
  deriving Repr

namespace Pair

variable {R : Type}

/-- The rule a pair was matched by. -/
def asRule : Pair R → R
  | node rule _ _ _ => rule

/-- The first position of a pair. -/
def start : Pair R → ℕ
  | node _ start _ _ => start

/-- The position after a pair. -/
def stop : Pair R → ℕ
  | node _ _ stop _ => stop

/-- The pairs matched inside a pair. -/
def intoInner : Pair R → List (Pair R)
  | node _ _ _ inner => inner

@[simp] theorem asRule_node (r : R) (i j : ℕ) (ts : List (Pair R)) :
    (node r i j ts).asRule = r := rfl

@[simp] theorem start_node (r : R) (i j : ℕ) (ts : List (Pair R)) :
    (node r i j ts).start = i := rfl

@[simp] theorem stop_node (r : R) (i j : ℕ) (ts : List (Pair R)) :
    (node r i j ts).stop = j := rfl

@[simp] theorem intoInner_node (r : R) (i j : ℕ) (ts : List (Pair R)) :
    (node r i j ts).intoInner = ts := rfl

end Pair

/-- What a run returns: where it stopped, and what it emitted. -/
abbrev Outcome (R : Type) := Option (ℕ × List (Pair R))

/-- A parser, run on an input, under an atomicity, from a position. -/
abbrev Parser (α R : Type) := List α → Atomicity → ℕ → Outcome R

variable {α R : Type}

/-! ## The state combinators -/

/-- Match the symbols of a literal one after the other. -/
def matchString [DecidableEq α] : List α → Parser α R
  | [], _, _, i => some (i, [])
  | c :: cs, s, a, i => if s[i]? = some c then matchString cs s a (i + 1) else none

/-- Match one symbol of a class. -/
def satisfy (p : α → Bool) : Parser α R := fun s _ i =>
  match s[i]? with
  | some c => if p c then some (i + 1, []) else none
  | none => none

/-- Match at the start of the input only. -/
def startOfInput : Parser α R := fun _ _ i => if i = 0 then some (i, []) else none

/-- Match at the end of the input only. -/
def endOfInput : Parser α R := fun s _ i => if s.length ≤ i then some (i, []) else none

/-- One parser after the other, with nothing in between. -/
def andThen (p q : Parser α R) : Parser α R := fun s a i =>
  match p s a i with
  | none => none
  | some (j, ts) =>
    match q s a j with
    | none => none
    | some (k, us) => some (k, ts ++ us)

/-- The first parser that matches. -/
def orElse (p q : Parser α R) : Parser α R := fun s a i =>
  match p s a i with
  | none => q s a i
  | some r => some r

/-- A match, or nothing. -/
def optional (p : Parser α R) : Parser α R := fun s a i =>
  match p s a i with
  | none => some (i, [])
  | some r => some r

/-- At most `n` matches. -/
def manyUpto : ℕ → Parser α R → List α → Atomicity → ℕ → ℕ × List (Pair R)
  | 0, _, _, _, i => (i, [])
  | n + 1, p, s, a, i =>
    match p s a i with
    | none => (i, [])
    | some (j, ts) =>
      let r := manyUpto n p s a j
      (r.1, ts ++ r.2)

/-- As many matches as there are. A match consumes at least one symbol,
so the symbols left bound their number. -/
def many (p : Parser α R) : Parser α R := fun s a i =>
  some (manyUpto (s.length - i) p s a i)

/-- The negative lookahead: match nothing, where `p` does not match. -/
def notFollowedBy (p : Parser α R) : Parser α R := fun s a i =>
  match p s a i with
  | none => some (i, [])
  | some _ => none

/-- Run a parser in a mode of its own. -/
def withAtomicity (b : Atomicity) (p : Parser α R) : Parser α R := fun s _ i => p s b i

/-- Emit a pair around what a rule matches, unless the mode is atomic. -/
def rule (r : R) (p : Parser α R) : Parser α R := fun s a i =>
  match p s a i with
  | none => none
  | some (j, ts) => some (j, if a = .atomic then ts else [.node r i j ts])

/-! ## The operators of a grammar

`ws` is the grammar's whitespace rule. -/

/-- Skip whitespace, in the non-atomic mode. -/
def skip (ws : Parser α R) : Parser α R := fun s a i =>
  if a = .nonAtomic then many ws s a i else some (i, [])

/-- Parts in sequence, with whitespace skipped between them. -/
def seq (ws : Parser α R) : List (Parser α R) → Parser α R
  | [] => fun _ _ i => some (i, [])
  | [p] => p
  | p :: q :: ps => andThen p (andThen (skip ws) (seq ws (q :: ps)))

/-- The first alternative that matches. -/
def choice : List (Parser α R) → Parser α R
  | [] => fun _ _ _ => none
  | p :: ps => orElse p (choice ps)

/-- Any number of matches, with whitespace skipped between them. -/
def rep (ws p : Parser α R) : Parser α R :=
  optional (andThen p (many (andThen (skip ws) p)))

/-- At least one match. The repetition is unrolled once, so whitespace
is skipped after the first match whether or not a second follows. -/
def rep1 (ws p : Parser α R) : Parser α R := seq ws [p, rep ws p]

/-! ## What a successful run says -/

variable {s : List α} {a : Atomicity} {i j : ℕ} {ts : List (Pair R)} {p q : Parser α R}

@[simp] theorem satisfy_eq_some {f : α → Bool} :
    satisfy f s a i = some (j, ts) ↔
      (∃ c, s[i]? = some c ∧ f c = true) ∧ j = i + 1 ∧ ts = [] := by
  unfold satisfy
  cases h : s[i]? with
  | none => simp
  | some c =>
    by_cases hc : f c = true
    · simp only [hc, if_true, Option.some.injEq, Prod.mk.injEq, exists_eq_left', true_and]
      exact and_congr eq_comm eq_comm
    · simp [hc]

theorem satisfy_eq_none {f : α → Bool} :
    (satisfy f s a i : Outcome R) = none ↔ ∀ c, s[i]? = some c → f c = false := by
  unfold satisfy
  cases h : s[i]? with
  | none => simp
  | some c => by_cases hc : f c <;> simp [hc]

theorem matchString_singleton_eq [DecidableEq α] {c : α} :
    (matchString [c] s a i : Outcome R) = if s[i]? = some c then some (i + 1, []) else none := rfl

@[simp] theorem matchString_singleton [DecidableEq α] {c : α} :
    matchString [c] s a i = some (j, ts) ↔ s[i]? = some c ∧ j = i + 1 ∧ ts = [] := by
  simp only [matchString]
  by_cases h : s[i]? = some c
  · simp [h, eq_comm]
  · simp [h]

theorem matchString_eq_some [DecidableEq α] {lit : List α} :
    matchString lit s a i = some (j, ts) ↔
      (∀ k, (hk : k < lit.length) → s[i + k]? = some lit[k]) ∧ j = i + lit.length ∧ ts = [] := by
  induction lit generalizing i with
  | nil => simp [matchString, eq_comm]
  | cons c cs ih =>
    simp only [matchString]
    by_cases h : s[i]? = some c
    · rw [if_pos h, ih]
      constructor
      · rintro ⟨hall, rfl, rfl⟩
        refine ⟨fun k hk => ?_, by simp [Nat.add_assoc, Nat.add_comm 1], rfl⟩
        cases k with
        | zero => simpa using h
        | succ k =>
          have := hall k (by simpa using hk)
          simpa [Nat.add_assoc, Nat.add_comm 1] using this
      · rintro ⟨hall, rfl, rfl⟩
        refine ⟨fun k hk => ?_, by simp [Nat.add_assoc, Nat.add_comm 1], rfl⟩
        have := hall (k + 1) (by simpa using hk)
        simpa [Nat.add_assoc, Nat.add_comm 1] using this
    · rw [if_neg h]
      constructor
      · simp
      · rintro ⟨hall, -, -⟩
        exact absurd (hall 0 (by simp)) h

@[simp] theorem startOfInput_eq_some :
    (startOfInput s a i : Outcome R) = some (j, ts) ↔ i = 0 ∧ j = 0 ∧ ts = [] := by
  unfold startOfInput
  split <;> simp_all [eq_comm]

@[simp] theorem endOfInput_eq_some :
    (endOfInput s a i : Outcome R) = some (j, ts) ↔ s.length ≤ i ∧ j = i ∧ ts = [] := by
  unfold endOfInput
  by_cases h : s.length ≤ i
  · simp only [h, if_true, Option.some.injEq, Prod.mk.injEq, true_and]
    exact and_congr eq_comm eq_comm
  · simp [h]

theorem andThen_eq_some :
    andThen p q s a i = some (j, ts) ↔
      ∃ k us vs, p s a i = some (k, us) ∧ q s a k = some (j, vs) ∧ ts = us ++ vs := by
  unfold andThen
  constructor
  · intro h
    split at h
    · simp at h
    · next k us hp =>
      split at h
      · simp at h
      · next l vs hq =>
        simp only [Option.some.injEq, Prod.mk.injEq] at h
        exact ⟨k, us, vs, hp, by rw [hq, h.1], h.2.symm⟩
  · rintro ⟨k, us, vs, hp, hq, rfl⟩
    simp [hp, hq]

theorem andThen_of_eq_some (h : p s a i = some (j, [])) :
    andThen p q s a i = q s a j := by
  simp only [andThen, h, List.nil_append]
  cases q s a j with
  | none => rfl
  | some r => rfl

theorem andThen_of_eq_none (h : p s a i = none) : andThen p q s a i = none := by
  simp only [andThen, h]

theorem orElse_eq_some {r : ℕ × List (Pair R)} :
    orElse p q s a i = some r ↔ p s a i = some r ∨ (p s a i = none ∧ q s a i = some r) := by
  unfold orElse
  split <;> simp_all

theorem orElse_eq_none :
    orElse p q s a i = none ↔ p s a i = none ∧ q s a i = none := by
  unfold orElse
  split <;> simp_all

theorem optional_eq_some :
    optional p s a i = some (j, ts) ↔
      p s a i = some (j, ts) ∨ (p s a i = none ∧ j = i ∧ ts = []) := by
  unfold optional
  split <;> simp_all [eq_comm]

theorem rule_eq_some {r : R} (ha : a ≠ .atomic) :
    rule r p s a i = some (j, ts) ↔
      ∃ us, p s a i = some (j, us) ∧ ts = [.node r i j us] := by
  unfold rule
  cases h : p s a i with
  | none => simp
  | some x =>
    obtain ⟨k, us⟩ := x
    simp only [if_neg ha, Option.some.injEq, Prod.mk.injEq]
    constructor
    · rintro ⟨rfl, rfl⟩
      exact ⟨us, ⟨rfl, rfl⟩, rfl⟩
    · rintro ⟨vs, ⟨rfl, rfl⟩, rfl⟩
      exact ⟨rfl, rfl⟩

@[simp] theorem withAtomicity_apply {b : Atomicity} :
    withAtomicity b p s a i = p s b i := rfl

@[simp] theorem choice_nil : choice ([] : List (Parser α R)) s a i = none := rfl

@[simp] theorem choice_cons {ps : List (Parser α R)} :
    choice (p :: ps) = orElse p (choice ps) := rfl

theorem notFollowedBy_eq_some :
    notFollowedBy p s a i = some (j, ts) ↔ p s a i = none ∧ j = i ∧ ts = [] := by
  unfold notFollowedBy
  split <;> simp_all [eq_comm]

end Peg
