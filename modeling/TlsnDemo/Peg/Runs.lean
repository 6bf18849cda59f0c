import TlsnDemo.Peg.Basic
import Mathlib.Order.Nat

/-!
# Repetition, and runs of one class

A greedy repetition is a chain of matches followed by a failure (`Chain`),
provided each match consumes something (`Progress`); the bound `many`
counts down is then never met. Repeating a single class is a run
(`runEnd`), and skipping a whitespace rule that is such a class moves to
the end of one (`skipTo`).
-/

namespace Peg

variable {α R : Type} {s : List α} {a : Atomicity} {i j k : ℕ}
variable {ts us : List (Pair R)} {p q : Parser α R}

/-- A match consumes at least one symbol and stays in the input. -/
def Progress (p : Parser α R) : Prop :=
  ∀ ⦃s a i j ts⦄, p s a i = some (j, ts) → i < j ∧ j ≤ s.length

/-- A match does not go back and does not leave the input. -/
def Stays (p : Parser α R) : Prop :=
  ∀ ⦃s a i j ts⦄, p s a i = some (j, ts) → i ≤ j ∧ (i ≤ s.length → j ≤ s.length)

theorem Progress.stays (hp : Progress p) : Stays p :=
  fun _ _ _ _ _ h => ⟨(hp h).1.le, fun _ => (hp h).2⟩

/-- **Matches one after the other, up to the first failure.** -/
inductive Chain (p : Parser α R) (s : List α) (a : Atomicity) :
    ℕ → ℕ → List (Pair R) → Prop
  | stop {i : ℕ} : p s a i = none → Chain p s a i i []
  | step {i j k : ℕ} {ts us : List (Pair R)} :
      p s a i = some (j, ts) → Chain p s a j k us → Chain p s a i k (ts ++ us)

namespace Chain

theorem le (hp : Progress p) (h : Chain p s a i j ts) : i ≤ j := by
  induction h with
  | stop _ => exact le_rfl
  | step hm _ ih => exact le_trans (hp hm).1.le ih

theorem le_length (hp : Progress p) (hi : i ≤ s.length) (h : Chain p s a i j ts) :
    j ≤ s.length := by
  induction h with
  | stop _ => exact hi
  | step hm _ ih => exact ih (hp hm).2

theorem step_nil (hm : p s a i = some (j, [])) (h : Chain p s a j k us) : Chain p s a i k us :=
  step hm h

/-- Where a chain stops there is no further match. -/
theorem stops (h : Chain p s a i j ts) : p s a j = none := by
  induction h with
  | stop h => exact h
  | step _ _ ih => exact ih

/-- A chain is determined by where it starts. -/
theorem unique (h : Chain p s a i j ts) (h' : Chain p s a i k us) : j = k ∧ ts = us := by
  induction h generalizing k us with
  | stop hn =>
    cases h' with
    | stop _ => exact ⟨rfl, rfl⟩
    | step hm _ => rw [hn] at hm; exact absurd hm (by simp)
  | step hm _ ih =>
    cases h' with
    | stop hn => rw [hn] at hm; exact absurd hm (by simp)
    | step hm' hc' =>
      rw [hm] at hm'
      simp only [Option.some.injEq, Prod.mk.injEq] at hm'
      obtain ⟨rfl, rfl⟩ := hm'
      obtain ⟨rfl, rfl⟩ := ih hc'
      exact ⟨rfl, rfl⟩

end Chain

/-- Past the end of the input a consuming parser fails. -/
theorem Progress.eq_none (hp : Progress p) (hi : s.length ≤ i) : p s a i = none := by
  cases h : p s a i with
  | none => rfl
  | some r =>
    obtain ⟨j, ts⟩ := r
    have := hp h
    omega

theorem chain_manyUpto (hp : Progress p) {n : ℕ} (hn : s.length - i ≤ n) :
    Chain p s a i (manyUpto n p s a i).1 (manyUpto n p s a i).2 := by
  induction n generalizing i with
  | zero => exact Chain.stop (hp.eq_none (by omega))
  | succ n ih =>
    rw [manyUpto]
    cases h : p s a i with
    | none => exact Chain.stop h
    | some r =>
      obtain ⟨j, ts⟩ := r
      have := hp h
      exact Chain.step h (ih (by omega))

/-- **A greedy repetition is a chain**: the bound is never what stops it. -/
theorem many_eq_some (hp : Progress p) :
    many p s a i = some (j, ts) ↔ Chain p s a i j ts := by
  have hc : Chain p s a i _ _ := chain_manyUpto hp (a := a) (le_refl (s.length - i))
  simp only [many, Option.some.injEq]
  constructor
  · intro h
    rw [h] at hc
    exact hc
  · intro h
    obtain ⟨h1, h2⟩ := hc.unique h
    exact Prod.ext h1 h2

/-! ## Which parsers move on -/

namespace Stays

theorem andThen (hp : Stays p) (hq : Stays q) : Stays (andThen p q) := by
  intro s a i j ts h
  obtain ⟨k, us, vs, h1, h2, -⟩ := andThen_eq_some.1 h
  have := hp h1
  have := hq h2
  omega

theorem matchString [DecidableEq α] {lit : List α} : Stays (matchString lit : Parser α R) := by
  intro s a i j ts h
  obtain ⟨hall, rfl, -⟩ := matchString_eq_some.1 h
  refine ⟨Nat.le_add_right .., fun hi => ?_⟩
  rcases Nat.eq_zero_or_pos lit.length with h0 | h0
  · omega
  · have := (List.getElem?_eq_some_iff.1 (hall (lit.length - 1) (by omega))).1
    omega

theorem many (hp : Progress p) : Stays (many p) := by
  intro s a i j ts h
  have hc := (many_eq_some hp).1 h
  exact ⟨hc.le hp, fun hi => hc.le_length hp hi⟩

theorem skip (hp : Progress p) : Stays (skip p) := by
  intro s a i j ts h
  unfold Peg.skip at h
  split at h
  · exact Stays.many hp h
  · simp only [Option.some.injEq, Prod.mk.injEq] at h
    obtain ⟨rfl, -⟩ := h
    exact ⟨le_rfl, id⟩

theorem optional (hp : Stays p) : Stays (optional p) := by
  intro s a i j ts h
  rcases optional_eq_some.1 h with h | ⟨-, rfl, -⟩
  · exact hp h
  · exact ⟨le_rfl, id⟩

theorem notFollowedBy : Stays (notFollowedBy p) := by
  intro s a i j ts h
  obtain ⟨-, rfl, -⟩ := notFollowedBy_eq_some.1 h
  exact ⟨le_rfl, id⟩

theorem rule {r : R} (hp : Stays p) : Stays (rule r p) := by
  intro s a i j ts h
  simp only [Peg.rule] at h
  split at h
  · simp at h
  · next k us hk =>
    simp only [Option.some.injEq, Prod.mk.injEq] at h
    obtain ⟨rfl, -⟩ := h
    exact hp hk

theorem seq {ws : Parser α R} (hws : Progress ws) :
    ∀ {ps : List (Parser α R)}, (∀ p ∈ ps, Stays p) → Stays (Peg.seq ws ps)
  | [], _ => by
    intro s a i j ts h
    simp only [Peg.seq, Option.some.injEq, Prod.mk.injEq] at h
    obtain ⟨rfl, -⟩ := h
    exact ⟨le_rfl, id⟩
  | [p], h => h p (by simp)
  | p :: q :: ps, h =>
    (h p (by simp)).andThen
      ((Stays.skip hws).andThen (seq hws fun r hr => h r (List.mem_cons_of_mem _ hr)))

end Stays

namespace Progress

/-- A sequence makes progress where its first part does. -/
theorem andThen (hp : Progress p) (hq : Stays q) : Progress (andThen p q) := by
  intro s a i j ts h
  obtain ⟨k, us, vs, h1, h2, -⟩ := andThen_eq_some.1 h
  have := hp h1
  have := hq h2
  omega

/-- And where a later part does. -/
theorem after (hp : Stays p) (hq : Progress q) : Progress (Peg.andThen p q) := by
  intro s a i j ts h
  obtain ⟨k, us, vs, h1, h2, -⟩ := andThen_eq_some.1 h
  have := hp h1
  have := hq h2
  omega

theorem satisfy {f : α → Bool} : Progress (satisfy f : Parser α R) := by
  intro s a i j ts h
  obtain ⟨⟨c, hc, -⟩, rfl, -⟩ := satisfy_eq_some.1 h
  have := (List.getElem?_eq_some_iff.1 hc).1
  omega

theorem matchString [DecidableEq α] {c : α} {cs : List α} :
    Progress (matchString (c :: cs) : Parser α R) := by
  intro s a i j ts h
  obtain ⟨hall, rfl, -⟩ := matchString_eq_some.1 h
  have := (List.getElem?_eq_some_iff.1 (hall cs.length (by simp))).1
  simp only [List.length_cons]
  omega

theorem orElse (hp : Progress p) (hq : Progress q) : Progress (orElse p q) := by
  intro s a i j ts h
  rcases orElse_eq_some.1 h with h | ⟨-, h⟩
  · exact hp h
  · exact hq h

theorem choice : ∀ {ps : List (Parser α R)}, (∀ p ∈ ps, Progress p) → Progress (choice ps)
  | [], _ => fun _ _ _ _ _ h => by simp at h
  | p :: ps, h => (h p (by simp)).orElse (choice fun q hq => h q (List.mem_cons_of_mem _ hq))

theorem rule {r : R} (hp : Progress p) : Progress (rule r p) := by
  intro s a i j ts h
  simp only [Peg.rule] at h
  split at h
  · simp at h
  · next k us hk =>
    simp only [Option.some.injEq, Prod.mk.injEq] at h
    obtain ⟨rfl, -⟩ := h
    exact hp hk

theorem withAtomicity {b : Atomicity} (hp : Progress p) : Progress (withAtomicity b p) :=
  fun _ _ _ _ _ h => hp h

theorem seq {ws : Parser α R} (hws : Progress ws) (hp : Progress p)
    {ps : List (Parser α R)} (hps : ∀ p ∈ ps, Stays p) : Progress (Peg.seq ws (p :: ps)) := by
  cases ps with
  | nil => exact hp
  | cons q ps => exact hp.andThen ((Stays.skip hws).andThen (Stays.seq hws hps))

theorem seq_after {ws : Parser α R} (hws : Progress ws) (hp : Stays p) {ps : List (Parser α R)}
    (hps : Progress (Peg.seq ws (q :: ps))) : Progress (Peg.seq ws (p :: q :: ps)) :=
  after hp (after (Stays.skip hws) hps)

end Progress

theorem Stays.rep {ws : Parser α R} (hws : Progress ws) (hp : Progress p) : Stays (rep ws p) :=
  Stays.optional (hp.stays.andThen (Stays.many (Progress.after (Stays.skip hws) hp)))

theorem Progress.rep1 {ws : Parser α R} (hws : Progress ws) (hp : Progress p) :
    Progress (rep1 ws p) :=
  Progress.seq hws hp fun _ hq => by
    rw [List.mem_singleton.1 hq]
    exact Stays.rep hws hp

/-! ## Runs -/

/-- The first position from `i` on where `f` does not hold. -/
def runEnd (f : α → Bool) (s : List α) (i : ℕ) : ℕ :=
  i + ((s.drop i).takeWhile f).length

variable {f g : α → Bool}

theorem runEnd_of_true {c : α} (hc : s[i]? = some c) (hf : f c = true) :
    runEnd f s i = runEnd f s (i + 1) := by
  obtain ⟨hi, rfl⟩ := List.getElem?_eq_some_iff.1 hc
  rw [runEnd, runEnd, List.drop_eq_getElem_cons hi, List.takeWhile_cons, if_pos hf,
    List.length_cons]
  omega

theorem runEnd_of_false (h : ∀ c, s[i]? = some c → f c = false) : runEnd f s i = i := by
  rw [runEnd]
  cases hd : s.drop i with
  | nil => simp
  | cons c cs =>
    have hc : s[i]? = some c := by
      rw [← List.head?_drop, hd, List.head?_cons]
    simp [h c hc]

theorem le_runEnd : i ≤ runEnd f s i := Nat.le_add_right ..

/-- A run is determined by its symbols and what stops it. -/
theorem runEnd_eq (hij : i ≤ j) (hin : ∀ k, i ≤ k → k < j → ∃ c, s[k]? = some c ∧ f c = true)
    (hend : ∀ c, s[j]? = some c → f c = false) : runEnd f s i = j := by
  obtain ⟨n, rfl⟩ := Nat.exists_eq_add_of_le hij
  induction n generalizing i with
  | zero => exact runEnd_of_false hend
  | succ n ih =>
    obtain ⟨c, hc, hf⟩ := hin i le_rfl (by omega)
    rw [runEnd_of_true hc hf, ih (by omega) (fun k h1 h2 => hin k (by omega) (by omega))]
    · omega
    · intro c hc
      exact hend c (by rw [← hc]; congr 1; omega)

/-- Every symbol of a run is of its class. -/
theorem of_lt_runEnd (h1 : i ≤ k) (h2 : k < runEnd f s i) : ∃ c, s[k]? = some c ∧ f c = true := by
  obtain ⟨n, hn⟩ : ∃ n, n = runEnd f s i - i := ⟨_, rfl⟩
  induction n generalizing i with
  | zero => omega
  | succ n ih =>
    by_cases hc : ∃ c, s[i]? = some c ∧ f c = true
    · rcases Nat.eq_or_lt_of_le h1 with rfl | hlt
      · exact hc
      · obtain ⟨c, hc, hf⟩ := hc
        have he := runEnd_of_true hc hf
        exact ih (i := i + 1) hlt (by omega) (by omega)
    · rw [runEnd_of_false (fun c hc' => by
        by_contra hf
        exact hc ⟨c, hc', by simpa using hf⟩)] at hn
      omega

/-- And the symbol after it is not. -/
theorem runEnd_stops {c : α} (hc : s[runEnd f s i]? = some c) : f c = false := by
  obtain ⟨n, hn⟩ : ∃ n, n = runEnd f s i - i := ⟨_, rfl⟩
  induction n generalizing i with
  | zero =>
    have hi : runEnd f s i = i := by have := le_runEnd (f := f) (s := s) (i := i); omega
    by_contra hf
    rw [hi] at hc
    rw [runEnd_of_true hc (by simpa using hf)] at hi
    have := le_runEnd (f := f) (s := s) (i := i + 1)
    omega
  | succ n ih =>
    have hlt : i < runEnd f s i := by omega
    obtain ⟨d, hd, hf⟩ := of_lt_runEnd le_rfl hlt
    have he := runEnd_of_true hd hf
    exact ih (he ▸ hc) (by omega)

@[simp] theorem runEnd_runEnd : runEnd f s (runEnd f s i) = runEnd f s i :=
  runEnd_of_false fun _ hc => runEnd_stops hc

theorem chain_satisfy :
    Chain (satisfy f : Parser α R) s a i (runEnd f s i) [] := by
  obtain ⟨n, hn⟩ : ∃ n, n = runEnd f s i - i := ⟨_, rfl⟩
  induction n generalizing i with
  | zero =>
    have hi : runEnd f s i = i := by have := le_runEnd (f := f) (s := s) (i := i); omega
    rw [hi]
    exact Chain.stop (satisfy_eq_none.2 fun c hc => runEnd_stops (i := i) (by rw [hi]; exact hc))
  | succ n ih =>
    obtain ⟨c, hc, hf⟩ := of_lt_runEnd (f := f) (s := s) (le_refl i) (by omega)
    have he := runEnd_of_true hc hf
    rw [he]
    exact Chain.step (satisfy_eq_some.2 ⟨⟨c, hc, hf⟩, rfl, rfl⟩) (ih (by omega))

/-- **Repeating a class is a run.** -/
theorem many_satisfy :
    many (satisfy f : Parser α R) s a i = some (runEnd f s i, []) :=
  (many_eq_some Progress.satisfy).2 chain_satisfy

/-! ## Skipping -/

/-- Where skipping a class of whitespace stops. -/
def skipTo (f : α → Bool) (s : List α) (a : Atomicity) (i : ℕ) : ℕ :=
  if a = .nonAtomic then runEnd f s i else i

theorem skip_satisfy :
    skip (satisfy f : Parser α R) s a i = some (skipTo f s a i, []) := by
  unfold skip skipTo
  split
  · exact many_satisfy
  · rfl

theorem skipTo_of_ne (ha : a ≠ .nonAtomic) : skipTo f s a i = i := if_neg ha

@[simp] theorem skipTo_compoundAtomic : skipTo f s .compoundAtomic i = i := rfl

@[simp] theorem skipTo_nonAtomic : skipTo f s .nonAtomic i = runEnd f s i := rfl

theorem le_skipTo : i ≤ skipTo f s a i := by
  unfold skipTo
  split
  · exact le_runEnd
  · exact le_rfl

/-- Skipping does not move from a symbol that is not whitespace. -/
theorem skipTo_of_false (h : ∀ c, s[i]? = some c → f c = false) : skipTo f s a i = i := by
  unfold skipTo
  split
  · exact runEnd_of_false h
  · rfl

@[simp] theorem skipTo_skipTo : skipTo f s a (skipTo f s a i) = skipTo f s a i := by
  unfold skipTo
  split <;> simp

/-- What is skipped is whitespace. -/
theorem of_lt_skipTo (h1 : i ≤ k) (h2 : k < skipTo f s a i) :
    ∃ c, s[k]? = some c ∧ f c = true := by
  unfold skipTo at h2
  split at h2
  · exact of_lt_runEnd h1 h2
  · omega

section Sequences

variable {ps : List (Parser α R)}

@[simp] theorem seq_singleton {ws : Parser α R} : seq ws [p] = p := rfl

/-- **A sequence, one part at a time.** -/
theorem seq_cons_eq_some :
    seq (satisfy f) (p :: q :: ps) s a i = some (j, ts) ↔
      ∃ k us vs, p s a i = some (k, us) ∧
        seq (satisfy f) (q :: ps) s a (skipTo f s a k) = some (j, vs) ∧ ts = us ++ vs := by
  rw [seq, andThen_eq_some]
  constructor
  · rintro ⟨k, us, vs, hp, hrest, rfl⟩
    obtain ⟨l, us', vs', hskip, hq, rfl⟩ := andThen_eq_some.1 hrest
    simp only [skip_satisfy, Option.some.injEq, Prod.mk.injEq] at hskip
    obtain ⟨rfl, rfl⟩ := hskip
    exact ⟨k, us, vs', hp, hq, rfl⟩
  · rintro ⟨k, us, vs, hp, hq, rfl⟩
    exact ⟨k, us, vs, hp, andThen_eq_some.2 ⟨_, [], vs, skip_satisfy, hq, rfl⟩, rfl⟩

/-- Where a first part matches, the sequence goes on from there. -/
theorem seq_cons_of_eq_some (hp : p s a i = some (k, us))
    (hq : seq (satisfy f) (q :: ps) s a (skipTo f s a k) = some (j, ts)) :
    seq (satisfy f) (p :: q :: ps) s a i = some (j, us ++ ts) :=
  seq_cons_eq_some.2 ⟨k, us, ts, hp, hq, rfl⟩

theorem seq_cons_of_eq_none {ws : Parser α R} (hp : p s a i = none) :
    seq ws (p :: ps) s a i = none := by
  cases ps with
  | nil => exact hp
  | cons q ps => simp only [seq, andThen, hp]

/-- Outside the non-atomic mode, a sequence skips nothing. -/
theorem seq_cons_of_ne (ha : a ≠ .nonAtomic) {ws : Parser α R} :
    seq ws (p :: q :: ps) s a i = andThen p (seq ws (q :: ps)) s a i := by
  simp only [seq, andThen, skip, if_neg ha]
  cases p s a i with
  | none => rfl
  | some r =>
    obtain ⟨j, ts⟩ := r
    simp only [List.nil_append]
    cases seq ws (q :: ps) s a j with
    | none => rfl
    | some r => rfl

/-- Outside the non-atomic mode, a repeated class is a run. -/
theorem rep_satisfy (ha : a ≠ .nonAtomic) {ws : Parser α R} :
    rep ws (satisfy f) s a i = some (runEnd f s i, []) := by
  have hskip : ∀ i, andThen (skip ws) (satisfy f) s a i = satisfy f s a i := by
    intro i
    simp only [andThen, skip, if_neg ha]
    cases satisfy f s a i with
    | none => rfl
    | some r => rfl
  have hmany : ∀ n i, manyUpto n (andThen (skip ws) (satisfy f)) s a i =
      manyUpto n (satisfy f) s a i := by
    intro n
    induction n with
    | zero => intro i; rfl
    | succ n ih => intro i; simp only [manyUpto, hskip, ih]
  by_cases hc : ∃ c, s[i]? = some c ∧ f c = true
  · obtain ⟨c, hc, hf⟩ := hc
    have h1 : (satisfy f s a i : Outcome R) = some (i + 1, []) :=
      satisfy_eq_some.2 ⟨⟨c, hc, hf⟩, rfl, rfl⟩
    have h2 : (many (andThen (skip ws) (satisfy f)) s a (i + 1) : Outcome R)
        = some (runEnd f s (i + 1), []) := by
      rw [← many_satisfy (a := a), many, many, hmany]
    rw [rep, optional_eq_some, runEnd_of_true hc hf]
    exact Or.inl (andThen_eq_some.2 ⟨_, _, _, h1, h2, rfl⟩)
  · have hf : ∀ c, s[i]? = some c → f c = false := fun c hc' => by
      by_contra hf
      exact hc ⟨c, hc', by simpa using hf⟩
    rw [rep, optional_eq_some, runEnd_of_false hf]
    refine Or.inr ⟨?_, rfl, rfl⟩
    simp only [andThen, satisfy_eq_none.2 hf]

end Sequences

end Peg
