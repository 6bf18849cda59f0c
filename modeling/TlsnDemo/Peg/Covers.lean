import TlsnDemo.Peg.Runs

/-!
# What the symbols of a match are

A parser covers its matches with a class of symbols when every symbol a
match consumes is of the class. The property goes through all combinators,
so a grammar has it where its terminals do.
-/

namespace Peg

variable {α R : Type} {p q ws : Parser α R} {f g : α → Bool}

/-- **Every symbol of a match is of a class.** -/
def Covers (f : α → Bool) (p : Parser α R) : Prop :=
  ∀ ⦃s a i j ts⦄, p s a i = some (j, ts) → ∀ k, i ≤ k → k < j → ∃ c, s[k]? = some c ∧ f c = true

namespace Covers

theorem satisfy (h : ∀ c, g c = true → f c = true) : Covers f (satisfy g : Parser α R) := by
  intro s a i j ts hm k h1 h2
  obtain ⟨⟨c, hc, hg⟩, rfl, -⟩ := satisfy_eq_some.1 hm
  obtain rfl : k = i := by omega
  exact ⟨c, hc, h c hg⟩

theorem matchString [DecidableEq α] {lit : List α} (h : lit.all f = true) :
    Covers f (matchString lit : Parser α R) := by
  intro s a i j ts hm k h1 h2
  obtain ⟨hall, rfl, -⟩ := matchString_eq_some.1 hm
  have hk : k - i < lit.length := by omega
  have hc := hall (k - i) hk
  rw [Nat.add_sub_cancel' h1] at hc
  exact ⟨_, hc, List.all_eq_true.1 h _ (List.getElem_mem hk)⟩

theorem startOfInput : Covers f (startOfInput : Parser α R) := by
  intro s a i j ts hm k h1 h2
  obtain ⟨rfl, rfl, -⟩ := startOfInput_eq_some.1 hm
  omega

theorem endOfInput : Covers f (endOfInput : Parser α R) := by
  intro s a i j ts hm k h1 h2
  obtain ⟨-, rfl, -⟩ := endOfInput_eq_some.1 hm
  omega

theorem andThen (hp : Covers f p) (hq : Covers f q) : Covers f (andThen p q) := by
  intro s a i j ts hm k h1 h2
  obtain ⟨l, us, vs, hl, hj, -⟩ := andThen_eq_some.1 hm
  rcases Nat.lt_or_ge k l with hlt | hge
  · exact hp hl k h1 hlt
  · exact hq hj k hge h2

theorem orElse (hp : Covers f p) (hq : Covers f q) : Covers f (orElse p q) := by
  intro s a i j ts hm
  rcases orElse_eq_some.1 hm with hm | ⟨-, hm⟩
  · exact hp hm
  · exact hq hm

theorem optional (hp : Covers f p) : Covers f (optional p) := by
  intro s a i j ts hm k h1 h2
  rcases optional_eq_some.1 hm with hm | ⟨-, rfl, -⟩
  · exact hp hm k h1 h2
  · omega

theorem notFollowedBy : Covers f (notFollowedBy p) := by
  intro s a i j ts hm k h1 h2
  obtain ⟨-, rfl, -⟩ := notFollowedBy_eq_some.1 hm
  omega

theorem rule {r : R} (hp : Covers f p) : Covers f (rule r p) := by
  intro s a i j ts hm
  simp only [Peg.rule] at hm
  split at hm
  · exact absurd hm (by simp)
  · next k us hk =>
    simp only [Option.some.injEq, Prod.mk.injEq] at hm
    obtain ⟨rfl, -⟩ := hm
    exact hp hk

theorem withAtomicity {b : Atomicity} (hp : Covers f p) : Covers f (withAtomicity b p) :=
  fun _ _ _ _ _ hm => hp hm

/-- Of a repetition too, however often it matches. -/
theorem many (hp : Covers f p) : Covers f (many p) := by
  intro s a i j ts hm
  obtain ⟨n, hn⟩ : ∃ n, n = s.length - i := ⟨_, rfl⟩
  rw [Peg.many, ← hn, Option.some.injEq] at hm
  clear hn
  induction n generalizing i ts with
  | zero =>
    intro k h1 h2
    simp only [manyUpto, Prod.mk.injEq] at hm
    obtain ⟨rfl, -⟩ := hm
    omega
  | succ n ih =>
    intro k h1 h2
    rw [manyUpto] at hm
    cases hs : p s a i with
    | none =>
      simp only [hs, Prod.mk.injEq] at hm
      obtain ⟨rfl, -⟩ := hm
      omega
    | some r =>
      obtain ⟨l, us⟩ := r
      simp only [hs, Prod.mk.injEq] at hm
      obtain ⟨rfl, -⟩ := hm
      rcases Nat.lt_or_ge k l with hlt | hge
      · exact hp hs k h1 hlt
      · exact ih rfl k hge h2

theorem skip (hws : Covers f ws) : Covers f (skip ws) := by
  intro s a i j ts hm k h1 h2
  unfold Peg.skip at hm
  split at hm
  · exact many hws hm k h1 h2
  · simp only [Option.some.injEq, Prod.mk.injEq] at hm
    omega

theorem seq_cons {ps : List (Parser α R)} (hws : Covers f ws) (hp : Covers f p)
    (h : Covers f (Peg.seq ws (q :: ps))) : Covers f (Peg.seq ws (p :: q :: ps)) :=
  hp.andThen ((skip hws).andThen h)

theorem choice_cons {ps : List (Parser α R)} (hp : Covers f p) (h : Covers f (choice ps)) :
    Covers f (choice (p :: ps)) := hp.orElse h

theorem choice_one (hp : Covers f p) : Covers f (choice [p]) :=
  hp.choice_cons fun _ _ _ _ _ hm => absurd hm (by simp)

theorem rep (hws : Covers f ws) (hp : Covers f p) : Covers f (rep ws p) :=
  (hp.andThen ((skip hws).andThen hp).many).optional

theorem rep1 (hws : Covers f ws) (hp : Covers f p) : Covers f (rep1 ws p) :=
  seq_cons hws hp (rep hws hp)

end Covers

end Peg
