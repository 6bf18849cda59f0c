import TlsnDemo.Peg.Runs

/-!
# Repetition with whitespace between the matches

`rep` skips whitespace between matches but not after the last one, so it
is a chain of "skip, then match" (`Next`). Started where whitespace has
been skipped already, it is the chain from before it (`rep_skipTo`). A
list with separators is a first item and such a chain (`list_eq_some`),
and a class repeated in the non-atomic mode is a run of the class and of
whitespace that does not end in whitespace (`Spaced`).
-/

namespace Peg

variable {α R : Type} {s : List α} {a : Atomicity} {i j k l : ℕ}
variable {ts us : List (Pair R)} {p q : Parser α R} {f w : α → Bool}

/-- The next match of a repetition: skip, then match. -/
def next (ws p : Parser α R) : Parser α R := andThen (skip ws) p

theorem next_eq_some :
    next (satisfy w) p s a i = some (j, ts) ↔ p s a (skipTo w s a i) = some (j, ts) := by
  rw [next, andThen_eq_some]
  constructor
  · rintro ⟨k, us, vs, h1, h2, rfl⟩
    simp only [skip_satisfy, Option.some.injEq, Prod.mk.injEq] at h1
    obtain ⟨rfl, rfl⟩ := h1
    exact h2
  · intro h
    exact ⟨_, [], ts, skip_satisfy, h, rfl⟩

theorem next_eq_none :
    next (satisfy w) p s a i = none ↔ p s a (skipTo w s a i) = none := by
  rw [Option.eq_none_iff_forall_ne_some, Option.eq_none_iff_forall_ne_some]
  exact forall_congr' fun ⟨j, ts⟩ => not_congr next_eq_some

theorem Progress.next (hp : Progress p) : Progress (next (Peg.satisfy w) p) := by
  intro s a i j ts h
  have h1 := hp (next_eq_some.1 h)
  have := le_skipTo (f := w) (s := s) (a := a) (i := i)
  omega

/-- **A repetition from where whitespace has been skipped** is the chain
from before the whitespace; where nothing matches, it has moved over the
whitespace all the same. -/
theorem rep_skipTo (hp : Progress p) (h : Chain (next (satisfy w) p) s a i j ts) :
    ∃ k, rep (satisfy w) p s a (skipTo w s a i) = some (k, ts) ∧
      (k = j ∨ j = i ∧ k = skipTo w s a i) := by
  cases h with
  | stop hn =>
    refine ⟨skipTo w s a i, optional_eq_some.2 (Or.inr ⟨?_, rfl, rfl⟩), Or.inr ⟨rfl, rfl⟩⟩
    simp only [andThen, next_eq_none.1 hn]
  | step hm hc =>
    refine ⟨j, optional_eq_some.2 (Or.inl ?_), Or.inl rfl⟩
    exact andThen_eq_some.2 ⟨_, _, _, next_eq_some.1 hm, (many_eq_some hp.next).2 hc, rfl⟩

theorem skipTo_eq_of_rep (h : k = j ∨ j = i ∧ k = skipTo w s a i) :
    skipTo w s a k = skipTo w s a j := by
  rcases h with rfl | ⟨rfl, rfl⟩
  · rfl
  · exact skipTo_skipTo

/-- Every repetition is such a chain. -/
theorem exists_chain_of_rep (hp : Progress p)
    (h : rep (satisfy w) p s a (skipTo w s a i) = some (k, ts)) :
    ∃ j, Chain (next (satisfy w) p) s a i j ts ∧ (k = j ∨ j = i ∧ k = skipTo w s a i) := by
  have hc : Chain (next (satisfy w) p) s a i (manyUpto (s.length - i) (next (satisfy w) p) s a i).1
      (manyUpto (s.length - i) (next (satisfy w) p) s a i).2 := chain_manyUpto hp.next (le_refl _)
  obtain ⟨k', hk', hsk⟩ := rep_skipTo hp hc
  rw [h] at hk'
  simp only [Option.some.injEq, Prod.mk.injEq] at hk'
  obtain ⟨rfl, hts⟩ := hk'
  exact ⟨_, hts ▸ hc, hsk⟩

/-- **A list with something to close it**: a first item, the chain of the
others, and the closing part. -/
theorem list_eq_some {m r close : Parser α R} (hr : Progress r) :
    seq (satisfy w) [m, rep (satisfy w) r, close] s a i = some (l, ts) ↔
      ∃ j k us vs xs, m s a i = some (j, us) ∧ Chain (next (satisfy w) r) s a j k vs ∧
        close s a (skipTo w s a k) = some (l, xs) ∧ ts = us ++ (vs ++ xs) := by
  rw [seq_cons_eq_some]
  constructor
  · rintro ⟨j, us, zs, hm, hrest, rfl⟩
    obtain ⟨k', vs, xs, hrep, hclose, rfl⟩ := seq_cons_eq_some.1 hrest
    obtain ⟨k, hc, hsk⟩ := exists_chain_of_rep hr hrep
    rw [skipTo_eq_of_rep hsk] at hclose
    exact ⟨j, k, us, vs, xs, hm, hc, hclose, rfl⟩
  · rintro ⟨j, k, us, vs, xs, hm, hc, hclose, rfl⟩
    obtain ⟨k', hrep, hsk⟩ := rep_skipTo hr hc
    rw [← skipTo_eq_of_rep hsk] at hclose
    exact ⟨j, us, vs ++ xs, hm, seq_cons_of_eq_some hrep hclose, rfl⟩

/-! ## A class, repeated in the non-atomic mode -/

/-- From `i` up to `j` there are only symbols of `f` and whitespace, the
last of them of `f`, and no symbol of `f` follows the whitespace after `j`. -/
structure Spaced (f w : α → Bool) (s : List α) (i j : ℕ) : Prop where
  le : i ≤ j
  mem : ∀ k, i ≤ k → k < j → ∃ c, s[k]? = some c ∧ (f c = true ∨ w c = true)
  last : i < j → ∃ c, s[j - 1]? = some c ∧ f c = true ∧ w c = false
  stops : ∀ c, s[runEnd w s j]? = some c → f c = false

/-- A chain of the class, with whitespace before each symbol, is spaced. -/
theorem spaced_of_chain (h : Chain (next (satisfy w) (satisfy f : Parser α R)) s .nonAtomic i j ts) :
    Spaced f w s i j ∧ ts = [] := by
  induction h with
  | stop hn =>
    refine ⟨⟨le_rfl, fun k h1 h2 => by omega, fun h => by omega, ?_⟩, rfl⟩
    exact satisfy_eq_none.1 (next_eq_none.1 hn)
  | @step i j k ts us hm _ ih =>
    obtain ⟨⟨c, hc, hf⟩, rfl, rfl⟩ := satisfy_eq_some.1 (next_eq_some.1 hm)
    simp only [skipTo_nonAtomic] at hc ih
    obtain ⟨h, rfl⟩ := ih
    have hle : i ≤ runEnd w s i := le_runEnd
    have hk := h.le
    refine ⟨⟨by omega, fun m h1 h2 => ?_, fun _ => ?_, h.stops⟩, rfl⟩
    · rcases Nat.lt_or_ge m (runEnd w s i) with hlt | hge
      · obtain ⟨d, hd, hw⟩ := of_lt_runEnd h1 hlt
        exact ⟨d, hd, Or.inr hw⟩
      · rcases Nat.eq_or_lt_of_le hge with rfl | hlt
        · exact ⟨c, hc, Or.inl hf⟩
        · exact h.mem m hlt h2
    · rcases Nat.eq_or_lt_of_le hk with heq | hlt
      · refine ⟨c, ?_, hf, runEnd_stops hc⟩
        rw [← heq, Nat.add_sub_cancel]
        exact hc
      · exact h.last hlt

/-- And a spaced run is such a chain: what is left of it after a symbol
is spaced again. -/
theorem Spaced.chain (h : Spaced f w s i j) :
    Chain (next (satisfy w) (satisfy f : Parser α R)) s .nonAtomic i j [] := by
  obtain ⟨n, hn⟩ : ∃ n, n = j - i := ⟨_, rfl⟩
  induction n using Nat.strong_induction_on generalizing i with
  | _ n ih =>
    rcases Nat.eq_or_lt_of_le h.le with rfl | hlt
    · exact Chain.stop (next_eq_none.2 (satisfy_eq_none.2 h.stops))
    · obtain ⟨c, hc, hf, hw⟩ := h.last hlt
      -- the whitespace in front ends before the last symbol
      have hrun : runEnd w s i < j := by
        by_contra hge
        obtain ⟨d, hd, hwd⟩ := of_lt_runEnd (f := w) (s := s) (i := i) (k := j - 1) (by omega)
          (by omega)
        rw [hc] at hd
        simp only [Option.some.injEq] at hd
        rw [← hd, hw] at hwd
        exact absurd hwd (by simp)
      have hle : i ≤ runEnd w s i := le_runEnd
      obtain ⟨d, hd, hfd⟩ := h.mem _ hle hrun
      have hfd : f d = true := by
        rcases hfd with hfd | hwd
        · exact hfd
        · rw [runEnd_stops hd] at hwd
          exact absurd hwd (by simp)
      refine Chain.step_nil (next_eq_some.2 (satisfy_eq_some.2 ⟨⟨d, hd, hfd⟩, rfl, rfl⟩)) ?_
      rw [skipTo_nonAtomic]
      exact ih (j - (runEnd w s i + 1)) (by omega)
        ⟨by omega, fun k h1 h2 => h.mem k (by omega) h2, fun _ => ⟨c, hc, hf, hw⟩, h.stops⟩ rfl

/-- **A repeated class is a spaced run**, from a symbol that is not
whitespace. -/
theorem rep_satisfy_nonAtomic (hi : ∀ c, s[i]? = some c → w c = false) :
    rep (satisfy w) (satisfy f : Parser α R) s .nonAtomic i = some (j, ts) ↔
      Spaced f w s i j ∧ ts = [] := by
  have hsk : skipTo w s .nonAtomic i = i := skipTo_of_false hi
  rw [← hsk]
  constructor
  · intro h
    obtain ⟨k, hc, hk⟩ := exists_chain_of_rep Progress.satisfy h
    obtain ⟨h, rfl⟩ := spaced_of_chain hc
    rw [hsk] at hk ⊢
    obtain rfl : j = k := by omega
    exact ⟨h, rfl⟩
  · rintro ⟨h, rfl⟩
    rw [hsk] at h
    obtain ⟨k, hk, hkj⟩ := rep_skipTo (Progress.satisfy (R := R)) h.chain
    rw [hk]
    have : k = j := by omega
    rw [this]

end Peg
