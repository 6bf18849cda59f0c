import TlsnDemo.Peg.Forest
import TlsnDemo.Syntax.Derivation

/-!
# The spans of a document

Where the tokens of a derivation lie. Every token lies within the text it
was derived from, the tokens below a token lie within it, and two tokens
neither of which lies below the other are kept apart by at least the comma
between them (`Derives.laminar`). Only keys are left out of the last: a key
touches nothing but its quotes.
-/

namespace TlsnDemo

open Peg Grammar

namespace Syntax

variable {s : List UInt8} {a : Atomicity} {i j k : ℕ} {t u : Token} {ts us : List Token}
  {φ : Phrase}

/-- The rules of a value without parts. -/
def isScalar : Rule → Bool
  | .string | .number | .boolean | .null => true
  | _ => false

/-- The rules of a value. -/
def isValue : Rule → Bool
  | .object | .array => true
  | r => isScalar r

theorem isValue_of_isScalar {r : Rule} (h : isScalar r = true) : isValue r = true := by
  cases r <;> simp_all [isScalar, isValue]

theorem Bracket.isValue_rule (b : Bracket) : isValue b.rule = true := by cases b <;> rfl

theorem Bracket.not_isScalar_rule (b : Bracket) : isScalar b.rule = false := by cases b <;> rfl

theorem ScalarText.isScalar {r : Rule} (h : ScalarText s i j r) : isScalar r = true := by
  cases h <;> rfl

theorem ScalarText.ne_string {r : Rule} (h : ScalarText s i j r) : r ≠ .string := by
  cases h <;> decide

/-! ## Extents -/

theorem le_of_skip (h : j = skip s a i) : i ≤ j := h ▸ le_skipTo

theorem ScalarText.lt {r : Rule} (h : ScalarText s i j r) : i < j := by
  cases h with
  | number h =>
    have hn : Grammar.number s .nonAtomic i = some (j, [.node .number i j []]) := by
      rw [number_eq (by decide), h]
      rfl
    exact (progress_number hn).1
  | isTrue h => have := h.2; simp [bytes] at this; omega
  | isFalse h => have := h.2; simp [bytes] at this; omega
  | null h => have := h.2; simp [bytes] at this; omega

/-- Every phrase has a text. -/
theorem Derives.lt (h : Derives s a φ i j ts) : i < j := by
  induction h with
  | empty b _ hj _ => have := le_of_skip hj; omega
  | filled b _ hj _ hl _ ih =>
    have h1 := le_of_skip hj
    have h2 := le_of_skip hl
    omega
  | string _ hj ht hl _ =>
    have h1 := le_of_skip hj
    have h2 := le_of_skip hl
    have := ht.le
    omega
  | scalar h => exact h.lt
  | pair _ hkb hk hq _ hc _ hv _ ih =>
    have h1 := le_of_skip hkb
    have h2 := le_of_skip hq
    have h3 := le_of_skip hc
    have h4 := le_of_skip hv
    have := hk.lt
    omega
  | last b _ ih => exact ih
  | more b _ hc _ hm _ ih1 ih2 =>
    have h1 := le_of_skip hc
    have h2 := le_of_skip hm
    omega

/-- **Tokens lie within the text they are derived from.** -/
theorem Derives.bounds (h : Derives s a φ i j ts) (ht : Occurs t ts) :
    i ≤ t.start ∧ t.start ≤ t.stop ∧ t.stop ≤ j := by
  induction h with
  | empty b _ hj _ =>
    have h1 := le_of_skip hj
    rcases occurs_singleton.1 ht with rfl | ht
    · exact ⟨le_rfl, by simp only [Pair.start_node, Pair.stop_node]; omega, le_rfl⟩
    · exact absurd ht not_occurs_nil
  | filled b _ hj hitems hl _ ih =>
    have h1 := le_of_skip hj
    have h2 := le_of_skip hl
    have h3 := hitems.lt
    rcases occurs_singleton.1 ht with rfl | ht
    · exact ⟨le_rfl, by simp only [Pair.start_node, Pair.stop_node]; omega, le_rfl⟩
    · have := ih ht
      omega
  | string _ hj hstr hl _ =>
    have h1 := le_of_skip hj
    have h2 := le_of_skip hl
    have h3 := hstr.le
    rcases occurs_singleton.1 ht with rfl | ht
    · simp only [Pair.start_node, Pair.stop_node]
      omega
    · exact absurd ht not_occurs_nil
  | scalar h =>
    rcases occurs_singleton.1 ht with rfl | ht
    · exact ⟨le_rfl, h.lt.le, le_rfl⟩
    · exact absurd ht not_occurs_nil
  | pair _ hkb hk hq _ hc _ hv hval ih =>
    have h1 := le_of_skip hkb
    have h2 := le_of_skip hq
    have h3 := le_of_skip hc
    have h4 := le_of_skip hv
    have h5 := hk.lt
    have h6 := hval.lt
    rcases occurs_singleton.1 ht with rfl | ht
    · exact ⟨le_rfl, by simp only [Pair.start_node, Pair.stop_node]; omega, le_rfl⟩
    · rcases occurs_cons.1 ht with rfl | ht | ht
      · simp only [Pair.start_node, Pair.stop_node]
        omega
      · exact absurd ht not_occurs_nil
      · have := ih ht
        omega
  | last b _ ih => exact ih ht
  | more b hi hc _ hm hitems ih1 ih2 =>
    have h1 := le_of_skip hc
    have h2 := le_of_skip hm
    have h3 := hi.lt
    have h4 := hitems.lt
    rcases occurs_append.1 ht with ht | ht
    · have := ih1 ht
      omega
    · have := ih2 ht
      omega

/-- A value is one token. -/
theorem Derives.value_token (h : Derives s a .value i j ts) :
    ∃ t, ts = [t] ∧ isValue t.asRule = true ∧
      (t.asRule ≠ .string → t.start = i ∧ t.stop = j) ∧
      (t.asRule = .string → i < t.start ∧ t.stop < j) := by
  cases h with
  | empty b _ _ _ =>
    exact ⟨_, rfl, b.isValue_rule, fun _ => ⟨rfl, rfl⟩, fun h => by cases b <;> simp [Bracket.rule] at h⟩
  | filled b _ _ _ _ _ =>
    exact ⟨_, rfl, b.isValue_rule, fun _ => ⟨rfl, rfl⟩, fun h => by cases b <;> simp [Bracket.rule] at h⟩
  | string _ hj ht hl _ =>
    have h1 := le_of_skip hj
    have h2 := le_of_skip hl
    refine ⟨_, rfl, rfl, fun h => absurd rfl h, fun _ => ?_⟩
    simp only [Pair.start_node, Pair.stop_node]
    omega
  | scalar h =>
    exact ⟨_, rfl, isValue_of_isScalar h.isScalar, fun _ => ⟨rfl, rfl⟩, fun he => absurd he h.ne_string⟩

/-- What occurs in a derivation: keys, pairs and values, each derived. -/
theorem Derives.occurs_cases (h : Derives s a φ i j ts) (ht : Occurs t ts) :
    (∃ kb ke, t = .node .key kb ke []) ∨ Derives s a .pair t.start t.stop [t] ∨
      ∃ x y, i ≤ x ∧ y ≤ j ∧ Derives s a .value x y [t] := by
  induction h with
  | empty b hopen hj hclose =>
    rcases occurs_singleton.1 ht with rfl | ht
    · exact Or.inr (Or.inr ⟨_, _, le_rfl, le_rfl, Derives.empty b hopen hj hclose⟩)
    · exact absurd ht not_occurs_nil
  | filled b hopen hj hitems hl hclose ih =>
    rcases occurs_singleton.1 ht with rfl | ht
    · exact Or.inr (Or.inr ⟨_, _, le_rfl, le_rfl, Derives.filled b hopen hj hitems hl hclose⟩)
    · have h1 := le_of_skip hj
      have h2 := le_of_skip hl
      rcases ih ht with h | h | ⟨x, y, hx, hy, h⟩
      · exact Or.inl h
      · exact Or.inr (Or.inl h)
      · exact Or.inr (Or.inr ⟨x, y, by omega, by omega, h⟩)
  | string hq hj hstr hl hq' =>
    rcases occurs_singleton.1 ht with rfl | ht
    · exact Or.inr (Or.inr ⟨_, _, le_rfl, le_rfl, Derives.string hq hj hstr hl hq'⟩)
    · exact absurd ht not_occurs_nil
  | scalar h =>
    rcases occurs_singleton.1 ht with rfl | ht
    · exact Or.inr (Or.inr ⟨_, _, le_rfl, le_rfl, Derives.scalar h⟩)
    · exact absurd ht not_occurs_nil
  | pair hq hkb hk hqe hq' hc hcol hv hval ih =>
    rcases occurs_singleton.1 ht with rfl | ht
    · exact Or.inr (Or.inl (Derives.pair hq hkb hk hqe hq' hc hcol hv hval))
    · rcases occurs_cons.1 ht with rfl | ht | ht
      · exact Or.inl ⟨_, _, rfl⟩
      · exact absurd ht not_occurs_nil
      · have h1 := le_of_skip hkb
        have h2 := le_of_skip hqe
        have h3 := le_of_skip hc
        have h4 := le_of_skip hv
        have h5 := hk.lt
        rcases ih ht with h | h | ⟨x, y, hx, hy, h⟩
        · exact Or.inl h
        · exact Or.inr (Or.inl h)
        · exact Or.inr (Or.inr ⟨x, y, by omega, hy, h⟩)
  | last b _ ih => exact ih ht
  | more b hi hc _ hm hitems ih1 ih2 =>
    have h1 := le_of_skip hc
    have h2 := le_of_skip hm
    have h3 := hi.lt
    have h4 := hitems.lt
    rcases occurs_append.1 ht with ht | ht
    · rcases ih1 ht with h | h | ⟨x, y, hx, hy, h⟩
      · exact Or.inl h
      · exact Or.inr (Or.inl h)
      · exact Or.inr (Or.inr ⟨x, y, hx, by omega, h⟩)
    · rcases ih2 ht with h | h | ⟨x, y, hx, hy, h⟩
      · exact Or.inl h
      · exact Or.inr (Or.inl h)
      · exact Or.inr (Or.inr ⟨x, y, by omega, hy, h⟩)

theorem Derives.not_value_of_pair (h : Derives s a .pair i j [t]) : t.asRule = .pair := by
  cases h with
  | pair => rfl

/-- A pair that occurs is derived from its own span. -/
theorem Derives.pair_of_occurs (h : Derives s a φ i j ts) (ht : Occurs t ts)
    (hr : t.asRule = .pair) : Derives s a .pair t.start t.stop [t] := by
  rcases h.occurs_cases ht with ⟨kb, ke, rfl⟩ | hp | ⟨x, y, -, -, hv⟩
  · simp at hr
  · exact hp
  · obtain ⟨t', ht', hval, -⟩ := hv.value_token
    simp only [List.cons.injEq, and_true] at ht'
    rw [← ht', hr] at hval
    simp [isValue, isScalar] at hval

/-- A value that occurs is derived from a stretch of the text. -/
theorem Derives.value_of_occurs (h : Derives s a φ i j ts) (ht : Occurs t ts)
    (hr : isValue t.asRule = true) : ∃ x y, i ≤ x ∧ y ≤ j ∧ Derives s a .value x y [t] := by
  rcases h.occurs_cases ht with ⟨kb, ke, rfl⟩ | hp | hv
  · simp [isValue, isScalar] at hr
  · rw [hp.not_value_of_pair] at hr
    simp [isValue, isScalar] at hr
  · exact hv

/-- A scalar has nothing below it. -/
theorem Derives.scalar_inner (h : Derives s a φ i j ts) (ht : Occurs t ts)
    (hr : isScalar t.asRule = true) : t.intoInner = [] := by
  obtain ⟨x, y, -, -, hv⟩ := h.value_of_occurs ht (isValue_of_isScalar hr)
  cases hv with
  | empty b _ _ _ => rfl
  | filled b _ _ _ _ _ => simp [b.not_isScalar_rule] at hr
  | string _ _ _ _ _ => rfl
  | scalar _ => rfl

/-- What lies below a token lies within its span, past its first byte. -/
theorem Derives.inner_bounds (h : Derives s a φ i j ts) (ht : Occurs t ts)
    (hu : Occurs u t.intoInner) : t.start < u.start ∧ u.start ≤ u.stop ∧ u.stop ≤ t.stop := by
  rcases h.occurs_cases ht with ⟨kb, ke, rfl⟩ | hp | ⟨x, y, -, -, hv⟩
  · exact absurd hu not_occurs_nil
  · generalize t.start = x, t.stop = y at hp
    cases hp with
    | pair _ hkb hk hq _ hc _ hv hval =>
      have h1 := le_of_skip hkb
      have h2 := le_of_skip hq
      have h3 := le_of_skip hc
      have h4 := le_of_skip hv
      have h5 := hk.lt
      have h6 := hval.lt
      rcases occurs_cons.1 hu with rfl | hu | hu
      · simp only [Pair.start_node, Pair.stop_node]
        omega
      · exact absurd hu not_occurs_nil
      · have := hval.bounds hu
        omega
  · cases hv with
    | empty b _ _ _ => exact absurd hu not_occurs_nil
    | filled b _ hj hitems hl _ =>
      have h1 := le_of_skip hj
      have h2 := le_of_skip hl
      have := hitems.bounds hu
      simp only [Pair.start_node, Pair.stop_node]
      omega
    | string _ _ _ _ _ => exact absurd hu not_occurs_nil
    | scalar _ => exact absurd hu not_occurs_nil

/-- The container of a value ends after what lies below it. -/
theorem Derives.value_inner_lt (h : Derives s a .value i j [t]) (hu : Occurs u t.intoInner) :
    i < u.start ∧ u.stop < j := by
  cases h with
  | empty b _ _ _ => exact absurd hu not_occurs_nil
  | filled b _ hj hitems hl _ =>
    have h1 := le_of_skip hj
    have h2 := le_of_skip hl
    have := hitems.bounds hu
    omega
  | string _ _ _ _ _ => exact absurd hu not_occurs_nil
  | scalar _ => exact absurd hu not_occurs_nil

/-- And it starts with a bracket. -/
theorem Derives.opening_of_inner (h : Derives s a .value i j [t]) (hu : Occurs u t.intoInner) :
    ∃ b : Bracket, s[i]? = some b.opening := by
  cases h with
  | empty b hopen _ _ => exact ⟨b, hopen⟩
  | filled b hopen _ _ _ _ => exact ⟨b, hopen⟩
  | string _ _ _ _ _ => exact absurd hu not_occurs_nil
  | scalar _ => exact absurd hu not_occurs_nil

/-- The spans of a pair: its key in quotes, the colon, and its value. -/
theorem Derives.pair_ranges {keyPair valuePair : Token}
    (hp : Derives s a .pair i j [.node .pair i j [keyPair, valuePair]]) :
    keyPair.asRule = .key ∧ keyPair.intoInner = [] ∧ i ≤ keyPair.start - 1 ∧
      keyPair.stop + 2 ≤ valuePair.start ∧ valuePair.stop ≤ j ∧
      ∃ v, i < v ∧ Derives s a .value v j [valuePair] := by
  cases hp with
  | pair hq hkb hk hqe hq' hc hcol hv hval =>
    have h1 := le_of_skip hkb
    have h2 := le_of_skip hqe
    have h3 := le_of_skip hc
    have h4 := le_of_skip hv
    have h5 := hk.lt
    have h6 := hval.bounds (t := valuePair) Occurs.head
    exact ⟨rfl, rfl, by simp only [Pair.start_node]; omega, by simp only [Pair.stop_node]; omega,
      h6.2.2, _, by omega, hval⟩

/-! ## Tokens do not overlap -/

/-- How two tokens of a document lie to each other. -/
def Laminar (t u : Token) : Prop :=
  t = u ∨ Occurs u t.intoInner ∨ Occurs t u.intoInner ∨ t.stop < u.start ∨ u.stop < t.start

theorem Laminar.symm (h : Laminar t u) : Laminar u t := by
  rcases h with h | h | h | h | h
  · exact Or.inl h.symm
  · exact Or.inr (Or.inr (Or.inl h))
  · exact Or.inr (Or.inl h)
  · exact Or.inr (Or.inr (Or.inr (Or.inr h)))
  · exact Or.inr (Or.inr (Or.inr (Or.inl h)))

/-- Under one root, what is apart from each other below it is apart. -/
theorem laminar_node {r : Rule} (ht : Occurs t [.node r i j ts]) (hu : Occurs u [.node r i j ts])
    (h : Occurs t ts → Occurs u ts → Laminar t u) : Laminar t u := by
  rcases occurs_singleton.1 ht with rfl | ht'
  · rcases occurs_singleton.1 hu with rfl | hu'
    · exact Or.inl rfl
    · exact Or.inr (Or.inl hu')
  · rcases occurs_singleton.1 hu with rfl | hu'
    · exact Or.inr (Or.inr (Or.inl ht'))
    · exact h ht' hu'

/-- **Two tokens are nested or apart.** What keeps them apart is a comma,
so the one ends before the byte in front of the other. -/
theorem Derives.laminar (h : Derives s a φ i j ts) (ht : Occurs t ts) (hu : Occurs u ts)
    (hkt : t.asRule ≠ .key) (hku : u.asRule ≠ .key) : Laminar t u := by
  induction h with
  | empty b _ _ _ => exact laminar_node ht hu fun ht _ => absurd ht not_occurs_nil
  | filled b _ _ _ _ _ ih => exact laminar_node ht hu ih
  | string _ _ _ _ _ => exact laminar_node ht hu fun ht _ => absurd ht not_occurs_nil
  | scalar _ => exact laminar_node ht hu fun ht _ => absurd ht not_occurs_nil
  | pair _ _ _ _ _ _ _ _ _ ih =>
    refine laminar_node ht hu fun ht hu => ?_
    rcases occurs_cons.1 ht with rfl | ht | ht
    · exact absurd rfl hkt
    · exact absurd ht not_occurs_nil
    · rcases occurs_cons.1 hu with rfl | hu | hu
      · exact absurd rfl hku
      · exact absurd hu not_occurs_nil
      · exact ih ht hu
  | last b _ ih => exact ih ht hu
  | more b hi hc _ hm hitems ih1 ih2 =>
    have h1 := le_of_skip hc
    have h2 := le_of_skip hm
    rcases occurs_append.1 ht with ht | ht <;> rcases occurs_append.1 hu with hu | hu
    · exact ih1 ht hu
    · have h3 := hi.bounds ht
      have h4 := hitems.bounds hu
      exact Or.inr (Or.inr (Or.inr (Or.inl (by omega))))
    · have h3 := hi.bounds hu
      have h4 := hitems.bounds ht
      exact Or.inr (Or.inr (Or.inr (Or.inr (by omega))))
    · exact ih2 ht hu

/-- What lies apart under one root lies below it. -/
theorem below_of_apart {r : Rule} (ht : Occurs t [.node r i j ts]) (hu : Occurs u [.node r i j ts])
    (hbt : i ≤ t.start ∧ t.start ≤ t.stop) (hbu : u.start ≤ u.stop ∧ u.stop ≤ j)
    (hlt : t.stop < u.start) : Occurs t ts ∧ Occurs u ts := by
  rcases occurs_singleton.1 ht with rfl | ht
  · simp only [Pair.stop_node] at hlt
    omega
  rcases occurs_singleton.1 hu with rfl | hu
  · simp only [Pair.start_node] at hlt
    omega
  exact ⟨ht, hu⟩

/-- **Between two tokens that lie apart stands a comma.** -/
theorem Derives.comma_between (h : Derives s a φ i j ts) (ht : Occurs t ts) (hu : Occurs u ts)
    (hkt : t.asRule ≠ .key) (hku : u.asRule ≠ .key) (hlt : t.stop < u.start) :
    ∃ k, t.stop ≤ k ∧ k < u.start ∧ s[k]? = some comma := by
  have hbt := h.bounds ht
  have hbu := h.bounds hu
  induction h with
  | empty b _ _ _ =>
    obtain ⟨ht, -⟩ := below_of_apart ht hu ⟨hbt.1, hbt.2.1⟩ hbu.2 hlt
    exact absurd ht not_occurs_nil
  | filled b _ _ hitems _ _ ih =>
    obtain ⟨ht, hu⟩ := below_of_apart ht hu ⟨hbt.1, hbt.2.1⟩ hbu.2 hlt
    exact ih ht hu (hitems.bounds ht) (hitems.bounds hu)
  | string _ _ _ _ _ =>
    -- of a string there is one token, which does not lie apart from itself
    rcases occurs_singleton.1 ht with rfl | ht
    · rcases occurs_singleton.1 hu with rfl | hu
      · omega
      · exact absurd hu not_occurs_nil
    · exact absurd ht not_occurs_nil
  | scalar _ =>
    obtain ⟨ht, -⟩ := below_of_apart ht hu ⟨hbt.1, hbt.2.1⟩ hbu.2 hlt
    exact absurd ht not_occurs_nil
  | pair _ _ _ _ _ _ _ _ hval ih =>
    obtain ⟨ht, hu⟩ := below_of_apart ht hu ⟨hbt.1, hbt.2.1⟩ hbu.2 hlt
    rcases occurs_cons.1 ht with rfl | ht | ht
    · exact absurd rfl hkt
    · exact absurd ht not_occurs_nil
    rcases occurs_cons.1 hu with rfl | hu | hu
    · exact absurd rfl hku
    · exact absurd hu not_occurs_nil
    exact ih ht hu (hval.bounds ht) (hval.bounds hu)
  | last b _ ih => exact ih ht hu hbt hbu
  | @more b _ j c m _ _ _ hi hc hcomma hm hitems ih1 ih2 =>
    have h1 := le_of_skip hc
    have h2 := le_of_skip hm
    rcases occurs_append.1 ht with ht | ht <;> rcases occurs_append.1 hu with hu | hu
    · exact ih1 ht hu (hi.bounds ht) (hi.bounds hu)
    · -- the two are in items on the two sides of this comma
      have h3 := hi.bounds ht
      have h4 := hitems.bounds hu
      exact ⟨c, by omega, by omega, hcomma⟩
    · have h3 := hi.bounds hu
      have h4 := hitems.bounds ht
      omega
    · exact ih2 ht hu (hitems.bounds ht) (hitems.bounds hu)

end Syntax

end TlsnDemo
