import TlsnDemo.Syntax.Leaves

/-!
# Derivations of the JSON grammar

`Derives` is the JSON grammar as a grammar: which stretch of the input is
a value, a pair, or a comma-separated list of either, and with which
tokens. Whitespace stands where the mode admits it, so one relation
covers the prover's reading of a message and the verifier's.

The parser is that relation (`value_eq_some`): every success has a
derivation behind it, by induction on the depth, and every derivation is
found, by induction on the derivation. So a derivation is determined by
where it starts, although the relation itself makes no choices.
-/

namespace TlsnDemo

open Peg Grammar

namespace Syntax

variable {s : List UInt8} {a : Atomicity} {i j k n : ℕ} {ts us : List Token}

/-- JSON's two kinds of bracket. -/
inductive Bracket where
  | object
  | array
  deriving DecidableEq

/-- What a derivation is of. -/
inductive Phrase where
  | value
  | pair
  | items (b : Bracket)

namespace Bracket

def opening : Bracket → UInt8
  | object => openBrace
  | array => openBracket

def closing : Bracket → UInt8
  | object => closeBrace
  | array => closeBracket

def rule : Bracket → Rule
  | object => .object
  | array => .array

/-- What stands between a bracket's commas. -/
def item : Bracket → Phrase
  | object => .pair
  | array => .value

end Bracket

/-- **The JSON grammar**, with the tokens of each phrase. -/
inductive Derives (s : List UInt8) (a : Atomicity) : Phrase → ℕ → ℕ → List Token → Prop
  | empty (b : Bracket) {i j : ℕ} :
      s[i]? = some b.opening → j = skip s a (i + 1) → s[j]? = some b.closing →
      Derives s a .value i (j + 1) [.node b.rule i (j + 1) []]
  | filled (b : Bracket) {i j k l : ℕ} {ts : List Token} :
      s[i]? = some b.opening → j = skip s a (i + 1) → Derives s a (.items b) j k ts →
      l = skip s a k → s[l]? = some b.closing →
      Derives s a .value i (l + 1) [.node b.rule i (l + 1) ts]
  | string {i j k l : ℕ} :
      s[i]? = some quote → j = skip s a (i + 1) → StringText s a j k → l = skip s a k →
      s[l]? = some quote →
      Derives s a .value i (l + 1) [.node .string j k []]
  | scalar {i j : ℕ} {r : Rule} :
      ScalarText s i j r → Derives s a .value i j [.node r i j []]
  /-- `kb` and `ke` are the ends of the key, `q` its closing quote, `c` the
  colon and `v` the start of the value. -/
  | pair {i kb ke q c v j : ℕ} {ts : List Token} :
      s[i]? = some quote → kb = skip s a (i + 1) → KeyText s a kb ke → q = skip s a ke →
      s[q]? = some quote → c = skip s a (q + 1) → s[c]? = some colon → v = skip s a (c + 1) →
      Derives s a .value v j ts →
      Derives s a .pair i j [.node .pair i j (.node .key kb ke [] :: ts)]
  | last (b : Bracket) {i j : ℕ} {ts : List Token} :
      Derives s a b.item i j ts → Derives s a (.items b) i j ts
  /-- `c` is the comma and `m` the start of the next item. -/
  | more (b : Bracket) {i j c m k : ℕ} {ts us : List Token} :
      Derives s a b.item i j ts → c = skip s a j → s[c]? = some comma → m = skip s a (c + 1) →
      Derives s a (.items b) m k us →
      Derives s a (.items b) i k (ts ++ us)

/-! ## Progress of the rules -/

theorem progress_whitespace : Progress whitespace := whitespace_eq ▸ Progress.satisfy

theorem progress_keyChars : Progress (Grammar.rep1 (satisfy isKeyChar)) :=
  Progress.rep1 progress_whitespace Progress.satisfy

theorem progress_quotedKey : Progress quotedKey := by
  refine Progress.seq progress_whitespace Progress.matchString ?_
  simp only [List.mem_cons, List.not_mem_nil, or_false, forall_eq_or_imp, forall_eq]
  refine ⟨(Progress.rule ?_).stays, Stays.matchString⟩
  rw [keyChar_eq]
  exact progress_keyChars

theorem progress_quotedString : Progress quotedString := by
  refine Progress.seq progress_whitespace Progress.matchString ?_
  simp only [List.mem_cons, List.not_mem_nil, or_false, forall_eq_or_imp, forall_eq]
  refine ⟨Stays.rule ?_, Stays.matchString⟩
  rw [stringChar_eq]
  exact Stays.rep progress_whitespace Progress.satisfy

theorem progress_number : Progress number := by
  have hdigits : Stays (Grammar.rep asciiDigit) :=
    Stays.rep progress_whitespace Progress.satisfy
  have hdigits1 : Stays (Grammar.rep1 asciiDigit) :=
    (Progress.rep1 progress_whitespace Progress.satisfy).stays
  refine Progress.rule (Progress.withAtomicity (Progress.seq_after progress_whitespace
    (Stays.optional Stays.matchString) (Progress.seq progress_whitespace ?_ ?_)))
  · refine Progress.choice ?_
    simp only [List.mem_cons, List.not_mem_nil, or_false, forall_eq_or_imp, forall_eq]
    refine ⟨Progress.matchString, Progress.seq progress_whitespace Progress.satisfy ?_⟩
    simpa using hdigits
  · simp only [List.mem_cons, List.not_mem_nil, or_false, forall_eq_or_imp, forall_eq]
    refine ⟨Stays.optional (Stays.seq progress_whitespace ?_),
      Stays.optional (Stays.seq progress_whitespace ?_)⟩
    · simp only [List.mem_cons, List.not_mem_nil, or_false, forall_eq_or_imp, forall_eq]
      exact ⟨Stays.matchString, hdigits⟩
    · have hchars : ∀ t u : String, ∀ c d, bytes t = [c] → bytes u = [d] →
          Stays (choice [str t, str u] : P) := by
        intro t u c d ht hu
        rw [choice_chars ht hu]
        exact Progress.satisfy.stays
      simp only [List.mem_cons, List.not_mem_nil, or_false, forall_eq_or_imp, forall_eq]
      exact ⟨hchars "e" "E" _ _ rfl rfl, Stays.optional (hchars "+" "-" _ _ rfl rfl), hdigits1⟩

theorem progress_boolean : Progress boolean := by
  refine Progress.rule (Progress.choice ?_)
  simp only [List.mem_cons, List.not_mem_nil, or_false, forall_eq_or_imp, forall_eq]
  exact ⟨Progress.matchString, Progress.matchString⟩

theorem progress_null : Progress null := Progress.rule Progress.matchString

theorem progress_pairOf {v : P} (hv : Progress v) : Progress (pairOf v) := by
  refine Progress.rule (Progress.seq progress_whitespace progress_quotedKey ?_)
  simp only [List.mem_cons, List.not_mem_nil, or_false, forall_eq_or_imp, forall_eq]
  exact ⟨Stays.matchString, hv.stays⟩

theorem progress_comma {m : P} (hm : Progress m) : Progress (Grammar.seq [str ",", m]) :=
  Progress.seq progress_whitespace Progress.matchString (by simpa using hm.stays)

theorem progress_bracketed {o : UInt8} {os cs : String} {m : P} (ho : bytes os = [o])
    (hm : Progress m) : Progress (bracketed os m cs) := by
  have hs : Stays (str cs) := Stays.matchString
  have hp : Progress (str os) := by rw [str, ho]; exact Progress.matchString
  refine Progress.choice ?_
  simp only [List.mem_cons, List.not_mem_nil, or_false, forall_eq_or_imp, forall_eq]
  refine ⟨Progress.seq progress_whitespace hp (by simpa using hs),
    Progress.seq progress_whitespace hp ?_⟩
  simp only [List.mem_cons, List.not_mem_nil, or_false, forall_eq_or_imp, forall_eq]
  exact ⟨hm.stays, Stays.rep progress_whitespace (progress_comma hm), hs⟩

theorem progress_valueOf (n : ℕ) : Progress (valueOf n) := by
  induction n with
  | zero => exact fun _ _ _ _ _ h => by simp [valueOf] at h
  | succ n ih =>
    refine Progress.choice ?_
    simp only [List.mem_cons, List.not_mem_nil, or_false, forall_eq_or_imp, forall_eq]
    exact ⟨Progress.rule (progress_bracketed rfl (progress_pairOf ih)),
      Progress.rule (progress_bracketed rfl ih), progress_quotedString, progress_number,
      progress_boolean, progress_null⟩

theorem progress_value : Progress value := fun {s} _ _ _ _ h => progress_valueOf (s.length + 1) h

/-! ## The quoted leaves -/

/-- Quotes around a rule, with whitespace inside them. -/
theorem quoted_eq_some (ha : a ≠ .atomic) {r : Rule} {p : P} {T : ℕ → Prop}
    (hp : ∀ {j ts}, p s a (skip s a (i + 1)) = some (j, ts) → T j ∧ ts = [])
    (hT : ∀ {j}, T j → s[skip s a j]? = some quote → p s a (skip s a (i + 1)) = some (j, [])) :
    Grammar.seq [str "\"", rule r p, str "\""] s a i = some (j, ts) ↔
      ∃ b e q, s[i]? = some quote ∧ b = skip s a (i + 1) ∧ T e ∧ q = skip s a e ∧
        s[q]? = some quote ∧ j = q + 1 ∧ ts = [.node r b e []] := by
  rw [seq_eq, str_quote]
  constructor
  · intro h
    obtain ⟨k, us, vs, h1, h2, rfl⟩ := seq_cons_eq_some.1 h
    obtain ⟨hq, rfl, rfl⟩ := matchString_singleton.1 h1
    obtain ⟨e, us, vs, h3, h4, rfl⟩ := seq_cons_eq_some.1 h2
    obtain ⟨ws, h5, rfl⟩ := (rule_eq_some ha).1 h3
    obtain ⟨he, rfl⟩ := hp h5
    rw [seq_singleton] at h4
    obtain ⟨hq', rfl, rfl⟩ := matchString_singleton.1 h4
    exact ⟨_, e, _, hq, rfl, he, rfl, hq', rfl, rfl⟩
  · rintro ⟨b, e, q, hq, rfl, he, rfl, hq', rfl, rfl⟩
    have h1 : matchString [quote] s a i = some (i + 1, ([] : List Token)) :=
      matchString_singleton.2 ⟨hq, rfl, rfl⟩
    have h2 : matchString [quote] s a (skip s a e) = some (skip s a e + 1, ([] : List Token)) :=
      matchString_singleton.2 ⟨hq', rfl, rfl⟩
    exact seq_cons_of_eq_some h1
      (seq_cons_of_eq_some ((rule_eq_some ha).2 ⟨[], hT he hq', rfl⟩) h2)

theorem quotedKey_eq_some (ha : a ≠ .atomic) :
    quotedKey s a i = some (j, ts) ↔
      ∃ kb ke q, s[i]? = some quote ∧ kb = skip s a (i + 1) ∧ KeyText s a kb ke ∧
        q = skip s a ke ∧ s[q]? = some quote ∧ j = q + 1 ∧ ts = [.node .key kb ke []] := by
  rw [quotedKey, key, keyChar_eq, quoted_eq_some ha (T := KeyText s a (skip s a (i + 1)))
    (keyText_of_rep1 ha) fun he hq => he.rep1 ha (Stops.of_eq hq (by decide))]
  constructor
  · rintro ⟨b, e, q, hq, rfl, h⟩
    exact ⟨_, e, q, hq, rfl, h⟩
  · rintro ⟨b, e, q, hq, rfl, h⟩
    exact ⟨_, e, q, hq, rfl, h⟩

theorem quotedString_eq_some (ha : a ≠ .atomic) :
    quotedString s a i = some (j, ts) ↔
      ∃ b e q, s[i]? = some quote ∧ b = skip s a (i + 1) ∧ StringText s a b e ∧
        q = skip s a e ∧ s[q]? = some quote ∧ j = q + 1 ∧ ts = [.node .string b e []] := by
  rw [quotedString, string, stringChar_eq,
    quoted_eq_some ha (T := StringText s a (skip s a (i + 1)))
    (stringText_of_rep ha) fun he hq => he.rep ha (Stops.of_eq hq (by decide))]
  constructor
  · rintro ⟨b, e, q, hq, rfl, h⟩
    exact ⟨_, e, q, hq, rfl, h⟩
  · rintro ⟨b, e, q, hq, rfl, h⟩
    exact ⟨_, e, q, hq, rfl, h⟩

/-! ## Every success has a derivation -/

theorem pairOf_eq_some (ha : a ≠ .atomic) {v : P} :
    pairOf v s a i = some (j, ts) ↔
      ∃ kb ke q c us, s[i]? = some quote ∧ kb = skip s a (i + 1) ∧ KeyText s a kb ke ∧
        q = skip s a ke ∧ s[q]? = some quote ∧ c = skip s a (q + 1) ∧ s[c]? = some colon ∧
        v s a (skip s a (c + 1)) = some (j, us) ∧
        ts = [.node .pair i j (.node .key kb ke [] :: us)] := by
  rw [pairOf, rule_eq_some ha, seq_eq, str_colon]
  constructor
  · rintro ⟨us, h, rfl⟩
    obtain ⟨k, us, vs, h1, h2, rfl⟩ := seq_cons_eq_some.1 h
    obtain ⟨kb, ke, q, hq, hkb, hk, hqe, hq', rfl, rfl⟩ := (quotedKey_eq_some ha).1 h1
    obtain ⟨c, us, vs, h3, h4, rfl⟩ := seq_cons_eq_some.1 h2
    obtain ⟨hc, rfl, rfl⟩ := matchString_singleton.1 h3
    exact ⟨kb, ke, q, _, vs, hq, hkb, hk, hqe, hq', rfl, hc, h4, rfl⟩
  · rintro ⟨kb, ke, q, c, us, hq, hkb, hk, hqe, hq', rfl, hc, hv, rfl⟩
    have h1 := (quotedKey_eq_some ha).2 ⟨kb, ke, q, hq, hkb, hk, hqe, hq', rfl, rfl⟩
    have h2 : matchString [colon] s a (skip s a (q + 1)) = some (_, ([] : List Token)) :=
      matchString_singleton.2 ⟨hc, rfl, rfl⟩
    exact ⟨_, seq_cons_of_eq_some h1 (seq_cons_of_eq_some h2 hv), rfl⟩

/-- What separates the items of a list. -/
theorem comma_eq_some {m : P} :
    Grammar.seq [str ",", m] s a i = some (j, ts) ↔
      s[i]? = some comma ∧ m s a (skip s a (i + 1)) = some (j, ts) := by
  rw [seq_eq, str_comma, seq_cons_eq_some]
  constructor
  · rintro ⟨k, us, vs, h1, h2, rfl⟩
    obtain ⟨hc, rfl, rfl⟩ := matchString_singleton.1 h1
    exact ⟨hc, h2⟩
  · rintro ⟨hc, hm⟩
    exact ⟨i + 1, [], ts, matchString_singleton.2 ⟨hc, rfl, rfl⟩, hm, rfl⟩

section Bracketed

variable {b : Bracket} {m : P}

/-- A chain of further items after one item is a list. -/
theorem derives_items_of_chain
    (hm : ∀ {i j ts}, m s a i = some (j, ts) → Derives s a b.item i j ts)
    (hi : Derives s a b.item i j ts)
    (h : Chain (next (satisfy isWhitespace) (Grammar.seq [str ",", m])) s a j k us) :
    Derives s a (.items b) i k (ts ++ us) := by
  induction h generalizing i ts with
  | stop _ =>
    rw [List.append_nil]
    exact Derives.last b hi
  | step hn _ ih =>
    obtain ⟨hc, hv⟩ := comma_eq_some.1 (next_eq_some.1 hn)
    exact Derives.more b hi rfl hc rfl (ih (hm hv))

/-- **A bracketed list**, given that its items are derived. -/
theorem derives_of_bracketed (ha : a ≠ .atomic) (hp : Progress m) {os cs : String}
    (ho : bytes os = [b.opening]) (hc : bytes cs = [b.closing])
    (hm : ∀ {i j ts}, m s a i = some (j, ts) → Derives s a b.item i j ts)
    (h : rule b.rule (bracketed os m cs) s a i = some (j, ts)) :
    Derives s a .value i j ts := by
  obtain ⟨us, hin, rfl⟩ := (rule_eq_some ha).1 h
  rw [bracketed, choice_cons, orElse_eq_some, choice_cons, orElse_eq_some, choice_nil,
    seq_eq, rep_eq, str, str, ho, hc] at hin
  rcases hin with h | ⟨-, h | ⟨-, h⟩⟩
  · obtain ⟨k, vs, ws, h1, h2, rfl⟩ := seq_cons_eq_some.1 h
    obtain ⟨hopen, rfl, rfl⟩ := matchString_singleton.1 h1
    rw [seq_singleton] at h2
    obtain ⟨hclose, rfl, rfl⟩ := matchString_singleton.1 h2
    exact Derives.empty b hopen rfl hclose
  · obtain ⟨k, vs, ws, h1, h2, rfl⟩ := seq_cons_eq_some.1 h
    obtain ⟨hopen, rfl, rfl⟩ := matchString_singleton.1 h1
    obtain ⟨k, l, us, vs, xs, hfirst, hchain, hclose, rfl⟩ :=
      (list_eq_some (seq_eq ▸ progress_comma hp)).1 h2
    obtain ⟨hlast, rfl, rfl⟩ := matchString_singleton.1 hclose
    rw [← seq_eq] at hchain
    have hitems := derives_items_of_chain hm (hm hfirst) hchain
    rw [List.append_nil, List.nil_append]
    exact Derives.filled b hopen rfl hitems rfl hlast
  · exact absurd h (by simp)

end Bracketed

theorem derives_of_valueOf (ha : a ≠ .atomic) (h : valueOf n s a i = some (j, ts)) :
    Derives s a .value i j ts := by
  induction n generalizing i j ts with
  | zero => simp [valueOf] at h
  | succ n ih =>
    simp only [valueOf, choice_cons, orElse_eq_some, choice_nil] at h
    rcases h with h | ⟨-, h | ⟨-, h | ⟨-, h | ⟨-, h | ⟨-, h | ⟨-, h⟩⟩⟩⟩⟩⟩
    · refine derives_of_bracketed (b := .object) ha (progress_pairOf (progress_valueOf n)) rfl rfl
        (fun {i j ts} h => ?_) h
      obtain ⟨kb, ke, q, c, us, hq, hkb, hk, hqe, hq', hc, hcol, hv, rfl⟩ :=
        (pairOf_eq_some ha).1 h
      exact Derives.pair hq hkb hk hqe hq' hc hcol rfl (ih hv)
    · exact derives_of_bracketed (b := .array) ha (progress_valueOf n) rfl rfl ih h
    · obtain ⟨b, e, q, hq, hb, ht, hqe, hq', rfl, rfl⟩ := (quotedString_eq_some ha).1 h
      exact Derives.string hq hb ht hqe hq'
    · rw [number_eq ha, Option.map_eq_some_iff] at h
      obtain ⟨k, hk, h⟩ := h
      simp only [Prod.mk.injEq] at h
      obtain ⟨rfl, rfl⟩ := h
      exact Derives.scalar (.number hk)
    · obtain ⟨us, hin, rfl⟩ := (rule_eq_some ha).1 h
      simp only [choice_cons, orElse_eq_some, choice_nil, str_eq_some] at hin
      rcases hin with ⟨ht, rfl⟩ | ⟨-, ⟨hf, rfl⟩ | ⟨-, hn⟩⟩
      · exact Derives.scalar (.isTrue ht)
      · exact Derives.scalar (.isFalse hf)
      · exact absurd hn (by simp)
    · obtain ⟨us, hin, rfl⟩ := (rule_eq_some ha).1 h
      obtain ⟨hnull, rfl⟩ := str_eq_some.1 hin
      exact Derives.scalar (.null hnull)
    · exact absurd h (by simp)

/-! ## Every derivation is found -/

/-- A bracket's item, as the parser has it at a depth. -/
def itemOf (n : ℕ) : Bracket → P
  | .object => pairOf (valueOf n)
  | .array => valueOf n

theorem progress_itemOf (b : Bracket) : Progress (itemOf n b) := by
  cases b with
  | object => exact progress_pairOf (progress_valueOf n)
  | array => exact progress_valueOf n

/-- A byte that a value may start with. -/
def isValueStart (c : UInt8) : Bool := (bytes "\x7b[\"-tfn").contains c || isAsciiDigit c

theorem not_whitespace_of_valueStart {c : UInt8} (h : isValueStart c = true) :
    isWhitespace c = false := not_whitespace_of_class (by decide) (by decide) h

theorem not_valueStart_closing (b : Bracket) : isValueStart b.closing = false := by
  cases b <;> decide

theorem literalAt_first {t : String} {c : UInt8} {cs : List UInt8} (ht : bytes t = c :: cs)
    (h : LiteralAt t s i j) : s[i]? = some c := by
  have h0 := h.1 0 (by simp [ht])
  simpa [ht] using h0

theorem digit_of_nonzeroDigit {c : UInt8} (h : isAsciiNonzeroDigit c = true) :
    isAsciiDigit c = true := by
  simp only [isAsciiNonzeroDigit, isAsciiDigit, inRange, Bool.and_eq_true, decide_eq_true_eq] at h ⊢
  have h01 : '0'.toUInt8 ≤ '1'.toUInt8 := by decide
  exact ⟨UInt8.le_trans h01 h.1, h.2⟩

theorem intEnd_first (h : intEnd s i = some j) : ∃ c, s[i]? = some c ∧ isAsciiDigit c = true := by
  unfold intEnd at h
  split at h
  · next hz => exact ⟨_, hz, by decide⟩
  · split at h
    · next hd =>
      obtain ⟨c, hc, hf⟩ := at_iff.1 hd
      exact ⟨c, hc, digit_of_nonzeroDigit hf⟩
    · simp at h

theorem numberEnd_first (h : numberEnd s i = some j) :
    ∃ c, s[i]? = some c ∧ (c = 0x2d ∨ isAsciiDigit c = true) := by
  unfold numberEnd at h
  obtain ⟨k, hk, -⟩ := Option.map_eq_some_iff.1 h
  unfold signEnd at hk
  split at hk
  · next hm => exact ⟨_, hm, Or.inl rfl⟩
  · obtain ⟨c, hc, hf⟩ := intEnd_first hk
    exact ⟨c, hc, Or.inr hf⟩

/-- The first byte of a scalar, by its rule. -/
theorem ScalarText.first {r : Rule} (h : ScalarText s i j r) :
    ∃ c, s[i]? = some c ∧ isValueStart c = true ∧ c ≠ openBrace ∧ c ≠ openBracket ∧ c ≠ quote := by
  cases h with
  | number h =>
    obtain ⟨c, hc, hf⟩ := numberEnd_first h
    rcases hf with rfl | hf
    · exact ⟨_, hc, by decide⟩
    · exact ⟨c, hc, by simp [isValueStart, hf], ne_of_class hf (by decide),
        ne_of_class hf (by decide), ne_of_class hf (by decide)⟩
  | isTrue h => exact ⟨_, literalAt_first rfl h, by decide⟩
  | isFalse h => exact ⟨_, literalAt_first rfl h, by decide⟩
  | null h => exact ⟨_, literalAt_first rfl h, by decide⟩

/-- **Every phrase starts with a byte of its own**, which is no whitespace
and closes no bracket. -/
theorem Derives.first {φ : Phrase} (h : Derives s a φ i j ts) :
    ∃ c, s[i]? = some c ∧ isValueStart c = true := by
  induction h with
  | empty b hopen _ _ => exact ⟨_, hopen, by cases b <;> decide⟩
  | filled b hopen _ _ _ _ _ => exact ⟨_, hopen, by cases b <;> decide⟩
  | string hq _ _ _ _ => exact ⟨_, hq, by decide⟩
  | scalar h =>
    obtain ⟨c, hc, hf, -⟩ := h.first
    exact ⟨c, hc, hf⟩
  | pair hq _ _ _ _ _ _ _ _ _ => exact ⟨_, hq, by decide⟩
  | last b _ ih => exact ih
  | more b _ _ _ _ _ ih _ => exact ih

/-! The alternatives of `value` that a first byte rules out. -/

theorem bracketed_of_ne {r : Rule} {m : P} {os cs : String} {o : UInt8} (ho : bytes os = [o])
    (hi : s[i]? ≠ some o) : rule r (bracketed os m cs) s a i = none := by
  have h : str os s a i = none := by rw [str, ho, matchString_singleton_eq, if_neg hi]
  have hb : bracketed os m cs s a i = none := by
    rw [bracketed, choice_cons, orElse_eq_none, choice_cons, orElse_eq_none]
    exact ⟨seq_cons_of_eq_none h, seq_cons_of_eq_none h, rfl⟩
  simp only [rule, hb]

theorem quotedString_of_ne (hi : s[i]? ≠ some quote) : quotedString s a i = none := by
  refine seq_cons_of_eq_none ?_
  rw [str_quote, matchString_singleton_eq, if_neg hi]

theorem number_of_ne (ha : a ≠ .atomic) {c : UInt8} (hc : s[i]? = some c)
    (hf : c ≠ 0x2d ∧ isAsciiDigit c = false) : number s a i = none := by
  rw [number_eq ha, Option.map_eq_none_iff, Option.eq_none_iff_forall_ne_some]
  intro j hj
  obtain ⟨d, hd, hf'⟩ := numberEnd_first hj
  rw [hc] at hd
  simp only [Option.some.injEq] at hd
  subst hd
  rcases hf' with hf' | hf'
  · exact hf.1 hf'
  · rw [hf.2] at hf'
    exact absurd hf' (by simp)

theorem str_of_ne {t : String} {c d : UInt8} {cs : List UInt8} (ht : bytes t = c :: cs)
    (hi : s[i]? = some d) (hd : d ≠ c) : str t s a i = none := by
  rw [str, ht]
  simp [matchString, hi, hd]

theorem str_of_literalAt {t : String} (h : LiteralAt t s i j) : str t s a i = some (j, []) :=
  str_eq_some.2 ⟨h, rfl⟩

/-- A scalar is found at any depth. -/
theorem ScalarText.valueOf (ha : a ≠ .atomic) {r : Rule} (h : ScalarText s i j r) :
    valueOf (n + 1) s a i = some (j, [.node r i j []]) := by
  obtain ⟨c, hc, -, hb, hb', hq⟩ := h.first
  have hne : ∀ d, c ≠ d → s[i]? ≠ some d := fun d hd he => by
    rw [hc] at he
    exact hd (by simpa using he)
  have h1 : objectOf (Grammar.valueOf n) s a i = none := bracketed_of_ne rfl (hne _ hb)
  have h2 : arrayOf (Grammar.valueOf n) s a i = none := bracketed_of_ne rfl (hne _ hb')
  have h3 : quotedString s a i = none := quotedString_of_ne (hne _ hq)
  have hnone : ∀ {t : String} {d : UInt8} {ds : List UInt8}, bytes t = d :: ds →
      LiteralAt t s i j → d ≠ 0x2d ∧ isAsciiDigit d = false → Grammar.number s a i = none :=
    fun ht hl hd => number_of_ne ha (literalAt_first ht hl) hd
  simp only [Grammar.valueOf, choice_cons, orElse, h1, h2, h3]
  cases h with
  | number h => simp [number_eq ha, h]
  | isTrue h =>
    rw [hnone rfl h (by decide)]
    simp [boolean, rule, orElse, str_of_literalAt h, ha]
  | isFalse h =>
    rw [hnone rfl h (by decide)]
    have ht : str "true" s a i = none := str_of_ne rfl (literalAt_first rfl h) (by decide)
    simp [boolean, rule, orElse, ht, str_of_literalAt h, ha]
  | null h =>
    rw [hnone rfl h (by decide)]
    have ht : str "true" s a i = none := str_of_ne rfl (literalAt_first rfl h) (by decide)
    have hf : str "false" s a i = none := str_of_ne rfl (literalAt_first rfl h) (by decide)
    simp [boolean, Grammar.null, rule, orElse, ht, hf, str_of_literalAt h, ha]

/-- An opening bracket selects the alternative that matches it. -/
theorem valueOf_bracketed {b : Bracket} (hopen : s[i]? = some b.opening)
    {r : ℕ × List Token}
    (h : ∀ os cs, bytes os = [b.opening] → bytes cs = [b.closing] →
      rule b.rule (bracketed os (itemOf n b) cs) s a i = some r) :
    valueOf (n + 1) s a i = some r := by
  cases b with
  | object =>
    rw [valueOf, choice_cons, orElse_eq_some]
    exact Or.inl (h "\x7b" "\x7d" rfl rfl)
  | array =>
    rw [valueOf, choice_cons, orElse_eq_some, choice_cons, orElse_eq_some]
    refine Or.inr ⟨bracketed_of_ne rfl ?_, Or.inl (h "[" "]" rfl rfl)⟩
    rw [hopen]
    decide

/-- An empty list is found by the rule for its brackets. -/
theorem bracketed_empty (ha : a ≠ .atomic) {b : Bracket} {m : P} {os cs : String}
    (ho : bytes os = [b.opening]) (hc : bytes cs = [b.closing]) (hopen : s[i]? = some b.opening)
    (hj : j = skip s a (i + 1)) (hclose : s[j]? = some b.closing) :
    rule b.rule (bracketed os m cs) s a i = some (j + 1, [.node b.rule i (j + 1) []]) := by
  refine (rule_eq_some ha).2 ⟨[], ?_, rfl⟩
  have h1 : matchString [b.opening] s a i = some (i + 1, ([] : List Token)) :=
    matchString_singleton.2 ⟨hopen, rfl, rfl⟩
  rw [bracketed, choice_cons, orElse_eq_some, seq_eq, str, str, ho, hc]
  refine Or.inl (seq_cons_of_eq_some h1 ?_)
  rw [seq_singleton, ← skip, ← hj]
  exact matchString_singleton.2 ⟨hclose, rfl, rfl⟩

/-- A list is found by the rule for its brackets, where its items are. -/
theorem bracketed_filled (ha : a ≠ .atomic) {b : Bracket} {m : P} (hp : Progress m)
    {os cs : String} (ho : bytes os = [b.opening]) (hc : bytes cs = [b.closing])
    (hopen : s[i]? = some b.opening) (hj : j = skip s a (i + 1))
    (hfirst : ∃ c, s[j]? = some c ∧ isValueStart c = true)
    (hitems : ∃ l us vs, m s a j = some (l, us) ∧
      Chain (next (satisfy isWhitespace) (Grammar.seq [str ",", m])) s a l k vs ∧ ts = us ++ vs)
    {l : ℕ} (hl : l = skip s a k) (hclose : s[l]? = some b.closing) :
    rule b.rule (bracketed os m cs) s a i = some (l + 1, [.node b.rule i (l + 1) ts]) := by
  obtain ⟨m', us, vs, hm, hchain, rfl⟩ := hitems
  refine (rule_eq_some ha).2 ⟨_, ?_, rfl⟩
  have h1 : matchString [b.opening] s a i = some (i + 1, ([] : List Token)) :=
    matchString_singleton.2 ⟨hopen, rfl, rfl⟩
  rw [bracketed, choice_cons, orElse_eq_some, choice_cons, orElse_eq_some, str, str, ho, hc,
    seq_eq, rep_eq]
  refine Or.inr ⟨?_, Or.inl ?_⟩
  · -- a list that has an item does not close at once
    rw [Option.eq_none_iff_forall_ne_some]
    rintro ⟨x, xs⟩ hx
    obtain ⟨y, ys, zs, hy, hz, -⟩ := seq_cons_eq_some.1 hx
    obtain ⟨-, rfl, -⟩ := matchString_singleton.1 hy
    rw [seq_singleton] at hz
    obtain ⟨hz, -, -⟩ := matchString_singleton.1 hz
    obtain ⟨c, hc, hf⟩ := hfirst
    rw [← skip, ← hj, hc] at hz
    simp only [Option.some.injEq] at hz
    rw [hz, not_valueStart_closing] at hf
    exact absurd hf (by simp)
  · have hlast : matchString [b.closing] s a (skip s a k) = some (l + 1, ([] : List Token)) :=
      matchString_singleton.2 ⟨hl ▸ hclose, by rw [hl], rfl⟩
    have hlist := (list_eq_some (seq_eq ▸ progress_comma hp)).2
      ⟨m', k, us, vs, [], hm, seq_eq ▸ hchain, hlast, rfl⟩
    rw [hj] at hlist
    simpa using seq_cons_of_eq_some h1 hlist

/-- What it is for a derivation to be found. The items of a list are found
where no further comma follows them. -/
def Found (s : List UInt8) (a : Atomicity) : Phrase → ℕ → ℕ → List Token → Prop
  | .value, i, j, ts => ∀ n, s.length < n + i → valueOf n s a i = some (j, ts)
  | .pair, i, j, ts => ∀ n, s.length ≤ n + i → pairOf (valueOf n) s a i = some (j, ts)
  | .items b, i, j, ts => ∀ n, s.length < n + i → s[skip s a j]? ≠ some comma →
    ∃ k us vs, itemOf n b s a i = some (k, us) ∧
      Chain (next (satisfy isWhitespace) (Grammar.seq [str ",", itemOf n b])) s a k j vs ∧
      ts = us ++ vs

theorem Found.item {b : Bracket} (h : Found s a b.item i j ts) (hn : s.length < n + i) :
    itemOf n b s a i = some (j, ts) := by
  cases b with
  | object => exact h n hn.le
  | array => exact h n hn

theorem lt_length {c : UInt8} (h : s[i]? = some c) : i < s.length :=
  (List.getElem?_eq_some_iff.1 h).1

/-- **Every derivation is found.** -/
theorem Derives.found (ha : a ≠ .atomic) {φ : Phrase} (h : Derives s a φ i j ts) :
    Found s a φ i j ts := by
  induction h with
  | @empty b i j hopen hj hclose =>
    intro n hn
    obtain ⟨n, rfl⟩ : ∃ m, n = m + 1 := ⟨n - 1, by have := lt_length hopen; omega⟩
    exact valueOf_bracketed hopen fun os cs ho hc => bracketed_empty ha ho hc hopen hj hclose
  | @filled b i j k l ts hopen hj hitems hl hclose ih =>
    intro n hn
    obtain ⟨n, rfl⟩ : ∃ m, n = m + 1 := ⟨n - 1, by have := lt_length hopen; omega⟩
    have hlt : i + 1 ≤ j := hj ▸ le_skipTo
    have hclosed := ih n (by omega) (by
      rw [← hl, hclose]
      cases b <;> decide)
    exact valueOf_bracketed hopen fun os cs ho hc => bracketed_filled ha (progress_itemOf b) ho hc
      hopen hj hitems.first hclosed hl hclose
  | @string i j k l hq hj ht hl hq' =>
    intro n hn
    obtain ⟨n, rfl⟩ : ∃ m, n = m + 1 := ⟨n - 1, by have := lt_length hq; omega⟩
    have hs := (quotedString_eq_some ha).2 ⟨j, k, l, hq, hj, ht, hl, hq', rfl, rfl⟩
    have h1 : objectOf (valueOf n) s a i = none :=
      bracketed_of_ne rfl (by rw [hq]; decide)
    have h2 : arrayOf (valueOf n) s a i = none :=
      bracketed_of_ne rfl (by rw [hq]; decide)
    simp only [valueOf, choice_cons, orElse, h1, h2, hs]
  | @scalar i j r h =>
    intro n hn
    obtain ⟨c, hc, -⟩ := h.first
    obtain ⟨n, rfl⟩ : ∃ m, n = m + 1 := ⟨n - 1, by have := lt_length hc; omega⟩
    exact h.valueOf ha
  | @pair i kb ke q c v j ts hq hkb hk hqe hq' hc hcol hv _ ih =>
    intro n hn
    have h1 : i + 1 ≤ kb := hkb ▸ le_skipTo
    have h2 := hk.lt
    have h3 : ke ≤ q := hqe ▸ le_skipTo
    have h4 : q + 1 ≤ c := hc ▸ le_skipTo
    have h5 : c + 1 ≤ v := hv ▸ le_skipTo
    refine (pairOf_eq_some ha).2 ⟨kb, ke, q, c, ts, hq, hkb, hk, hqe, hq', hc, hcol, ?_, rfl⟩
    rw [← hv]
    exact ih n (by omega)
  | @last b i j ts _ ih =>
    intro n hn hcomma
    refine ⟨j, ts, [], ih.item hn, Chain.stop ?_, by simp⟩
    rw [next_eq_none, Option.eq_none_iff_forall_ne_some]
    rintro ⟨x, xs⟩ hx
    exact hcomma (comma_eq_some.1 hx).1
  | @more b i j c m k ts us hi hc hcom hm _ ih1 ih2 =>
    intro n hn hcomma
    have hij := ih1.item hn
    have h1 := (progress_itemOf b hij).1
    have h2 : j ≤ c := hc ▸ le_skipTo
    have h3 : c + 1 ≤ m := hm ▸ le_skipTo
    obtain ⟨l, vs, ws, hl, hchain, rfl⟩ := ih2 n (by omega) hcomma
    refine ⟨j, ts, vs ++ ws, hij, Chain.step ?_ hchain, rfl⟩
    rw [next_eq_some, ← skip, ← hc, comma_eq_some, ← hm]
    exact ⟨hcom, hl⟩

/-- **The parser is the grammar**, on values. -/
theorem value_eq_some (ha : a ≠ .atomic) :
    value s a i = some (j, ts) ↔ Derives s a .value i j ts :=
  ⟨fun h => derives_of_valueOf ha h, fun h => h.found ha _ (by omega)⟩

theorem pair_eq_some (ha : a ≠ .atomic) :
    pair s a i = some (j, ts) ↔ Derives s a .pair i j ts := by
  constructor
  · intro h
    obtain ⟨kb, ke, q, c, us, hq, hkb, hk, hqe, hq', hc, hcol, hv, rfl⟩ := (pairOf_eq_some ha).1 h
    exact Derives.pair hq hkb hk hqe hq' hc hcol rfl ((value_eq_some ha).1 hv)
  · intro h
    cases h with
    | pair hq hkb hk hqe hq' hc hcol hv hval =>
      subst hv
      exact (pairOf_eq_some ha).2 ⟨_, _, _, _, _, hq, hkb, hk, hqe, hq', hc, hcol,
        (value_eq_some ha).2 hval, rfl⟩

/-- The items of a list are found where every item is, and no further
comma follows the last. -/
theorem Derives.items_found {b : Bracket} {m : P}
    (hm : ∀ {i j ts}, Derives s a b.item i j ts → m s a i = some (j, ts))
    (h : Derives s a (.items b) i j ts) (hcomma : s[skip s a j]? ≠ some comma) :
    ∃ k us vs, m s a i = some (k, us) ∧
      Chain (next (satisfy isWhitespace) (Grammar.seq [str ",", m])) s a k j vs ∧ ts = us ++ vs := by
  generalize hφ : Phrase.items b = φ at h
  induction h with
  | last b' hi =>
    cases hφ
    refine ⟨_, _, [], hm hi, Chain.stop ?_, by simp⟩
    rw [next_eq_none, Option.eq_none_iff_forall_ne_some]
    rintro ⟨x, xs⟩ hx
    exact hcomma (comma_eq_some.1 hx).1
  | more b' hi hc hcom hn _ _ ih =>
    cases hφ
    obtain ⟨l, vs, ws, hl, hchain, rfl⟩ := ih hcomma rfl
    refine ⟨_, _, vs ++ ws, hm hi, Chain.step ?_ hchain, rfl⟩
    rw [next_eq_some, ← skip, ← hc, comma_eq_some, ← hn]
    exact ⟨hcom, hl⟩
  | _ => cases hφ

/-- A value that starts with a bracket is in that bracket. -/
theorem Derives.of_opening {b : Bracket} (hopen : s[i]? = some b.opening)
    (hd : Derives s a .value i j ts) :
    (∃ x, x = skip s a (i + 1) ∧ s[x]? = some b.closing ∧ j = x + 1 ∧
      ts = [.node b.rule i j []]) ∨
    ∃ x z w us, x = skip s a (i + 1) ∧ Derives s a (.items b) x z us ∧
      w = skip s a z ∧ s[w]? = some b.closing ∧ j = w + 1 ∧ ts = [.node b.rule i j us] := by
  have hsame : ∀ {b' : Bracket}, s[i]? = some b'.opening → b' = b := by
    intro b' h'
    rw [hopen] at h'
    cases b <;> cases b' <;> first | rfl | exact absurd h' (by decide)
  cases hd with
  | empty b' hopen' hx hclose =>
    obtain rfl := hsame hopen'
    exact Or.inl ⟨_, hx, hclose, rfl, rfl⟩
  | filled b' hopen' hx hitems hw hclose =>
    obtain rfl := hsame hopen'
    exact Or.inr ⟨_, _, _, _, hx, hitems, hw, hclose, rfl, rfl⟩
  | string hq _ _ _ _ =>
    rw [hopen] at hq
    cases b <;> exact absurd hq (by decide)
  | scalar h =>
    obtain ⟨c, hc, -, hbrace, hbracket, -⟩ := h.first
    rw [hopen, Option.some.injEq] at hc
    cases b
    · exact absurd hc.symm hbrace
    · exact absurd hc.symm hbracket

/-- A value in brackets is found by the rule for them. -/
theorem Derives.bracketed_found (ha : a ≠ .atomic) {b : Bracket} {m : P} (hp : Progress m)
    {os cs : String} (ho : bytes os = [b.opening]) (hc : bytes cs = [b.closing])
    (hm : ∀ {i j ts}, Derives s a b.item i j ts → m s a i = some (j, ts))
    (h : Derives s a .value i j ts) (hb : s[i]? = some b.opening) :
    rule b.rule (bracketed os m cs) s a i = some (j, ts) := by
  rcases h.of_opening hb with ⟨x, hx, hclose, rfl, rfl⟩ |
    ⟨x, z, w, us, hx, hitems, hw, hclose, rfl, rfl⟩
  · exact bracketed_empty ha ho hc hb hx hclose
  · have hclosed := hitems.items_found hm (by
      rw [← hw, hclose]
      cases b <;> decide)
    exact bracketed_filled ha hp ho hc hb hx hitems.first hclosed hw hclose

/-- **A document** is a value in brackets. -/
theorem json_eq_some (ha : a ≠ .atomic) :
    json s a i = some (j, ts) ↔
      Derives s a .value i j ts ∧ ∃ b : Bracket, s[i]? = some b.opening := by
  rw [json, choice_cons, orElse_eq_some, choice_cons, orElse_eq_some, choice_nil]
  have hpair : ∀ {i j ts}, pairOf value s a i = some (j, ts) → Derives s a .pair i j ts :=
    fun h => (pair_eq_some ha).1 h
  constructor
  · rintro (h | ⟨-, h | ⟨-, h⟩⟩)
    · refine ⟨derives_of_bracketed (b := .object) ha (progress_pairOf progress_value) rfl rfl
        hpair h, .object, ?_⟩
      by_contra hne
      rw [object, objectOf, bracketed_of_ne rfl hne] at h
      exact absurd h (by simp)
    · refine ⟨derives_of_bracketed (b := .array) ha progress_value rfl rfl
        (value_eq_some ha).1 h, .array, ?_⟩
      by_contra hne
      rw [array, arrayOf, bracketed_of_ne rfl hne] at h
      exact absurd h (by simp)
    · exact absurd h (by simp)
  · rintro ⟨h, b, hb⟩
    cases b with
    | object =>
      exact Or.inl (h.bracketed_found (b := .object) ha (progress_pairOf progress_value) rfl rfl
        (pair_eq_some ha).2 hb)
    | array =>
      refine Or.inr ⟨bracketed_of_ne rfl ?_, Or.inl (h.bracketed_found (b := .array) ha
        progress_value rfl rfl (value_eq_some ha).2 hb)⟩
      rw [hb]
      decide

/-- A value is determined by where it starts. -/
theorem Derives.value_unique (ha : a ≠ .atomic) (h : Derives s a .value i j ts)
    (h' : Derives s a .value i k us) : j = k ∧ ts = us := by
  have := ((value_eq_some ha).2 h).symm.trans ((value_eq_some ha).2 h')
  simpa using this

/-- So is a pair. -/
theorem Derives.pair_unique (ha : a ≠ .atomic) (h : Derives s a .pair i j ts)
    (h' : Derives s a .pair i k us) : j = k ∧ ts = us := by
  have := ((pair_eq_some ha).2 h).symm.trans ((pair_eq_some ha).2 h')
  simpa using this

end Syntax

end TlsnDemo
