import TlsnDemo.Reading.Redacted

/-!
# What the verifier reports is authenticated

Redacted bytes are zero, and zero is whitespace to the grammar. The status
line and the redacted pairs are read in the compound-atomic mode all the
way down, objects and arrays included, so none of their bytes is.
-/

namespace TlsnDemo

open Peg Syntax

variable {D : List UInt8} {A : ℕ → Prop} {i j : ℕ}

/-- Every redacted byte is zero. -/
def ZeroOutside (D : List UInt8) (A : ℕ → Prop) : Prop := ∀ k c, D[k]? = some c → ¬ A k → c = 0

/-- A solid stretch is authenticated. -/
theorem ZeroOutside.of_solid (hA : ZeroOutside D A) (h : AllIn isSolid D i j) {k : ℕ} (h1 : i ≤ k)
    (h2 : k < j) : A k := by
  obtain ⟨c, hc, hs⟩ := h k h1 h2
  by_contra hk
  exact ne_zero_of_solid hs (hA k c hc hk)

/-- **An authenticated field**: from the opening quote of its key through
the last byte of its value, and through the closing quote of a value that
stands in quotes. -/
structure AuthenticField (D : List UInt8) (A : ℕ → Prop) (key value : Range) : Prop where
  opening : D[key.start - 1]? = some quote
  pos : 0 < key.start
  pair : ∀ k, key.start - 1 ≤ k → k < value.stop → A k
  closing : D[value.start - 1]? = some quote → D[value.stop]? = some quote ∧ A value.stop

/-- The text of a redacted pair with a value is authenticated. -/
theorem authenticField_of_redacted (hA : ZeroOutside D A) {e : ℕ} {v : Token}
    (hk : KeyColon D i e) (hv : Derives D .compoundAtomic .value (e + 2) j [v]) :
    AuthenticField D A ⟨i + 1, e⟩ (extractRange v) := by
  have hsolid := hk.solid.append hv.solid
  have hb := hv.bounds (t := v) Occurs.head
  refine ⟨hk.opening, by simp, fun k h1 h2 => hA.of_solid hsolid (by simpa using h1) ?_, ?_⟩
  · exact h2.trans_le hb.2.2
  · intro hq
    have hcolon : v.start = e + 2 → False := by
      intro hs
      rw [extractRange, hs] at hq
      simp only [Nat.add_one_sub_one] at hq
      rw [hk.colon] at hq
      exact absurd hq (by decide)
    cases hv with
    | empty b _ _ _ => exact (hcolon rfl).elim
    | filled b _ _ _ _ _ => exact (hcolon rfl).elim
    | string _ hj ht hl hclose =>
      have h1 := le_of_skip hj
      have h2 := hk.lt
      have h3 := ht.le
      rw [skip_compoundAtomic] at hl
      subst hl
      exact ⟨hclose, hA.of_solid hsolid (by simp only [extractRange, Pair.stop_node]; omega)
        (by simp [extractRange])⟩
    | scalar _ => exact (hcolon rfl).elim

section

variable [ToLowercase] {r : RedactedResponse} {p : String} {text : List UInt8}

/-- A reported text is that of an authenticated field. -/
theorem bodyText_authentic (hA : ZeroOutside D A) (hp : parseRedactedResponse D = .ok r)
    (ht : bodyText r.body D p = .ok text) :
    ∃ key value, r.body.lookup p = some (.keyValue key (some value)) ∧ text = slice D value ∧
      AuthenticField D A key value := by
  obtain ⟨field, range, hf, hrange, -, rfl⟩ := bodyText_eq_ok.1 ht
  obtain ⟨d, l, hs, h, bs, e, ps, t, us, k, m, -, -, hb, u, hu, -, rfl⟩ := redacted_of_lookup hp hf
  obtain ⟨x, y, -, -, hred⟩ := hb.mem hu
  cases hred with
  | full hk hv hc =>
    simp only [redactedField, redactedToken, Pair.intoInner_node, List.head?_cons, Option.map_some,
      fieldRange, Option.some.injEq] at hrange
    subst hrange
    exact ⟨_, _, hf, rfl, authenticField_of_redacted hA hk hv⟩
  | bare hk _ =>
    simp [redactedField, redactedToken, fieldRange] at hrange

/-- **An authenticated report**: the status line it was read with, and its
two fields. -/
def AuthenticReport (D : List UInt8) (A : ℕ → Prop) (out : BalanceOutput) : Prop :=
  ∃ r, parseRedactedResponse D = .ok r ∧
    (∀ k, r.protocolVersion.start ≤ k → k < r.status.stop → A k) ∧
    (∃ key value, r.body.lookup ".CHF" = some (.keyValue key (some value)) ∧
      out.chfBalance = slice D value ∧ AuthenticField D A key value) ∧
    ∃ key value, r.body.lookup ".last_audit" = some (.keyValue key (some value)) ∧
      out.lastAudit = slice D value ∧ AuthenticField D A key value

/-- **Everything the verifier reports was authenticated.** -/
theorem extractBalance_authentic {out : BalanceOutput} (hA : ZeroOutside D A)
    (h : extractBalance D = .ok out) : AuthenticReport D A out := by
  obtain ⟨-, r, hr, hchf, haudit⟩ := extractBalance_eq_ok.1 h
  refine ⟨r, hr, fun k h1 h2 => ?_, bodyText_authentic hA hr hchf, bodyText_authentic hA hr haudit⟩
  obtain ⟨d, l, hs, h, bs, e, ps, hread⟩ := parseResponseInner_eq_ok.1 hr
  rw [hread.protocolVersion] at h1
  rw [hread.status] at h2
  exact hA.of_solid hread.text.status.solid h1 h2

end

/-- A redacted response with an object for a balance. -/
def nestedBalance : List UInt8 :=
  bytes "HTTP/1.1 200 OK\n\x00\"CHF\":\x7b\"v\":[1,2]\x7d\x00\"last_audit\":\"d\"\x00"

/-- Its bytes that are not zero are all the verifier reads of it. -/
theorem extractBalance_authentic_nestedBalance :
    @AuthenticReport asciiLowercase nestedBalance (fun k => nestedBalance[k]? ≠ some 0)
      ⟨bytes "\x7b\"v\":[1,2]\x7d", bytes "d"⟩ := by
  have hzero : ZeroOutside nestedBalance fun k => nestedBalance[k]? ≠ some 0 := by
    intro k c hc hk
    simp only [ne_eq, not_not] at hk
    rw [hc, Option.some.injEq] at hk
    exact hk
  have hrun : @extractBalance asciiLowercase nestedBalance =
      .ok ⟨bytes "\x7b\"v\":[1,2]\x7d", bytes "d"⟩ := by
    decide +kernel
  exact @extractBalance_authentic _ _ asciiLowercase _ hzero hrun

end TlsnDemo
