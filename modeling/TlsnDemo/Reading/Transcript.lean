import TlsnDemo.BalanceVerifier
import TlsnDemo.Syntax.Agreement

/-!
# Redacted transcripts

A redacted transcript shows the bytes of the message at the revealed
positions and zero elsewhere. What is solid in it is revealed, so the
message has the same bytes there.
-/

namespace TlsnDemo

open Syntax

variable {s : List UInt8} {shown : ℕ → Bool} {i j k : ℕ} {c : UInt8}

@[simp] theorem length_redact : (redact s shown).length = s.length := by simp [redact]

theorem getElem?_redact : (redact s shown)[k]? = (s[k]?).map fun b => if shown k then b else 0 := by
  simp [redact]

/-- A byte that is not zero is revealed. -/
theorem shown_of_ne_zero (h : (redact s shown)[k]? = some c) (hc : c ≠ 0) :
    shown k = true ∧ s[k]? = some c := by
  rw [getElem?_redact, Option.map_eq_some_iff] at h
  obtain ⟨b, hb, h⟩ := h
  split at h
  · next hk => exact ⟨hk, h ▸ hb⟩
  · exact absurd h.symm hc

theorem getElem?_redact_of_shown (h : shown k = true) : (redact s shown)[k]? = s[k]? := by
  simp [getElem?_redact, h]

theorem getElem?_redact_of_hidden (h : shown k = false) (hk : k < s.length) :
    (redact s shown)[k]? = some 0 := by
  rw [getElem?_redact, List.getElem?_eq_getElem hk]
  simp [h]

/-- **What is solid in the transcript is as it is in the message.** -/
theorem agree_redact (h : AllIn isSolid (redact s shown) i j) : Agree (redact s shown) s i j := by
  intro k h1 h2
  obtain ⟨c, hc, hs⟩ := h k h1 h2
  rw [hc, (shown_of_ne_zero hc (ne_zero_of_solid hs)).2]

/-- Where texts agree, they have the same text. -/
theorem slice_of_agree {t : List UInt8} {r : Range} (hag : Agree s t r.start r.stop) :
    slice t r = slice s r := by
  refine List.ext_getElem? fun n => ?_
  simp only [slice, List.getElem?_take, List.getElem?_drop]
  split
  · exact (hag (r.start + n) (by omega) (by omega)).symm
  · rfl

/-- The text of a token is that of its bytes. -/
theorem asStr_of_agree {t : List UInt8} {u : Token} (hag : Agree s t u.start u.stop) :
    asStr t u = asStr s u := by
  have hslice : slice t (extractRange u) = slice s (extractRange u) := slice_of_agree hag
  rw [asStr, asStr, hslice]

theorem shown_of_solid (h : AllIn isSolid (redact s shown) i j) (h1 : i ≤ k) (h2 : k < j) :
    shown k = true := by
  obtain ⟨c, hc, hs⟩ := h k h1 h2
  exact (shown_of_ne_zero hc (ne_zero_of_solid hs)).1

/-- The positions that reveal calls name. -/
def revealedBy (calls : List Disclosure) (k : ℕ) : Bool :=
  calls.any fun c => c.action = .reveal && decide (c.range.Contains k)

theorem revealedBy_eq_true {calls : List Disclosure} :
    revealedBy calls k = true ↔ ∃ c ∈ calls, c.action = .reveal ∧ c.range.Contains k := by
  simp [revealedBy]

/-- Over the same shown bytes, a transcript is the same. -/
theorem redact_congr {t : List UInt8} (hlen : t.length = s.length)
    (hsame : ∀ k, shown k = true → s[k]? = t[k]?) : redact t shown = redact s shown := by
  refine List.ext_getElem? fun k => ?_
  rw [getElem?_redact, getElem?_redact]
  by_cases hk : shown k = true
  · rw [hsame k hk]
  · rcases Nat.lt_or_ge k s.length with hlt | hge
    · rw [List.getElem?_eq_getElem hlt, List.getElem?_eq_getElem (hlen ▸ hlt)]
      simp [hk]
    · rw [List.getElem?_eq_none hge, List.getElem?_eq_none (hlen ▸ hge)]

end TlsnDemo
