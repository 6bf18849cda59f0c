import TlsnDemo.Demo.Connect

/-!
# The role and the cuts of the stream

The limit on the preamble is checked before a read, and the line feed is
looked for after it. So a line feed behind the limit is still found when
the read that delivers it starts before the limit; in all other cases the
outcome depends on the bytes only (`role_outcome_iff`).
-/

namespace TlsnDemo.Demo

open ByteStream

variable {stream buf chunk line : List UInt8} {chunks : List (List UInt8)} {idx : ℕ}

/-- What the preamble comes to, without the bytes after it. -/
def outcome (chunks : List (List UInt8)) : Except ConnectError Role :=
  (readRolePreamble (⟨chunks⟩ : Chunked)).1.map Prod.fst

/-- What the preamble of a stream should come to: the role of its first
line, if the line feed is within the limit. -/
def specified (stream : List UInt8) : Except ConnectError Role :=
  match stream.findIdx? (· == lineFeed) with
  | some idx =>
    if idx < maxPreambleBytes then roleOf (stream.take idx)
    else .error (.preambleTooLong maxPreambleBytes)
  | none => .error (.preambleTooLong maxPreambleBytes)

/-- **A way of delivering a stream**, in reads of some bytes, at most as many as
the buffer holds. -/
structure Delivers (chunks : List (List UInt8)) (stream : List UInt8) : Prop where
  flatten : chunks.flatten = stream
  nonempty : ∀ chunk ∈ chunks, chunk ≠ []
  fits : ∀ chunk ∈ chunks, chunk.length ≤ maxPreambleBytes

/-- The chunk of a read: some bytes, at most as many as the buffer holds. -/
def IsRead (chunk : List UInt8) : Prop := chunk ≠ [] ∧ chunk.length ≤ maxPreambleBytes

theorem Delivers.isRead (h : Delivers chunks stream) : ∀ chunk ∈ chunks, IsRead chunk :=
  fun chunk hmem => ⟨h.nonempty chunk hmem, h.fits chunk hmem⟩

/-- The read of `chunk`, with `before` read by then, starts before the limit
and delivers the line feed at `idx`. -/
structure FoundBy (before chunk : List UInt8) (idx : ℕ) : Prop where
  starts : before.length < maxPreambleBytes
  first : before.findIdx? (· == lineFeed) = none
  found : (before ++ chunk).findIdx? (· == lineFeed) = some idx

/-- A role is never the error of a long preamble. -/
theorem roleOf_ne_tooLong {limit : ℕ} : roleOf line ≠ .error (.preambleTooLong limit) := by
  unfold roleOf
  split
  · exact fun h => nomatch h
  · unfold parseRole
    split
    · exact fun h => nomatch h
    · split
      · split
        · exact fun h => nomatch h
        · split <;> exact fun h => nomatch h
      · exact fun h => nomatch h

theorem findIdx?_left {before after : List UInt8} (h : (before ++ after).findIdx? (· == lineFeed) = none) :
    before.findIdx? (· == lineFeed) = none := by
  rw [List.findIdx?_eq_none_iff] at h ⊢
  intro b hb
  exact h b (List.mem_append_left _ hb)

/-- What the loop makes of a read that starts before the limit. -/
theorem readRoleFrom_chunk {rest : List (List UInt8)} (hlt : buf.length < maxPreambleBytes)
    (hread : IsRead chunk) : readRoleFrom buf (⟨chunk :: rest⟩ : Chunked) =
      match (buf ++ chunk).findIdx? (· == lineFeed) with
      | none => readRoleFrom (buf ++ chunk) ⟨rest⟩
      | some idx =>
        ((roleOf ((buf ++ chunk).take idx)).map fun role => (role, (buf ++ chunk).drop (idx + 1)), ⟨rest⟩) := by
  obtain ⟨hne, hfits⟩ := hread
  rw [readRoleFrom, if_neg (by omega), read_chunk hne hfits]
  obtain ⟨b, tail, rfl⟩ := List.exists_cons_of_ne_nil hne
  rfl

/-- A read of some bytes without a line feed so far: the loop goes on. -/
theorem readRoleFrom_next {rest : List (List UInt8)} (hlt : buf.length < maxPreambleBytes)
    (hread : IsRead chunk) (hnone : (buf ++ chunk).findIdx? (· == lineFeed) = none) :
    readRoleFrom buf (⟨chunk :: rest⟩ : Chunked) = readRoleFrom (buf ++ chunk) ⟨rest⟩ := by
  rw [readRoleFrom_chunk hlt hread, hnone]

/-- The line feed of a read that starts before the limit ends the preamble. -/
theorem readRoleFrom_found {before after : List (List UInt8)}
    (hread : ∀ c ∈ before ++ chunk :: after, IsRead c)
    (h : FoundBy (buf ++ before.flatten) chunk idx) :
    (readRoleFrom buf (⟨before ++ chunk :: after⟩ : Chunked)).1.map Prod.fst =
      roleOf ((buf ++ before.flatten ++ chunk).take idx) := by
  induction before generalizing buf with
  | nil =>
    have hstarts := h.starts
    have hfound := h.found
    simp only [List.flatten_nil, List.append_nil] at hstarts hfound ⊢
    rw [List.nil_append, readRoleFrom_chunk hstarts (hread chunk (by simp)), hfound]
    dsimp only
    cases roleOf ((buf ++ chunk).take idx) <;> rfl
  | cons first before ih =>
    have happend : buf ++ (first :: before).flatten = buf ++ first ++ before.flatten := by
      rw [List.flatten_cons, List.append_assoc]
    rw [happend] at h ⊢
    have hstarts := h.starts
    simp only [List.length_append] at hstarts
    rw [List.cons_append, readRoleFrom_next (by omega) (hread first (by simp)) (findIdx?_left h.first)]
    exact ih (fun c hc => hread c (List.mem_cons_of_mem _ hc)) h

/-- Without such a read the preamble is too long. -/
theorem readRoleFrom_tooLong (hread : ∀ c ∈ chunks, IsRead c)
    (hbuf : buf.findIdx? (· == lineFeed) = none)
    (h : ∀ before chunk after idx, chunks = before ++ chunk :: after →
      ¬ FoundBy (buf ++ before.flatten) chunk idx) :
    (readRoleFrom buf (⟨chunks⟩ : Chunked)).1 = .error (.preambleTooLong maxPreambleBytes) := by
  induction chunks generalizing buf with
  | nil =>
    rw [readRoleFrom, read_no_chunk]
    split <;> rfl
  | cons chunk chunks ih =>
    by_cases hlt : buf.length < maxPreambleBytes
    · cases hfind : (buf ++ chunk).findIdx? (· == lineFeed) with
      | some idx =>
        refine absurd ⟨?_, ?_, ?_⟩ (h [] chunk chunks idx rfl)
        · simpa using hlt
        · simpa using hbuf
        · simpa using hfind
      | none =>
        rw [readRoleFrom_next hlt (hread chunk List.mem_cons_self) hfind]
        refine ih (fun c hc => hread c (List.mem_cons_of_mem _ hc)) hfind ?_
        intro before c after idx heq
        have hfound := h (chunk :: before) c after idx (by rw [heq]; rfl)
        rwa [List.flatten_cons, ← List.append_assoc] at hfound
    · rw [readRoleFrom, if_pos (by omega)]

/-! ## Against the bytes -/

/-- The read that delivers a byte of the stream. -/
theorem exists_chunk_at (h : idx < chunks.flatten.length) :
    ∃ before chunk after, chunks = before ++ chunk :: after ∧ before.flatten.length ≤ idx ∧
      idx < before.flatten.length + chunk.length := by
  induction chunks generalizing idx with
  | nil => exact absurd h (Nat.not_lt_zero idx)
  | cons first chunks ih =>
    rw [List.flatten_cons, List.length_append] at h
    rcases Nat.lt_or_ge idx first.length with hlt | hge
    · exact ⟨[], first, chunks, rfl, Nat.zero_le _, by simpa using hlt⟩
    · obtain ⟨before, chunk, after, rfl, hle, hlt⟩ := @ih (idx - first.length) (by omega)
      refine ⟨first :: before, chunk, after, rfl, ?_, ?_⟩
      · rw [List.flatten_cons, List.length_append]
        omega
      · rw [List.flatten_cons, List.length_append]
        omega

/-- **A read across the limit**: it starts before the limit and delivers the
first line feed behind it. -/
def ReadAcross (chunks : List (List UInt8)) : Prop :=
  ∃ before chunk after idx, chunks = before ++ chunk :: after ∧
    chunks.flatten.findIdx? (· == lineFeed) = some idx ∧ maxPreambleBytes ≤ idx ∧
    before.flatten.length < maxPreambleBytes ∧ idx < before.flatten.length + chunk.length

theorem flatten_split {before after : List (List UInt8)} (heq : chunks = before ++ chunk :: after) :
    chunks.flatten = before.flatten ++ chunk ++ after.flatten := by
  rw [heq, List.flatten_append, List.flatten_cons, List.append_assoc]

/-- The first line feed of a stream, by the read that delivers it. -/
theorem foundBy_iff {before after : List (List UInt8)} (heq : chunks = before ++ chunk :: after) :
    FoundBy before.flatten chunk idx ↔ before.flatten.length < maxPreambleBytes ∧
      chunks.flatten.findIdx? (· == lineFeed) = some idx ∧
      before.flatten.length ≤ idx ∧ idx < before.flatten.length + chunk.length := by
  have hwhole := @List.findIdx?_append _ (before.flatten ++ chunk) after.flatten (· == lineFeed)
  have hread := @List.findIdx?_append _ before.flatten chunk (· == lineFeed)
  rw [flatten_split heq]
  constructor
  · intro h
    have hlt : idx < (before.flatten ++ chunk).length :=
      (List.findIdx?_eq_some_iff_getElem.1 h.found).1
    have hle : before.flatten.length ≤ idx := by
      rw [h.found, h.first, Option.none_or] at hread
      obtain ⟨i, -, hi⟩ := Option.map_eq_some_iff.1 hread.symm
      omega
    rw [h.found, Option.some_or] at hwhole
    exact ⟨h.starts, hwhole, hle, by rwa [List.length_append] at hlt⟩
  · rintro ⟨hstarts, hfind, hle, hlt⟩
    have hfound : (before.flatten ++ chunk).findIdx? (· == lineFeed) = some idx := by
      cases hpart : (before.flatten ++ chunk).findIdx? (· == lineFeed) with
      | none =>
        rw [hfind, hpart, Option.none_or] at hwhole
        obtain ⟨i, -, hi⟩ := Option.map_eq_some_iff.1 hwhole.symm
        rw [List.length_append] at hi
        omega
      | some i => rw [← hfind, hwhole, hpart, Option.some_or]
    refine ⟨hstarts, ?_, hfound⟩
    cases hpart : before.flatten.findIdx? (· == lineFeed) with
    | none => rfl
    | some i =>
      -- A line feed before the read would come first.
      rw [hfound, hpart, Option.some_or] at hread
      have hi : i < before.flatten.length := (List.findIdx?_eq_some_iff_getElem.1 hpart).1
      have hidx : idx = i := Option.some.inj hread
      omega

/-- With such a read, the preamble is the line that it ends. -/
theorem outcome_found {before after : List (List UInt8)} (hread : ∀ c ∈ chunks, IsRead c)
    (heq : chunks = before ++ chunk :: after) (h : FoundBy before.flatten chunk idx) :
    outcome chunks = roleOf (chunks.flatten.take idx) := by
  have hlen : idx ≤ (before.flatten ++ chunk).length :=
    Nat.le_of_lt (List.findIdx?_eq_some_iff_getElem.1 h.found).1
  have hrole : (readRoleFrom [] (⟨before ++ chunk :: after⟩ : Chunked)).1.map Prod.fst =
      roleOf (([] ++ before.flatten ++ chunk).take idx) := readRoleFrom_found (heq ▸ hread) h
  rw [flatten_split heq, List.take_append_of_le_length hlen, outcome, readRolePreamble, heq, hrole,
    List.nil_append]

theorem outcome_tooLong (hread : ∀ c ∈ chunks, IsRead c)
    (h : ∀ before chunk after idx, chunks = before ++ chunk :: after →
      ¬ FoundBy before.flatten chunk idx) :
    outcome chunks = .error (.preambleTooLong maxPreambleBytes) := by
  rw [outcome, readRolePreamble, readRoleFrom_tooLong hread rfl h]
  rfl

/-- Within the limit, the read of the first line feed starts within it too. -/
theorem outcome_within (hread : ∀ c ∈ chunks, IsRead c)
    (hfind : chunks.flatten.findIdx? (· == lineFeed) = some idx) (hlimit : idx < maxPreambleBytes) :
    outcome chunks = roleOf (chunks.flatten.take idx) := by
  have hlt : idx < chunks.flatten.length := (List.findIdx?_eq_some_iff_getElem.1 hfind).1
  obtain ⟨before, chunk, after, heq, hle, hlt⟩ := exists_chunk_at hlt
  exact outcome_found hread heq ((foundBy_iff heq).2 ⟨by omega, hfind, hle, hlt⟩)

/-- **When the cuts of the stream do not matter.** Of every stream, delivered
in reads of at least one byte that the buffer holds, the outcome of the
preamble is the one its bytes call for, if and only if no read goes across
the limit. -/
theorem role_outcome_iff (h : Delivers chunks stream) :
    outcome chunks = specified stream ↔ ¬ ReadAcross chunks := by
  have hread := h.isRead
  obtain ⟨rfl, -, -⟩ := h
  constructor
  · rintro hout ⟨before, chunk, after, idx, heq, hfind, hge, hstarts, hlt⟩
    have hby : FoundBy before.flatten chunk idx :=
      (foundBy_iff heq).2 ⟨hstarts, hfind, by omega, hlt⟩
    have hspecified : specified chunks.flatten = .error (.preambleTooLong maxPreambleBytes) := by
      rw [specified, hfind]
      exact if_neg (by omega)
    rw [outcome_found hread heq hby, hspecified] at hout
    exact roleOf_ne_tooLong hout
  · intro hnot
    -- A line feed that a read finds is within the limit.
    have hwithin : ∀ before chunk after idx, chunks = before ++ chunk :: after →
        FoundBy before.flatten chunk idx → idx < maxPreambleBytes := by
      intro before chunk after idx heq hby
      obtain ⟨hstarts, hfind, -, hlt⟩ := (foundBy_iff heq).1 hby
      by_contra hge
      exact hnot ⟨before, chunk, after, idx, heq, hfind, by omega, hstarts, hlt⟩
    have hlate : ∀ idx, chunks.flatten.findIdx? (· == lineFeed) = some idx →
        ¬ idx < maxPreambleBytes → outcome chunks = .error (.preambleTooLong maxPreambleBytes) := by
      intro idx hfind hge
      refine outcome_tooLong hread fun before chunk after idx' heq hby => hge ?_
      have hsome := ((foundBy_iff heq).1 hby).2.1
      rw [hfind] at hsome
      exact Option.some.inj hsome ▸ hwithin before chunk after idx' heq hby
    unfold specified
    split
    · next idx hfind =>
      split
      · next hlimit => exact outcome_within hread hfind hlimit
      · next hge => exact hlate idx hfind hge
    · next hfind =>
      refine outcome_tooLong hread fun before chunk after idx heq hby => ?_
      have hsome := ((foundBy_iff heq).1 hby).2.1
      rw [hfind] at hsome
      exact nomatch hsome

/-- A preamble of six bytes in two reads. -/
theorem role_outcome_iff_verify :
    outcome [[86, 69, 82], [73, 70, 89, 10, 0]] = specified [86, 69, 82, 73, 70, 89, 10, 0] ↔
      ¬ ReadAcross [[86, 69, 82], [73, 70, 89, 10, 0]] := by
  have h : Delivers [[86, 69, 82], [73, 70, 89, 10, 0]] [86, 69, 82, 73, 70, 89, 10, 0] :=
    ⟨rfl, by simp, by simp [maxPreambleBytes]⟩
  exact role_outcome_iff h

/-- Some letters `A`. -/
def letters (n : ℕ) : List UInt8 := List.replicate n 65

theorem length_letters {n : ℕ} : (letters n).length = n := List.length_replicate

theorem letters_ne_nil {n : ℕ} (h : 0 < n) : letters n ≠ [] :=
  List.length_pos_iff.1 (length_letters.symm ▸ h)

theorem findIdx?_letters {n : ℕ} : (letters n).findIdx? (· == lineFeed) = none := by
  rw [List.findIdx?_eq_none_iff]
  intro b hb
  rw [List.eq_of_mem_replicate hb]
  rfl

/-- **Two ways of delivering one stream differ**: its line feed is the first
byte behind the limit, and the limit is met after a read of 256 bytes, but
not after one of 255. -/
theorem not_forall_same_outcome :
    ¬ ∀ (stream : List UInt8) (chunks chunks' : List (List UInt8)), Delivers chunks stream →
      Delivers chunks' stream → outcome chunks = outcome chunks' := by
  intro hall
  have htwo : ∀ a b : List UInt8, a ≠ [] → b ≠ [] → a.length ≤ 256 → b.length ≤ 256 →
      Delivers [a, b] (a ++ b) := by
    intro a b ha hb ha' hb'
    exact ⟨by simp, by simp [ha, hb], by simp [maxPreambleBytes, ha', hb']⟩
  have hearly : Delivers [letters 256, [lineFeed]] (letters 256 ++ [lineFeed]) :=
    htwo _ _ (letters_ne_nil (by omega)) (by simp) (Nat.le_of_eq length_letters) (by simp)
  have hlate : Delivers [letters 255, [65, lineFeed]] (letters 256 ++ [lineFeed]) := by
    have hcut : letters 256 ++ [lineFeed] = letters 255 ++ [65, lineFeed] := by
      rw [letters, List.replicate_succ', List.append_assoc]
      rfl
    rw [hcut]
    exact htwo _ _ (letters_ne_nil (by omega)) (by simp) (by rw [length_letters]; omega) (by simp)
  have htooLong : outcome [letters 256, [lineFeed]] =
      .error (.preambleTooLong maxPreambleBytes) := by
    have hnone : ([] ++ letters 256).findIdx? (· == lineFeed) = none := findIdx?_letters
    rw [outcome, readRolePreamble,
      readRoleFrom_next (by decide) (hearly.isRead _ List.mem_cons_self) hnone, readRoleFrom,
      if_pos (by rw [List.nil_append, length_letters]; exact Nat.le_refl 256)]
    rfl
  have hby : FoundBy [letters 255].flatten [65, lineFeed] 256 := by
    rw [List.flatten_cons, List.flatten_nil, List.append_nil]
    refine ⟨by rw [length_letters]; decide, findIdx?_letters, ?_⟩
    rw [List.findIdx?_append, findIdx?_letters, length_letters]
    rfl
  have hsame := hall _ _ _ hearly hlate
  rw [htooLong, outcome_found hlate.isRead rfl hby] at hsame
  exact roleOf_ne_tooLong hsame.symm

end TlsnDemo.Demo
