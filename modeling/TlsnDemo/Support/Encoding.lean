import Mathlib.Data.List.Basic
import Mathlib.Data.Nat.Digits.Defs

/-!
# Lengths and records as bytes

A length in four bytes, the highest of them first, and what a JSON library
does with an object of strings: it writes its entries as bytes, and reads
the entries of an object back. The library is a parameter, with the round
trip of its two functions as its law.
-/

namespace Encoding

/-- `n.to_be_bytes()`. -/
def toBeBytes (n : UInt32) : List UInt8 :=
  [UInt8.ofNat (n.toNat / 16777216), UInt8.ofNat (n.toNat / 65536), UInt8.ofNat (n.toNat / 256),
    UInt8.ofNat n.toNat]

/-- `u32::from_be_bytes(bytes)`. -/
def fromBeBytes (bytes : List UInt8) : UInt32 :=
  UInt32.ofNat (bytes.foldl (fun n b => n * 256 + b.toNat) 0)

example : toBeBytes 1048576 = [0, 16, 0, 0] := by rfl

theorem length_toBeBytes (n : UInt32) : (toBeBytes n).length = 4 := rfl

theorem fromBeBytes_toBeBytes (n : UInt32) : fromBeBytes (toBeBytes n) = n := by
  have hlt : n.toNat < 4294967296 := n.toNat_lt
  have hsum : (toBeBytes n).foldl (fun n b => n * 256 + b.toNat) 0 = n.toNat := by
    simp only [toBeBytes, List.foldl_cons, List.foldl_nil, UInt8.toNat_ofNat']
    omega
  rw [fromBeBytes, hsum, UInt32.ofNat_toNat]

/-- The length of a list that is short enough for it, in four bytes. -/
theorem toNat_fromBeBytes {n : ℕ} (h : n < UInt32.size) :
    (fromBeBytes (toBeBytes (UInt32.ofNat n))).toNat = n := by
  rw [fromBeBytes_toBeBytes, UInt32.toNat_ofNat_of_lt' h]

/-! ## Objects of strings -/

/-- A value of an object, as far as it is looked at. -/
inductive Json where
  | string (text : String)
  | other
  deriving DecidableEq

/-- The entries of an object, in order. -/
abbrev Entries := List (String × Json)

/-- A JSON library: `toVec` writes an object of strings, `fromSlice` reads the
entries of an object. -/
structure SerdeJson where
  toVec : List (String × String) → Except String (List UInt8)
  fromSlice : List UInt8 → Except String Entries

/-- What is written of an object of strings is read back. -/
structure SerdeJson.Lawful (json : SerdeJson) : Prop where
  fromSlice_toVec : ∀ entries : List (String × String), (entries.map Prod.fst).Nodup →
    ∃ bytes, json.toVec entries = .ok bytes ∧
      json.fromSlice bytes = .ok (entries.map fun entry => (entry.1, .string entry.2))

/-- The string of a name in an object. -/
def field (entries : Entries) (name : String) : Except String String :=
  match entries.filter (·.1 = name) with
  | [] => .error ("missing field `" ++ name ++ "`")
  | [(_, .string text)] => .ok text
  | [(_, .other)] => .error "invalid type, expected a string"
  | _ => .error ("duplicate field `" ++ name ++ "`")

/-! ## A JSON library

The text that such a library writes when no character of the strings has to
be escaped but the quote and the backslash, and a reader of that text. -/

def escape (c : Char) : List Char := if c = '"' ∨ c = '\\' then ['\\', c] else [c]

/-- The text behind an opening quote. -/
def quoted (text : String) : List Char := text.toList.flatMap escape ++ ['"']

/-- The text up to the closing quote, and what follows it; the character behind
a backslash stands for itself. -/
def unquote : Bool → List Char → Option (List Char × List Char)
  | _, [] => none
  | true, c :: chars => (unquote false chars).map fun read => (c :: read.1, read.2)
  | false, c :: chars =>
    if c = '"' then some ([], chars)
    else if c = '\\' then unquote true chars
    else (unquote false chars).map fun read => (c :: read.1, read.2)

theorem unquote_quoted (text : String) (rest : List Char) :
    unquote false (quoted text ++ rest) = some (text.toList, rest) := by
  have hchars : ∀ chars : List Char,
      unquote false (chars.flatMap escape ++ '"' :: rest) = some (chars, rest) := by
    intro chars
    induction chars with
    | nil => rfl
    | cons c chars ih =>
      rw [List.flatMap_cons, List.append_assoc, escape]
      split
      · change (unquote false (chars.flatMap escape ++ '"' :: rest)).map _ = _
        rw [ih]
        rfl
      · next hc =>
        rw [not_or] at hc
        rw [List.singleton_append, unquote, if_neg hc.1, if_neg hc.2, ih]
        rfl
  rw [quoted, List.append_assoc]
  exact hchars text.toList

/-- The whitespace of a text: before each entry, behind each colon, and before
the closing brace. -/
structure Layout where
  line : List Char
  gap : List Char
  last : List Char
  blank : ∀ c ∈ line ++ gap ++ last, c.isWhitespace = true

/-- `to_vec`. -/
def Layout.compact : Layout := ⟨[], [], [], by simp⟩

/-- `to_vec_pretty`. -/
def Layout.pretty : Layout := ⟨['\n', ' ', ' '], [' '], ['\n'], by simp [Char.isWhitespace]⟩

def skip (chars : List Char) : List Char := chars.dropWhile Char.isWhitespace

theorem skip_blank {blank rest : List Char} {c : Char} (h : ∀ c ∈ blank, c.isWhitespace = true)
    (hc : c.isWhitespace = false) : skip (blank ++ c :: rest) = c :: rest := by
  rw [skip, List.dropWhile_append_of_pos h, List.dropWhile_cons_of_neg (by simp [hc])]

section

variable (layout : Layout)

/-- The text of an entry, and what follows it. -/
def entryText (entry : String × String) (rest : List Char) : List Char :=
  layout.line ++ '"' :: (quoted entry.1 ++ ':' :: (layout.gap ++ '"' :: (quoted entry.2 ++ rest)))

/-- The text behind an opening brace. -/
def objectText : List (String × String) → List Char
  | [] => ['\x7d']
  | [entry] => entryText layout entry (layout.last ++ ['\x7d'])
  | entry :: next :: entries => entryText layout entry (',' :: objectText (next :: entries))

end

/-- A name or a value, from its opening quote on, behind whitespace. -/
def readString (chars : List Char) : Option (String × List Char) :=
  match skip chars with
  | '"' :: chars => (unquote false chars).map fun read => (String.ofList read.1, read.2)
  | _ => none

def readObject : ℕ → List Char → Option Entries
  | 0, _ => none
  | fuel + 1, chars =>
    if skip chars = ['\x7d'] then some []
    else
      match readString chars with
      | some (name, ':' :: chars) =>
        match readString chars with
        | some (value, chars) =>
          match skip chars with
          | ['\x7d'] => some [(name, .string value)]
          | ',' :: chars => (readObject fuel chars).map ((name, .string value) :: ·)
          | _ => none
        | none => none
      | _ => none

variable {layout : Layout}

theorem readString_quoted {blank : List Char} (h : ∀ c ∈ blank, c.isWhitespace = true) (text : String)
    (rest : List Char) : readString (blank ++ '"' :: (quoted text ++ rest)) = some (text, rest) := by
  rw [readString, skip_blank h (by decide)]
  simp only [unquote_quoted, Option.map_some, String.ofList_toList]

theorem length_lt_objectText (entries : List (String × String)) :
    entries.length < (objectText layout entries).length := by
  induction entries with
  | nil => exact Nat.zero_lt_one
  | cons entry entries ih =>
    cases entries with
    | nil =>
      simp only [objectText, entryText, List.length_cons, List.length_append, List.length_nil]
      omega
    | cons next entries =>
      simp only [objectText, entryText, List.length_cons, List.length_append] at ih ⊢
      omega

/-- What is read of the text of an entry: the entry, and what follows it. -/
theorem readObject_entryText {fuel : ℕ} (entry : String × String) (rest : List Char) :
    readObject (fuel + 1) (entryText layout entry rest) =
      match skip rest with
      | ['\x7d'] => some [(entry.1, .string entry.2)]
      | ',' :: chars => (readObject fuel chars).map ((entry.1, .string entry.2) :: ·)
      | _ => none := by
  have hline : ∀ c ∈ layout.line, c.isWhitespace = true := fun c hc => layout.blank c (by simp [hc])
  have hgap : ∀ c ∈ layout.gap, c.isWhitespace = true := fun c hc => layout.blank c (by simp [hc])
  have hopen : skip (entryText layout entry rest) ≠ ['\x7d'] := by
    rw [entryText, skip_blank hline (by decide)]
    intro heq
    exact absurd (List.cons.inj heq).1 (by decide)
  rw [readObject, if_neg hopen, entryText, readString_quoted hline]
  simp only [readString_quoted hgap]

theorem readObject_objectText {fuel : ℕ} (entries : List (String × String))
    (hfuel : entries.length < fuel) :
    readObject fuel (objectText layout entries) =
      some (entries.map fun entry => (entry.1, .string entry.2)) := by
  induction entries generalizing fuel with
  | nil =>
    obtain ⟨fuel, rfl⟩ : ∃ k, fuel = k + 1 := ⟨fuel - 1, by omega⟩
    rfl
  | cons entry entries ih =>
    rw [List.length_cons] at hfuel
    obtain ⟨fuel, rfl⟩ : ∃ k, fuel = k + 1 := ⟨fuel - 1, by omega⟩
    cases entries with
    | nil =>
      have hlast : ∀ c ∈ layout.last, c.isWhitespace = true :=
        fun c hc => layout.blank c (by simp [hc])
      rw [objectText, readObject_entryText, skip_blank hlast (by decide)]
      rfl
    | cons next entries =>
      have hcomma : skip (',' :: objectText layout (next :: entries)) =
          ',' :: objectText layout (next :: entries) := rfl
      rw [objectText, readObject_entryText, hcomma]
      simp only [@ih fuel (by omega)]
      rfl

/-- The string of a list of bytes. -/
def textOf (bytes : List UInt8) : Option String := String.fromUTF8? ⟨bytes.toArray⟩

theorem textOf_utf8 (text : String) : textOf text.toUTF8.data.toList = some text := by
  have hbytes : (⟨text.toUTF8.data.toList.toArray⟩ : ByteArray) = text.toUTF8 := rfl
  rw [textOf, hbytes, String.fromUTF8?]
  exact dif_pos text.isValidUTF8

def plain (layout : Layout) : SerdeJson where
  toVec := fun entries => .ok (String.ofList ('\x7b' :: objectText layout entries)).toUTF8.data.toList
  fromSlice := fun bytes =>
    match (textOf bytes).map String.toList with
    | some ('\x7b' :: chars) =>
      match readObject chars.length chars with
      | some entries => .ok entries
      | none => .error "invalid entries"
    | _ => .error "expected an object"

theorem plain_lawful : (plain layout).Lawful where
  fromSlice_toVec := by
    intro entries _
    refine ⟨_, rfl, ?_⟩
    have hread : readObject (objectText layout entries).length (objectText layout entries) =
        some (entries.map fun entry => (entry.1, .string entry.2)) :=
      readObject_objectText entries (length_lt_objectText entries)
    simp only [plain, textOf_utf8, Option.map_some, String.toList_ofList, hread]

/-! ## Bytes in hexadecimal digits -/

def hexDigits : List Char := ['0','1','2','3','4','5','6','7','8','9','a','b','c','d','e','f']

/-- The two digits of a byte, the high half first. -/
def hexChars (b : UInt8) : List Char :=
  [hexDigits.getD (b.toNat / 16) '0', hexDigits.getD (b.toNat % 16) '0']

def hexEncode (bytes : List UInt8) : String := String.ofList (bytes.flatMap hexChars)

def hexBytes : List Char → Option (List UInt8)
  | [] => some []
  | [_] => none
  | c :: d :: chars =>
    if c ∈ hexDigits ∧ d ∈ hexDigits then
      (hexBytes chars).map (UInt8.ofNat (16 * hexDigits.idxOf c + hexDigits.idxOf d) :: ·)
    else none

def hexDecode (text : String) : Except String (List UInt8) :=
  match hexBytes text.toList with
  | some bytes => .ok bytes
  | none => .error "invalid hex"

theorem hexBytes_hexChars (b : UInt8) (chars : List Char) :
    hexBytes (hexChars b ++ chars) = (hexBytes chars).map (b :: ·) := by
  have hdigit : ∀ n < 16, hexDigits.getD n '0' ∈ hexDigits ∧ hexDigits.idxOf (hexDigits.getD n '0') = n := by
    decide
  have hlt : b.toNat < 256 := b.toNat_lt
  obtain ⟨hhigh, hhigh'⟩ := hdigit (b.toNat / 16) (by omega)
  obtain ⟨hlow, hlow'⟩ := hdigit (b.toNat % 16) (by omega)
  have hb : UInt8.ofNat (16 * (b.toNat / 16) + b.toNat % 16) = b := by
    rw [Nat.div_add_mod, UInt8.ofNat_toNat]
  change (if _ ∧ _ then _ else _) = _
  rw [if_pos ⟨hhigh, hlow⟩, hhigh', hlow', hb]
  rfl

theorem hexDecode_hexEncode (bytes : List UInt8) : hexDecode (hexEncode bytes) = .ok bytes := by
  have hbytes : hexBytes (bytes.flatMap hexChars) = some bytes := by
    induction bytes with
    | nil => rfl
    | cons b bytes ih =>
      rw [List.flatMap_cons, hexBytes_hexChars, ih]
      rfl
  rw [hexDecode, hexEncode, String.toList_ofList, hbytes]

/-! ## Numbers in decimal digits -/

/-- A sign and the digits, from the lowest on. -/
def digitsText (n : ℤ) : List Char :=
  (if n < 0 then '-' else '+') :: (Nat.digits 10 n.natAbs).map fun d => Char.ofNat (48 + d)

def readDigits : List Char → Option ℤ
  | [] => none
  | sign :: digits =>
    let n := (Nat.ofDigits 10 (digits.map fun c => c.toNat - 48) : ℕ)
    if sign = '-' then some (-n) else some n

theorem readDigits_digitsText (n : ℤ) : readDigits (digitsText n) = some n := by
  have hdigit : ∀ d < 10, (Char.ofNat (48 + d)).toNat - 48 = d := by decide
  have hmap : ((Nat.digits 10 n.natAbs).map fun d => Char.ofNat (48 + d)).map (fun c => c.toNat - 48) =
      Nat.digits 10 n.natAbs := by
    rw [List.map_map]
    refine (List.map_congr_left fun d hd => ?_).trans (List.map_id _)
    exact hdigit d (Nat.digits_lt_base (by omega) hd)
  simp only [digitsText, readDigits, hmap, Nat.ofDigits_digits]
  by_cases hneg : n < 0
  · rw [if_pos hneg, if_pos rfl]
    congr 1
    omega
  · rw [if_neg hneg, if_neg (by decide)]
    congr 1
    omega

end Encoding
