import TlsnDemo.Demo.Validity
import TlsnDemo.Demo.Worker

/-!
# The certificate that the page pins

The server writes the hash of its certificate into the page, in hexadecimal
digits, and the worker reads the digits back and accepts that certificate
alone. The digits come back as the bytes of the hash; and after every run
of calls the certificate that is hashed is the one that is served, with the
key that it was signed with (`pinned_is_served`).
-/

namespace TlsnDemo.Demo

open Encoding

/-! ## The hash in the page -/

/-- The digest is a parameter. -/
def sha256Hex (sha256 : List UInt8 → List UInt8) (data : List UInt8) : String :=
  hexEncode (sha256 data)

structure PageState where
  certHashHex : String

/-- The errors of serving a page. -/
inductive ServeError where
  | pageStateMissing
  deriving DecidableEq

/-- `render_index`: the value that the page has for its `data-cert-hash`. -/
def renderIndex (state : Option PageState) : Except ServeError String :=
  match state with
  | none => .error .pageStateMissing
  | some state => .ok state.certHashHex

/-- `readConfig`, on a page that is served from an origin. -/
def readConfig (origin certHash : String) : Worker.Config := ⟨origin ++ "/connect", certHash⟩

/-! ## Reading it -/

/-- What `parseInt` leaves out in front of a number. -/
def isJsSpace (c : Char) : Bool :=
  c.toNat ∈ [0x09, 0x0a, 0x0b, 0x0c, 0x0d, 0x20, 0xa0, 0x1680, 0x2028, 0x2029, 0x202f, 0x205f, 0x3000,
    0xfeff] || (0x2000 ≤ c.toNat && c.toNat ≤ 0x200a)

/-- The value of a hexadecimal digit, in either case. -/
def hexDigitValue (c : Char) : Option ℕ :=
  if c.isDigit then some (c.toNat - '0'.toNat)
  else if 'a' ≤ c ∧ c ≤ 'f' then some (c.toNat - 'a'.toNat + 10)
  else if 'A' ≤ c ∧ c ≤ 'F' then some (c.toNat - 'A'.toNat + 10)
  else none

/-- The number of the digits in front, if there is one. -/
def hexNumber (text : List Char) : Option ℕ :=
  match text.takeWhile fun c => (hexDigitValue c).isSome with
  | [] => none
  | digits => some (digits.foldl (fun n c => 16 * n + (hexDigitValue c).getD 0) 0)

/-- `parseInt(text, 16)`, with `none` for `NaN`. -/
def parseInt16 (text : List Char) : Option ℤ :=
  let unsigned (text : List Char) : Option ℕ :=
    match text with
    | '0' :: 'x' :: text => hexNumber text
    | '0' :: 'X' :: text => hexNumber text
    | text => hexNumber text
  match text.dropWhile isJsSpace with
  | '-' :: text => (unsigned text).map fun n => -(n : ℤ)
  | '+' :: text => (unsigned text).map fun n => (n : ℤ)
  | text => (unsigned text).map fun n => (n : ℤ)

/-- An element of a `Uint8Array`. -/
def toUint8 (n : Option ℤ) : UInt8 := .ofNat (n.getD 0 % 256).toNat

/-- A character is one unit of the string. -/
def hexToBytes (hex : String) : Except String (List UInt8) :=
  let clean := match hex.toList with
    | '0' :: 'x' :: clean => clean
    | clean => clean
  if clean.length % 2 ≠ 0 then .error "hex string has odd length"
  else .ok ((List.range (clean.length / 2)).map fun i =>
    toUint8 (parseInt16 ((clean.drop (i * 2)).take 2)))

/-! ## There and back -/

theorem toUint8_hexChars (b : UInt8) : toUint8 (parseInt16 (hexChars b)) = b := by
  have hall : ∀ n : Fin 256,
      toUint8 (parseInt16 (hexChars (UInt8.ofNat n.val))) = UInt8.ofNat n.val := by
    decide +kernel
  have hb := hall ⟨b.toNat, b.toNat_lt⟩
  rwa [UInt8.ofNat_toNat] at hb

theorem length_flatMap_hexChars (bytes : List UInt8) :
    (bytes.flatMap hexChars).length = 2 * bytes.length := by
  induction bytes with
  | nil => rfl
  | cons b bytes ih =>
    rw [List.flatMap_cons, List.length_append, ih, List.length_cons]
    change 2 + _ = _
    omega

/-- The digits of each byte, at their place. -/
theorem map_hexChars (bytes : List UInt8) :
    (List.range bytes.length).map (fun i =>
      toUint8 (parseInt16 (((bytes.flatMap hexChars).drop (i * 2)).take 2))) = bytes := by
  induction bytes with
  | nil => rfl
  | cons b bytes ih =>
    rw [List.length_cons, List.range_succ_eq_map, List.map_cons, List.map_map]
    refine congrArg₂ List.cons (toUint8_hexChars b) ?_
    refine (List.map_congr_left fun i _ => ?_).trans ih
    -- behind the digits of the first byte stand those of the others
    have hplace : i.succ * 2 = (hexChars b).length + i * 2 := by
      change (i + 1) * 2 = 2 + i * 2
      omega
    simp only [Function.comp_apply, List.flatMap_cons, hplace, List.drop_length_add_append]

/-- A hash has no letter `x`. -/
theorem hexEncode_ne_prefixed {bytes : List UInt8} {text : List Char} :
    (hexEncode bytes).toList ≠ '0' :: 'x' :: text := by
  rw [hexEncode, String.toList_ofList]
  cases bytes with
  | nil => simp
  | cons b bytes =>
    intro h
    rw [List.flatMap_cons] at h
    have hsecond : hexDigits.getD (b.toNat % 16) '0' = 'x' := (List.cons.inj (List.cons.inj h).2).1
    have hdigit : ∀ n < 16, hexDigits.getD n '0' ≠ 'x' := by decide
    exact hdigit _ (Nat.mod_lt _ (by decide)) hsecond

/-- **The digits of some bytes are read back.** -/
theorem hexToBytes_hexEncode (bytes : List UInt8) : hexToBytes (hexEncode bytes) = .ok bytes := by
  have hclean : (match (hexEncode bytes).toList with
      | '0' :: 'x' :: clean => clean
      | clean => clean) = bytes.flatMap hexChars := by
    split
    · next clean heq => exact absurd heq hexEncode_ne_prefixed
    · rw [hexEncode, String.toList_ofList]
  have hlength := length_flatMap_hexChars bytes
  have heven : ¬ (bytes.flatMap hexChars).length % 2 ≠ 0 := by omega
  have hhalf : (bytes.flatMap hexChars).length / 2 = bytes.length := by omega
  simp only [hexToBytes, hclean, if_neg heven, hhalf, map_hexChars]

/-! ## What is pinned -/

section

variable {Key : Type} {lib : Libraries Key} {cert : ServerCert} {call : Call Key}

/-- **A certificate of a call**: it was signed with the key of the call, and is
kept as it is, with this key. -/
def SignedBy (lib : Libraries Key) (call : Call Key) (cert : ServerCert) : Prop :=
  ∃ params key signed, call.key = .ok key ∧ lib.selfSigned params key = .ok signed ∧
    cert.certDer = signed.der ∧ cert.certPem = signed.pem ∧ cert.keyPem = lib.serializePem key

theorem signedBy_of_generate (h : call.generate lib = .ok cert) : SignedBy lib call cert := by
  unfold Call.generate generateSelfSigned at h
  split at h
  · exact nomatch h
  · exact nomatch h
  · next key name hkey _ =>
    dsimp only at h
    split at h
    · exact nomatch h
    · next signed hsigned =>
      obtain rfl := Except.ok.inj h
      exact ⟨_, key, signed, hkey, hsigned, rfl, rfl, rfl⟩

/-- **The page pins what is served.** After every run of calls, a call that
returns a certificate returns one that was signed in it or in an earlier
one, in both of its forms and with its key; and a worker of the page that
shows its hash reads the bytes of this hash. -/
theorem pinned_is_served (hlib : lib.Lawful) (sha256 : List UInt8 → List UInt8)
    (calls : List (Call Key)) (call : Call Key) {file' : CacheFile}
    (h : loadOrGenerate lib (Mealy.final (loadOrGenerate lib) .absent calls) call =
      (.ok cert, file')) :
    (∃ signing ∈ calls ++ [call], SignedBy lib signing cert) ∧
      ∀ origin, ∃ certHash, renderIndex (some ⟨sha256Hex sha256 cert.certDer⟩) = .ok certHash ∧
        hexToBytes (readConfig origin certHash).certHashHex = .ok (sha256 cert.certDer) := by
  refine ⟨?_, fun origin => ⟨_, rfl, hexToBytes_hexEncode _⟩⟩
  obtain ⟨-, hgenerate⟩ | hload := (loadOrGenerate_cases h).1 cert rfl
  · exact ⟨call, by simp, signedBy_of_generate hgenerate⟩
  · obtain ⟨entry, hentry, hgenerate, -⟩ := loaded_generated hlib (kept_run calls) hload
    have hcalls : entry.1 ∈ calls := by
      have hmem := List.mem_map_of_mem (f := Prod.fst) hentry
      rwa [Mealy.map_fst_history] at hmem
    exact ⟨entry.1, List.mem_append_left _ hcalls, signedBy_of_generate hgenerate⟩

/-- The first call of a server, with any digest. -/
theorem pinned_is_served_evening : ∃ cert file', ∀ sha256 : List UInt8 → List UInt8,
    loadOrGenerate exampleLibraries .absent (exampleCall evening) = (.ok cert, file') ∧
    (∃ signing ∈ [exampleCall evening], SignedBy exampleLibraries signing cert) ∧
      ∀ origin, ∃ certHash, renderIndex (some ⟨sha256Hex sha256 cert.certDer⟩) = .ok certHash ∧
        hexToBytes (readConfig origin certHash).certHashHex = .ok (sha256 cert.certDer) := by
  have hgenerate : ∃ cert, (exampleCall evening).generate exampleLibraries = .ok cert := ⟨_, rfl⟩
  obtain ⟨cert, hcert⟩ := hgenerate
  have hfresh : ∃ file', loadOrGenerate exampleLibraries .absent (exampleCall evening) =
      (.ok cert, file') ∧ Persisted exampleLibraries cert file' :=
    loadOrGenerate_fresh exampleLibraries_lawful rfl hcert rfl rfl
  obtain ⟨file', hfirst, -⟩ := hfresh
  exact ⟨cert, file', fun sha256 =>
    ⟨hfirst, pinned_is_served exampleLibraries_lawful sha256 [] (exampleCall evening) hfirst⟩⟩

end

end TlsnDemo.Demo
