import TlsnDemo.Support.Calendar
import TlsnDemo.Support.Encoding

/-!
# The certificate of the server

The demo server signs a certificate for itself and keeps it in a file, to
use it again as long as it is valid for some days more. What an environment
gives a call (the clock, the key, the results of the file operations) is
an input of the call, and the libraries it uses are parameters. Instants are
given in nanoseconds from the start of the year 1970 on.
-/

namespace TlsnDemo.Demo

open Calendar Encoding

/-- `Duration::days(1)`. -/
def day : ℤ := 86400000000000

def second : ℤ := 1000000000

def renewWhenDaysLeft : ℤ := 2

inductive TlsError where
  | rcgen (text : String)
  | io (text : String)
  | cache (text : String)
  | hex (text : String)
  deriving DecidableEq

structure ServerCert where
  certDer : List UInt8
  certPem : String
  keyPem : String
  notAfter : ℤ
  deriving DecidableEq

structure CachedCert where
  notAfter : ℤ
  certPem : String
  keyPem : String
  certDerHex : String

inductive SanType where
  | dnsName (name : String)
  | ipAddress (address : String)

structure CertificateParams where
  commonName : String
  subjectAltNames : List SanType
  notBefore : ℤ
  notAfter : ℤ

structure Certificate where
  der : List UInt8
  pem : String

/-- The functions of the libraries: `json.toVec` is `to_vec_pretty`, `rfc3339` how
an instant is serialized, `dateAt` its date, `dateTimeYmd` is `date_time_ymd`, and
`validity` what a reader of X.509 finds in a certificate as its `notBefore` and
its `notAfter`. -/
structure Libraries (Key : Type) where
  json : SerdeJson
  dateAt : ℤ → Date
  dateTimeYmd : ℤ → UInt8 → UInt8 → ℤ
  rfc3339 : ℤ → String
  parseRfc3339 : String → Except String ℤ
  hexEncode : List UInt8 → String
  hexDecode : String → Except String (List UInt8)
  ia5String : String → Except String String
  selfSigned : CertificateParams → Key → Except String Certificate
  serializePem : Key → String
  validity : List UInt8 → Option (ℤ × ℤ)

/-- What is relied on: what is written is read back, an instant is of the day of
its date, a date is the start of its day, and a certificate has the times it
was signed with, in whole seconds. -/
structure Libraries.Lawful {Key : Type} (lib : Libraries Key) : Prop where
  json : lib.json.Lawful
  dayOf_dateAt : ∀ instant,
    dayOf (lib.dateAt instant).year (lib.dateAt instant).month (lib.dateAt instant).day = instant / day
  dateTimeYmd_date : ∀ (date : Date) (month day : UInt8), month.toNat = date.month →
    day.toNat = date.day →
    lib.dateTimeYmd date.year month day = dayOf date.year date.month date.day * Demo.day
  parseRfc3339_rfc3339 : ∀ instant, lib.parseRfc3339 (lib.rfc3339 instant) = .ok instant
  hexDecode_hexEncode : ∀ bytes, lib.hexDecode (lib.hexEncode bytes) = .ok bytes
  validity_selfSigned : ∀ params key cert, second ∣ params.notBefore → second ∣ params.notAfter →
    lib.selfSigned params key = .ok cert →
    lib.validity cert.der = some (params.notBefore, params.notAfter)

/-- What the cache file is read as: a file that was cut off while it was
written has no more the text of a record. -/
inductive CacheFile where
  | absent
  | content (bytes : List UInt8)
  | cutOff

/-- What comes of writing the file. -/
inductive FileWrite where
  | done
  | notOpened (text : String)
  | cutOff (text : String)

/-- **A call**, with what it finds: whether the file cannot be read, the clock
of `loadCached`, the key and the clock of `generateSelfSigned`, and the
results of making the directory and of writing the file. -/
structure Call (Key : Type) where
  host : String
  readError : Option String
  loadedAt : ℤ
  key : Except String Key
  generatedAt : ℤ
  created : Except String Unit
  written : FileWrite

section

variable {Key : Type} (lib : Libraries Key)

def CachedCert.serialize (cached : CachedCert) : List (String × String) :=
  [("not_after", lib.rfc3339 cached.notAfter), ("cert_pem", cached.certPem),
    ("key_pem", cached.keyPem), ("cert_der_hex", cached.certDerHex)]

def CachedCert.deserialize (entries : Entries) : Except String CachedCert := do
  let notAfter ← field entries "not_after"
  let notAfter ← lib.parseRfc3339 notAfter
  let certPem ← field entries "cert_pem"
  let keyPem ← field entries "key_pem"
  let certDerHex ← field entries "cert_der_hex"
  return { notAfter, certPem, keyPem, certDerHex }

def loadCached (file : CacheFile) (readError : Option String) (now : ℤ) :
    Except TlsError (Option ServerCert) :=
  match readError, file with
  | some text, _ => .error (.io text)
  | none, .absent => .ok none
  | none, .cutOff => .error (.cache "EOF while parsing")
  | none, .content bytes =>
    match lib.json.fromSlice bytes >>= CachedCert.deserialize lib with
    | .error text => .error (.cache text)
    | .ok cached =>
      if cached.notAfter - now < renewWhenDaysLeft * day then .ok none
      else
        match lib.hexDecode cached.certDerHex with
        | .error text => .error (.hex text)
        | .ok certDer =>
          .ok (some { certDer, certPem := cached.certPem, keyPem := cached.keyPem, notAfter := cached.notAfter })

/-- The record that is kept of a certificate. -/
def ServerCert.cached (cert : ServerCert) : CachedCert :=
  { notAfter := cert.notAfter
    certPem := cert.certPem
    keyPem := cert.keyPem
    certDerHex := lib.hexEncode cert.certDer }

def persist (file : CacheFile) (created : Except String Unit) (written : FileWrite)
    (cert : ServerCert) : Except TlsError Unit × CacheFile :=
  match created with
  | .error text => (.error (.io text), file)
  | .ok () =>
    match lib.json.toVec ((cert.cached lib).serialize lib), written with
    | .error text, _ => (.error (.cache text), file)
    | .ok _, .notOpened text => (.error (.io text), file)
    | .ok _, .cutOff text => (.error (.io text), .cutOff)
    | .ok bytes, .done => (.ok (), .content bytes)

def generateSelfSigned (host : String) (key : Except String Key) (now : ℤ) :
    Except TlsError ServerCert :=
  match key, lib.ia5String host with
  | .error text, _ => .error (.rcgen text)
  | .ok _, .error text => .error (.rcgen text)
  | .ok key, .ok name =>
    let expire := now + 13 * day
    let params : CertificateParams :=
      { commonName := host
        subjectAltNames := [.dnsName name, .ipAddress "127.0.0.1", .ipAddress "::1"]
        notBefore :=
          lib.dateTimeYmd (lib.dateAt now).year (.ofNat (lib.dateAt now).month)
            (.ofNat (lib.dateAt now).day)
        notAfter :=
          lib.dateTimeYmd (lib.dateAt expire).year (.ofNat (lib.dateAt expire).month)
            (.ofNat (lib.dateAt expire).day) }
    match lib.selfSigned params key with
    | .error text => .error (.rcgen text)
    | .ok cert =>
      .ok { certDer := cert.der, certPem := cert.pem, keyPem := lib.serializePem key, notAfter := expire }

/-- The certificate that a call generates. -/
def Call.generate (call : Call Key) : Except TlsError ServerCert :=
  generateSelfSigned lib call.host call.key call.generatedAt

def loadOrGenerate (file : CacheFile) (call : Call Key) : Except TlsError ServerCert × CacheFile :=
  match loadCached lib file call.readError call.loadedAt with
  | .error err => (.error err, file)
  | .ok (some cert) => (.ok cert, file)
  | .ok none =>
    match call.generate lib with
    | .error err => (.error err, file)
    | .ok cert =>
      match persist lib file call.created call.written cert with
      | (.error err, file) => (.error err, file)
      | (.ok (), file) => (.ok cert, file)

end

end TlsnDemo.Demo
