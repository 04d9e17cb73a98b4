import Yca.Ca.Request
import Yca.Core.Script
import Yca.Core.Table

/-!
# The store of the CA

What `yca` keeps under its store directory and reads back: the tables
`cert_index`, `certificates`, `ca_cert_index`, the locked configuration and the
enrollments, the published files `ca/<slug>.pem`, `.crt` and `.crl`, and the
keys on the PKCS#11 tokens; with the queries of `src/ca.cpp` on them.

Times are whole seconds.  A key is the number of its public point; key
identifiers are digests of the public point and fingerprints are digests of the
certificate, both taken to be injective.  Subject and issuer are their common
names.  Extensions, digests and encodings are left out: no query depends on
them.
-/

namespace Yca
namespace Ca

open Yca.Core

/-- A public point, and the private key that belongs to it. -/
abbrev Key : Type :=
  Nat

/-- A certificate. -/
structure Cert where
  serial : List UInt8
  subjectCn : String
  issuerCn : String
  notBefore : Nat
  notAfter : Nat
  /-- Subject key identifier. -/
  ski : Key
  /-- Authority key identifier. -/
  aki : Key
  publicKey : Key
  /-- The private key its signature was made with. -/
  signedBy : Key
  deriving DecidableEq

/-- Revocation reasons (`Botan::CRL_Code`). -/
inductive Reason
  | unspecified
  | keyCompromise
  | caCompromise
  | affiliationChanged
  | superseded
  | cessationOfOperation
  | certificateHold
  | removeFromCrl
  | privilegeWithdrawn
  | aaCompromise
  deriving DecidableEq

/-- An entry of a CRL. -/
structure CrlEntry where
  serial : List UInt8
  reason : Reason
  deriving DecidableEq

/-- A certificate revocation list. -/
structure Crl where
  entries : List CrlEntry
  number : UInt32
  thisUpdate : Nat
  nextUpdate : Nat
  aki : Key
  signedBy : Key
  deriving DecidableEq

/-- The two kinds of CA. -/
inductive CaKind
  | root
  | signing
  deriving DecidableEq

/-- The `kind` column of `cert_index`. -/
inductive Kind
  | ca (kind : CaKind)
  | ee (profile : Profile)
  deriving DecidableEq

/-- The `status` column of `cert_index`. -/
inductive CertStatus
  | active
  | revoked
  deriving DecidableEq

/-- A row of `cert_index`; the fingerprint stands for the certificate. -/
structure CertRow where
  fingerprint : Cert
  cn : String
  kind : Kind
  serial : String
  notBefore : Nat
  notAfter : Nat
  status : CertStatus
  revokedAt : Nat
  reason : Reason
  purpose : String
  ski : Key
  aki : Key
  deriving DecidableEq

/-- A row of Botan's `certificates`, joined with its private key. -/
structure StoredCert where
  cert : Cert
  priv : Option Key
  deriving DecidableEq

/-- The `status` column of `ca_cert_index`. -/
inductive CaStatus
  | active
  | retiring
  | revoked
  deriving DecidableEq

/-- `CaGen`: one generation of a CA. -/
structure CaGen where
  purpose : String
  gen : Nat
  cn : String
  slug : String
  deriving DecidableEq

/-- A row of `ca_cert_index`. -/
structure CaRow extends CaGen where
  kind : CaKind
  status : CaStatus
  deriving DecidableEq

/-- Where a CA keeps its key. -/
inductive Backend
  | internal
  | pkcs11
  deriving DecidableEq

/-- The fields of `[root]` and of every `[ca.*]`. -/
structure CaFields where
  cn : String
  curve : String
  validDays : Nat
  slugPrefix : String
  slug : String
  keyBackend : Backend
  tokenLabel : String
  deriving DecidableEq

/-- `[ca.<purpose>]`. -/
structure SigningCa extends CaFields where
  purpose : String
  profiles : List Profile
  eeValidDays : Nat
  deriving DecidableEq

/-- A configuration; `cas` lists the values of the map. -/
structure Config where
  root : CaFields
  cas : List SigningCa
  deriving DecidableEq

/-- A row of `enrollment`. -/
structure EnrollRow where
  id : String
  created : Nat
  nonce : String
  issued : Nat
  /-- In minutes. -/
  validity : Nat
  consumed : Bool
  deriving DecidableEq

/-- The database. -/
structure Db where
  certIndex : List CertRow
  certificates : List StoredCert
  caIndex : List CaRow
  /-- The `ca_config` snapshot of `[root]`. -/
  root : CaFields
  /-- The `ca_purpose` table. -/
  purposes : List SigningCa
  enrollment : List EnrollRow
  deriving DecidableEq

/-- One half of a key pair on a token. -/
structure TokenObject where
  label : String
  isPrivate : Bool
  curve : String
  key : Key
  deriving DecidableEq

/-- A private key as the program holds it: what signs, and the public point it
claims. -/
structure KeyPair where
  priv : Key
  pub : Key
  deriving DecidableEq

/-- Which key a command works with (`CaSpec`). -/
structure CaSpec where
  purpose : String
  curve : String
  keyBackend : Backend
  tokenLabel : String
  root : Bool
  deriving DecidableEq

section Text

/-- A digit of `Botan::hex_encode`. -/
def hexDigit (n : Nat) : Char :=
  if n < 10 then Char.ofNat (48 + n) else Char.ofNat (55 + n)

/-- The digits of `Botan::hex_encode`. -/
def hexDigits : List UInt8 → List Char
  | [] => []
  | b :: bs => hexDigit (b.toNat / 16) :: hexDigit (b.toNat % 16) :: hexDigits bs

/-- `Botan::hex_encode`. -/
def hexEncode (bs : List UInt8) : String :=
  String.ofList (hexDigits bs)

/-- `std::toupper` in the C locale. -/
def toUpper (c : Char) : Char :=
  if 'a' ≤ c ∧ c ≤ 'z' then Char.ofNat (c.toNat - 32) else c

/-- `normalize_serial`: upper case, without separators and leading zeros. -/
def normalizeSerial (s : String) : String :=
  let out := (s.toList.filter fun c => c != ':').map toUpper
  match out.dropWhile fun c => c == '0' with
  | [] => if out.isEmpty then "" else "0"
  | rest => String.ofList rest

/-- `parse_reason`. -/
def parseReason (s : String) : Option Reason :=
  [ ("unspecified", Reason.unspecified),
    ("keycompromise", .keyCompromise),
    ("cacompromise", .caCompromise),
    ("affiliationchanged", .affiliationChanged),
    ("superseded", .superseded),
    ("cessationofoperation", .cessationOfOperation),
    ("certificatehold", .certificateHold),
    ("removefromcrl", .removeFromCrl),
    ("privilegewithdrawn", .privilegeWithdrawn),
    ("aacompromise", .aaCompromise) ].lookup (lowerAscii s)

end Text

section Configuration

def minute : Nat := 60

def day : Nat := 86400

/-- `app::renew_window_pct`. -/
def renewWindowPct : Nat := 33

/-- `app::min_valid_override_minutes`. -/
def minValidOverrideMinutes : Nat := 5

/-- `app::crl_next_update_days`. -/
def crlNextUpdateDays : Nat := 7

/-- `app::root_crl_next_update_days`. -/
def rootCrlNextUpdateDays : Nat := 183

/-- `app::crl_next_update_floor_secs`. -/
def crlNextUpdateFloor : Nat := 3600

/-- `app::max_nonce_validity`, in minutes. -/
def maxNonceValidity : Nat := 5

/-- `app::nonce_rotate_floor_secs`. -/
def nonceRotateFloor : Nat := 60

/-- `app::nonce_rotate_pct`. -/
def nonceRotatePct : Nat := 20

/-- `profile::Def::max_valid_days`. -/
def Profile.maxValidDays : Profile → Nat
  | server => 398
  | client => 398
  | email => 825

/-- `profile::Def::csr_only`. -/
def Profile.csrOnly : Profile → Bool
  | email => true
  | _ => false

/-- `Config::ca`. -/
def Config.ca (config : Config) (purpose : String) : Option SigningCa :=
  config.cas.find? fun ca => ca.purpose == purpose

/-- `Config::ca_for_profile`. -/
def Config.caForProfile (config : Config) (profile : Profile) : Option SigningCa :=
  config.cas.find? fun ca => ca.profiles.contains profile

/-- `kind_of`. -/
def kindOf (purpose : String) : CaKind :=
  if purpose = "root" then .root else .signing

/-- `config_gen`: the generation-1 identity. -/
def configGen (config : Config) (purpose : String) : CaGen :=
  if purpose = "root" then ⟨"root", 1, config.root.cn, config.root.slug⟩
  else
    match config.ca purpose with
    | some ca => ⟨purpose, 1, ca.cn, ca.slug⟩
    | none => ⟨purpose, 1, "", ""⟩

theorem configGen_purpose (config : Config) (purpose : String) :
    (configGen config purpose).purpose = purpose := by
  unfold configGen
  split
  · rename_i hroot
    exact hroot.symm
  · split <;> rfl

theorem configGen_gen (config : Config) (purpose : String) :
    (configGen config purpose).gen = 1 := by
  unfold configGen
  split
  · rfl
  · split <;> rfl

/-- `root_spec`. -/
def rootSpec (config : Config) : CaSpec :=
  ⟨"root", config.root.curve, config.root.keyBackend, config.root.tokenLabel, true⟩

/-- `spec_of`. -/
def specOf (ca : SigningCa) : CaSpec :=
  ⟨ca.purpose, ca.curve, ca.keyBackend, ca.tokenLabel, false⟩

/-- The validity of a leaf: the override, within bounds, or the policy. -/
def leafValidity (ca : SigningCa) (override : Option Nat) : Option Nat :=
  match override with
  | none => some (ca.eeValidDays * day)
  | some v =>
      if minValidOverrideMinutes * minute ≤ v ∧ v ≤ ca.eeValidDays * day then some v
      else none

end Configuration

section Queries

/-- An element with the greatest key, `ORDER BY key DESC LIMIT 1`. -/
def newest {α : Type} (key : α → Nat) : List α → Option α
  | [] => none
  | a :: l =>
      match newest key l with
      | none => some a
      | some b => if key a < key b then some b else some a

/-- The configuration `load_config` reads back. -/
def Db.loadConfig (db : Db) : Config :=
  ⟨db.root, db.purposes⟩

/-- `active_fp`. -/
def activeFp (db : Db) (cn : String) (kind : Kind) (now : Nat) : Option Cert :=
  (newest CertRow.notBefore
    (db.certIndex.filter fun r =>
      r.cn == cn && r.kind == kind && r.status == .active && decide (r.notAfter > now))).map
    CertRow.fingerprint

/-- `active_fp_by_serial`. -/
def activeFpBySerial (db : Db) (serial : String) (kind : Kind) (now : Nat) : Option Cert :=
  (db.certIndex.find? fun r =>
    r.serial == serial && r.kind == kind && r.status == .active &&
      decide (r.notAfter > now)).map
    CertRow.fingerprint

/-- The row of a leaf. -/
def CertRow.isLeaf (row : CertRow) : Bool :=
  match row.kind with
  | .ee _ => true
  | .ca _ => false

/-- The condition of `blocking_duplicate` on one row.  Truncated subtraction
agrees with SQL's here: the row is not expired. -/
def CertRow.blocks (r : CertRow) (cn : String) (kind : Kind) (now : Nat) : Bool :=
  r.cn == cn && r.kind == kind && r.status == .active && decide (r.notAfter > now) &&
    decide ((r.notAfter - now) * 100 > (r.notAfter - r.notBefore) * renewWindowPct)

/-- `blocking_duplicate`. -/
def blockingDuplicate (db : Db) (cn : String) (kind : Kind) (now : Nat) : Bool :=
  db.certIndex.any fun r => r.blocks cn kind now

/-- `load_cert`. -/
def loadCert (db : Db) (fp : Cert) : Option Cert :=
  (db.certificates.find? fun c => c.cert == fp).map StoredCert.cert

/-- `Certificate_Store_In_SQL::find_key`. -/
def findKey (db : Db) (cert : Cert) : Option Key :=
  (db.certificates.find? fun c => c.cert == cert).bind StoredCert.priv

/-- `gen_by_cn`. -/
def genByCn (db : Db) (kind : CaKind) (cn : String) : Option CaGen :=
  (db.caIndex.find? fun r => r.kind == kind && r.cn == cn).map CaRow.toCaGen

/-- `active_ca`. -/
def activeCa (db : Db) (config : Config) (purpose : String) : CaGen :=
  match newest (fun r : CaRow => r.gen)
      (db.caIndex.filter fun r => r.purpose == purpose && r.status == .active) with
  | some r => r.toCaGen
  | none => configGen config purpose

/-- `live_cas`, in the order of the table. -/
def liveCas (db : Db) (config : Config) (kind : CaKind) : List CaGen :=
  match (db.caIndex.filter fun r =>
      r.kind == kind && (r.status == .active || r.status == .retiring)).map CaRow.toCaGen with
  | [] =>
      match kind with
      | .root => [configGen config "root"]
      | .signing => config.cas.map fun ca => configGen config ca.purpose
  | out => out

/-- `crl_entry_prunable`. -/
def crlEntryPrunable (prevThisUpdate : Nat) (notAfter : Option Nat) : Bool :=
  match notAfter with
  | none => false
  | some na => decide (na < prevThisUpdate)

/-- The serials `prune_crl_entries` collects. -/
def prunable (db : Db) (prev : Crl) : List String :=
  (db.certIndex.filter fun r =>
    r.status == .revoked && decide (r.notAfter < prev.thisUpdate)).map CertRow.serial

/-- `prune_crl_entries`. -/
def pruneCrlEntries (db : Db) (prev : Crl) : List CrlEntry :=
  prev.entries.filter fun e => !(prunable db prev).contains (hexEncode e.serial)

/-- `outlives_issuer`. -/
def outlivesIssuer (issuer : Cert) (validity now : Nat) : Bool :=
  !decide (now + validity ≤ issuer.notAfter)

/-- `crl_next_update`. -/
def crlNextUpdate (issuer : Cert) (horizonDays now : Nat) : Nat :=
  max (min (horizonDays * day) (issuer.notAfter - now)) crlNextUpdateFloor

/-- Whether a nonce fails for an identity (`nonce_rejected` of `sign_csr`). -/
def nonceRejected (db : Db) (id nonce : String) (now : Nat) : Bool :=
  match db.enrollment.find? fun r => r.id == id with
  | none => true
  | some r =>
      r.nonce == "" || r.consumed || decide (now ≥ r.issued + r.validity * minute) ||
        nonce != r.nonce

/-- The nonce `get_nonce` hands out again. -/
def pendingNonce (r : EnrollRow) (now : Nat) : Option String :=
  let expiry := r.issued + r.validity * minute
  let minLeft := max nonceRotateFloor (r.validity * minute * nonceRotatePct / 100)
  if r.nonce != "" && !r.consumed && decide (now < expiry) && decide (expiry - now ≥ minLeft)
  then some r.nonce
  else none

/-- `Token::find_keypair`: fails (`none`) unless the token holds one object of
each half, or neither (`some none`). -/
def findKeypair (token : List TokenObject) (label curve : String) :
    Option (Option KeyPair) :=
  match token.filter fun o => o.label == label && o.isPrivate,
      token.filter fun o => o.label == label && !o.isPrivate with
  | [], [] => some none
  | [priv], [pub] =>
      if priv.curve == curve && pub.curve == curve then some (some ⟨priv.key, pub.key⟩)
      else none
  | _, _ => none

/-- `Token::generate_keypair`. -/
def generateKeypair (token : List TokenObject) (label curve : String) (key : Key) :
    List TokenObject :=
  token ++ [⟨label, true, curve, key⟩, ⟨label, false, curve, key⟩]

end Queries

section Updates

/-- The row `index_cert` writes. -/
def indexRow (c : Cert) (kind : Kind) (purpose : String) : CertRow where
  fingerprint := c
  cn := c.subjectCn
  kind := kind
  serial := hexEncode c.serial
  notBefore := c.notBefore
  notAfter := c.notAfter
  status := .active
  revokedAt := 0
  reason := .unspecified
  purpose := purpose
  ski := c.ski
  aki := c.aki

/-- `index_cert`: `INSERT OR REPLACE` on the fingerprint. -/
def indexCert (rows : List CertRow) (c : Cert) (kind : Kind) (purpose : String) :
    List CertRow :=
  (rows.filter fun r => r.fingerprint != c) ++ [indexRow c kind purpose]

theorem mem_indexCert
    {rows : List CertRow}
    {c : Cert}
    {kind : Kind}
    {purpose : String}
    {row : CertRow}
    (h : row ∈ indexCert rows c kind purpose) :
    row ∈ rows ∨ row = indexRow c kind purpose := by
  rcases List.mem_append.mp h with hold | hnew
  · exact Or.inl (List.mem_of_mem_filter hold)
  · exact Or.inr (by simpa using hnew)

theorem self_mem_indexCert (rows : List CertRow) (c : Cert) (kind : Kind) (purpose : String) :
    indexRow c kind purpose ∈ indexCert rows c kind purpose := by
  simp [indexCert]

theorem mem_indexCert_of_ne
    {rows : List CertRow}
    {c : Cert}
    {kind : Kind}
    {purpose : String}
    {row : CertRow}
    (h : row ∈ rows)
    (hne : row.fingerprint ≠ c) :
    row ∈ indexCert rows c kind purpose := by
  simp [indexCert, h, hne]

/-- Where no row has the fingerprint, the new row is the last. -/
theorem indexCert_of_new
    {rows : List CertRow}
    {c : Cert}
    (hnew : ∀ row ∈ rows, row.fingerprint ≠ c)
    (kind : Kind)
    (purpose : String) :
    indexCert rows c kind purpose = rows ++ [indexRow c kind purpose] := by
  have hkeep : rows.filter (fun r => r.fingerprint != c) = rows := by
    refine List.filter_eq_self.mpr fun row hrow => ?_
    simpa using hnew row hrow
  rw [indexCert, hkeep]

/-- `Certificate_Store_In_SQL::insert_cert`: the link to a private key is
reset. -/
def insertCert (rows : List StoredCert) (c : Cert) : List StoredCert :=
  (rows.filter fun r => r.cert != c) ++ [⟨c, none⟩]

/-- `Certificate_Store_In_SQL::insert_key`. -/
def insertKey (rows : List StoredCert) (c : Cert) (key : Key) : List StoredCert :=
  updateWhere (fun r => r.cert == c) (fun r => { r with priv := some key }) (insertCert rows c)

/-- The `UPDATE cert_index` of a revocation. -/
def markRevoked (rows : List CertRow) (fp : Cert) (reason : Reason) (at_ : Nat) :
    List CertRow :=
  updateWhere (fun r => r.fingerprint == fp)
    (fun r => { r with status := .revoked, revokedAt := at_, reason := reason }) rows

/-- The write transactions, each by what it leaves in the database. -/
inductive Tx
  /-- A leaf, the certificate of the CA that signed it, and the enrollment whose
  nonce it consumes. -/
  | issue
      (cert issuer : Cert) (profile : Profile) (purpose : String) (id : Option String)
  | revoke (fp : Cert) (reason : Reason) (at_ : Nat)
  | revokeCa (victim : CaGen) (cert : Cert) (reason : Reason) (at_ : Nat)
  /-- A new generation with its key when the store keeps it, and the section
  to lock when it starts a new lineage. -/
  | generation
      (next : CaGen) (cert : Cert) (key : Option Key) (lock : Option SigningCa)
  | enroll (id : String) (created : Nat)
  | nonce (id value : String) (issued : Nat)
  /-- Nothing was written. -/
  | nothing
  deriving DecidableEq

/-- Whether the generation of a purpose is recorded. -/
def Db.hasGen (db : Db) (purpose : String) (gen : Nat) : Bool :=
  db.caIndex.any fun r => r.purpose == purpose && r.gen == gen

/-- The `UPDATE ca_cert_index` of a renewal. -/
def retire (rows : List CaRow) (purpose : String) : List CaRow :=
  updateWhere (fun r => r.purpose == purpose && r.status == .active)
    (fun r => { r with status := .retiring }) rows

/-- The database after a transaction; `none` when a statement violates a
primary key. -/
def Tx.run (db : Db) : Tx → Option Db
  | issue cert _ profile purpose id =>
      some { db with
        certificates := insertCert db.certificates cert
        certIndex := indexCert db.certIndex cert (.ee profile) purpose
        enrollment :=
          updateWhere (fun r => id == some r.id) (fun r => { r with consumed := true })
            db.enrollment }
  | revoke fp reason at_ =>
      some { db with
        certificates := insertCert db.certificates fp
        certIndex := markRevoked db.certIndex fp reason at_ }
  | revokeCa victim cert reason at_ =>
      some { db with
        certificates := insertCert db.certificates cert
        certIndex := markRevoked db.certIndex cert reason at_
        caIndex :=
          updateWhere
            (fun r => r.kind == .signing && r.purpose == victim.purpose && r.gen == victim.gen)
            (fun r => { r with status := .revoked }) db.caIndex }
  | generation next cert key lock =>
      if lock.any (fun ca => db.purposes.any fun held => held.purpose == ca.purpose) ||
          db.hasGen next.purpose next.gen then none
      else
        some { db with
          certificates :=
            match key with
            | none => insertCert db.certificates cert
            | some key => insertKey db.certificates cert key
          certIndex := indexCert db.certIndex cert (.ca .signing) next.purpose
          caIndex :=
            (if lock.isSome then db.caIndex else retire db.caIndex next.purpose) ++
              [⟨next, .signing, .active⟩]
          purposes := db.purposes ++ lock.toList }
  | enroll id created =>
      if db.enrollment.any fun r => r.id == id then none
      else some { db with
        enrollment := db.enrollment ++ [⟨id, created, "", 0, 0, true⟩] }
  | nonce id value issued =>
      some { db with
        enrollment :=
          updateWhere (fun r => r.id == id)
            (fun r =>
              { r with
                nonce := value, issued := issued, validity := maxNonceValidity,
                consumed := false })
            db.enrollment }
  | nothing => some db

end Updates

section Events

/-- A file of `write_ca_artifacts`. -/
inductive Artifact
  | pem (cert : Cert)
  | crt (cert : Cert)
  | crl (crl : Crl)
  deriving DecidableEq

/-- A CRL rewritten under the write lock: the generation's slug, the
certificate it is signed under, the list that was read, what was added and the
list that was written. -/
structure Rewrite where
  slug : String
  signer : Cert
  prev : Crl
  added : Option Cert
  crl : Crl
  deriving DecidableEq

/-- How a key came to hand: the certificate it is meant for (none for the key
of a certificate yet to be made), where it was looked for, and whether it was
generated. -/
structure KeyUse where
  holder : Option Cert
  spec : CaSpec
  slug : String
  pair : KeyPair
  generated : Bool
  deriving DecidableEq

/-- What a step of a command does to the store. -/
inductive Event
  /-- It only read. -/
  | quiet
  /-- `BEGIN IMMEDIATE`. -/
  | begin
  /-- The connection was closed with the transaction open. -/
  | rollback
  | key (use : KeyUse)
  /-- `ensure_ca_index` recorded a generation 1. -/
  | backfill (row : CaRow)
  /-- `write_ca_artifacts` wrote a file signed under `issuer`. -/
  | publish (slug : String) (issuer : Cert) (file : Artifact)
  | rewrite (w : Rewrite)
  | commit (tx : Tx)
  deriving DecidableEq

/-- The store. -/
structure Store where
  db : Db
  /-- The process holding the write lock. -/
  lock : Option Pid
  pem : String → Option Cert
  crt : String → Option Cert
  crl : String → Option Crl
  /-- The objects on the token of each label. -/
  tokens : String → List TokenObject
  now : Nat
  /-- Everything but the reads, latest first. -/
  log : List Event

/-- What an event does. -/
def Store.effect (p : Pid) (s : Store) : Event → Store
  | .quiet => s
  | .begin => { s with lock := some p }
  | .rollback => { s with lock := none }
  | .key use =>
      if use.generated && use.spec.keyBackend == .pkcs11 then
        { s with
          tokens :=
            Function.update s.tokens use.spec.tokenLabel
              (generateKeypair (s.tokens use.spec.tokenLabel) use.slug use.spec.curve
                use.pair.pub) }
      else s
  | .backfill row => { s with db := { s.db with caIndex := s.db.caIndex ++ [row] } }
  | .publish slug _ (.pem cert) => { s with pem := Function.update s.pem slug (some cert) }
  | .publish slug _ (.crt cert) => { s with crt := Function.update s.crt slug (some cert) }
  | .publish slug _ (.crl crl) => { s with crl := Function.update s.crl slug (some crl) }
  | .rewrite w => { s with crl := Function.update s.crl w.slug (some w.crl) }
  | .commit tx => { s with db := (tx.run s.db).getD s.db, lock := none }

/-- The store after an event. -/
def Store.apply (p : Pid) (e : Event) (s : Store) : Store :=
  match e with
  | .quiet => s
  | e => { s.effect p e with log := e :: s.log }

/-- A process died: its connection is closed and an open transaction rolled
back. -/
def Store.die (p : Pid) (s : Store) : Store :=
  if s.lock = some p then { s with lock := none } else s

/-- What happens around the processes. -/
inductive Outside
  /-- Time passes. -/
  | tick (seconds : Nat)
  /-- Somebody changed the objects of a token. -/
  | token (label : String) (objects : List TokenObject)
  deriving DecidableEq

/-- A step of the surroundings. -/
def Store.outside (o : Outside) (s : Store) : Option Store :=
  match o with
  | .tick seconds => some { s with now := s.now + seconds }
  | .token label objects => some { s with tokens := Function.update s.tokens label objects }

/-- The store as a machine. -/
def machine : Machine Store Event Outside where
  apply := Store.apply
  die := Store.die
  env := Store.outside

end Events

end Ca
end Yca
