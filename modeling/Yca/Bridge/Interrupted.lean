import Yca.Ca.Founding
import Yca.Cfg.Locked
import Yca.Core.Files
import Yca.Core.Stops

/-!
# An interrupted `init`

`create` writes the store one statement at a time, each committed on its own, and the
published files of the CAs last.  A statement that fails ends it; a file that cannot be
written is only warned about; a crash may come anywhere.  `is_initialized` looks at the
locked names and at their rows in `cert_index`, and `init` refuses a store it takes for
initialised.

A store that is refused can be used exactly when `create` ended before those rows were
there, or performed all it had to do.
-/

namespace Yca
namespace Bridge

open Yca.Core Ca
open Cfg (PurposeRow Locked dbText findProfile lockPurpose lockedGlobal)

section Directory

/-- `store.db`; the tables of the program are created one after the other. -/
structure Tables where
  certificates : List StoredCert
  /-- `ca_config`. -/
  config : Option (List (String × String))
  /-- `ca_purpose`. -/
  purposes : Option (List PurposeRow)
  certIndex : Option (List CertRow)
  /-- `ca_cert_index`. -/
  caIndex : Option (List CaRow)

/-- A store directory: the database and the files under `ca/`. -/
structure Directory where
  db : Option Tables
  ca : Files String UInt8

/-- What `init` goes on with: a directory that is absent or empty. -/
def Directory.fresh : Directory :=
  ⟨none, fun _ => none⟩

/-- A statement on the database. -/
def onDb (f : Tables → Tables) (d : Directory) : Directory :=
  { d with db := d.db.map f }

/-- `is_initialized`; a table that is missing is an exception, which it catches. -/
def isInitialized (d : Directory) : Bool :=
  match d.db with
  | none => false
  | some t =>
      match t.config with
      | none => false
      | some rows =>
          let rootCn := ((rows.find? fun e => e.1 == "root.cn").map fun e => dbText e.2).getD ""
          if rootCn = "" then false
          else
            match t.certIndex with
            | none => false
            | some index =>
                let anchor := fun (kind : CaKind) (cn : String) =>
                  index.any fun r => r.kind == .ca kind && r.cn == cn
                if !anchor .root rootCn then false
                else
                  match t.purposes with
                  | none => false
                  | some cas => !cas.isEmpty && cas.all fun row => anchor .signing (dbText row.cn)

/-- `load_config` on the tables; a missing one is an exception. -/
def Tables.loadConfig (t : Tables) : Option Cfg.Config :=
  match t.config, t.purposes with
  | some config, some purposes => Cfg.loadConfig ⟨config, purposes⟩
  | _, _ => none

end Directory

section Ceremony

/-- What the ceremony looks at of the fields of a CA. -/
def caFields (f : Cfg.CaFields) : Ca.CaFields where
  cn := f.cn
  curve := f.curve
  validDays := f.validDays.toNat
  slugPrefix := f.slugPrefix
  slug := f.slug
  keyBackend := if f.onToken then .pkcs11 else .internal
  tokenLabel := f.tokenLabel

def signingCa (ca : Cfg.SigningCa) : Ca.SigningCa where
  toCaFields := caFields ca.toCaFields
  purpose := ca.purpose
  profiles := ca.profiles.filterMap findProfile
  eeValidDays := ca.eeValidDays.toNat

/-- What the ceremony looks at of a configuration. -/
def summary (c : Cfg.Config) : Ca.Config :=
  ⟨caFields c.root, c.cas.values.map signingCa⟩

/-- The certificates of a ceremony, with their keys. -/
structure Made where
  rootCert : Cert
  rootKey : KeyPair
  minted : List Minted

/-- The part of `create` that touches no file of the store: all keys, then all
certificates. -/
def make
    (config : Ca.Config)
    (root : Draw)
    (draw : String → Draw)
    (tokens : String → List TokenObject)
    (now : Nat) : Option Made :=
  match obtainKey (blank config tokens now) (rootSpec config) config.root.slug root.key with
  | none => none
  | some (rootKey, s) =>
      let rootCert := anchor config rootKey root.serial now
      match mintAll rootCert rootKey (config.cas.map fun ca => (ca, draw ca.purpose)) s with
      | none => none
      | some (minted, _) => some ⟨rootCert, rootKey, minted⟩

/-- `open_store`, `PRAGMA journal_mode`, and the tables Botan creates. -/
def opening : List (Directory → Directory) :=
  [fun d => { d with db := some ⟨[], none, none, none, none⟩ }, id, id]

/-- `insert_cert` and, for a key the store keeps, `insert_key`. -/
def storeCert (cert : Cert) (key : Option Key) : List (Directory → Directory) :=
  onDb (fun t => { t with certificates := insertCert t.certificates cert }) ::
    key.toList.map fun key =>
      onDb fun t => { t with certificates := insertKey t.certificates cert key }

def storeCerts (made : Made) (config : Ca.Config) : List (Directory → Directory) :=
  storeCert made.rootCert
      (if config.root.keyBackend = .internal then some made.rootKey.priv else none) ++
    made.minted.flatMap fun m => storeCert m.cert (persisted m.ca m.key)

/-- The configuration table with its rows, and the purpose table with its own. -/
def lockTables (c : Cfg.Config) : List (Directory → Directory) :=
  onDb (fun t => { t with config := some (t.config.getD []) }) ::
    (lockedGlobal c).map (fun e =>
      onDb fun t => { t with config := t.config.map fun rows => rows ++ [e] }) ++
    onDb (fun t => { t with purposes := some (t.purposes.getD []) }) ::
    c.cas.values.map fun ca =>
      onDb fun t => { t with purposes := t.purposes.map fun rows => rows ++ [lockPurpose ca] }

/-- `ensure_cert_index`: the table and eight indices. -/
def createCertIndex : List (Directory → Directory) :=
  onDb (fun t => { t with certIndex := some (t.certIndex.getD []) }) :: List.replicate 8 id

/-- `index_cert` of a CA. -/
def indexCa (cert : Cert) (kind : CaKind) (purpose : String) : Directory → Directory :=
  onDb fun t =>
    { t with certIndex := t.certIndex.map fun rows => indexCert rows cert (.ca kind) purpose }

/-- One turn of the loop of `ensure_ca_index`: two queries, and the row they ask for. -/
def recordGeneration (config : Ca.Config) (purpose : String) : List (Directory → Directory) :=
  let g := configGen config purpose
  [ id, id,
    onDb fun t =>
      { t with
        caIndex := t.caIndex.map fun rows =>
          if rows.any (fun r => r.purpose == purpose) ||
              !(t.certIndex.getD []).any (fun r =>
                r.cn == g.cn && (r.kind == .ca .root || r.kind == .ca .signing)) then rows
          else rows ++ [⟨g, kindOf purpose, .active⟩] } ]

/-- `ensure_ca_index`: the table, its index, the look for `cert_index`, and a turn for
every purpose. -/
def recordGenerations (config : Ca.Config) : List (Directory → Directory) :=
  onDb (fun t => { t with caIndex := some (t.caIndex.getD []) }) :: id :: id ::
    ("root" :: config.cas.map Ca.SigningCa.purpose).flatMap (recordGeneration config)

/-- What `create` does before the first row of `cert_index`. -/
def beforeIndex (c : Cfg.Config) (made : Made) : List (Directory → Directory) :=
  opening ++ storeCerts made (summary c) ++ lockTables c ++ createCertIndex

/-- The rows of `cert_index`. -/
def indexRows (made : Made) : List (Directory → Directory) :=
  indexCa made.rootCert .root "root" ::
    made.minted.map fun m => indexCa m.cert .signing m.ca.purpose

/-- What `create` does after them, up to `create_directories` of `ca/`. -/
def afterIndex (c : Cfg.Config) : List (Directory → Directory) :=
  recordGenerations (summary c) ++ [id]

/-- What `create` does to the store before it writes the published files. -/
def statements (c : Cfg.Config) (made : Made) : List (Directory → Directory) :=
  beforeIndex c made ++ indexRows made ++ afterIndex c

/-- Botan's encodings, and what reading them back gives. -/
structure Codec where
  pem : Cert → List UInt8
  der : Cert → List UInt8
  crl : Crl → List UInt8
  readPem : List UInt8 → Option Cert
  readCrl : List UInt8 → Option Crl

/-- A CA whose artifacts are to be published. -/
structure Publishing where
  slug : String
  cert : Cert
  priv : Key
  /-- In days. -/
  crlHorizon : Nat

/-- The first CRL of a CA. -/
def Publishing.emptyCrl (g : Publishing) (now : Nat) : Crl where
  entries := []
  number := 1
  thisUpdate := now
  nextUpdate := now + crlNextUpdate g.cert g.crlHorizon now
  aki := g.cert.ski
  signedBy := g.priv

def Publishing.pemFile (g : Publishing) : String :=
  g.slug ++ ".pem"

def Publishing.crtFile (g : Publishing) : String :=
  g.slug ++ ".crt"

def Publishing.crlFile (g : Publishing) : String :=
  g.slug ++ ".crl"

/-- How one operation turns out: whether a statement succeeds, or how a file is
replaced, and at which time. -/
structure Outcome where
  ok : Bool
  file : Replacement
  now : Nat
  deriving DecidableEq

/-- The temporary sibling `write_file` uses. -/
def sibling (path : String) : String :=
  path ++ ".tmp"

/-- Writes files until one cannot be written; `none` after a crash. -/
def writeEach :
    List (String × (Nat → List UInt8)) → List Outcome → Files String UInt8 →
      Files String UInt8 × Option (List Outcome)
  | [], outs, files => (files, some outs)
  | _ :: _, [], files => (files, none)
  | (path, text) :: rest, o :: outs, files =>
      let written := o.file.replace (sibling path) path (text o.now) files
      if written.2 then writeEach rest outs written.1 else (written.1, some outs)

/-- `write_ca_artifacts`. -/
def Publishing.artifacts (codec : Codec) (g : Publishing) : List (String × (Nat → List UInt8)) :=
  [ (g.pemFile, fun _ => codec.pem g.cert),
    (g.crtFile, fun _ => codec.der g.cert),
    (g.crlFile, fun now => codec.crl (g.emptyCrl now)) ]

/-- The artifacts of every CA; a CA whose artifacts are not all written is only warned
about. -/
def publishAll (codec : Codec) :
    List Publishing → List Outcome → Files String UInt8 → Files String UInt8
  | [], _, files => files
  | g :: rest, outs, files =>
      match writeEach (g.artifacts codec) outs files with
      | (files, none) => files
      | (files, some outs) => publishAll codec rest outs files

/-- The CAs of a ceremony, the root first. -/
def published (c : Cfg.Config) (made : Made) : List Publishing :=
  ⟨c.root.slug, made.rootCert, made.rootKey.priv, rootCrlNextUpdateDays⟩ ::
    made.minted.map fun m => ⟨m.ca.slug, m.cert, m.key.priv, crlNextUpdateDays⟩

/-- `create`, after the keys and certificates are made. -/
def establish
    (codec : Codec)
    (c : Cfg.Config)
    (made : Made)
    (outs : List Outcome) : Directory :=
  match performAll Outcome.ok (statements c made) outs Directory.fresh with
  | (d, none) => d
  | (d, some outs) => { d with ca := publishAll codec (published c made) outs d.ca }

/-- What `init` leaves of a directory that is absent or empty. -/
def init
    (codec : Codec)
    (c : Cfg.Config)
    (root : Draw)
    (draw : String → Draw)
    (tokens : String → List TokenObject)
    (now : Nat)
    (outs : List Outcome) : Directory :=
  match make (summary c) root draw tokens now with
  | none => Directory.fresh
  | some made => establish codec c made outs

end Ceremony

section Purpose

/-- The CAs of a configuration: purpose, kind and fields. -/
def configured (c : Cfg.Config) : List (String × CaKind × Cfg.CaFields) :=
  ("root", .root, c.root) ::
    c.cas.values.map fun ca => (ca.purpose, .signing, ca.toCaFields)

/-- What a CA needs to be used: an active generation, its certificate in the index and
in its file, and a CRL of its own. -/
structure InUse
    (codec : Codec)
    (t : Tables)
    (files : Files String UInt8)
    (purpose : String)
    (kind : CaKind)
    (ca : Cfg.CaFields) : Prop where
  generation : ∃ row ∈ t.caIndex.getD [], row.purpose = purpose ∧ row.status = .active
  cert : ∃ row ∈ t.certIndex.getD [], row.kind = .ca kind ∧ row.cn = ca.cn ∧
    (files (ca.slug ++ ".pem")).bind codec.readPem = some row.fingerprint ∧
    ∃ crl, (files (ca.slug ++ ".crl")).bind codec.readCrl = some crl ∧ crl.aki = row.ski

/-- A store that can be used: the configuration comes back, and every CA is there. -/
def Usable (codec : Codec) (c : Cfg.Config) (d : Directory) : Prop :=
  ∃ t, d.db = some t ∧ t.loadConfig.isSome = true ∧
    ∀ entry ∈ configured c, InUse codec t d.ca entry.1 entry.2.1 entry.2.2

/-- The three files of a CA are delivered: a certificate and a CRL that can be read. -/
def Publishing.Delivered (codec : Codec) (g : Publishing) (pem crt crl : Outcome) : Prop :=
  pem.file.reports = true ∧
    codec.readPem ((codec.pem g.cert).take pem.file.kept) = some g.cert ∧
    crt.file.reports = true ∧
    crl.file.reports = true ∧
    ∃ list, codec.readCrl ((codec.crl (g.emptyCrl crl.now)).take crl.file.kept) = some list ∧
      list.aki = g.cert.ski

/-- The files of all CAs are delivered, one after the other. -/
def AllDelivered (codec : Codec) : List Publishing → List Outcome → Prop
  | [], _ => True
  | g :: rest, pem :: crt :: crl :: outs => g.Delivered codec pem crt crl ∧
      AllDelivered codec rest outs
  | _ :: _, _ => False

/-- With the rows of the root and of the first `k` issuing CAs in `cert_index`, all the
names that `is_initialized` reads back are there. -/
def Announced (c : Cfg.Config) (k : Nat) : Prop :=
  '\x00' ∉ c.root.cn.toList ∧ c.cas.values ≠ [] ∧
    ∀ ca ∈ c.cas.values, dbText ca.cn ∈ (c.cas.values.take k).map fun ca => ca.cn

end Purpose

section Files

variable {codec : Codec}

/-- A file that a call neither writes nor uses as a temporary one. -/
def Apart (path : String) (todo : List (String × (Nat → List UInt8))) : Prop :=
  ∀ e ∈ todo, path ≠ e.1 ∧ path ≠ sibling e.1

theorem writeEach_other
    {path : String}
    {todo : List (String × (Nat → List UInt8))}
    (h : Apart path todo)
    (outs : List Outcome)
    (files : Files String UInt8) :
    (writeEach todo outs files).1 path = files path := by
  induction todo generalizing outs files with
  | nil => rfl
  | cons e rest ih =>
      obtain ⟨file, text⟩ := e
      obtain ⟨hpath, hsibling⟩ := h (file, text) List.mem_cons_self
      cases outs with
      | nil => rfl
      | cons o outs =>
          have hkept : (o.file.replace (sibling file) file (text o.now) files).1 path =
              files path :=
            Replacement.replace_other hpath hsibling
          simp only [writeEach]
          split
          · rw [ih (fun e he => h e (List.mem_cons_of_mem _ he)), hkept]
          · exact hkept

theorem publishAll_other
    {path : String}
    {gs : List Publishing}
    (h : ∀ g ∈ gs, Apart path (g.artifacts codec))
    (outs : List Outcome)
    (files : Files String UInt8) :
    publishAll codec gs outs files path = files path := by
  induction gs generalizing outs files with
  | nil => rfl
  | cons g rest ih =>
      have hfirst := writeEach_other (h g List.mem_cons_self) outs files
      unfold publishAll
      rcases hwritten : writeEach (g.artifacts codec) outs files with ⟨written, _ | left⟩
      · rw [hwritten] at hfirst
        exact hfirst
      · rw [hwritten] at hfirst
        exact (ih (fun g hg => h g (List.mem_cons_of_mem _ hg)) left written).trans hfirst

/-- Extensions of one length come off. -/
theorem append_inj_of_length
    {s t a b : String}
    (h : s ++ a = t ++ b)
    (hlength : a.toList.length = b.toList.length) :
    s = t ∧ a = b := by
  have hlist : s.toList ++ a.toList = t.toList ++ b.toList := by
    simpa using congrArg String.toList h
  obtain ⟨hs, ha⟩ := List.append_inj' hlist hlength
  exact ⟨String.toList_injective hs, String.toList_injective ha⟩

/-- A file of one CA is apart from those of another. -/
theorem apart_of_slug_ne
    {slug extension : String}
    {g : Publishing}
    (hlength : extension.toList.length = 4)
    (htmp : extension ≠ ".tmp")
    (h : slug ≠ g.slug) :
    Apart (slug ++ extension) (g.artifacts codec) := by
  intro e he
  constructor
  · intro heq
    simp only [Publishing.artifacts, List.mem_cons, List.not_mem_nil, or_false] at he
    rcases he with rfl | rfl | rfl <;> exact h (append_inj_of_length heq hlength).1
  · intro heq
    exact htmp (append_inj_of_length heq hlength).2

/-- The certificate and the CRL of a CA can be read from its files. -/
def Held (codec : Codec) (g : Publishing) (files : Files String UInt8) : Prop :=
  (files g.pemFile).bind codec.readPem = some g.cert ∧
    ∃ crl, (files g.crlFile).bind codec.readCrl = some crl ∧ crl.aki = g.cert.ski

/-- No published file is named as a temporary one. -/
theorem ne_sibling
    {slug extension : String}
    (hlength : extension.toList.length = 4)
    (htmp : extension ≠ ".tmp")
    (path : String) :
    slug ++ extension ≠ sibling path := by
  intro heq
  exact htmp (append_inj_of_length heq hlength).2

theorem ne_of_extension
    {slug extension extension' : String}
    (hlength : extension.toList.length = extension'.toList.length)
    (h : extension ≠ extension') :
    slug ++ extension ≠ slug ++ extension' := by
  intro heq
  exact h (append_inj_of_length heq hlength).2

theorem writeEach_cons
    (path : String)
    (text : Nat → List UInt8)
    (rest : List (String × (Nat → List UInt8)))
    (o : Outcome)
    (outs : List Outcome)
    (files : Files String UInt8) :
    writeEach ((path, text) :: rest) (o :: outs) files =
      if o.file.reports then
        writeEach rest outs (o.file.replace (sibling path) path (text o.now) files).1
      else ((o.file.replace (sibling path) path (text o.now) files).1, some outs) := by
  rw [writeEach, Replacement.replace_snd]

section Group

variable (codec) (g : Publishing) (files : Files String UInt8)

theorem pemFile_ne_sibling (path : String) : g.pemFile ≠ sibling path :=
  ne_sibling (by decide) (by decide) path

theorem crlFile_ne_sibling (path : String) : g.crlFile ≠ sibling path :=
  ne_sibling (by decide) (by decide) path

theorem pemFile_ne_crtFile : g.pemFile ≠ g.crtFile :=
  ne_of_extension (by decide) (by decide)

theorem pemFile_ne_crlFile : g.pemFile ≠ g.crlFile :=
  ne_of_extension (by decide) (by decide)

theorem crlFile_ne_crtFile : g.crlFile ≠ g.crtFile :=
  ne_of_extension (by decide) (by decide)

/-- What the file of the certificate ends up with. -/
theorem writeEach_pemFile (pem : Outcome) (outs : List Outcome) :
    (writeEach (g.artifacts codec) (pem :: outs) files).1 g.pemFile =
      if pem.file.reports then some ((codec.pem g.cert).take pem.file.kept)
      else files g.pemFile := by
  have hfirst : (pem.file.replace (sibling g.pemFile) g.pemFile (codec.pem g.cert) files).1
      g.pemFile =
        if pem.file.reports then some ((codec.pem g.cert).take pem.file.kept)
        else files g.pemFile :=
    Replacement.replace_path (pemFile_ne_sibling g g.pemFile)
  have hapart : Apart g.pemFile
      [(g.crtFile, fun _ => codec.der g.cert), (g.crlFile, fun now => codec.crl (g.emptyCrl now))] := by
    intro e he
    simp only [List.mem_cons, List.not_mem_nil, or_false] at he
    rcases he with rfl | rfl
    · exact ⟨pemFile_ne_crtFile g, pemFile_ne_sibling g _⟩
    · exact ⟨pemFile_ne_crlFile g, pemFile_ne_sibling g _⟩
  rw [Publishing.artifacts, writeEach_cons]
  split
  · rw [writeEach_other hapart, hfirst]
    simp [*]
  · rw [hfirst]
    simp [*]

/-- What the file of the CRL ends up with. -/
theorem writeEach_crlFile (outs : List Outcome) :
    (writeEach (g.artifacts codec) outs files).1 g.crlFile =
      match outs with
      | pem :: crt :: crl :: _ =>
          if pem.file.reports ∧ crt.file.reports ∧ crl.file.reports then
            some ((codec.crl (g.emptyCrl crl.now)).take crl.file.kept)
          else files g.crlFile
      | _ => files g.crlFile := by
  have hpem : ∀ (o : Outcome) (fs : Files String UInt8),
      (o.file.replace (sibling g.pemFile) g.pemFile (codec.pem g.cert) fs).1 g.crlFile =
        fs g.crlFile :=
    fun o fs => Replacement.replace_other (pemFile_ne_crlFile g).symm (crlFile_ne_sibling g _)
  have hcrt : ∀ (o : Outcome) (fs : Files String UInt8),
      (o.file.replace (sibling g.crtFile) g.crtFile (codec.der g.cert) fs).1 g.crlFile =
        fs g.crlFile :=
    fun o fs => Replacement.replace_other (crlFile_ne_crtFile g) (crlFile_ne_sibling g _)
  have hcrl : ∀ (o : Outcome) (fs : Files String UInt8),
      (o.file.replace (sibling g.crlFile) g.crlFile (codec.crl (g.emptyCrl o.now)) fs).1
        g.crlFile =
          if o.file.reports then some ((codec.crl (g.emptyCrl o.now)).take o.file.kept)
          else fs g.crlFile :=
    fun o fs => Replacement.replace_path (crlFile_ne_sibling g _)
  rw [Publishing.artifacts]
  cases outs with
  | nil => rfl
  | cons pem outs =>
      rw [writeEach_cons]
      cases hreports : pem.file.reports with
      | false =>
          have hfails : (pem.file.reports = true) = False := by simp [hreports]
          rcases outs with _ | ⟨crt, _ | ⟨crl, rest⟩⟩ <;> simp [hpem, hfails]
      | true =>
          rcases outs with _ | ⟨crt, outs⟩
          · simp [writeEach, hpem]
          · rw [if_pos rfl, writeEach_cons]
            cases hreports' : crt.file.reports with
            | false => rcases outs with _ | ⟨crl, rest⟩ <;> simp [hpem, hcrt, hreports']
            | true =>
                rcases outs with _ | ⟨crl, rest⟩
                · simp [writeEach, hpem, hcrt]
                · rw [if_pos rfl, writeEach_cons]
                  cases hreports'' : crl.file.reports <;>
                    simp [writeEach, hpem, hcrt, hcrl, hreports, hreports', hreports'']

/-- The outcomes left for the next CA. -/
theorem writeEach_left
    {pem crt crl : Outcome}
    (rest : List Outcome)
    (h : g.Delivered codec pem crt crl) :
    (writeEach (g.artifacts codec) (pem :: crt :: crl :: rest) files).2 = some rest := by
  obtain ⟨hpem, _, hcrt, hcrl, _⟩ := h
  rw [Publishing.artifacts, writeEach_cons, if_pos hpem, writeEach_cons, if_pos hcrt,
    writeEach_cons, if_pos hcrl]
  rfl

/-- The files of one CA are there exactly when its three writes deliver them. -/
theorem writeEach_held
    (hpem : files g.pemFile = none)
    (hcrl : files g.crlFile = none)
    (outs : List Outcome) :
    Held codec g (writeEach (g.artifacts codec) outs files).1 ↔
      ∃ pem crt crl rest, outs = pem :: crt :: crl :: rest ∧ g.Delivered codec pem crt crl := by
  unfold Held
  rw [writeEach_crlFile, hcrl]
  rcases outs with _ | ⟨pem, _ | ⟨crt, _ | ⟨crl, rest⟩⟩⟩
  · simp
  · simp
  · simp
  · rw [writeEach_pemFile, hpem]
    constructor
    · rintro ⟨hcert, list, hlist, haki⟩
      refine ⟨pem, crt, crl, rest, rfl, ?_⟩
      by_cases hreports : pem.file.reports ∧ crt.file.reports ∧ crl.file.reports
      · simp only [hreports, and_self, if_true, Option.bind_some] at hcert hlist
        exact ⟨hreports.1, hcert, hreports.2.1, hreports.2.2, list, hlist, haki⟩
      · simp [hreports] at hlist
    · rintro ⟨_, _, _, _, heq, hreads₁, hcert, hreads₂, hreads₃, list, hlist, haki⟩
      cases heq
      simp only [hreads₁, hreads₂, hreads₃, and_self, if_true, Option.bind_some]
      exact ⟨hcert, list, hlist, haki⟩

end Group

theorem publishAll_cons
    {g : Publishing}
    {gs : List Publishing}
    {pem crt crl : Outcome}
    (files : Files String UInt8)
    (left : List Outcome)
    (h : g.Delivered codec pem crt crl) :
    publishAll codec (g :: gs) (pem :: crt :: crl :: left) files =
      publishAll codec gs left
        (writeEach (g.artifacts codec) (pem :: crt :: crl :: left) files).1 := by
  have hleft := writeEach_left codec g files left h
  rw [publishAll]
  rcases hwritten : writeEach (g.artifacts codec) (pem :: crt :: crl :: left) files with
    ⟨written, left'⟩
  rw [hwritten] at hleft
  subst hleft
  rfl

/-- The files of every CA are there exactly when all writes deliver them. -/
theorem publishAll_held
    {gs : List Publishing}
    (hslugs : (gs.map Publishing.slug).Nodup)
    {files : Files String UInt8}
    (hblank : ∀ g ∈ gs, files g.pemFile = none ∧ files g.crlFile = none)
    (outs : List Outcome) :
    (∀ g ∈ gs, Held codec g (publishAll codec gs outs files)) ↔ AllDelivered codec gs outs := by
  induction gs generalizing files outs with
  | nil => simp [AllDelivered]
  | cons g rest ih =>
      simp only [List.map_cons, List.nodup_cons, List.mem_map, not_exists, not_and] at hslugs
      obtain ⟨hg, hrest⟩ := hslugs
      obtain ⟨hpem, hcrl⟩ := hblank g List.mem_cons_self
      have hfirst := writeEach_held codec g files hpem hcrl outs
      -- the files of `g` are final once its own writes are done
      have hlater : ∀ (left : List Outcome) (fs : Files String UInt8),
          Held codec g (publishAll codec rest left fs) ↔ Held codec g fs := by
        intro left fs
        have hapart : ∀ extension : String, extension.toList.length = 4 → extension ≠ ".tmp" →
            publishAll codec rest left fs (g.slug ++ extension) = fs (g.slug ++ extension) := by
          intro extension hlength htmp
          exact publishAll_other (fun g' hg' =>
            apart_of_slug_ne hlength htmp fun heq => hg g' hg' heq.symm) left fs
        rw [Held, Publishing.pemFile, Publishing.crlFile, hapart ".pem" (by decide) (by decide),
          hapart ".crl" (by decide) (by decide)]
        rfl
      have hblank' : ∀ g' ∈ rest,
          (writeEach (g.artifacts codec) outs files).1 g'.pemFile = none ∧
            (writeEach (g.artifacts codec) outs files).1 g'.crlFile = none := by
        intro g' hg'
        have hne : g'.slug ≠ g.slug := hg g' hg'
        obtain ⟨hpem', hcrl'⟩ := hblank g' (List.mem_cons_of_mem _ hg')
        constructor
        · rw [Publishing.pemFile, writeEach_other (apart_of_slug_ne (by decide) (by decide) hne)]
          exact hpem'
        · rw [Publishing.crlFile, writeEach_other (apart_of_slug_ne (by decide) (by decide) hne)]
          exact hcrl'
      constructor
      · intro h
        have hhead : Held codec g (writeEach (g.artifacts codec) outs files).1 := by
          have hown := h g List.mem_cons_self
          unfold publishAll at hown
          rcases hwritten : writeEach (g.artifacts codec) outs files with ⟨written, _ | left⟩
          · simpa [hwritten] using hown
          · simp only [hwritten] at hown ⊢
            exact (hlater left written).mp hown
        obtain ⟨pem, crt, crl, left, rfl, hdelivered⟩ := hfirst.mp hhead
        rw [publishAll_cons files left hdelivered] at h
        refine ⟨hdelivered, (ih hrest hblank' left).mp ?_⟩
        intro g' hg'
        exact h g' (List.mem_cons_of_mem _ hg')
      · intro h
        unfold AllDelivered at h
        rcases outs with _ | ⟨pem, _ | ⟨crt, _ | ⟨crl, left⟩⟩⟩
        · exact h.elim
        · exact h.elim
        · exact h.elim
        · obtain ⟨hdelivered, hall⟩ := h
          have hhead := hfirst.mpr ⟨pem, crt, crl, left, rfl, hdelivered⟩
          rw [publishAll_cons files left hdelivered]
          intro g' hg'
          rcases List.mem_cons.mp hg' with rfl | hg'
          · exact (hlater left _).mpr hhead
          · exact (ih hrest hblank' left).mpr hall g' hg'

end Files

section Statements

/-- The tables of the database but for Botan's. -/
def At
    (d : Directory)
    (config : Option (List (String × String)))
    (purposes : Option (List PurposeRow))
    (certIndex : Option (List CertRow))
    (caIndex : Option (List CaRow)) : Prop :=
  ∃ certs, d.db = some ⟨certs, config, purposes, certIndex, caIndex⟩

variable {d : Directory} {config : Option (List (String × String))}
  {purposes : Option (List PurposeRow)} {certIndex : Option (List CertRow)}
  {caIndex : Option (List CaRow)}

theorem at_opening : At (foldOps opening Directory.fresh) none none none none :=
  ⟨[], rfl⟩

theorem at_storeCerts
    (h : At d config purposes certIndex caIndex)
    (made : Made)
    (c : Ca.Config) :
    At (foldOps (storeCerts made c) d) config purposes certIndex caIndex := by
  have hcert : ∀ cert key, ∀ op ∈ storeCert cert key, ∀ d,
      At d config purposes certIndex caIndex → At (op d) config purposes certIndex caIndex := by
    intro cert key op hop d hd
    obtain ⟨certs, hcerts⟩ := hd
    simp only [storeCert, List.mem_cons, List.mem_map] at hop
    rcases hop with rfl | ⟨k, _, rfl⟩
    · exact ⟨_, by rw [onDb, hcerts]; rfl⟩
    · exact ⟨_, by rw [onDb, hcerts]; rfl⟩
  have hkeeps : ∀ op ∈ storeCerts made c, ∀ d,
      At d config purposes certIndex caIndex → At (op d) config purposes certIndex caIndex := by
    intro op hop
    rcases List.mem_append.mp hop with hop | hop
    · exact hcert _ _ op hop
    · obtain ⟨m, _, hop⟩ := List.mem_flatMap.mp hop
      exact hcert _ _ op hop
  have hall := foldOps_keeps hkeeps (storeCerts made c).length h
  rwa [List.take_length] at hall

theorem at_configRows
    {rows : List (String × String)}
    (h : At d (some rows) purposes certIndex caIndex)
    (new : List (String × String)) :
    At (foldOps (new.map fun e =>
        onDb fun t => { t with config := t.config.map fun rows => rows ++ [e] }) d)
      (some (rows ++ new)) purposes certIndex caIndex := by
  induction new generalizing d rows with
  | nil => simpa using h
  | cons e rest ih =>
      obtain ⟨certs, hcerts⟩ := h
      have hnext : At (onDb (fun t => { t with config := t.config.map fun rows => rows ++ [e] }) d)
          (some (rows ++ [e])) purposes certIndex caIndex :=
        ⟨certs, by rw [onDb, hcerts]; rfl⟩
      simpa using ih hnext

theorem at_purposeRows
    {rows : List PurposeRow}
    (h : At d config (some rows) certIndex caIndex)
    (new : List Cfg.SigningCa) :
    At (foldOps (new.map fun ca =>
        onDb fun t => { t with purposes := t.purposes.map fun rows => rows ++ [lockPurpose ca] }) d)
      config (some (rows ++ new.map lockPurpose)) certIndex caIndex := by
  induction new generalizing d rows with
  | nil => simpa using h
  | cons ca rest ih =>
      obtain ⟨certs, hcerts⟩ := h
      have hnext : At (onDb (fun t =>
          { t with purposes := t.purposes.map fun rows => rows ++ [lockPurpose ca] }) d)
          config (some (rows ++ [lockPurpose ca])) certIndex caIndex :=
        ⟨certs, by rw [onDb, hcerts]; rfl⟩
      simpa using ih hnext

/-- The configuration is locked before `cert_index` is created. -/
theorem at_beforeIndex (c : Cfg.Config) (made : Made) :
    At (foldOps (beforeIndex c made) Directory.fresh) (some (lockedGlobal c))
      (some (c.cas.values.map lockPurpose)) (some []) none := by
  have hstored := at_storeCerts at_opening made (summary c)
  obtain ⟨certs, hcerts⟩ := hstored
  have hcreated : At (onDb (fun t => { t with config := some (t.config.getD []) })
      (foldOps (storeCerts made (summary c)) (foldOps opening Directory.fresh)))
      (some []) none none none :=
    ⟨certs, by rw [onDb, hcerts]; rfl⟩
  obtain ⟨certs', hcerts'⟩ := at_configRows hcreated (lockedGlobal c)
  have hcreated' : At (onDb (fun t => { t with purposes := some (t.purposes.getD []) }) _)
      (some (lockedGlobal c)) (some []) none none :=
    ⟨certs', by rw [onDb, hcerts']; rfl⟩
  obtain ⟨certs'', hcerts''⟩ := at_purposeRows hcreated' c.cas.values
  refine ⟨certs'', ?_⟩
  simp only [beforeIndex, lockTables, createCertIndex, foldOps_append, foldOps_cons,
    List.replicate, foldOps_nil, id, List.cons_append]
  rw [onDb, hcerts'']
  rfl

/-- The rows of certificates that are not in the index yet. -/
theorem at_indexCas
    {rows : List CertRow}
    (h : At d config purposes (some rows) caIndex)
    {ms : List Minted}
    (hnew : (rows.map CertRow.fingerprint ++ ms.map Minted.cert).Nodup) :
    At (foldOps (ms.map fun m => indexCa m.cert .signing m.ca.purpose) d) config purposes
      (some (rows ++ ms.map fun m => indexRow m.cert (.ca .signing) m.ca.purpose)) caIndex := by
  induction ms generalizing d rows with
  | nil => simpa using h
  | cons m rest ih =>
      obtain ⟨certs, hcerts⟩ := h
      have hfirst : ∀ row ∈ rows, row.fingerprint ≠ m.cert := by
        intro row hrow heq
        exact (List.disjoint_of_nodup_append hnew) (List.mem_map_of_mem hrow) (by simp [heq])
      have hnext : At (indexCa m.cert .signing m.ca.purpose d) config purposes
          (some (rows ++ [indexRow m.cert (.ca .signing) m.ca.purpose])) caIndex :=
        ⟨certs, by rw [indexCa, onDb, hcerts, ← indexCert_of_new hfirst]; rfl⟩
      have hrest : ((rows ++ [indexRow m.cert (.ca .signing) m.ca.purpose]).map
          CertRow.fingerprint ++ rest.map Minted.cert).Nodup := by
        simpa [indexRow] using hnew
      simpa using ih hnext hrest

/-- The rows of purposes that have none yet and whose certificates are in the index. -/
theorem at_recordGenerations
    {index : List CertRow}
    {rows : List CaRow}
    {summary : Ca.Config}
    (h : At d config purposes (some index) (some rows))
    {ps : List String}
    (hnew : (rows.map (fun r => r.purpose) ++ ps).Nodup)
    (hissued : ∀ p ∈ ps, ∃ row ∈ index, row.cn = (configGen summary p).cn ∧
      (row.kind = .ca .root ∨ row.kind = .ca .signing)) :
    At (foldOps (ps.flatMap (recordGeneration summary)) d) config purposes (some index)
      (some (rows ++ ps.map fun p => ⟨configGen summary p, kindOf p, .active⟩)) := by
  induction ps generalizing d rows with
  | nil => simpa using h
  | cons p rest ih =>
      obtain ⟨certs, hcerts⟩ := h
      have habsent : (rows.any fun r => r.purpose == p) = false := by
        rw [List.any_eq_false]
        intro row hrow hp
        have heq : row.purpose = p := by simpa using hp
        exact (List.disjoint_of_nodup_append hnew) (List.mem_map_of_mem hrow) (by simp [heq])
      have hheld : (index.any fun r =>
          r.cn == (configGen summary p).cn && (r.kind == .ca .root || r.kind == .ca .signing)) =
            true := by
        obtain ⟨row, hrow, hcn, hkind⟩ := hissued p List.mem_cons_self
        exact List.any_eq_true.mpr ⟨row, hrow, by simpa [hcn] using hkind⟩
      have hnext : At (foldOps (recordGeneration summary p) d) config purposes (some index)
          (some (rows ++ [⟨configGen summary p, kindOf p, .active⟩])) := by
        refine ⟨certs, ?_⟩
        simp only [recordGeneration, foldOps_cons, foldOps_nil, id, onDb, hcerts, Option.map_some,
          Option.getD_some, habsent, hheld, Bool.not_true, Bool.or_false, Bool.false_eq_true,
          if_false]
      have hrest : ((rows ++ [(⟨configGen summary p, kindOf p, .active⟩ : CaRow)]).map
          (fun r => r.purpose) ++ rest).Nodup := by
        simpa [configGen_purpose] using hnew
      rw [List.flatMap_cons, foldOps_append]
      simpa using ih hnext hrest fun q hq => hissued q (List.mem_cons_of_mem _ hq)

/-- After the index the statements keep what is locked and indexed. -/
theorem at_afterIndex
    {c : Cfg.Config}
    (h : At d config purposes certIndex caIndex)
    (n : Nat) :
    ∃ caIndex', At (foldOps ((afterIndex c).take n) d) config purposes certIndex caIndex' := by
  have hkeeps : ∀ op ∈ afterIndex c, ∀ d, (∃ r, At d config purposes certIndex r) →
      ∃ r, At (op d) config purposes certIndex r := by
    intro op hop d hd
    obtain ⟨r, certs, hcerts⟩ := hd
    simp only [afterIndex, recordGenerations, recordGeneration, List.mem_append, List.mem_cons,
      List.mem_flatMap, List.not_mem_nil, or_false] at hop
    rcases hop with (rfl | rfl | rfl | ⟨p, _, rfl | rfl | rfl⟩) | rfl
    · exact ⟨_, certs, by rw [onDb, hcerts]; rfl⟩
    · exact ⟨r, certs, hcerts⟩
    · exact ⟨r, certs, hcerts⟩
    · exact ⟨r, certs, hcerts⟩
    · exact ⟨r, certs, hcerts⟩
    · exact ⟨_, certs, by rw [onDb, hcerts]; rfl⟩
    · exact ⟨r, certs, hcerts⟩
  exact foldOps_keeps hkeeps n ⟨caIndex, h⟩

/-- No certificate is indexed. -/
def Unindexed (d : Directory) : Prop :=
  ∀ t, d.db = some t → t.certIndex.getD [] = []

/-- Before the first row of `cert_index` none is there. -/
theorem unindexed_beforeIndex (c : Cfg.Config) (made : Made) (n : Nat) :
    Unindexed (foldOps ((beforeIndex c made).take n) Directory.fresh) := by
  have hdb : ∀ f : Tables → Tables, (∀ t, (f t).certIndex.getD [] = t.certIndex.getD []) →
      ∀ d, Unindexed d → Unindexed (onDb f d) := by
    intro f hf d hd t ht
    obtain ⟨t', ht', rfl⟩ := Option.map_eq_some_iff.mp ht
    rw [hf, hd t' ht']
  have hcert : ∀ cert key, ∀ op ∈ storeCert cert key, ∀ d, Unindexed d → Unindexed (op d) := by
    intro cert key op hop
    simp only [storeCert, List.mem_cons, List.mem_map] at hop
    rcases hop with rfl | ⟨k, _, rfl⟩
    · exact hdb _ fun t => rfl
    · exact hdb _ fun t => rfl
  refine foldOps_keeps ?_ n (fun t ht => by simp [Directory.fresh] at ht)
  intro op hop d hd
  simp only [beforeIndex, opening, storeCerts, lockTables, createCertIndex, List.mem_append,
    List.mem_cons, List.mem_flatMap, List.mem_map, List.not_mem_nil, or_false,
    List.mem_replicate] at hop
  rcases hop with (((rfl | rfl | rfl) | hop | ⟨m, _, hop⟩) | (rfl | ⟨e, _, rfl⟩) | rfl | ⟨ca, _, rfl⟩) |
    rfl | ⟨_, rfl⟩
  · intro t ht
    cases ht
    rfl
  · exact hd
  · exact hd
  · exact hcert _ _ op hop d hd
  · exact hcert _ _ op hop d hd
  · refine hdb _ ?_ d hd
    exact fun t => rfl
  · refine hdb _ ?_ d hd
    exact fun t => rfl
  · refine hdb _ ?_ d hd
    exact fun t => rfl
  · refine hdb _ ?_ d hd
    exact fun t => rfl
  · refine hdb _ ?_ d hd
    exact fun t => rfl
  · exact hd

/-- A store without certificates is not taken for initialised. -/
theorem isInitialized_of_unindexed (h : Unindexed d) :
    isInitialized d = false := by
  unfold isInitialized
  cases hdb : d.db with
  | none => rfl
  | some t =>
      have hempty := h t hdb
      obtain ⟨certs, config, purposes, certIndex, caIndex⟩ := t
      cases config with
      | none => rfl
      | some rows =>
          cases certIndex with
          | none => simp
          | some index =>
              have hindex : index = [] := hempty
              simp [hindex]

end Statements

section Indexed

/-- The certificates are those of the configuration. -/
structure Made.For (made : Made) (c : Cfg.Config) : Prop where
  rootCn : made.rootCert.subjectCn = c.root.cn
  cas : made.minted.map Minted.ca = c.cas.values.map signingCa
  cns : ∀ m ∈ made.minted, m.cert.subjectCn = m.ca.cn

theorem make_for
    {c : Cfg.Config}
    {root : Draw}
    {draw : String → Draw}
    {tokens : String → List TokenObject}
    {now : Nat}
    {made : Made}
    (h : make (summary c) root draw tokens now = some made) :
    made.For c := by
  unfold make at h
  split at h
  · simp at h
  · rename_i rootKey s hkey
    simp only at h
    split at h
    · simp at h
    · rename_i minted s' hminted
      obtain ⟨_, hcas, _, hall⟩ := mintAll_spec hminted
      rw [← Option.some.inj h]
      constructor
      · rfl
      · simpa [summary, Function.comp_def] using hcas
      · intro m hm
        obtain ⟨⟨serial, hcert⟩, _⟩ := hall m hm
        rw [hcert]
        rfl

variable {c : Cfg.Config} {made : Made}

theorem Made.For.map_cns (h : made.For c) :
    made.minted.map (fun m => m.cert.subjectCn) = c.cas.values.map fun ca => ca.cn := by
  have hcns : made.minted.map (fun m => m.cert.subjectCn) =
      (made.minted.map Minted.ca).map fun ca => ca.cn := by
    rw [List.map_map]
    exact List.map_congr_left h.cns
  rw [hcns, h.cas, List.map_map]
  rfl

theorem Made.For.map_slugs (h : made.For c) :
    made.minted.map (fun m => m.ca.slug) = c.cas.values.map fun ca => ca.slug := by
  have hslugs := congrArg (List.map fun ca : Ca.SigningCa => ca.slug) h.cas
  simpa [signingCa, caFields, Function.comp_def] using hslugs

/-- The row of the root and those of the issuing CAs. -/
def caRows (made : Made) : List CertRow :=
  indexRow made.rootCert (.ca .root) "root" ::
    made.minted.map fun m => indexRow m.cert (.ca .signing) m.ca.purpose

/-- `is_initialized` goes by the names that were announced. -/
theorem isInitialized_iff
    {d : Directory}
    {caIndex : Option (List CaRow)}
    (hroot : c.root.cn ≠ "")
    (h : made.For c)
    (k : Nat)
    (hd : At d (some (lockedGlobal c)) (some (c.cas.values.map lockPurpose))
      (some ((caRows made).take (k + 1))) caIndex) :
    isInitialized d = true ↔ Announced c k := by
  obtain ⟨certs, hdb⟩ := hd
  have hlookup : ((lockedGlobal c).find? fun e => e.1 == "root.cn") =
      some ("root.cn", c.root.cn) := by
    simp [lockedGlobal]
  have htake : (caRows made).take (k + 1) = indexRow made.rootCert (.ca .root) "root" ::
      (made.minted.take k).map fun m => indexRow m.cert (.ca .signing) m.ca.purpose := by
    simp [caRows, List.map_take]
  have hcns : (made.minted.take k).map (fun m => m.cert.subjectCn) =
      (c.cas.values.take k).map fun ca => ca.cn := by
    rw [List.map_take, List.map_take, h.map_cns]
  generalize made.minted.take k = ms at htake hcns
  have hanchor : ∀ cn, (((caRows made).take (k + 1)).any fun r =>
      r.kind == .ca .root && r.cn == cn) = decide (c.root.cn = cn) := by
    intro cn
    rw [htake, ← h.rootCn, Bool.eq_iff_iff]
    simp [indexRow]
  have hissuer : ∀ cn, (((caRows made).take (k + 1)).any fun r =>
      r.kind == .ca .signing && r.cn == cn) =
        decide (cn ∈ (c.cas.values.take k).map fun ca => ca.cn) := by
    intro cn
    rw [htake, ← hcns, Bool.eq_iff_iff]
    simp [indexRow]
  have hall : (c.cas.values.map lockPurpose).all (fun row => ((caRows made).take (k + 1)).any
      fun r => r.kind == .ca .signing && r.cn == dbText row.cn) = true ↔
        ∀ ca ∈ c.cas.values, dbText ca.cn ∈ (c.cas.values.take k).map fun ca => ca.cn := by
    rw [List.all_map, List.all_eq_true]
    simp only [Function.comp_apply, hissuer, decide_eq_true_eq]
    rfl
  unfold isInitialized Announced
  simp only [hdb, hlookup, Option.map_some, Option.getD_some, hanchor,
    ← Cfg.dbText_eq_self_iff]
  by_cases hplain : dbText c.root.cn = c.root.cn
  · simp only [hplain, hroot, if_false, decide_true, Bool.not_true, Bool.false_eq_true,
      Bool.and_eq_true, hall, true_and]
    simp
  · have hdiffers : c.root.cn ≠ dbText c.root.cn := fun heq => hplain heq.symm
    simp [hplain, hdiffers]

/-- The statements before the index, in it and after it that were performed. -/
theorem take_statements (c : Cfg.Config) (made : Made) (n : Nat) :
    (statements c made).take n = (beforeIndex c made).take n ++
      (indexRows made).take (n - (beforeIndex c made).length) ++
      (afterIndex c).take (n - ((beforeIndex c made).length + (indexRows made).length)) := by
  rw [statements, List.take_append, List.take_append, List.length_append]

/-- What the performed statements leave; the files come later. -/
theorem establish_db (codec : Codec) (c : Cfg.Config) (made : Made) (outs : List Outcome) :
    (establish codec c made outs).db =
      (foldOps ((statements c made).take (successes Outcome.ok outs)) Directory.fresh).db := by
  unfold establish
  rw [performAll_eq]
  split_ifs <;> rfl

theorem isInitialized_congr
    {d d' : Directory}
    (h : d.db = d'.db) :
    isInitialized d = isInitialized d' := by
  unfold isInitialized
  rw [h]

/-- Without a row in the index the store is not taken for initialised. -/
theorem isInitialized_of_le
    (codec : Codec)
    {outs : List Outcome}
    (hn : successes Outcome.ok outs ≤ (beforeIndex c made).length) :
    isInitialized (establish codec c made outs) = false := by
  rw [isInitialized_congr (establish_db codec c made outs), take_statements,
    Nat.sub_eq_zero_of_le hn, Nat.sub_eq_zero_of_le (by omega), List.take_zero, List.take_zero,
    List.append_nil, List.append_nil]
  exact isInitialized_of_unindexed (unindexed_beforeIndex c made _)

/-- Certificates with names of their own are certificates of their own. -/
theorem Made.For.certs_nodup
    (h : made.For c)
    (hcns : (c.root.cn :: c.cas.values.map fun ca => ca.cn).Nodup) :
    (made.rootCert :: made.minted.map Minted.cert).Nodup := by
  rw [← h.rootCn, ← h.map_cns] at hcns
  refine List.Nodup.of_map Cert.subjectCn ?_
  simpa [Function.comp_def] using hcns

/-- With a row in the index, its rows are those of the root and the first CAs. -/
theorem at_indexRows
    (h : made.For c)
    (hcns : (c.root.cn :: c.cas.values.map fun ca => ca.cn).Nodup)
    (k : Nat) :
    At (foldOps ((indexRows made).take (k + 1)) (foldOps (beforeIndex c made) Directory.fresh))
      (some (lockedGlobal c)) (some (c.cas.values.map lockPurpose))
      (some ((caRows made).take (k + 1))) none := by
  obtain ⟨certs, hcerts⟩ := at_beforeIndex c made
  have hroot : At (indexCa made.rootCert .root "root"
      (foldOps (beforeIndex c made) Directory.fresh))
      (some (lockedGlobal c)) (some (c.cas.values.map lockPurpose))
      (some [indexRow made.rootCert (.ca .root) "root"]) none :=
    ⟨certs, by rw [indexCa, onDb, hcerts]; rfl⟩
  have hnodup : ([indexRow made.rootCert (.ca .root) "root"].map CertRow.fingerprint ++
      (made.minted.take k).map Minted.cert).Nodup := by
    refine (h.certs_nodup hcns).sublist ?_
    rw [List.map_take]
    exact (List.take_sublist k _).cons_cons _
  have hrows := at_indexCas hroot hnodup
  rw [List.map_take, List.map_take] at hrows
  exact hrows

/-- With a row in the index, `is_initialized` goes by the names announced so far. -/
theorem isInitialized_of_lt
    (codec : Codec)
    (hroot : c.root.cn ≠ "")
    (h : made.For c)
    (hcns : (c.root.cn :: c.cas.values.map fun ca => ca.cn).Nodup)
    {outs : List Outcome}
    (hn : (beforeIndex c made).length < successes Outcome.ok outs) :
    isInitialized (establish codec c made outs) = true ↔
      Announced c (successes Outcome.ok outs - (beforeIndex c made).length - 1) := by
  obtain ⟨k, hk⟩ : ∃ k, successes Outcome.ok outs = (beforeIndex c made).length + (k + 1) :=
    ⟨successes Outcome.ok outs - (beforeIndex c made).length - 1, by omega⟩
  have hlocked := at_afterIndex (c := c) (at_indexRows h hcns k)
    (successes Outcome.ok outs - ((beforeIndex c made).length + (indexRows made).length))
  obtain ⟨caIndex, hat⟩ := hlocked
  have hsame : successes Outcome.ok outs - (beforeIndex c made).length = k + 1 := by omega
  rw [isInitialized_congr (establish_db codec c made outs), take_statements, foldOps_append,
    foldOps_append, List.take_of_length_le (l := beforeIndex c made) (by omega), hsame]
  exact isInitialized_iff hroot h k hat

end Indexed

section Complete

variable {c : Cfg.Config} {made : Made}

/-- No statement touches a published file. -/
theorem ca_statements (c : Cfg.Config) (made : Made) (n : Nat) :
    (foldOps ((statements c made).take n) Directory.fresh).ca = fun _ => none := by
  have hcert : ∀ cert key, ∀ op ∈ storeCert cert key, ∀ d : Directory, (op d).ca = d.ca := by
    intro cert key op hop d
    simp only [storeCert, List.mem_cons, List.mem_map] at hop
    rcases hop with rfl | ⟨k, _, rfl⟩
    · rfl
    · rfl
  have hkeeps : ∀ op ∈ statements c made, ∀ d : Directory,
      (d.ca = fun _ => none) → (op d).ca = fun _ => none := by
    intro op hop d hd
    refine Eq.trans ?_ hd
    simp only [statements, beforeIndex, opening, storeCerts, lockTables, createCertIndex,
      indexRows, afterIndex, recordGenerations, recordGeneration, List.mem_append, List.mem_cons,
      List.mem_flatMap, List.mem_map, List.not_mem_nil, or_false, List.mem_replicate] at hop
    rcases hop with (((((rfl | rfl | rfl) | hop | ⟨m, _, hop⟩) | (rfl | ⟨e, _, rfl⟩) | rfl |
      ⟨ca, _, rfl⟩) | rfl | ⟨_, rfl⟩) | rfl | ⟨m, _, rfl⟩) |
        (rfl | rfl | rfl | ⟨p, _, rfl | rfl | rfl⟩) | rfl
    all_goals first | rfl | exact hcert _ _ op hop d
  exact foldOps_keeps hkeeps n rfl

/-- The generations that `ensure_ca_index` records. -/
def firstRows (config : Ca.Config) : List CaRow :=
  ("root" :: config.cas.map Ca.SigningCa.purpose).map fun p =>
    ⟨configGen config p, kindOf p, .active⟩

/-- Every purpose has its certificate in the index. -/
theorem generation_issued
    (h : made.For c)
    {p : String}
    (hp : p ∈ "root" :: (summary c).cas.map Ca.SigningCa.purpose) :
    ∃ row ∈ caRows made, row.cn = (configGen (summary c) p).cn ∧
      (row.kind = .ca .root ∨ row.kind = .ca .signing) := by
  by_cases hroot : p = "root"
  · refine ⟨_, List.mem_cons_self, ?_, Or.inl rfl⟩
    rw [configGen, if_pos hroot]
    exact h.rootCn
  · have hmem : p ∈ (summary c).cas.map Ca.SigningCa.purpose := by
      simpa [hroot] using hp
    obtain ⟨ca, hca, hpurpose⟩ := List.mem_map.mp hmem
    have hfound : ((summary c).ca p).isSome = true := by
      rw [Ca.Config.ca, List.find?_isSome]
      exact ⟨ca, hca, by simp [hpurpose]⟩
    obtain ⟨ca', hca'⟩ := Option.isSome_iff_exists.mp hfound
    have hheld : ca' ∈ made.minted.map Minted.ca := by
      rw [h.cas]
      exact List.mem_of_find?_eq_some hca'
    obtain ⟨m, hm, rfl⟩ := List.mem_map.mp hheld
    refine ⟨_, List.mem_cons_of_mem _ (List.mem_map_of_mem hm), ?_, Or.inr rfl⟩
    rw [configGen, if_neg hroot, hca']
    exact h.cns m hm

/-- All statements performed: what is locked, indexed and recorded. -/
theorem at_statements
    (h : made.For c)
    (hcns : (c.root.cn :: c.cas.values.map fun ca => ca.cn).Nodup)
    (hpurposes : ("root" :: (summary c).cas.map Ca.SigningCa.purpose).Nodup) :
    At (foldOps (statements c made) Directory.fresh) (some (lockedGlobal c))
      (some (c.cas.values.map lockPurpose)) (some (caRows made))
      (some (firstRows (summary c))) := by
  have hindex := at_indexRows h hcns made.minted.length
  rw [List.take_of_length_le (l := indexRows made) (by simp [indexRows]),
    List.take_of_length_le (l := caRows made) (by simp [caRows])] at hindex
  obtain ⟨certs, hcerts⟩ := hindex
  have hcreated : At (onDb (fun t => { t with caIndex := some (t.caIndex.getD []) })
      (foldOps (indexRows made) (foldOps (beforeIndex c made) Directory.fresh)))
      (some (lockedGlobal c)) (some (c.cas.values.map lockPurpose)) (some (caRows made))
      (some []) :=
    ⟨certs, by rw [onDb, hcerts]; rfl⟩
  have hrows := at_recordGenerations hcreated hpurposes fun p hp => generation_issued h hp
  simpa [statements, afterIndex, recordGenerations, firstRows] using hrows

/-- A ceremony that nothing interrupts leaves the index and the generations of `create`. -/
theorem create_of_make
    {config : Ca.Config}
    {root : Draw}
    {draw : String → Draw}
    {tokens : String → List TokenObject}
    {now : Nat}
    (hconfig : config.Accepted)
    (h : make config root draw tokens now = some made) :
    ∃ s, create config root (config.cas.map fun ca => draw ca.purpose) tokens now = some s ∧
      s.db.certIndex = caRows made ∧ s.db.caIndex = firstRows config := by
  have hzip : config.cas.zip (config.cas.map fun ca => draw ca.purpose) =
      config.cas.map fun ca => (ca, draw ca.purpose) := by
    simpa using List.zip_map' (f := id) (g := fun ca : Ca.SigningCa => draw ca.purpose)
      (l := config.cas)
  unfold make at h
  unfold create
  rw [hzip]
  rcases hkey : obtainKey (blank config tokens now) (rootSpec config) config.root.slug root.key with
    _ | ⟨rootKey, s⟩
  · simp [hkey] at h
  · simp only [hkey] at h ⊢
    rcases hminted : mintAll (anchor config rootKey root.serial now) rootKey
      (config.cas.map fun ca => (ca, draw ca.purpose)) s with _ | ⟨minted, s'⟩
    · simp [hminted] at h
    · simp only [hminted] at h ⊢
      obtain ⟨_, hcas, _, _⟩ := mintAll_spec hminted
      rw [← Option.some.inj h]
      refine ⟨_, rfl, ?_, ?_⟩
      · rw [writeAll_db]
        rfl
      · rw [writeAll_db]
        have hpurposes : minted.map (fun m => m.ca.purpose) = config.cas.map Ca.SigningCa.purpose := by
          have hsame := congrArg (List.map Ca.SigningCa.purpose) hcas
          simpa [Function.comp_def] using hsame
        have hkinds : ∀ p ∈ config.cas.map Ca.SigningCa.purpose, kindOf p = .signing := by
          intro p hp
          obtain ⟨ca, hca, rfl⟩ := List.mem_map.mp hp
          simp [kindOf, hconfig.notRoot ca hca]
        show (⟨configGen config "root", .root, .active⟩ :: minted.map fun m =>
          ⟨configGen config m.ca.purpose, .signing, .active⟩ : List CaRow) = firstRows config
        have hrows : (minted.map fun m =>
            (⟨configGen config m.ca.purpose, .signing, .active⟩ : CaRow)) =
              (minted.map fun m => m.ca.purpose).map fun p =>
                ⟨configGen config p, .signing, .active⟩ := by
          simp
        rw [hrows, hpurposes, firstRows, List.map_cons]
        refine congrArg₂ List.cons rfl (List.map_congr_left fun p hp => ?_)
        rw [hkinds p hp]

/-- A CA that is in use is one whose files are there. -/
theorem inUse_iff
    {codec : Codec}
    {t : Tables}
    {index : List CertRow}
    {generations : List CaRow}
    (hindex : t.certIndex = some index)
    (hgenerations : t.caIndex = some generations)
    {purpose : String}
    {kind : CaKind}
    {ca : Cfg.CaFields}
    {g : Publishing}
    (hslug : g.slug = ca.slug)
    (hgeneration : ∃ row ∈ generations, row.purpose = purpose ∧ row.status = .active)
    (hrow : ∃ row ∈ index, row.kind = .ca kind ∧ row.cn = ca.cn)
    (honly : ∀ row ∈ index, row.kind = .ca kind → row.cn = ca.cn →
      row.fingerprint = g.cert ∧ row.ski = g.cert.ski)
    (files : Files String UInt8) :
    InUse codec t files purpose kind ca ↔ Held codec g files := by
  have hpem : g.pemFile = ca.slug ++ ".pem" := by rw [Publishing.pemFile, hslug]
  have hcrl : g.crlFile = ca.slug ++ ".crl" := by rw [Publishing.crlFile, hslug]
  rw [Held, hpem, hcrl]
  constructor
  · intro h
    obtain ⟨row, hmem, hkind, hcn, hread, crl, hlist, haki⟩ := h.cert
    rw [hindex, Option.getD_some] at hmem
    obtain ⟨hfp, hski⟩ := honly row hmem hkind hcn
    exact ⟨hread.trans (by rw [hfp]), crl, hlist, haki.trans hski⟩
  · rintro ⟨hread, crl, hlist, haki⟩
    obtain ⟨row, hmem, hkind, hcn⟩ := hrow
    obtain ⟨hfp, hski⟩ := honly row hmem hkind hcn
    constructor
    · rwa [hgenerations, Option.getD_some]
    · rw [hindex, Option.getD_some]
      exact ⟨row, hmem, hkind, hcn, hread.trans (by rw [hfp]), crl, hlist, haki.trans hski.symm⟩

/-- The row of the root is the only one of its kind. -/
theorem only_root
    {row : CertRow}
    (hmem : row ∈ caRows made)
    (hkind : row.kind = .ca .root) :
    row.fingerprint = made.rootCert ∧ row.ski = made.rootCert.ski := by
  rcases List.mem_cons.mp hmem with rfl | hmem
  · exact ⟨rfl, rfl⟩
  · obtain ⟨m, _, rfl⟩ := List.mem_map.mp hmem
    simp [indexRow] at hkind

/-- The row of an issuing CA is the only one with its name. -/
theorem only_signing
    (h : made.For c)
    (hcns : (c.cas.values.map fun ca => ca.cn).Nodup)
    {m : Minted}
    (hm : m ∈ made.minted)
    {row : CertRow}
    (hmem : row ∈ caRows made)
    (hkind : row.kind = .ca .signing)
    (hcn : row.cn = m.cert.subjectCn) :
    row.fingerprint = m.cert ∧ row.ski = m.cert.ski := by
  rcases List.mem_cons.mp hmem with rfl | hmem
  · simp [indexRow] at hkind
  · obtain ⟨m', hm', rfl⟩ := List.mem_map.mp hmem
    have hunique := List.inj_on_of_nodup_map (h.map_cns ▸ hcns) hm' hm hcn
    rw [hunique]
    exact ⟨rfl, rfl⟩

/-- With all statements performed, a store can be used exactly when the files of all CAs
are there. -/
theorem usable_iff
    {oidText : String → Option String}
    (hoid : Cfg.DottedDecimal oidText)
    (haccepted : c.Accepted oidText)
    (codec : Codec)
    (h : made.For c)
    (hcns : (c.root.cn :: c.cas.values.map fun ca => ca.cn).Nodup)
    (hcas : c.cas.values ≠ [])
    {d : Directory}
    (hd : At d (some (lockedGlobal c)) (some (c.cas.values.map lockPurpose))
      (some (caRows made)) (some (firstRows (summary c)))) :
    Usable codec c d ↔ ∀ g ∈ published c made, Held codec g d.ca := by
  obtain ⟨certs, hdb⟩ := hd
  have hload : (Tables.loadConfig ⟨certs, some (lockedGlobal c),
      some (c.cas.values.map lockPurpose), some (caRows made),
      some (firstRows (summary c))⟩).isSome = true := by
    have hentries : c.cas.entries ≠ [] := by
      simpa [OrderedMap.values] using hcas
    have hlock : Cfg.loadConfig ⟨lockedGlobal c, c.cas.values.map lockPurpose⟩ = some c.stored := by
      have hloaded := Cfg.loadConfig_lock hoid haccepted
      rwa [if_neg hentries] at hloaded
    simp only [Tables.loadConfig, hlock]
    rfl
  have hgeneration : ∀ p ∈ "root" :: (summary c).cas.map Ca.SigningCa.purpose,
      ∃ row ∈ firstRows (summary c), row.purpose = p ∧ row.status = .active :=
    fun p hp => ⟨_, List.mem_map_of_mem hp, configGen_purpose _ p, rfl⟩
  set t : Tables := ⟨certs, some (lockedGlobal c), some (c.cas.values.map lockPurpose),
    some (caRows made), some (firstRows (summary c))⟩ with ht
  have hroot : InUse codec t d.ca "root" .root c.root ↔ Held codec
      ⟨c.root.slug, made.rootCert, made.rootKey.priv, rootCrlNextUpdateDays⟩ d.ca :=
    inUse_iff rfl rfl rfl (hgeneration "root" List.mem_cons_self)
      ⟨_, List.mem_cons_self, rfl, h.rootCn⟩ (fun _ hmem hkind _ => only_root hmem hkind) d.ca
  have hissuer : ∀ m ∈ made.minted, ∀ ca ∈ c.cas.values, signingCa ca = m.ca →
      (InUse codec t d.ca ca.purpose .signing ca.toCaFields ↔ Held codec
        ⟨m.ca.slug, m.cert, m.key.priv, crlNextUpdateDays⟩ d.ca) := by
    intro m hm ca hca hsame
    have hname : m.cert.subjectCn = ca.cn := (h.cns m hm).trans (by rw [← hsame]; rfl)
    have hpurpose : ca.purpose ∈ "root" :: (summary c).cas.map Ca.SigningCa.purpose :=
      List.mem_cons_of_mem _ (List.mem_map.mpr ⟨signingCa ca, List.mem_map_of_mem hca, rfl⟩)
    refine inUse_iff rfl rfl (by rw [← hsame]; rfl) (hgeneration _ hpurpose)
      ⟨_, List.mem_cons_of_mem _ (List.mem_map_of_mem hm), rfl, hname⟩ ?_ d.ca
    intro row hmem hkind hcn
    exact only_signing h (List.nodup_cons.mp hcns).2 hm hmem hkind (hcn.trans hname.symm)
  constructor
  · rintro ⟨t', ht', _, hall⟩
    have hsame : t' = t := Option.some.inj (ht'.symm.trans hdb)
    subst hsame
    intro g hg
    rcases List.mem_cons.mp hg with rfl | hg
    · exact hroot.mp (hall ("root", .root, c.root) List.mem_cons_self)
    · obtain ⟨m, hm, rfl⟩ := List.mem_map.mp hg
      have hmem : m.ca ∈ c.cas.values.map signingCa := h.cas ▸ List.mem_map_of_mem hm
      obtain ⟨ca, hca, hsame⟩ := List.mem_map.mp hmem
      exact (hissuer m hm ca hca hsame).mp
        (hall _ (List.mem_cons_of_mem _ (List.mem_map_of_mem hca)))
  · intro hheld
    refine ⟨t, hdb, hload, ?_⟩
    intro entry hentry
    rcases List.mem_cons.mp hentry with rfl | hentry
    · exact hroot.mpr (hheld _ List.mem_cons_self)
    · obtain ⟨ca, hca, rfl⟩ := List.mem_map.mp hentry
      have hmem : signingCa ca ∈ made.minted.map Minted.ca :=
        h.cas ▸ List.mem_map_of_mem hca
      obtain ⟨m, hm, hsame⟩ := List.mem_map.mp hmem
      exact (hissuer m hm ca hca hsame.symm).mpr
        (hheld _ (List.mem_cons_of_mem _ (List.mem_map_of_mem hm)))

end Complete

section Accepted

variable {oidText : String → Option String} {c : Cfg.Config}

/-- The ceremony gets what its own laws ask for. -/
theorem accepted_summary (h : c.Accepted oidText) :
    (summary c).Accepted := by
  have hcns := h.cns_nodup
  have hprefixes := h.prefixes_nodup
  have hpurposes : (c.cas.values.map fun ca => ca.purpose).Nodup := by
    have hkeys : (c.cas.values.map fun ca => ca.purpose) = c.cas.keys := by
      rw [OrderedMap.values, List.map_map]
      refine List.map_congr_left fun e he => ?_
      exact (h.cas e.1 e.2 (OrderedMap.mem_entries_iff.mp he)).1
    rw [hkeys]
    exact c.cas.sorted.nodup
  constructor
  case purposes => simpa [summary, signingCa, Function.comp_def] using hpurposes
  case notRoot =>
    intro ca hca
    obtain ⟨ca', hca', rfl⟩ := List.mem_map.mp hca
    exact (h.of_mem hca').2.notRoot
  case cns => simpa [summary, signingCa, caFields, Function.comp_def] using hcns
  case slugPrefixes => simpa [summary, signingCa, caFields, Function.comp_def] using hprefixes
  case rootSlug => exact h.root.slug
  case slugs =>
    intro ca hca
    obtain ⟨ca', hca', rfl⟩ := List.mem_map.mp hca
    exact (h.of_mem hca').2.slug

end Accepted

section Init

variable {oidText : String → Option String} {parse : String → Except Cfg.ParseError Toml.Table}
  {path : String} {file : Option String} {c : Cfg.Config} {made : Made} {outs : List Outcome}

theorem establish_complete
    (codec : Codec)
    (hn : (statements c made).length ≤ successes Outcome.ok outs) :
    establish codec c made outs =
      { foldOps (statements c made) Directory.fresh with
        ca := publishAll codec (published c made) (outs.drop (statements c made).length)
          fun _ => none } := by
  have hca := ca_statements c made (statements c made).length
  rw [List.take_length] at hca
  simp only [establish, performAll_eq, if_pos hn, List.take_of_length_le hn, hca]

/-- Where a statement is missing, nothing is published. -/
theorem establish_incomplete
    (codec : Codec)
    (hn : ¬ (statements c made).length ≤ successes Outcome.ok outs) :
    (establish codec c made outs).ca = fun _ => none := by
  simp only [establish, performAll_eq, if_neg hn]
  exact ca_statements c made _

/-- Without the files of the root a store cannot be used. -/
theorem not_usable_of_unpublished
    {codec : Codec}
    {d : Directory}
    (hd : d.ca = fun _ => none) :
    ¬ Usable codec c d := by
  rintro ⟨t, _, _, hall⟩
  obtain ⟨row, _, _, _, hread, _⟩ := (hall _ List.mem_cons_self).cert
  simp [hd] at hread

/-- With the names announced, what is left can be used exactly when all was performed. -/
theorem accepted_cns (h : c.Accepted oidText) :
    (c.root.cn :: c.cas.values.map fun ca => ca.cn).Nodup := by
  simpa [summary, signingCa, caFields, Function.comp_def] using (accepted_summary h).cns

theorem accepted_purposes (h : c.Accepted oidText) :
    ("root" :: (summary c).cas.map Ca.SigningCa.purpose).Nodup := by
  have hsummary := accepted_summary h
  refine List.nodup_cons.mpr ⟨?_, hsummary.purposes⟩
  intro hmem
  obtain ⟨ca, hca, heq⟩ := List.mem_map.mp hmem
  exact hsummary.notRoot ca hca heq

/-- All statements performed, whatever becomes of the files. -/
theorem establish_at
    (haccepted : c.Accepted oidText)
    (codec : Codec)
    (hfor : made.For c)
    (hn : (statements c made).length ≤ successes Outcome.ok outs) :
    At (establish codec c made outs) (some (lockedGlobal c))
      (some (c.cas.values.map lockPurpose)) (some (caRows made))
      (some (firstRows (summary c))) := by
  obtain ⟨certs, hdb⟩ := at_statements hfor (accepted_cns haccepted) (accepted_purposes haccepted)
  rw [establish_complete codec hn]
  exact ⟨certs, hdb⟩

/-- The index and the generations are then those of `create`. -/
theorem establish_create
    {root : Draw}
    {draw : String → Draw}
    {tokens : String → List TokenObject}
    {now : Nat}
    (haccepted : c.Accepted oidText)
    (codec : Codec)
    (hmake : make (summary c) root draw tokens now = some made)
    (hn : (statements c made).length ≤ successes Outcome.ok outs) :
    ∃ s t,
      create (summary c) root ((summary c).cas.map fun ca => draw ca.purpose) tokens now = some s ∧
      (establish codec c made outs).db = some t ∧
      t.certIndex = some s.db.certIndex ∧ t.caIndex = some s.db.caIndex := by
  obtain ⟨s, hcreate, hindex, hgenerations⟩ := create_of_make (accepted_summary haccepted) hmake
  obtain ⟨certs, hdb⟩ := establish_at haccepted codec (make_for hmake) hn
  exact ⟨s, _, hcreate, hdb, congrArg some hindex.symm, congrArg some hgenerations.symm⟩

theorem establish_usable_iff
    (hoid : Cfg.DottedDecimal oidText)
    (haccepted : c.Accepted oidText)
    (codec : Codec)
    (hfor : made.For c)
    (hcas : c.cas.values ≠ []) :
    Usable codec c (establish codec c made outs) ↔
      (statements c made).length ≤ successes Outcome.ok outs ∧
        AllDelivered codec (published c made) (outs.drop (statements c made).length) := by
  have hsummary := accepted_summary haccepted
  have hslugs : ((published c made).map Publishing.slug).Nodup := by
    have hnodup := hsummary.slugs_nodup
    simp only [summary, signingCa, caFields, List.map_map, Function.comp_def] at hnodup
    simpa [published, Function.comp_def, hfor.map_slugs] using hnodup
  by_cases hn : (statements c made).length ≤ successes Outcome.ok outs
  · have hat := establish_at haccepted codec hfor hn
    rw [usable_iff hoid haccepted codec hfor (accepted_cns haccepted) hcas hat,
      establish_complete codec hn,
      publishAll_held hslugs fun _ _ => ⟨rfl, rfl⟩]
    simp [hn]
  · have hunusable : ¬ Usable codec c (establish codec c made outs) :=
      not_usable_of_unpublished (establish_incomplete codec hn)
    simp [hunusable, hn]

/-- **An interrupted ceremony.**  What `init` leaves is not taken for initialised or can be
used, exactly when this holds: should the names that `is_initialized` goes by have their
rows, then all the statements are performed and all the files are delivered. -/
theorem init_safe_iff
    (hoid : Cfg.DottedDecimal oidText)
    (hload : Cfg.load oidText parse path file = .ok c)
    (codec : Codec)
    (root : Draw)
    (draw : String → Draw)
    (tokens : String → List TokenObject)
    (now : Nat)
    (outs : List Outcome) :
    isInitialized (init codec c root draw tokens now outs) = false ∨
        Usable codec c (init codec c root draw tokens now outs) ↔
      ∀ made, make (summary c) root draw tokens now = some made →
        (beforeIndex c made).length < successes Outcome.ok outs →
        Announced c (successes Outcome.ok outs - (beforeIndex c made).length - 1) →
        (statements c made).length ≤ successes Outcome.ok outs ∧
          AllDelivered codec (published c made) (outs.drop (statements c made).length) := by
  have haccepted := Cfg.load_accepted hload
  unfold init
  cases hmake : make (summary c) root draw tokens now with
  | none =>
      simp [isInitialized, Directory.fresh]
  | some made =>
      have hfor := make_for hmake
      have hcns := accepted_cns haccepted
      simp only [Option.some.injEq, forall_eq']
      by_cases hlt : (beforeIndex c made).length < successes Outcome.ok outs
      · have hinitialized := isInitialized_of_lt codec haccepted.root.cn hfor hcns hlt
        by_cases hannounced :
            Announced c (successes Outcome.ok outs - (beforeIndex c made).length - 1)
        · rw [hinitialized.mpr hannounced,
            establish_usable_iff hoid haccepted codec hfor hannounced.2.1]
          simp [hlt, hannounced]
        · have hnot : isInitialized (establish codec c made outs) = false := by
            rw [← Bool.not_eq_true, hinitialized]
            exact hannounced
          simp [hnot, hannounced]
      · simp [isInitialized_of_le codec (Nat.le_of_not_lt hlt), hlt]

/-- The configuration of the sample file. -/
def cutConfig : Cfg.Config where
  pki := ⟨"Example Ltd", "CA", "pki.example.ca:8080"⟩
  pkcs11 := ⟨"", ""⟩
  root :=
    ⟨"Example Root", "secp384r1", "SHA-384", 7300, "root-r", "root-r1", "internal", ""⟩
  cas :=
    OrderedMap.ofEntries
      [ ("tls",
          { cn := "Example TLS"
            curve := "secp256r1"
            digest := "SHA-256"
            validDays := 1825
            slugPrefix := "tls-e"
            slug := "tls-e1"
            keyBackend := "internal"
            tokenLabel := ""
            purpose := "tls"
            profiles := ["server", "client"]
            eeCurve := "secp256r1"
            eeDigest := "SHA-256"
            eeValidDays := 90
            simpleDn := false
            permittedDns := ["example.ca"]
            permittedEmail := []
            policies := OrderedMap.ofEntries [("server", ["1.3.6.1"])] }) ]
  unknown := []

theorem cutConfig_eq : Cfg.sampleConfig "Example Ltd" = cutConfig := by
  decide

/-- The power fails once the rows of both CAs are in the index. -/
def cutOutcomes : List Outcome :=
  List.replicate 34 ⟨true, ⟨true, true, 64, true, true⟩, 1000⟩

/-- Its certificates. -/
def cutMade : Made where
  rootCert := anchor (summary cutConfig) ⟨1, 1⟩ [0x41] 1000
  rootKey := ⟨1, 1⟩
  minted :=
    (summary cutConfig).cas.map fun ca =>
      ⟨ca, ⟨2, 2⟩, firstCert ca (anchor (summary cutConfig) ⟨1, 1⟩ [0x41] 1000) ⟨1, 1⟩ ⟨2, 2⟩
        [0x42] 1000⟩

/-- The CAs of that ceremony. -/
def cutPublished : List Publishing :=
  published cutConfig cutMade

/-- Texts for the certificates and lists of that ceremony, which alone are read back, and
whole. -/
def sampleCodec : Codec where
  pem cert := cert.serial ++ [0x2D]
  der cert := cert.serial
  crl list := [UInt8.ofNat list.aki, 0x2E]
  readPem text :=
    (cutPublished.map Publishing.cert).find? fun cert => cert.serial ++ [0x2D] == text
  readCrl text :=
    (cutPublished.map fun g => g.emptyCrl 1000).find? fun list =>
      [UInt8.ofNat list.aki, 0x2E] == text

theorem make_cut :
    make (summary cutConfig) ⟨1, [0x41]⟩ (fun _ => ⟨2, [0x42]⟩) (fun _ => []) 1000 =
      some cutMade :=
  rfl

/-- What the ceremony then leaves. -/
def cutStore : Directory :=
  init sampleCodec cutConfig ⟨1, [0x41]⟩ (fun _ => ⟨2, [0x42]⟩) (fun _ => []) 1000 cutOutcomes

theorem init_of_make_cut (outs : List Outcome) :
    init sampleCodec cutConfig ⟨1, [0x41]⟩ (fun _ => ⟨2, [0x42]⟩) (fun _ => []) 1000 outs =
      establish sampleCodec cutConfig cutMade outs := by
  rw [init, make_cut]

/-- From the rows of both CAs on. -/
theorem isInitialized_sample
    {outs : List Outcome}
    (h : 34 ≤ successes Outcome.ok outs) :
    isInitialized
      (init sampleCodec cutConfig ⟨1, [0x41]⟩ (fun _ => ⟨2, [0x42]⟩) (fun _ => []) 1000 outs) =
        true := by
  have hbefore : (beforeIndex cutConfig cutMade).length = 32 := by decide
  rw [init_of_make_cut, isInitialized_of_lt sampleCodec (by decide) (make_for make_cut) (by decide)
    (by omega), hbefore]
  refine ⟨by decide, by decide, ?_⟩
  rw [List.take_of_length_le]
  · decide
  · have hlength : cutConfig.cas.values.length = 1 := by decide
    omega

theorem cutConfig_load :
    Cfg.load Cfg.sampleOid (Cfg.sampleParse "Example Ltd" "Example Ltd") "yca.toml"
        (some (Cfg.sampleText "Example Ltd")) = .ok cutConfig := by
  rw [← cutConfig_eq]
  exact Cfg.sample_load "Example Ltd" Cfg.sample_errors

/-- Every statement goes through, and every file is written. -/
def wholeOutcomes : List Outcome :=
  List.replicate 50 ⟨true, ⟨true, true, 64, true, true⟩, 1000⟩

/-- What the ceremony leaves then. -/
def wholeStore : Directory :=
  init sampleCodec cutConfig ⟨1, [0x41]⟩ (fun _ => ⟨2, [0x42]⟩) (fun _ => []) 1000 wholeOutcomes

/-- Both CAs of the store are in use, and it has the index and the generations of `create`. -/
theorem init_safe_sample :
    isInitialized wholeStore = true ∧ Usable sampleCodec cutConfig wholeStore ∧
      ∃ s t,
        create (summary cutConfig) ⟨1, [0x41]⟩ [⟨2, [0x42]⟩] (fun _ => []) 1000 = some s ∧
        wholeStore.db = some t ∧
        t.certIndex = some s.db.certIndex ∧ t.caIndex = some s.db.caIndex := by
  have hlength : (statements cutConfig cutMade).length = 44 := by decide
  have hsuccesses : successes Outcome.ok wholeOutcomes = 50 := by decide
  have hinitialized : isInitialized wholeStore = true := isInitialized_sample (by omega)
  have hsafe : isInitialized wholeStore = false ∨ Usable sampleCodec cutConfig wholeStore := by
    refine (init_safe_iff Cfg.sampleOid_dotted cutConfig_load sampleCodec ⟨1, [0x41]⟩
      (fun _ => ⟨2, [0x42]⟩) (fun _ => []) 1000 wholeOutcomes).mpr ?_
    intro made hmade _ _
    obtain rfl := Option.some.inj (make_cut.symm.trans hmade)
    rw [hlength, hsuccesses]
    refine ⟨by decide, ⟨rfl, by decide, rfl, rfl, _, rfl, by decide⟩,
      ⟨rfl, by decide, rfl, rfl, _, rfl, by decide⟩, trivial⟩
  refine ⟨hinitialized, hsafe.resolve_left ?_, ?_⟩
  · rw [hinitialized]
    simp
  · have hdraws : ((summary cutConfig).cas.map fun _ => (⟨2, [0x42]⟩ : Draw)) = [⟨2, [0x42]⟩] := rfl
    have hcreated := establish_create (Cfg.load_accepted cutConfig_load) sampleCodec make_cut
      (hlength.trans_le (by omega : 44 ≤ successes Outcome.ok wholeOutcomes))
    rw [hdraws] at hcreated
    rw [wholeStore, init_of_make_cut]
    exact hcreated

/-- `init` refuses the store, which has no file of any CA. -/
theorem init_cut_short :
    Cfg.load Cfg.sampleOid (Cfg.sampleParse "Example Ltd" "Example Ltd") "yca.toml"
        (some (Cfg.sampleText "Example Ltd")) = .ok cutConfig ∧
      isInitialized cutStore = true ∧
      ¬ Usable sampleCodec cutConfig cutStore := by
  refine ⟨cutConfig_load, isInitialized_sample (by decide), ?_⟩
  exact not_usable_of_unpublished rfl

end Init

end Bridge
end Yca
