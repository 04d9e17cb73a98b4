import Yca.Bridge.LeafContents
import Yca.Ca.Index
import Yca.Core.Files

/-!
# Delivering a leaf

`issue_ee` commits the row of a new leaf first and writes `ee/<slug>.crt` and
`ee/<slug>.key` afterwards.  Up to `COMMIT` whatever fails leaves the database as it
was.  After it, a failed write is warned about and the call still returns true.

So a call does what it reports exactly when no leaf is committed, `ee/` could not be
created, or both files hold their whole text.
-/

namespace Yca
namespace Bridge

open Yca.Core Ca
open Acme (asciiLower)
open Cfg (findProfile)

section Calls

/-- How a call ends. -/
inductive Ended
  | returned (ok : Bool)
  | threw
  deriving DecidableEq

/-- Goes on with what was found, and returns false where nothing was. -/
def found {α : Type} : Option α → Except Ended α
  | none => .error (.returned false)
  | some a => .ok a

/-- Goes on when the check holds, and returns false otherwise. -/
def need (holds : Bool) : Except Ended Unit :=
  if holds then .ok () else .error (.returned false)

/-- Goes on with the result of an operation; its failure is an exception. -/
def attempt {α : Type} : Option α → Except Ended α
  | none => .error .threw
  | some a => .ok a

/-- An operation without a result. -/
def perform (succeeds : Bool) : Except Ended Unit :=
  if succeeds then .ok () else .error .threw

@[simp] theorem found_eq_ok {α : Type} {x : Option α} {a : α} :
    found x = .ok a ↔ x = some a := by
  cases x <;> simp [found]

@[simp] theorem need_eq_ok {holds : Bool} {u : Unit} :
    need holds = .ok u ↔ holds = true := by
  cases holds <;> simp [need]

@[simp] theorem attempt_eq_ok {α : Type} {x : Option α} {a : α} :
    attempt x = .ok a ↔ x = some a := by
  cases x <;> simp [attempt]

@[simp] theorem perform_eq_ok {succeeds : Bool} {u : Unit} :
    perform succeeds = .ok u ↔ succeeds = true := by
  cases succeeds <;> simp [perform]

theorem bind_eq_ok
    {α β : Type}
    {x : Except Ended α}
    {f : α → Except Ended β}
    {b : β} :
    (x >>= f) = .ok b ↔ ∃ a, x = .ok a ∧ f a = .ok b := by
  cases x with
  | error e => simp [bind, Except.bind]
  | ok a => simp [bind, Except.bind]

/-- What ends early does not return true. -/
def Quits {α : Type} (x : Except Ended α) : Prop :=
  ∀ e, x = .error e → e ≠ .returned true

theorem quits_found {α : Type} (x : Option α) : Quits (found x) := by
  cases x <;> simp [Quits, found]

theorem quits_need (holds : Bool) : Quits (need holds) := by
  cases holds <;> simp [Quits, need]

theorem quits_attempt {α : Type} (x : Option α) : Quits (attempt x) := by
  cases x <;> simp [Quits, attempt]

theorem quits_perform (succeeds : Bool) : Quits (perform succeeds) := by
  cases succeeds <;> simp [Quits, perform]

theorem quits_pure {α : Type} (a : α) : Quits (pure a : Except Ended α) := by
  intro e h
  simp [pure, Except.pure] at h

theorem Quits.bind
    {α β : Type}
    {x : Except Ended α}
    {f : α → Except Ended β}
    (hx : Quits x)
    (hf : ∀ a, Quits (f a)) :
    Quits (x >>= f) := by
  intro e h
  cases x with
  | error e' =>
      have hsame : e' = e := by simpa [Bind.bind, Except.bind] using h
      exact hsame ▸ hx e' rfl
  | ok a => exact hf a e (by simpa [Bind.bind, Except.bind] using h)

end Calls

section Issue

/-- `util::slug`. -/
def slug (name : String) : String :=
  String.ofList (name.toList.map fun c => if c = ' ' then '-' else asciiLower c)

/-- The names of the files under `ee/`. -/
def crtFile (cn : String) : String :=
  slug cn ++ ".crt"

def keyFile (cn : String) : String :=
  slug cn ++ ".key"

/-- The temporary sibling `write_file` uses. -/
def temporary (path : String) : String :=
  path ++ ".tmp"

/-- The PEM encodings of a certificate and of a private key. -/
structure Encodings where
  cert : Cert → List UInt8
  key : Key → List UInt8

/-- What `issue_ee` changes: the database, and the files under `ee/`. -/
structure Shelf where
  db : Db
  files : Files String UInt8

/-- How the operations of `issue_ee` turn out.  Of an optional result, `none` is an
exception.  What is read before the write lock is read from a database of its own:
other processes write too. -/
structure Outcomes where
  storeExists : Option Bool
  opened : Bool
  /-- The database `active_ca` reads. -/
  generations : Option Db
  /-- What `load_ca_cert` finds. -/
  signCert : Option (Option Cert)
  outlivesAt : Nat
  /-- The database and the time of the first duplicate check. -/
  early : Option (Db × Nat)
  /-- What `ca_key` finds; its exceptions are caught. -/
  signKey : Option Key
  begun : Bool
  /-- The time of the duplicate check under the write lock. -/
  late : Option Nat
  generated : Option Key
  /-- The serial and the time of the new certificate. -/
  made : Option (List UInt8 × Nat)
  inserted : Bool
  indexed : Bool
  committed : Bool
  /-- `create_directories`. -/
  directory : Bool
  crt : Replacement
  key : Replacement

/-- The loop that fills the subjectAltName: an address that does not parse is
refused, and Botan throws on a name it does not take. -/
def fillSans (lib : Parsers) : AlternativeName → List San → Except Ended AlternativeName
  | an, [] => .ok an
  | an, s :: rest =>
      match s.entry with
      | none => .error (.returned false)
      | some e =>
          match addEntry lib an e with
          | none => .error .threw
          | some an => fillSans lib an rest

/-- What was committed. -/
structure Issued where
  profile : Profile
  ca : SigningCa
  validity : Nat
  /-- The generation that signed. -/
  sign : CaGen
  signCert : Cert
  names : AlternativeName
  cert : Cert

/-- The certificate of a fresh key. -/
def leafOf
    (cn : String)
    (validity : Nat)
    (signCert : Cert)
    (signKey key : Key)
    (serial : List UInt8)
    (now : Nat) : Cert where
  serial := serial
  subjectCn := cn
  issuerCn := signCert.subjectCn
  notBefore := now
  notAfter := now + validity
  ski := key
  aki := signCert.ski
  publicKey := key
  signedBy := signKey

/-- `issue_ee` up to and including `commit_write`. -/
def ready
    (lib : Parsers)
    (config : Config)
    (secrets : CaSpec → String)
    (name cn : String)
    (extra : List San)
    (valid : Option Nat)
    (o : Outcomes)
    (db : Db) : Except Ended Issued := do
  let profile ← found (findProfile name)
  need (!profile.csrOnly)
  let ca ← found (config.caForProfile profile)
  let validity ← found (leafValidity ca valid)
  let first ← found (issueSubject profile cn extra)
  need ((first ++ extra).all San.valid)
  need (!decide (((first ++ extra).countP fun s => s.type == .uri) > 1))
  let exists_ ← attempt o.storeExists
  need exists_
  need (secrets (specOf ca) != "")
  perform o.opened
  let sign ← attempt (o.generations.map fun db => activeCa db config ca.purpose)
  let pem ← attempt o.signCert
  let signCert ← found pem
  need (!outlivesIssuer signCert validity o.outlivesAt)
  let early ← attempt o.early
  need (!blockingDuplicate early.1 cn (.ee profile) early.2)
  let signKey ← found o.signKey
  perform o.begun
  let late ← attempt o.late
  need (!blockingDuplicate db cn (.ee profile) late)
  let key ← attempt o.generated
  let names ← fillSans lib ∅ (first ++ extra)
  let made ← attempt o.made
  perform o.inserted
  perform o.indexed
  perform o.committed
  return ⟨profile, ca, validity, sign, signCert, names,
    leafOf cn validity signCert signKey key made.1 made.2⟩

/-- Every check passes, and every operation up to `commit_write` succeeds. -/
structure Passed
    (lib : Parsers)
    (config : Config)
    (secrets : CaSpec → String)
    (name cn : String)
    (extra : List San)
    (valid : Option Nat)
    (o : Outcomes)
    (db : Db)
    (i : Issued) : Prop where
  profile : findProfile name = some i.profile
  csrOnly : i.profile.csrOnly = false
  ca : config.caForProfile i.profile = some i.ca
  validity : leafValidity i.ca valid = some i.validity
  subject : ∃ first, issueSubject i.profile cn extra = some first ∧
    (first ++ extra).all San.valid = true ∧
    ((first ++ extra).countP fun s => s.type == .uri) ≤ 1 ∧
    fillSans lib ∅ (first ++ extra) = .ok i.names
  storeExists : o.storeExists = some true
  secret : secrets (specOf i.ca) ≠ ""
  opened : o.opened = true
  sign : o.generations.map (fun db => activeCa db config i.ca.purpose) = some i.sign
  signCert : o.signCert = some (some i.signCert)
  outlives : outlivesIssuer i.signCert i.validity o.outlivesAt = false
  early : ∃ seen, o.early = some seen ∧
    blockingDuplicate seen.1 cn (.ee i.profile) seen.2 = false
  begun : o.begun = true
  late : ∃ now, o.late = some now ∧ blockingDuplicate db cn (.ee i.profile) now = false
  made : ∃ signKey key made, o.signKey = some signKey ∧ o.generated = some key ∧
    o.made = some made ∧ i.cert = leafOf cn i.validity i.signCert signKey key made.1 made.2
  inserted : o.inserted = true
  indexed : o.indexed = true
  committed : o.committed = true

/-- `issue_ee`. -/
def issueEe
    (lib : Parsers)
    (enc : Encodings)
    (config : Config)
    (secrets : CaSpec → String)
    (name cn : String)
    (extra : List San)
    (valid : Option Nat)
    (o : Outcomes)
    (before : Shelf) : Ended × Shelf :=
  match ready lib config secrets name cn extra valid o before.db with
  | .error e => (e, before)
  | .ok i =>
      let db :=
        { before.db with
          certificates := insertCert before.db.certificates i.cert
          certIndex := indexCert before.db.certIndex i.cert (.ee i.profile) i.sign.purpose }
      if !o.directory then (.threw, { before with db := db })
      else
        let crt := o.crt.replace (temporary (crtFile cn)) (crtFile cn) (enc.cert i.cert) before.files
        let key := o.key.replace (temporary (keyFile cn)) (keyFile cn) (enc.key i.cert.publicKey)
          crt.1
        -- a file that is not written is only warned about
        (.returned true, ⟨db, key.1⟩)

end Issue

section Outcome

variable {lib : Parsers} {enc : Encodings} {config : Config} {secrets : CaSpec → String}
  {name cn : String} {extra : List San} {valid : Option Nat} {o : Outcomes}

theorem ready_eq_ok_iff {db : Db} {i : Issued} :
    ready lib config secrets name cn extra valid o db = .ok i ↔
      Passed lib config secrets name cn extra valid o db i := by
  simp only [ready, bind_eq_ok, found_eq_ok, need_eq_ok, attempt_eq_ok, perform_eq_ok]
  constructor
  · intro h
    obtain ⟨profile, hprofile, _, hcsr, ca, hca, validity, hvalidity, first, hfirst, h⟩ := h
    obtain ⟨_, hall, _, huri, _, hexists, _, hstore, _, hsecret, _, hopened, h⟩ := h
    obtain ⟨sign, hsign, _, hpem, signCert, hcert, _, houtlives, early, hearly, h⟩ := h
    obtain ⟨_, hfree, signKey, hsignKey, _, hbegun, now, hnow, _, hstill, key, hkey, h⟩ := h
    obtain ⟨names, hnames, made, hmade, _, hinserted, _, hindexed, _, hcommitted, hi⟩ := h
    subst hstore hcert
    cases hi
    constructor
    case profile => exact hprofile
    case csrOnly => simpa using hcsr
    case ca => exact hca
    case validity => exact hvalidity
    case subject => exact ⟨first, hfirst, hall, by simpa using huri, hnames⟩
    case storeExists => exact hexists
    case secret => simpa using hsecret
    case opened => exact hopened
    case sign => exact hsign
    case signCert => exact hpem
    case outlives => simpa using houtlives
    case early => exact ⟨early, hearly, by simpa using hfree⟩
    case begun => exact hbegun
    case late => exact ⟨now, hnow, by simpa using hstill⟩
    case made => exact ⟨signKey, key, made, hsignKey, hkey, hmade, rfl⟩
    case inserted => exact hinserted
    case indexed => exact hindexed
    case committed => exact hcommitted
  · intro h
    obtain ⟨first, hfirst, hall, huri, hnames⟩ := h.subject
    obtain ⟨early, hearly, hfree⟩ := h.early
    obtain ⟨now, hnow, hstill⟩ := h.late
    obtain ⟨signKey, key, made, hsignKey, hkey, hmade, hcert⟩ := h.made
    refine ⟨i.profile, h.profile, (), by simp [h.csrOnly], i.ca, h.ca, i.validity, h.validity,
      first, hfirst, (), hall, (), by simpa using huri, true, h.storeExists, (), rfl, (),
      by simpa using h.secret, (), h.opened, i.sign, h.sign, some i.signCert, h.signCert,
      i.signCert, rfl, (), by simp [h.outlives], early, hearly, (), by simp [hfree], signKey,
      hsignKey, (), h.begun, now, hnow, (), by simp [hstill], key, hkey, i.names, hnames, made,
      hmade, (), h.inserted, (), h.indexed, (), h.committed, ?_⟩
    rw [← hcert]
    rfl

theorem quits_fillSans (an : AlternativeName) (sans : List San) :
    Quits (fillSans lib an sans) := by
  induction sans generalizing an with
  | nil => exact quits_pure an
  | cons s rest ih =>
      unfold fillSans
      split
      · simp [Quits]
      · split
        · simp [Quits]
        · exact ih _

/-- Where it ends early, `issue_ee` does not return true. -/
theorem quits_ready {db : Db} :
    Quits (ready lib config secrets name cn extra valid o db) := by
  unfold ready
  repeat'
    first
    | exact quits_pure _
    | refine Quits.bind ?_ fun _ => ?_
    | apply quits_found
    | apply quits_need
    | apply quits_attempt
    | apply quits_perform
    | apply quits_fillSans

/-- The last row of an index names the certificate it was written for. -/
theorem indexCert_inj
    {rows : List CertRow}
    {c c' : Cert}
    {kind kind' : Kind}
    {purpose purpose' : String}
    (h : indexCert rows c kind purpose = indexCert rows c' kind' purpose') :
    c = c' := by
  obtain ⟨_, hlast⟩ := List.append_singleton_inj.mp h
  exact congrArg CertRow.fingerprint hlast

end Outcome

section Files

variable (cn : String)

theorem crtFile_ne_keyFile : crtFile cn ≠ keyFile cn := by
  intro h
  have hlist := congrArg String.toList h
  simp [crtFile, keyFile] at hlist

/-- A text with another ending of the same length is no temporary file. -/
theorem append_ne_temporary
    {stem suffix : String}
    (hlength : suffix.toList.length = 4)
    (hne : suffix.toList ≠ ".tmp".toList)
    (other : String) :
    stem ++ suffix ≠ temporary other := by
  intro h
  have hlist := congrArg String.toList h
  rw [temporary, String.toList_append, String.toList_append] at hlist
  exact hne (List.append_inj' hlist (hlength.trans (by decide))).2

theorem crtFile_ne_temporary (other : String) : crtFile cn ≠ temporary other :=
  append_ne_temporary (by decide) (by decide) other

theorem keyFile_ne_temporary (other : String) : keyFile cn ≠ temporary other :=
  append_ne_temporary (by decide) (by decide) other

end Files

section Delivery

variable {lib : Parsers} {enc : Encodings} {config : Config} {secrets : CaSpec → String}
  {name cn : String} {extra : List San} {valid : Option Nat} {o : Outcomes} {before : Shelf}

/-- What a call reports is so: true, and the files hold the certificate of the new row
and its key; false, and there is no new row. -/
structure Delivered (enc : Encodings) (cn : String) (before : Shelf) (r : Ended × Shelf) : Prop where
  success : r.1 = .returned true → ∃ cert kind purpose,
    r.2.db.certIndex = indexCert before.db.certIndex cert kind purpose ∧
    r.2.files (crtFile cn) = some (enc.cert cert) ∧
    r.2.files (keyFile cn) = some (enc.key cert.publicKey)
  failure : r.1 = .returned false → r.2.db.certIndex = before.db.certIndex

/-- Before `COMMIT` a call that ends leaves everything as it was. -/
theorem issueEe_of_not_passed
    (enc : Encodings)
    (h : ∀ i, ¬ Passed lib config secrets name cn extra valid o before.db i) :
    (issueEe lib enc config secrets name cn extra valid o before).2 = before ∧
      (issueEe lib enc config secrets name cn extra valid o before).1 ≠ .returned true := by
  unfold issueEe
  cases hready : ready lib config secrets name cn extra valid o before.db with
  | error e => exact ⟨rfl, quits_ready e hready⟩
  | ok i => exact absurd (ready_eq_ok_iff.mp hready) (h i)

section Passed

variable {i : Issued}

/-- After `COMMIT` the row is there. -/
theorem issueEe_certIndex
    (h : Passed lib config secrets name cn extra valid o before.db i) :
    (issueEe lib enc config secrets name cn extra valid o before).2.db.certIndex =
      indexCert before.db.certIndex i.cert (.ee i.profile) i.sign.purpose := by
  simp only [issueEe, ready_eq_ok_iff.mpr h]
  cases o.directory <;> rfl

/-- After `COMMIT` the call returns true, unless `ee/` cannot be created. -/
theorem issueEe_fst
    (h : Passed lib config secrets name cn extra valid o before.db i) :
    (issueEe lib enc config secrets name cn extra valid o before).1 =
      if o.directory then .returned true else .threw := by
  simp only [issueEe, ready_eq_ok_iff.mpr h]
  cases o.directory <;> rfl

theorem issueEe_crtFile
    (h : Passed lib config secrets name cn extra valid o before.db i)
    (hdirectory : o.directory = true) :
    (issueEe lib enc config secrets name cn extra valid o before).2.files (crtFile cn) =
        some (enc.cert i.cert) ↔
      o.crt.Delivers (before.files (crtFile cn)) (enc.cert i.cert) := by
  simp only [issueEe, ready_eq_ok_iff.mpr h, hdirectory, Bool.not_true, Bool.false_eq_true,
    if_false]
  rw [Replacement.replace_other (crtFile_ne_keyFile cn) (crtFile_ne_temporary cn _)]
  exact Replacement.replace_path_iff (crtFile_ne_temporary cn _)

theorem issueEe_keyFile
    (h : Passed lib config secrets name cn extra valid o before.db i)
    (hdirectory : o.directory = true) :
    (issueEe lib enc config secrets name cn extra valid o before).2.files (keyFile cn) =
        some (enc.key i.cert.publicKey) ↔
      o.key.Delivers (before.files (keyFile cn)) (enc.key i.cert.publicKey) := by
  simp only [issueEe, ready_eq_ok_iff.mpr h, hdirectory, Bool.not_true, Bool.false_eq_true,
    if_false]
  rw [Replacement.replace_path_iff (keyFile_ne_temporary cn _),
    Replacement.replace_other (crtFile_ne_keyFile cn).symm (keyFile_ne_temporary cn _)]

end Passed

/-- A call does what it reports exactly when, should its leaf be committed and `ee/` be
there, both files are delivered. -/
theorem leaf_delivered_iff
    (lib : Parsers)
    (enc : Encodings)
    (config : Config)
    (secrets : CaSpec → String)
    (name cn : String)
    (extra : List San)
    (valid : Option Nat)
    (o : Outcomes)
    (before : Shelf) :
    Delivered enc cn before (issueEe lib enc config secrets name cn extra valid o before) ↔
      ∀ i, Passed lib config secrets name cn extra valid o before.db i →
        o.directory = true →
        o.crt.Delivers (before.files (crtFile cn)) (enc.cert i.cert) ∧
          o.key.Delivers (before.files (keyFile cn)) (enc.key i.cert.publicKey) := by
  constructor
  · intro h i hi hdirectory
    have hreturns : (issueEe lib enc config secrets name cn extra valid o before).1 =
        .returned true := by
      rw [issueEe_fst hi, hdirectory, if_pos rfl]
    obtain ⟨cert, kind, purpose, hindex, hcrt, hkey⟩ := h.success hreturns
    rw [issueEe_certIndex hi] at hindex
    have hsame := indexCert_inj hindex
    subst hsame
    exact ⟨(issueEe_crtFile hi hdirectory).mp hcrt, (issueEe_keyFile hi hdirectory).mp hkey⟩
  · intro h
    by_cases hpassed : ∃ i, Passed lib config secrets name cn extra valid o before.db i
    · obtain ⟨i, hi⟩ := hpassed
      constructor
      · intro hreturns
        have hdirectory : o.directory = true := by
          rw [issueEe_fst hi] at hreturns
          cases hdirectory : o.directory <;> simp [hdirectory] at hreturns ⊢
        obtain ⟨hcrt, hkey⟩ := h i hi hdirectory
        exact ⟨i.cert, _, _, issueEe_certIndex hi, (issueEe_crtFile hi hdirectory).mpr hcrt,
          (issueEe_keyFile hi hdirectory).mpr hkey⟩
      · intro hreturns
        rw [issueEe_fst hi] at hreturns
        cases hdirectory : o.directory <;> simp [hdirectory] at hreturns
    · obtain ⟨hsame, hquits⟩ := issueEe_of_not_passed enc (not_exists.mp hpassed)
      constructor
      · intro hreturns
        exact absurd hreturns hquits
      · intro _
        rw [hsame]

/-- The key of `a.ca` cannot be written, everything else succeeds. -/
def keylessOutcomes : Outcomes where
  storeExists := some true
  opened := true
  generations := some sampleStore.db
  signCert := some (sampleStore.pem "ca-e1")
  outlivesAt := 1000
  early := some (sampleStore.db, 1000)
  signKey := some 2
  begun := true
  late := some 1000
  generated := some 4
  made := some ([0x44], 1000)
  inserted := true
  indexed := true
  committed := true
  directory := true
  crt := ⟨true, true, 64, true, true⟩
  key := ⟨true, false, 0, false, true⟩

/-- What `create -p server a.ca` then does. -/
def keylessIssue : Ended × Shelf :=
  issueEe ⟨some, some⟩ ⟨fun c => c.serial, fun k => [UInt8.ofNat k]⟩ sampleConfig
    (fun _ => "secret") "server" "a.ca" [] none keylessOutcomes ⟨sampleStore.db, fun _ => none⟩

/-- Success is reported, the key is lost, and the leaf stands in the way of another. -/
theorem leaf_without_key :
    ¬ Delivered ⟨fun c => c.serial, fun k => [UInt8.ofNat k]⟩ "a.ca"
        ⟨sampleStore.db, fun _ => none⟩ keylessIssue ∧
      keylessIssue.1 = .returned true ∧
      keylessIssue.2.files (keyFile "a.ca") = none ∧
      blockingDuplicate keylessIssue.2.db "a.ca" (.ee .server) 1000 = true := by
  have hreturns : keylessIssue.1 = .returned true := by decide
  have hlost : keylessIssue.2.files (keyFile "a.ca") = none := by decide
  refine ⟨?_, hreturns, hlost, by decide⟩
  intro h
  obtain ⟨_, _, _, _, _, hkey⟩ := h.success hreturns
  simp [hlost] at hkey

end Delivery

end Bridge
end Yca
