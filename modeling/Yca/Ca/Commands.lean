import Yca.Ca.Store

/-!
# The commands of the CA

The commands of `src/ca.cpp` that write the store, each as the script of its
accesses to it: one step is one query, one file read or write, one key lookup,
one reading of the clock, or one of `BEGIN IMMEDIATE` and `COMMIT`.  Between
`begin_write` and `COMMIT` the statements change nothing that other processes
see; the transaction takes effect in the commit step.

A call that fails ends its command, as does an exception: both close the
connection, and are the crash of the process.  So are refusals that depend on
the arguments or secrets alone.  A file write is one step, since `write_file`
renames a finished file into place.
-/

namespace Yca
namespace Ca

open Yca.Core

/-- What the state does not determine: whether a write succeeds, and what is
drawn at random. -/
structure Choice where
  ok : Bool
  serial : List UInt8
  key : Key
  nonce : String
  deriving DecidableEq

/-- What is left of a command. -/
abbrev Command : Type :=
  Script Store Choice Event

section Steps

/-- A step that only reads. -/
def look (next : Choice → Store → Command) : Command :=
  .step (fun _ _ => true) (fun _ _ => .quiet) next

/-- `begin_write`: waits for the write lock. -/
def beginWrite (next : Command) : Command :=
  .step (fun _ s => s.lock.isNone) (fun _ _ => .begin) (fun _ _ => next)

/-- Returning with the transaction open. -/
def abort : Command :=
  .step (fun _ _ => true) (fun _ _ => .rollback) (fun _ _ => .halt)

/-- The statements of the transaction and `commit_write`. -/
def commitWrite (tx : Store → Tx) : Command :=
  .step (fun _ _ => true)
    (fun _ s => if ((tx s).run s.db).isSome then .commit (tx s) else .rollback)
    (fun _ _ => .halt)

/-- A step that goes on with what it found, if anything. -/
def emitting {α : Type}
    (found : Choice → Store → Option α)
    (event : α → Event)
    (next : α → Command) : Command :=
  .step (fun k s => (found k s).isSome)
    (fun k s => ((found k s).map event).getD .quiet)
    (fun k s => ((found k s).map next).getD .halt)

/-- `ca_key`: a CA's private key, from the store or from its token. -/
def caKey (cert : Cert) (spec : CaSpec) (slug : String) (next : KeyPair → Command) : Command :=
  emitting
    (fun _ s =>
      match spec.keyBackend with
      | .internal => (findKey s.db cert).map fun key => ⟨key, key⟩
      | .pkcs11 => (findKeypair (s.tokens spec.tokenLabel) slug spec.curve).join)
    (fun pair => .key ⟨some cert, spec, slug, pair, false⟩)
    next

/-- `token_ca_key`: adopts the key pair of that label, or generates one. -/
def tokenCaKey
    (holder : Option Cert)
    (spec : CaSpec)
    (slug : String)
    (next : KeyPair → Command) : Command :=
  emitting
    (fun k s =>
      match findKeypair (s.tokens spec.tokenLabel) slug spec.curve with
      | none => none
      | some (some pair) => some (pair, false)
      | some none => some (⟨k.key, k.key⟩, true))
    (fun found => .key ⟨holder, spec, slug, found.1, found.2⟩)
    (fun found => next found.1)

/-- `make_ca_key`. -/
def makeCaKey (spec : CaSpec) (slug : String) (next : KeyPair → Command) : Command :=
  match spec.keyBackend with
  | .pkcs11 => tokenCaKey none spec slug next
  | .internal =>
      emitting (fun k _ => some (⟨k.key, k.key⟩ : KeyPair))
        (fun pair => .key ⟨none, spec, slug, pair, true⟩) next

/-- A file of `write_ca_artifacts`. -/
def publish (slug : String) (issuer : Cert) (file : Store → Artifact) (next : Command) :
    Command :=
  .step (fun _ _ => true) (fun _ s => .publish slug issuer (file s)) (fun _ _ => next)

/-- `write_der` of a CRL under the write lock; where the source carries on after
a failed write, the step may do nothing. -/
def rewriteCrl (mayFail : Bool) (w : Store → Rewrite) (next : Command) : Command :=
  .step (fun k _ => k.ok || mayFail)
    (fun k s => if k.ok then .rewrite (w s) else .quiet)
    (fun _ _ => next)

end Steps

section Shared

/-- The loop of `ensure_ca_index` over the purposes. -/
def ensureCaIndexLoop (config : Config) (next : Command) : List String → Command
  | [] => next
  | purpose :: rest =>
      look fun _ s =>
        if s.db.caIndex.any fun r => r.purpose == purpose then
          ensureCaIndexLoop config next rest
        else
          let g := configGen config purpose
          look fun _ s =>
            if s.db.certIndex.any fun r =>
                r.cn == g.cn && (r.kind == .ca .root || r.kind == .ca .signing) then
              .step
                (fun _ s => s.lock.isNone && !s.db.hasGen purpose g.gen)
                (fun _ _ => .backfill ⟨g, kindOf purpose, .active⟩)
                (fun _ _ => ensureCaIndexLoop config next rest)
            else ensureCaIndexLoop config next rest

/-- `ensure_ca_index`. -/
def ensureCaIndex (config : Config) (next : Command) : Command :=
  ensureCaIndexLoop config next ("root" :: config.cas.map SigningCa.purpose)

/-- `cn_is_taken`: goes on when it is not. -/
def unlessCnTaken (root : CaGen) (cn : String) (next : Command) : Command :=
  if cn = root.cn then .halt
  else
    look fun _ s =>
      if (genByCn s.db .signing cn).isSome then .halt
      else
        look fun _ s =>
          if (genByCn s.db .root cn).isSome then .halt else next

/-- The CRL that follows `prev`. -/
def nextCrl
    (db : Db)
    (prev : Crl)
    (signer : Cert)
    (key : KeyPair)
    (added : Option CrlEntry)
    (horizonDays now : Nat) : Crl where
  entries := pruneCrlEntries db prev ++ added.toList
  number := prev.number + 1
  thisUpdate := now
  nextUpdate := now + crlNextUpdate signer horizonDays now
  aki := signer.ski
  signedBy := key.priv

/-- The root key for a ceremony: a token-held one is adopted or generated. -/
def ceremonyRootKey
    (config : Config)
    (rootCert : Cert)
    (slug : String)
    (next : KeyPair → Command) : Command :=
  match config.root.keyBackend with
  | .pkcs11 => tokenCaKey (some rootCert) (rootSpec config) slug next
  | .internal => caKey rootCert (rootSpec config) slug next

/-- `mint_ca_generation`. -/
def mintCaGeneration
    (config : Config)
    (ca : SigningCa)
    (root gen : CaGen)
    (next : Cert → KeyPair → Command) : Command :=
  look fun _ s =>
    match s.pem root.slug with
    | none => .halt
    | some rootCert =>
        look fun _ s =>
          if outlivesIssuer rootCert (ca.validDays * day) s.now then .halt
          else
            ceremonyRootKey config rootCert root.slug fun rootKey =>
            makeCaKey (specOf ca) gen.slug fun key =>
            look fun k s =>
              let cert : Cert :=
                { serial := k.serial
                  subjectCn := gen.cn
                  issuerCn := rootCert.subjectCn
                  notBefore := s.now
                  notAfter := s.now + ca.validDays * day
                  ski := key.pub
                  aki := rootCert.ski
                  publicKey := key.pub
                  signedBy := rootKey.priv }
              publish gen.slug rootCert (fun _ => .pem cert) <|
              publish gen.slug rootCert (fun _ => .crt cert) <|
              publish gen.slug cert
                (fun s => .crl
                  { entries := []
                    number := 1
                    thisUpdate := s.now
                    nextUpdate := s.now + crlNextUpdate cert crlNextUpdateDays s.now
                    aki := cert.ski
                    signedBy := key.priv }) <|
              next cert key

/-- The check of an enrollment nonce, when the command has one. -/
def checkNonce (enrolled : Option (String × String)) (refused next : Command) : Command :=
  match enrolled with
  | none => next
  | some (id, nonce) =>
      look fun _ s => if nonceRejected s.db id nonce s.now then refused else next

/-- The check for a blocking duplicate. -/
def checkDuplicate (cn : String) (profile : Profile) (refused next : Command) : Command :=
  look fun _ s => if blockingDuplicate s.db cn (.ee profile) s.now then refused else next

/-- What `issue_ee` and `sign_csr` have in common: everything after the names
and the validity are settled.  A signing request brings its public key and an
enrollment nonce, both checks run before the key lookup and again under the
write lock. -/
def issue
    (config : Config)
    (ca : SigningCa)
    (profile : Profile)
    (cn : String)
    (validity : Nat)
    (csrKey : Option Key)
    (enrolled : Option (String × String)) : Command :=
  look fun _ s =>
    let sign := activeCa s.db config ca.purpose
    look fun _ s =>
      match s.pem sign.slug with
      | none => .halt
      | some signCert =>
          look fun _ s =>
            if outlivesIssuer signCert validity s.now then .halt
            else
              checkNonce enrolled .halt <|
              checkDuplicate cn profile .halt <|
              caKey signCert (specOf ca) sign.slug fun key =>
              beginWrite <|
              checkNonce enrolled abort <|
              checkDuplicate cn profile abort <|
              look fun k s =>
                let pub := csrKey.getD k.key
                let cert : Cert :=
                  { serial := k.serial
                    subjectCn := cn
                    issuerCn := signCert.subjectCn
                    notBefore := s.now
                    notAfter := s.now + validity
                    ski := pub
                    aki := signCert.ski
                    publicKey := pub
                    signedBy := key.priv }
                commitWrite fun _ =>
                  .issue cert signCert profile sign.purpose (enrolled.map Prod.fst)

end Shared

section Revocation

/-- `revoke`. -/
def revoke
    (config : Config)
    (target : Profile)
    (cn serial : String)
    (reason : Reason) : Command :=
  let sel := normalizeSerial serial
  let lookup := fun s : Store =>
    if sel = "" then activeFp s.db cn (.ee target) s.now
    else activeFpBySerial s.db sel (.ee target) s.now
  look fun _ s =>
    match lookup s with
    | none => .halt
    | some firstFp =>
        look fun _ s =>
          match loadCert s.db firstFp with
          | none => .halt
          | some issuedBy =>
              look fun _ s =>
                match genByCn s.db .signing issuedBy.issuerCn with
                | none => .halt
                | some sign =>
                    match config.ca sign.purpose with
                    | none => .halt
                    | some ca =>
                        look fun _ s =>
                          match s.pem sign.slug with
                          | none => .halt
                          | some signCert =>
                              look fun _ s =>
                                if (s.crl sign.slug).isNone then .halt
                                else
                                  caKey signCert (specOf ca) sign.slug fun key =>
                                  beginWrite <|
                                  revokeLocked lookup sign signCert key reason
where
  /-- The part under the write lock. -/
  revokeLocked
      (lookup : Store → Option Cert)
      (sign : CaGen)
      (signCert : Cert)
      (key : KeyPair)
      (reason : Reason) : Command :=
    look fun _ s =>
      match s.crl sign.slug with
      | none => abort
      | some prev =>
          look fun _ s =>
            match (lookup s).bind (loadCert s.db) with
            | none => abort
            | some cert =>
                rewriteCrl false
                  (fun s =>
                    ⟨sign.slug, signCert, prev, some cert,
                      nextCrl s.db prev signCert key (some ⟨cert.serial, reason⟩)
                        crlNextUpdateDays s.now⟩) <|
                commitWrite fun s => .revoke cert reason s.now

/-- `resolve_ca_cn`. -/
def resolveCaCn
    (config : Config)
    (selector : String)
    (next : String → Command) : Command :=
  let purpose := String.ofList (selector.toList.take (selector.toList.length - 3))
  if selector = "root-ca" then
    look fun _ s => next (activeCa s.db config "root").cn
  else if "-ca".toList.isSuffixOf selector.toList && (config.ca purpose).isSome then
    look fun _ s => next (activeCa s.db config purpose).cn
  else if selector = "signing-ca" then
    match config.cas with
    | [ca] => look fun _ s => next (activeCa s.db config ca.purpose).cn
    | _ => .halt
  else next selector

/-- `revoke_ca`. -/
def revokeCa (config : Config) (selector : String) (reason : Reason) : Command :=
  ensureCaIndex config <|
  look fun _ s =>
    let root := activeCa s.db config "root"
    if selector = "root-ca" ∨ selector = root.cn then .halt
    else
      resolveCaCn config selector fun cn =>
      if cn = "" then .halt
      else
        look fun _ s =>
          match genByCn s.db .signing cn with
          | none => .halt
          | some victim =>
              look fun _ s =>
                if victim.gen = (activeCa s.db config victim.purpose).gen then .halt
                else
                  look fun _ s =>
                    match s.pem root.slug with
                    | none => .halt
                    | some rootCert =>
                        look fun _ s =>
                          match s.pem victim.slug with
                          | none => .halt
                          | some victimCert =>
                              look fun _ s =>
                                if s.db.certIndex.any fun r =>
                                    r.fingerprint == victimCert && r.status == .revoked then .halt
                                else
                                  look fun _ s =>
                                    if (s.crl root.slug).isNone then .halt
                                    else
                                      caKey rootCert (rootSpec config) root.slug fun key =>
                                      beginWrite <|
                                      revokeCaLocked root rootCert victim victimCert key reason
where
  /-- The part under the write lock. -/
  revokeCaLocked
      (root : CaGen)
      (rootCert : Cert)
      (victim : CaGen)
      (victimCert : Cert)
      (key : KeyPair)
      (reason : Reason) : Command :=
    look fun _ s =>
      match s.crl root.slug with
      | none => abort
      | some prev =>
          rewriteCrl false
            (fun s =>
              ⟨root.slug, rootCert, prev, some victimCert,
                nextCrl s.db prev rootCert key (some ⟨victimCert.serial, reason⟩)
                  rootCrlNextUpdateDays s.now⟩) <|
          commitWrite fun s => .revokeCa victim victimCert reason s.now

/-- `CrlScope`. -/
inductive CrlScope
  | root
  | signing
  | all
  deriving DecidableEq

/-- One CRL to refresh. -/
structure Job where
  ca : CaGen
  spec : CaSpec
  horizon : Nat
  cert : Cert

/-- `collect` of `refresh_crl`, over the live generations of one kind. -/
def collectJobs
    (config : Config)
    (kind : CaKind)
    (horizon now : Nat)
    (next : List Job → Command) : List CaGen → List Job → Command
  | [], jobs => next jobs
  | g :: rest, jobs =>
      match (match kind with
        | .root => some (rootSpec config)
        | .signing => (config.ca g.purpose).map specOf) with
      | none => .halt
      | some spec =>
          look fun _ s =>
            match s.pem g.slug with
            | none => .halt
            | some cert =>
                look fun _ s =>
                  if (s.crl g.slug).isNone then .halt
                  else if cert.notAfter ≤ now then
                    collectJobs config kind horizon now next rest jobs
                  else
                    collectJobs config kind horizon now next rest
                      (jobs ++ [⟨g, spec, horizon, cert⟩])

/-- The key lookups of `refresh_crl`. -/
def loadKeys (next : List (Job × KeyPair) → Command) :
    List Job → List (Job × KeyPair) → Command
  | [], keyed => next keyed
  | j :: rest, keyed =>
      caKey j.cert j.spec j.ca.slug fun key => loadKeys next rest (keyed ++ [(j, key)])

/-- The loop of `refresh_crl` under the write lock. -/
def refreshJobs (next : Command) : List (Job × KeyPair) → Command
  | [] => next
  | (j, key) :: rest =>
      look fun _ s =>
        match s.crl j.ca.slug with
        | none => abort
        | some prev =>
            rewriteCrl true
              (fun s =>
                ⟨j.ca.slug, j.cert, prev, none, nextCrl s.db prev j.cert key none j.horizon s.now⟩) <|
            refreshJobs next rest

/-- `refresh_crl`. -/
def refreshCrl (config : Config) (scope : CrlScope) : Command :=
  look fun _ s =>
    let now := s.now
    collectScope now .root (scope != .signing) [] fun jobs =>
    collectScope now .signing (scope != .root) jobs fun jobs =>
    if jobs.isEmpty then .halt
    else
      loadKeys
        (fun keyed =>
          beginWrite <|
          refreshJobs (commitWrite fun _ => .nothing) keyed)
        jobs []
where
  /-- The generations of one kind, when they are in scope. -/
  collectScope
      (now : Nat)
      (kind : CaKind)
      (wanted : Bool)
      (jobs : List Job)
      (next : List Job → Command) : Command :=
    if wanted then
      look fun _ s =>
        collectJobs config kind
          (match kind with
            | .root => rootCrlNextUpdateDays
            | .signing => crlNextUpdateDays)
          now next (liveCas s.db config kind) jobs
    else next jobs

end Revocation

section Ceremonies

/-- The private key the store keeps: none for a token-held key. -/
def persisted (ca : SigningCa) (key : KeyPair) : Option Key :=
  match ca.keyBackend with
  | .internal => some key.priv
  | .pkcs11 => none

/-- `add_signing_ca`, run with the configuration file. -/
def addSigningCa (config : Config) (purpose : String) : Command :=
  match config.ca purpose with
  | none => .halt
  | some ca =>
      ensureCaIndex config <|
      look fun _ s =>
        if s.db.purposes.any fun held => held.purpose == purpose then .halt
        else
          look fun _ s =>
            let root := activeCa s.db config "root"
            let gen : CaGen := ⟨purpose, 1, ca.cn, ca.slug⟩
            unlessCnTaken root gen.cn <|
            mintCaGeneration config ca root gen fun cert key =>
            beginWrite <|
            commitWrite fun _ => .generation gen cert (persisted ca key) (some ca)

/-- `renew_signing_ca`. -/
def renewSigningCa (config : Config) (purpose newCn : String) : Command :=
  match config.ca purpose with
  | none => .halt
  | some ca =>
      if newCn = "" then .halt
      else
        ensureCaIndex config <|
        look fun _ s =>
          let root := activeCa s.db config "root"
          look fun _ s =>
            let incumbent := activeCa s.db config purpose
            let gen : CaGen :=
              ⟨purpose, incumbent.gen + 1, newCn,
                ca.slugPrefix ++ toString (incumbent.gen + 1)⟩
            unlessCnTaken root newCn <|
            mintCaGeneration config ca root gen fun cert key =>
            beginWrite <|
            commitWrite fun _ => .generation gen cert (persisted ca key) none

end Ceremonies

section Enrollment

/-- `enroll`. -/
def enroll (id : String) : Command :=
  if id = "" ∨ id.utf8ByteSize > 256 ∨ id.toList.any fun c => decide (c.toNat < 0x20 ∨ c.toNat = 0x7f)
  then .halt
  else
    beginWrite <|
    look fun _ s =>
      if s.db.enrollment.any fun r => r.id == id then abort
      else commitWrite fun s => .enroll id s.now

/-- `get_nonce`. -/
def getNonce (id : String) : Command :=
  beginWrite <|
  look fun _ s =>
    match s.db.enrollment.find? fun r => r.id == id with
    | none => abort
    | some row =>
        look fun k s =>
          match pendingNonce row s.now with
          | some _ => commitWrite fun _ => .nothing
          | none =>
              let now := s.now
              commitWrite fun _ => .nonce id k.nonce now

end Enrollment

/-- A command line.  `add signing-ca` works on the configuration file, the
others on the configuration in the store. -/
inductive Request
  | issueEe (profile : Profile) (cn : String) (valid : Option Nat)
  | signCsr
      (profile : Profile) (id nonce : String) (cn : String) (csrKey : Key)
      (valid : Option Nat)
  | revoke (target : Profile) (cn serial reason : String)
  | revokeCa (selector reason : String)
  | refreshCrl (scope : CrlScope)
  | addSigningCa (file : Config) (purpose : String)
  | renewSigningCa (purpose newCn : String)
  | enroll (id : String)
  | getNonce (id : String)
  deriving DecidableEq

/-- What a command does with the configuration it runs on.  `sign_csr` is given
the common name its name rules settled on. -/
def Request.run (config : Config) : Request → Command
  | .issueEe profile cn valid =>
      match config.caForProfile profile with
      | none => .halt
      | some ca =>
          match leafValidity ca valid with
          | none => .halt
          | some validity =>
              if profile.csrOnly then .halt else issue config ca profile cn validity none none
  | .signCsr profile id nonce cn csrKey valid =>
      match config.caForProfile profile with
      | none => .halt
      | some ca =>
          match leafValidity ca valid with
          | none => .halt
          | some validity =>
              issue config ca profile cn validity (some csrKey) (some (id, nonce))
  | .revoke target cn serial reason =>
      match parseReason reason with
      | none => .halt
      | some reason => Ca.revoke config target cn serial reason
  | .revokeCa selector reason =>
      match parseReason reason with
      | none => .halt
      | some reason => Ca.revokeCa config selector reason
  | .refreshCrl scope => Ca.refreshCrl config scope
  | .addSigningCa file purpose => Ca.addSigningCa file purpose
  | .renewSigningCa purpose newCn => Ca.renewSigningCa config purpose newCn
  | .enroll id => Ca.enroll id
  | .getNonce id => Ca.getNonce id

/-- A process reads the locked configuration (`load_config`) and runs its
command. -/
def start (r : Request) : Command :=
  look fun _ s => r.run s.db.loadConfig

/-- The processes of the CA. -/
def yca : Program Store Command Choice Request Outside :=
  machine.program start

end Ca
end Yca
