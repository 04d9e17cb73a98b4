import Yca.Ca.Safety
import Yca.Ca.Selectors
import Yca.Core.Chronicle

/-!
# What a call has seen

The contracts of `Ca.Contract` say what holds when a command emits an event.
They do not say what the command read on its way there, nor for whom it works.
An *account* does: it names the moments at which the command read the store or
the clock, and what it found.  What is left of a finding when the event is
emitted depends on what others may do in between (`Since`), so the accounts are
given for any discipline, and the commands are followed once for all of them.
-/

namespace Yca
namespace Ca

open Yca.Core

/-- Events of a process that leave the database alone. -/
def Event.calm : Event → Bool
  | .backfill _ => false
  | .commit _ => false
  | .rollback => false
  | _ => true

/-- Calm events and backfills. -/
def Event.mild : Event → Bool
  | .backfill _ => true
  | e => e.calm

/-- Calm events that publish no certificate. -/
def Event.still : Event → Bool
  | .publish _ _ (.pem _) => false
  | e => e.calm

/-- Events of which no account is given. -/
def Event.plain : Event → Bool
  | .backfill _ => false
  | .commit _ => false
  | .publish _ _ (.pem _) => false
  | _ => true

/-- The processes of the CA with the requests they serve. -/
def ycaCalls : Program Store (Request × Command) Choice Request Outside :=
  machine.calls start

/-- The processes of the CA with the records of their calls. -/
def ycaRecords : Program Store (Recorded Store Request Command) Choice Request Outside :=
  machine.records start

section Accounts

/-- What a process may find changed, by others and by its own calm events. -/
abbrev Calm (Rely : Pid → Store → Store → Prop) (p : Pid) : Store → Store → Prop :=
  machine.Since Rely Event.calm p

/-- The same, when it published no certificate in between. -/
abbrev Still (Rely : Pid → Store → Store → Prop) (p : Pid) : Store → Store → Prop :=
  machine.Since Rely Event.still p

/-- The same, when it may have recorded first generations in between. -/
abbrev Mild (Rely : Pid → Store → Store → Prop) (p : Pid) : Store → Store → Prop :=
  machine.Since Rely Event.mild p

variable (Rely : Pid → Store → Store → Prop) (p : Pid)

/-- The moments at which `issue` reads. -/
structure IssueTimes where
  /-- The configuration was read. -/
  config : Store
  /-- The active generation was looked up. -/
  active : Store
  /-- Its certificate was read. -/
  issuer : Store
  /-- Its remaining lifetime was compared with the validity. -/
  check : Store
  /-- The write lock was taken. -/
  begun : Store
  /-- The nonce was checked again. -/
  nonce : Store
  /-- Duplicates were looked for again. -/
  duplicate : Store
  /-- The certificate was made. -/
  draw : Store

/-- What `issue` saw before it recorded a leaf. -/
structure Issued
    (at_ : IssueTimes)
    (config : Config)
    (ca : SigningCa)
    (profile : Profile)
    (cn : String)
    (validity : Nat)
    (csrKey : Option Key)
    (enrolled : Option (String × String))
    (cert issuer : Cert)
    (purpose : String)
    (t : Store) : Prop where
  toActive : Still Rely p at_.config at_.active
  toIssuer : Still Rely p at_.active at_.issuer
  toCheck : Still Rely p at_.issuer at_.check
  toBegun : Still Rely p at_.check at_.begun
  toNonce : Still Rely p at_.begun at_.nonce
  toDuplicate : Still Rely p at_.nonce at_.duplicate
  toDraw : Still Rely p at_.duplicate at_.draw
  toCommit : Still Rely p at_.draw t
  purpose : purpose = (activeCa at_.active.db config ca.purpose).purpose
  pem : at_.issuer.pem (activeCa at_.active.db config ca.purpose).slug = some issuer
  lives : at_.check.now + validity ≤ issuer.notAfter
  locked : at_.begun.lock = some p
  nonce : ∀ id nonce, enrolled = some (id, nonce) →
    nonceRejected at_.nonce.db id nonce at_.nonce.now = false
  duplicate : blockingDuplicate at_.duplicate.db cn (.ee profile) at_.duplicate.now = false
  subject : cert.subjectCn = cn
  issuerCn : cert.issuerCn = issuer.subjectCn
  aki : cert.aki = issuer.ski
  keyId : cert.ski = cert.publicKey
  key : ∀ key, csrKey = some key → cert.publicKey = key
  notBefore : cert.notBefore = at_.draw.now
  notAfter : cert.notAfter = at_.draw.now + validity

/-- The account of an issuing call. -/
def IssueAccount
    (profile : Profile)
    (cn : String)
    (valid : Option Nat)
    (csrKey : Option Key)
    (enrolled : Option (String × String))
    (t : Store)
    (tx : Tx) : Prop :=
  ∃ at_ ca validity cert issuer purpose,
    at_.config.db.loadConfig.caForProfile profile = some ca ∧
    leafValidity ca valid = some validity ∧
    tx = .issue cert issuer profile purpose (enrolled.map Prod.fst) ∧
    Issued Rely p at_ at_.config.db.loadConfig ca profile cn validity csrKey enrolled
      cert issuer purpose t

/-- The moments at which a ceremony reads. -/
structure MintTimes where
  /-- The active root was looked up. -/
  root : Store
  /-- The new name was not the name of an issuing CA. -/
  signing : Store
  /-- Nor of a root. -/
  named : Store
  /-- The certificate of the root was read. -/
  anchor : Store
  /-- Its remaining lifetime was compared with the validity. -/
  check : Store
  /-- The certificate was made. -/
  draw : Store

/-- What a ceremony saw before it made the certificate of a generation. -/
structure Cast
    (at_ : MintTimes)
    (config : Config)
    (ca : SigningCa)
    (next : CaGen)
    (root cert : Cert) : Prop where
  toSigning : Still Rely p at_.root at_.signing
  toNamed : Still Rely p at_.signing at_.named
  toAnchor : Still Rely p at_.named at_.anchor
  toCheck : Still Rely p at_.anchor at_.check
  toDraw : Still Rely p at_.check at_.draw
  notRoot : next.cn ≠ (activeCa at_.root.db config "root").cn
  free : genByCn at_.signing.db .signing next.cn = none
  freeRoot : genByCn at_.named.db .root next.cn = none
  anchor : at_.anchor.pem (activeCa at_.root.db config "root").slug = some root
  lives : at_.check.now + ca.validDays * day ≤ root.notAfter
  subject : cert.subjectCn = next.cn
  issuerCn : cert.issuerCn = root.subjectCn
  aki : cert.aki = root.ski
  keyId : cert.ski = cert.publicKey
  notBefore : cert.notBefore = at_.draw.now
  notAfter : cert.notAfter = at_.draw.now + ca.validDays * day

/-- What a ceremony does with the certificate it made: it publishes it, and
records the generation. -/
def MintAccount
    (at_ : MintTimes)
    (config : Config)
    (ca : SigningCa)
    (next : CaGen)
    (lock : Option SigningCa)
    (t : Store)
    (e : Event) : Prop :=
  ∃ root cert,
    Cast Rely p at_ config ca next root cert ∧
    ((Still Rely p at_.draw t ∧ e = .publish next.slug root (.pem cert)) ∨
      ∃ published listed key,
        Calm Rely p at_.draw published ∧
        published.pem next.slug = some cert ∧
        Still Rely p published listed ∧
        (listed.crl next.slug).isSome = true ∧
        Still Rely p listed t ∧
        e = .commit (.generation next cert key lock))

/-- A backfilled row: the purpose had none, and the name of its first generation
is the name of a CA certificate on record. -/
def BackfillAccount
    (inv : Store → Prop)
    (config : Config)
    (read t : Store)
    (e : Event) : Prop :=
  ∃ missing issued purpose,
    Mild Rely p read missing ∧
    Still Rely p missing issued ∧
    Still Rely p issued t ∧
    inv missing ∧
    purpose ∈ "root" :: config.cas.map SigningCa.purpose ∧
    (∀ r ∈ missing.db.caIndex, r.purpose ≠ purpose) ∧
    (∃ r ∈ issued.db.certIndex, r.cn = (configGen config purpose).cn ∧ r.isLeaf = false) ∧
    e = .backfill ⟨configGen config purpose, kindOf purpose, .active⟩

/-- The account of a renewal, run on the configuration read at `read`. -/
def RenewAccount (purpose newCn : String) (read t : Store) (e : Event) : Prop :=
  ∃ at_ incumbent ca,
    read.db.loadConfig.ca purpose = some ca ∧
    Mild Rely p read at_.root ∧
    Still Rely p at_.root incumbent ∧
    Still Rely p incumbent at_.signing ∧
    MintAccount Rely p at_ read.db.loadConfig ca
      ⟨purpose, (activeCa incumbent.db read.db.loadConfig purpose).gen + 1, newCn,
        ca.slugPrefix ++
          toString ((activeCa incumbent.db read.db.loadConfig purpose).gen + 1)⟩
      none t e

/-- The account of an addition. -/
def AddAccount (file : Config) (purpose : String) (read t : Store) (e : Event) : Prop :=
  ∃ at_ held ca,
    file.ca purpose = some ca ∧
    Mild Rely p read held ∧
    (∀ locked ∈ held.db.purposes, locked.purpose ≠ purpose) ∧
    Still Rely p held at_.root ∧
    MintAccount Rely p at_ file ca ⟨purpose, 1, ca.cn, ca.slug⟩ (some ca) t e

/-- The account of a revocation of a generation. -/
def RevokeCaAccount (read t : Store) (e : Event) : Prop :=
  ∃ named active file victim cn cert reason at_,
    Mild Rely p read named ∧
    genByCn named.db .signing cn = some victim ∧
    Still Rely p named active ∧
    victim.gen ≠ (activeCa active.db read.db.loadConfig victim.purpose).gen ∧
    Still Rely p active file ∧
    file.pem victim.slug = some cert ∧
    Still Rely p file t ∧
    e = .commit (.revokeCa victim cert reason at_)

/-- How a revocation of a generation chose its victim. -/
def SelectAccount (selector : String) (read t : Store) (e : Event) : Prop :=
  ∃ root resolved named victim cert reason at_,
    Mild Rely p read root ∧
    selector ≠ "root-ca" ∧
    selector ≠ (activeCa root.db read.db.loadConfig "root").cn ∧
    Still Rely p root resolved ∧
    resolveName resolved.db read.db.loadConfig selector ≠ "" ∧
    Still Rely p resolved named ∧
    genByCn named.db .signing (resolveName resolved.db read.db.loadConfig selector) =
      some victim ∧
    Still Rely p named t ∧
    e = .commit (.revokeCa victim cert reason at_)

/-- The account of `get_nonce`: the row it found and the clock it compared it
with, both under the write lock. -/
def NonceAccount (id : String) (t : Store) (e : Event) : Prop :=
  ∃ begun found clock row drawn,
    begun.lock = some p ∧
    Still Rely p begun found ∧
    (found.db.enrollment.find? fun r => r.id == id) = some row ∧
    Still Rely p found clock ∧
    Still Rely p clock t ∧
    e = .commit
      (match pendingNonce row clock.now with
        | some _ => .nothing
        | none => .nonce id drawn clock.now)

/-- The account of a call. -/
def Account (inv : Store → Prop) (req : Request) (t : Store) (e : Event) : Prop :=
  e.plain = true ∨
    match req with
    | .issueEe profile cn valid =>
        ∃ tx, e = .commit tx ∧ IssueAccount Rely p profile cn valid none none t tx
    | .signCsr profile id nonce cn csrKey valid =>
        ∃ tx, e = .commit tx ∧
          IssueAccount Rely p profile cn valid (some csrKey) (some (id, nonce)) t tx
    | .revoke .. => ∃ fp reason at_, e = .commit (.revoke fp reason at_)
    | .revokeCa .. =>
        ∃ read, BackfillAccount Rely p inv read.db.loadConfig read t e ∨
          RevokeCaAccount Rely p read t e
    | .refreshCrl _ => e = .commit .nothing
    | .addSigningCa file purpose =>
        ∃ read, BackfillAccount Rely p inv file read t e ∨
          AddAccount Rely p file purpose read t e
    | .renewSigningCa purpose newCn =>
        ∃ read, BackfillAccount Rely p inv read.db.loadConfig read t e ∨
          RenewAccount Rely p purpose newCn read t e
    | .enroll id => ∃ created, e = .commit (.enroll id created)
    | .getNonce id => NonceAccount Rely p id t e

/-- An account in runs with an invariant is one in runs with a weaker one. -/
theorem Account.mono
    {Rely : Pid → Store → Store → Prop}
    {p : Pid}
    {inv inv' : Store → Prop}
    {req : Request}
    {t : Store}
    {e : Event}
    (h : Account Rely p inv req t e)
    (himp : ∀ s, inv s → inv' s) :
    Account Rely p inv' req t e := by
  have hback : ∀ config read, BackfillAccount Rely p inv config read t e →
      BackfillAccount Rely p inv' config read t e := by
    rintro config read ⟨missing, issued, purpose, h₁, h₂, h₃, hinv, hrest⟩
    exact ⟨missing, issued, purpose, h₁, h₂, h₃, himp _ hinv, hrest⟩
  rcases h with hplain | h
  · exact Or.inl hplain
  · right
    cases req with
    | revokeCa selector reason =>
        obtain ⟨read, h⟩ := h
        exact ⟨read, h.imp_left (hback _ _)⟩
    | addSigningCa file purpose =>
        obtain ⟨read, h⟩ := h
        exact ⟨read, h.imp_left (hback _ _)⟩
    | renewSigningCa purpose newCn =>
        obtain ⟨read, h⟩ := h
        exact ⟨read, h.imp_left (hback _ _)⟩
    | _ => exact h

end Accounts

/-- A discipline whose contracts are the accounts of one request. -/
def accounting
    (inv : Store → Prop)
    (Rely : Pid → Store → Store → Prop)
    (allow : Pid → Store → Event → Prop)
    (req : Request) : Discipline Store Event where
  inv := inv
  Rely := Rely
  allow := allow
  Meets p := Account Rely p inv req

section Rules

variable
  {D : Discipline Store Event}
  {p : Pid}
  {s : Store}

/-- Steps that need no account. -/
def Lenient (D : Discipline Store Event) : Prop :=
  ∀ p s e, e.plain = true → D.Meets p s e

theorem still_calm {e : Event} (h : e.still = true) :
    e.calm = true := by
  unfold Event.still at h
  split at h
  · simp at h
  · exact h

theorem calm_mild {e : Event} (h : e.calm = true) :
    e.mild = true := by
  unfold Event.mild
  split
  · rfl
  · exact h

/-- Calm events leave the tables alone. -/
theorem apply_calm_db
    {e : Event}
    (h : e.calm = true)
    (p : Pid)
    (s : Store) :
    (s.apply p e).db = s.db := by
  cases e with
  | key use => exact (apply_key_db p use s).1
  | publish slug issuer file => cases file <;> rfl
  | backfill row => simp [Event.calm] at h
  | commit tx => simp [Event.calm] at h
  | rollback => simp [Event.calm] at h
  | _ => rfl

/-- Still events leave the certificate files alone as well. -/
theorem apply_still_pem
    {e : Event}
    (h : e.still = true)
    (p : Pid)
    (s : Store) :
    (s.apply p e).pem = s.pem := by
  cases e with
  | key use => exact (apply_key_db p use s).2.2.1
  | publish slug issuer file =>
      cases file with
      | pem cert => simp [Event.still] at h
      | _ => rfl
  | _ => rfl

theorem Still.calm
    {Rely : Pid → Store → Store → Prop}
    {t : Store}
    (h : Still Rely p s t) :
    Calm Rely p s t :=
  Machine.Since.mono (fun _ he => still_calm he) h

theorem Calm.mild
    {Rely : Pid → Store → Store → Prop}
    {t : Store}
    (h : Calm Rely p s t) :
    Mild Rely p s t :=
  Machine.Since.mono (fun _ he => calm_mild he) h

theorem Still.mild
    {Rely : Pid → Store → Store → Prop}
    {t : Store}
    (h : Still Rely p s t) :
    Mild Rely p s t :=
  Calm.mild (Still.calm h)

/-- A lookup. -/
theorem follow_look
    (hD : Lenient D)
    {next : Choice → Store → Command}
    (h : ∀ t k, Still D.Rely p s t → D.inv t → D.Safe machine p (next k t) t) :
    D.Safe machine p (look next) s := by
  intro t k ht hinv _ _
  exact ⟨hD p t _ rfl, h t k (Machine.Since.rely (Machine.Since.refl s) ht) hinv⟩

theorem follow_beginWrite
    (hD : Lenient D)
    {next : Command}
    (h : ∀ t, Still D.Rely p s t → t.lock = some p → D.Safe machine p next t) :
    D.Safe machine p (beginWrite next) s := by
  intro t k ht _ _ _
  refine ⟨hD p t _ rfl, h _ ?_ rfl⟩
  exact Machine.Since.own (Machine.Since.rely (Machine.Since.refl s) ht) rfl

theorem follow_abort (hD : Lenient D) :
    D.Safe machine p abort s := by
  intro t k _ _ _ _
  exact ⟨hD p t _ rfl, trivial⟩

/-- A transaction is accounted for when it goes through. -/
theorem follow_commitWrite
    (hD : Lenient D)
    {tx : Store → Tx}
    (h : ∀ t, Still D.Rely p s t → D.Meets p t (.commit (tx t))) :
    D.Safe machine p (commitWrite tx) s := by
  intro t k ht _ _ _
  refine ⟨?_, trivial⟩
  show D.Meets p t (if ((tx t).run t.db).isSome = true then _ else _)
  split
  · exact h t (Machine.Since.rely (Machine.Since.refl s) ht)
  · exact hD p t _ rfl

/-- A key lookup. -/
theorem follow_emitting
    (hD : Lenient D)
    {α : Type}
    {found : Choice → Store → Option α}
    {use : α → KeyUse}
    {next : α → Command}
    (h : ∀ t a, Still D.Rely p s t → D.Safe machine p (next a) t) :
    D.Safe machine p (emitting found (fun a => .key (use a)) next) s := by
  intro t k ht _ hready _
  obtain ⟨a, ha⟩ := Option.isSome_iff_exists.mp hready
  simp only [ha, Option.map_some, Option.getD_some]
  refine ⟨hD p t _ rfl, h _ a ?_⟩
  exact Machine.Since.own (Machine.Since.rely (Machine.Since.refl s) ht) rfl

theorem follow_caKey
    (hD : Lenient D)
    {cert : Cert}
    {spec : CaSpec}
    {slug : String}
    {next : KeyPair → Command}
    (h : ∀ t pair, Still D.Rely p s t → D.Safe machine p (next pair) t) :
    D.Safe machine p (caKey cert spec slug next) s :=
  follow_emitting hD h

theorem follow_makeCaKey
    (hD : Lenient D)
    {spec : CaSpec}
    {slug : String}
    {next : KeyPair → Command}
    (h : ∀ t pair, Still D.Rely p s t → D.Safe machine p (next pair) t) :
    D.Safe machine p (makeCaKey spec slug next) s := by
  unfold makeCaKey
  split
  · exact follow_emitting hD fun t found ht => h t found.1 ht
  · exact follow_emitting hD h

theorem follow_ceremonyRootKey
    (hD : Lenient D)
    {config : Config}
    {rootCert : Cert}
    {slug : String}
    {next : KeyPair → Command}
    (h : ∀ t pair, Still D.Rely p s t → D.Safe machine p (next pair) t) :
    D.Safe machine p (ceremonyRootKey config rootCert slug next) s := by
  unfold ceremonyRootKey
  split
  · exact follow_emitting hD fun t found ht => h t found.1 ht
  · exact follow_caKey hD h

/-- The certificate of a generation is published: it is there afterwards. -/
theorem follow_publish_pem
    {slug : String}
    {issuer cert : Cert}
    {next : Command}
    (hmeets : ∀ t, Still D.Rely p s t → D.Meets p t (.publish slug issuer (.pem cert)))
    (h : ∀ t, Calm D.Rely p s t → t.pem slug = some cert → D.Safe machine p next t) :
    D.Safe machine p (publish slug issuer (fun _ => .pem cert) next) s := by
  intro t k ht _ _ _
  have hstill : Still D.Rely p s t := Machine.Since.rely (Machine.Since.refl s) ht
  exact ⟨hmeets t hstill,
    h _ (Machine.Since.own (Still.calm hstill) rfl) (Function.update_self _ _ _)⟩

theorem follow_publish_crt
    (hD : Lenient D)
    {slug : String}
    {issuer cert : Cert}
    {next : Command}
    (h : ∀ t, Still D.Rely p s t → D.Safe machine p next t) :
    D.Safe machine p (publish slug issuer (fun _ => .crt cert) next) s := by
  intro t k ht _ _ _
  refine ⟨hD p t _ rfl, h _ ?_⟩
  exact Machine.Since.own (Machine.Since.rely (Machine.Since.refl s) ht) rfl

theorem follow_publish_crl
    (hD : Lenient D)
    {slug : String}
    {issuer : Cert}
    {crl : Store → Crl}
    {next : Command}
    (h : ∀ t, Still D.Rely p s t → (t.crl slug).isSome = true → D.Safe machine p next t) :
    D.Safe machine p (publish slug issuer (fun t => .crl (crl t)) next) s := by
  intro t k ht _ _ _
  refine ⟨hD p t _ rfl, h _ ?_ ?_⟩
  · exact Machine.Since.own (Machine.Since.rely (Machine.Since.refl s) ht) rfl
  · show (Function.update t.crl slug (some (crl t)) slug).isSome = true
    rw [Function.update_self]
    rfl

theorem follow_rewriteCrl
    (hD : Lenient D)
    {mayFail : Bool}
    {w : Store → Rewrite}
    {next : Command}
    (h : ∀ t, Still D.Rely p s t → D.Safe machine p next t) :
    D.Safe machine p (rewriteCrl mayFail w next) s := by
  intro t k ht _ _ _
  have hstill : Still D.Rely p s t := Machine.Since.rely (Machine.Since.refl s) ht
  cases hok : k.ok with
  | true =>
      simp only [hok, if_true]
      exact ⟨hD p t _ rfl, h _ (Machine.Since.own hstill rfl)⟩
  | false =>
      simp only [hok, Bool.false_eq_true, if_false]
      exact ⟨hD p t _ rfl, h t hstill⟩

end Rules

section Commands

variable
  {D : Discipline Store Event}
  {p : Pid}
  {s : Store}

theorem follow_checkNonce
    (hD : Lenient D)
    {enrolled : Option (String × String)}
    {refused next : Command}
    (hrefused : ∀ t, D.Safe machine p refused t)
    (h : ∀ t u, Still D.Rely p s t → Still D.Rely p t u →
      (∀ id nonce, enrolled = some (id, nonce) → nonceRejected t.db id nonce t.now = false) →
      D.Safe machine p next u) :
    D.Safe machine p (checkNonce enrolled refused next) s := by
  cases enrolled with
  | none => exact h s s (Machine.Since.refl s) (Machine.Since.refl s) (by simp)
  | some pair =>
      obtain ⟨id, nonce⟩ := pair
      refine follow_look hD ?_
      intro t _ ht _
      split
      · exact hrefused t
      · rename_i hnonce
        refine h t t ht (Machine.Since.refl t) ?_
        intro id' nonce' heq
        obtain ⟨rfl, rfl⟩ := Prod.mk.inj (Option.some.inj heq)
        simpa using hnonce

theorem follow_checkDuplicate
    (hD : Lenient D)
    {cn : String}
    {profile : Profile}
    {refused next : Command}
    (hrefused : ∀ t, D.Safe machine p refused t)
    (h : ∀ t, Still D.Rely p s t → blockingDuplicate t.db cn (.ee profile) t.now = false →
      D.Safe machine p next t) :
    D.Safe machine p (checkDuplicate cn profile refused next) s := by
  refine follow_look hD ?_
  intro t _ ht _
  split
  · exact hrefused t
  · rename_i hdup
    exact h t ht (by simpa using hdup)

theorem follow_issue
    (hD : Lenient D)
    {config : Config}
    {ca : SigningCa}
    {profile : Profile}
    {cn : String}
    {validity : Nat}
    {csrKey : Option Key}
    {enrolled : Option (String × String)}
    (h : ∀ at_ cert issuer purpose t,
      at_.config = s →
      Issued D.Rely p at_ config ca profile cn validity csrKey enrolled cert issuer purpose t →
      D.Meets p t (.commit (.issue cert issuer profile purpose (enrolled.map Prod.fst)))) :
    D.Safe machine p (issue config ca profile cn validity csrKey enrolled) s := by
  refine follow_look hD ?_
  intro active _ hactive _
  refine follow_look hD ?_
  intro file _ hfile _
  split
  · trivial
  · rename_i signCert hpem
    refine follow_look hD ?_
    intro check _ hcheck _
    split
    · trivial
    · rename_i hlives
      refine follow_checkNonce hD (fun _ => trivial) ?_
      intro _ t₁ h₀ h₁ _
      refine follow_checkDuplicate hD (fun _ => trivial) ?_
      intro t₂ h₂ _
      refine follow_caKey hD ?_
      intro t₃ key h₃
      refine follow_beginWrite hD ?_
      intro begun h₄ hlock
      refine follow_checkNonce hD (fun _ => follow_abort hD) ?_
      intro nonce t₅ h₅ h₆ hnonce
      refine follow_checkDuplicate hD (fun _ => follow_abort hD) ?_
      intro duplicate h₇ hdup
      refine follow_look hD ?_
      intro draw k h₈ _
      refine follow_commitWrite hD ?_
      intro t h₉
      refine h ⟨s, active, file, check, begun, nonce, duplicate, draw⟩ _ _ _ t rfl ?_
      exact
        { toActive := hactive
          toIssuer := hfile
          toCheck := hcheck
          toBegun := ((h₀.trans h₁).trans h₂).trans (h₃.trans h₄)
          toNonce := h₅
          toDuplicate := h₆.trans h₇
          toDraw := h₈
          toCommit := h₉
          purpose := rfl
          pem := hpem
          lives := by simpa [outlivesIssuer] using hlives
          locked := hlock
          nonce := hnonce
          duplicate := hdup
          subject := rfl
          issuerCn := rfl
          aki := rfl
          keyId := rfl
          key := fun key hkey => by simp [hkey]
          notBefore := rfl
          notAfter := rfl }

theorem follow_ensureCaIndexLoop
    (hD : Lenient D)
    {inv : Store → Prop}
    (hinv : ∀ t, D.inv t → inv t)
    {config : Config}
    {next : Command}
    {read : Store}
    {purposes : List String}
    (hpurposes : ∀ purpose ∈ purposes, purpose ∈ "root" :: config.cas.map SigningCa.purpose)
    (hmeets : ∀ t e, BackfillAccount D.Rely p inv config read t e → D.Meets p t e)
    (hs : Mild D.Rely p read s)
    (h : ∀ t, Mild D.Rely p read t → D.Safe machine p next t) :
    D.Safe machine p (ensureCaIndexLoop config next purposes) s := by
  induction purposes generalizing s with
  | nil => exact h s hs
  | cons purpose rest ih =>
      have hrest : ∀ t, Mild D.Rely p read t →
          D.Safe machine p (ensureCaIndexLoop config next rest) t := by
        intro t ht
        exact ih (fun other hother => hpurposes other (List.mem_cons_of_mem _ hother)) ht
      refine follow_look hD ?_
      intro missing _ hmissing hread
      split
      · exact hrest missing (hs.trans hmissing.mild)
      · rename_i hnone
        refine follow_look hD ?_
        intro issued _ hissued _
        split
        · rename_i hcn
          intro t k ht _ _ _
          have hstill : Still D.Rely p issued t :=
            Machine.Since.rely (Machine.Since.refl issued) ht
          have hto : Mild D.Rely p read t :=
            (hs.trans hmissing.mild).trans (hissued.mild.trans hstill.mild)
          refine ⟨hmeets t _ ?_, hrest _ (Machine.Since.own hto rfl)⟩
          simp only [List.any_eq_true, beq_iff_eq, not_exists, not_and] at hnone
          simp only [List.any_eq_true, Bool.and_eq_true, Bool.or_eq_true, beq_iff_eq] at hcn
          obtain ⟨row, hrow, hname, hkind⟩ := hcn
          refine ⟨missing, issued, purpose, hs.trans hmissing.mild, hissued, hstill,
            hinv missing hread, hpurposes purpose List.mem_cons_self, hnone,
            ⟨row, hrow, hname, ?_⟩, rfl⟩
          unfold CertRow.isLeaf
          rcases hkind with hkind | hkind
          · rw [hkind]
          · rw [hkind]
        · exact hrest issued (hs.trans (hmissing.mild.trans hissued.mild))

theorem follow_unlessCnTaken
    (hD : Lenient D)
    {root : CaGen}
    {cn : String}
    {next : Command}
    (h : ∀ t u, Still D.Rely p s t → Still D.Rely p t u →
      cn ≠ root.cn →
      genByCn t.db .signing cn = none →
      genByCn u.db .root cn = none →
      D.Safe machine p next u) :
    D.Safe machine p (unlessCnTaken root cn next) s := by
  unfold unlessCnTaken
  split
  · trivial
  · rename_i hroot
    refine follow_look hD ?_
    intro t _ ht _
    split
    · trivial
    · rename_i hsigning
      refine follow_look hD ?_
      intro u _ hu _
      split
      · trivial
      · rename_i hnamed
        exact h t u ht hu hroot (by simpa using hsigning) (by simpa using hnamed)

/-- A ceremony, from the checks of the new name on. -/
theorem follow_ceremony
    (hD : Lenient D)
    {config : Config}
    {ca : SigningCa}
    (next : CaGen)
    (lock : Option SigningCa)
    {root : Store}
    (hroot : Still D.Rely p root s)
    (h : ∀ at_ t e,
      at_.root = root →
      Still D.Rely p s at_.signing →
      MintAccount D.Rely p at_ config ca next lock t e →
      D.Meets p t e) :
    D.Safe machine p
      (unlessCnTaken (activeCa root.db config "root") next.cn <|
        mintCaGeneration config ca (activeCa root.db config "root") next fun cert key =>
        beginWrite <|
        commitWrite fun _ => .generation next cert (persisted ca key) lock) s := by
  refine follow_unlessCnTaken hD ?_
  intro signing named hsigning hnamed hnotRoot hfree hfreeRoot
  refine follow_look hD ?_
  intro anchor _ hanchor _
  split
  · trivial
  · rename_i rootCert hpem
    refine follow_look hD ?_
    intro check _ hcheck _
    split
    · trivial
    · rename_i hlives
      refine follow_ceremonyRootKey hD ?_
      intro t₁ rootKey h₁
      refine follow_makeCaKey hD ?_
      intro t₂ key h₂
      refine follow_look hD ?_
      intro draw k h₃ _
      have hcast : ∀ cert : Cert,
          cert.subjectCn = next.cn → cert.issuerCn = rootCert.subjectCn →
          cert.aki = rootCert.ski → cert.ski = cert.publicKey → cert.notBefore = draw.now →
          cert.notAfter = draw.now + ca.validDays * day →
          Cast D.Rely p ⟨root, signing, named, anchor, check, draw⟩ config ca next
            rootCert cert := by
        intro cert hsubject hissuer haki hkeyId hbefore hafter
        exact
          { toSigning := hroot.trans hsigning
            toNamed := hnamed
            toAnchor := hanchor
            toCheck := hcheck
            toDraw := (h₁.trans h₂).trans h₃
            notRoot := hnotRoot
            free := hfree
            freeRoot := hfreeRoot
            anchor := hpem
            lives := by simpa [outlivesIssuer] using hlives
            subject := hsubject
            issuerCn := hissuer
            aki := haki
            keyId := hkeyId
            notBefore := hbefore
            notAfter := hafter }
      refine follow_publish_pem ?_ ?_
      · intro t ht
        refine h ⟨root, signing, named, anchor, check, draw⟩ t _ rfl hsigning ?_
        exact ⟨rootCert, _, hcast _ rfl rfl rfl rfl rfl rfl, Or.inl ⟨ht, rfl⟩⟩
      · intro published hpublished hfile
        refine follow_publish_crt hD ?_
        intro t₄ h₄
        refine follow_publish_crl hD ?_
        intro listed h₅ hlisted
        refine follow_beginWrite hD ?_
        intro t₆ h₆ _
        refine follow_commitWrite hD ?_
        intro t h₇
        refine h ⟨root, signing, named, anchor, check, draw⟩ t _ rfl hsigning ?_
        exact ⟨rootCert, _, hcast _ rfl rfl rfl rfl rfl rfl,
          Or.inr ⟨published, listed, _, hpublished, hfile, h₄.trans h₅, hlisted,
            h₆.trans h₇, rfl⟩⟩

theorem follow_addSigningCa
    (hD : Lenient D)
    {inv : Store → Prop}
    (hinv : ∀ t, D.inv t → inv t)
    {file : Config}
    {purpose : String}
    (hbackfill : ∀ t e, BackfillAccount D.Rely p inv file s t e → D.Meets p t e)
    (hadd : ∀ t e, AddAccount D.Rely p file purpose s t e → D.Meets p t e) :
    D.Safe machine p (addSigningCa file purpose) s := by
  unfold addSigningCa
  split
  · trivial
  · rename_i ca hca
    refine follow_ensureCaIndexLoop hD hinv (fun _ h => h) hbackfill (Machine.Since.refl s) ?_
    intro t₁ h₁
    refine follow_look hD ?_
    intro held _ hheld _
    split
    · trivial
    · rename_i hnew
      refine follow_look hD ?_
      intro root _ hroot _
      refine follow_ceremony hD ⟨purpose, 1, ca.cn, ca.slug⟩ (some ca) (Machine.Since.refl root) ?_
      intro at_ t e hat _ hmint
      refine hadd t e ⟨at_, held, ca, hca, h₁.trans hheld.mild, ?_, ?_, hmint⟩
      · simpa using hnew
      · rw [hat]
        exact hroot

theorem follow_renewSigningCa
    (hD : Lenient D)
    {inv : Store → Prop}
    (hinv : ∀ t, D.inv t → inv t)
    {purpose newCn : String}
    (hbackfill : ∀ t e, BackfillAccount D.Rely p inv s.db.loadConfig s t e → D.Meets p t e)
    (hrenew : ∀ t e, RenewAccount D.Rely p purpose newCn s t e → D.Meets p t e) :
    D.Safe machine p (renewSigningCa s.db.loadConfig purpose newCn) s := by
  unfold renewSigningCa
  split
  · trivial
  · rename_i ca hca
    split
    · trivial
    · refine follow_ensureCaIndexLoop hD hinv (fun _ h => h) hbackfill (Machine.Since.refl s) ?_
      intro t₁ h₁
      refine follow_look hD ?_
      intro root _ hroot _
      refine follow_look hD ?_
      intro incumbent _ hincumbent _
      refine follow_ceremony hD
        ⟨purpose, (activeCa incumbent.db s.db.loadConfig purpose).gen + 1, newCn, _⟩ none
        hincumbent ?_
      intro at_ t e hat hsigning hmint
      subst hat
      exact hrenew t e ⟨at_, incumbent, ca, hca, h₁.trans hroot.mild, hincumbent, hsigning, hmint⟩

theorem follow_resolveCaCn
    (hD : Lenient D)
    {config : Config}
    {selector : String}
    {next : String → Command}
    (h : ∀ t, Still D.Rely p s t →
      D.Safe machine p (next (resolveName t.db config selector)) t) :
    D.Safe machine p (resolveCaCn config selector next) s := by
  unfold resolveCaCn
  unfold resolveName purposeOf at h
  simp only
  split
  · rename_i hroot
    simp only [if_pos hroot] at h
    exact follow_look hD fun t _ ht _ => h t ht
  · rename_i hroot
    simp only [if_neg hroot] at h
    split
    · rename_i hpurpose
      simp only [if_pos hpurpose] at h
      exact follow_look hD fun t _ ht _ => h t ht
    · rename_i hpurpose
      simp only [if_neg hpurpose] at h
      split
      · rename_i hsigning
        simp only [if_pos hsigning] at h
        split
        · rename_i ca hcas
          simp only [hcas] at h
          exact follow_look hD fun t _ ht _ => h t ht
        · trivial
      · rename_i hsigning
        simp only [if_neg hsigning] at h
        exact h s (Machine.Since.refl s)

theorem follow_revokeCa
    (hD : Lenient D)
    {inv : Store → Prop}
    (hinv : ∀ t, D.inv t → inv t)
    {selector : String}
    {reason : Reason}
    (hbackfill : ∀ t e, BackfillAccount D.Rely p inv s.db.loadConfig s t e → D.Meets p t e)
    (hrevoke : ∀ t e, RevokeCaAccount D.Rely p s t e → SelectAccount D.Rely p selector s t e →
      D.Meets p t e) :
    D.Safe machine p (revokeCa s.db.loadConfig selector reason) s := by
  refine follow_ensureCaIndexLoop hD hinv (fun _ h => h) hbackfill (Machine.Since.refl s) ?_
  intro t₁ h₁
  refine follow_look hD ?_
  intro t₂ _ h₂ _
  simp only
  split
  · trivial
  · rename_i hroot
    refine follow_resolveCaCn hD ?_
    intro t₃ h₃
    split
    · trivial
    · rename_i hname
      refine follow_look hD ?_
      intro named _ hnamed _
      split
      · trivial
      · rename_i victim hvictim
        refine follow_look hD ?_
        intro active _ hactive _
        split
        · trivial
        · rename_i hgen
          refine follow_look hD ?_
          intro t₄ _ h₄ _
          split
          · trivial
          · refine follow_look hD ?_
            intro file _ hfile _
            split
            · trivial
            · rename_i victimCert hpem
              refine follow_look hD ?_
              intro t₅ _ h₅ _
              split
              · trivial
              · refine follow_look hD ?_
                intro t₆ _ h₆ _
                split
                · trivial
                · refine follow_caKey hD ?_
                  intro t₇ key h₇
                  refine follow_beginWrite hD ?_
                  intro t₈ h₈ _
                  refine follow_look hD ?_
                  intro t₉ _ h₉ _
                  split
                  · exact follow_abort hD
                  · refine follow_rewriteCrl hD ?_
                    intro t₁₀ h₁₀
                    refine follow_commitWrite hD ?_
                    intro t h₁₁
                    have htoFile := h₄.trans hfile
                    have htoCommit :=
                      (((h₅.trans h₆).trans (h₇.trans h₈)).trans (h₉.trans h₁₀)).trans h₁₁
                    refine hrevoke t _ ⟨named, active, file, victim, _, victimCert, reason, t.now,
                      ?_, hvictim, hactive, hgen, htoFile, hpem, htoCommit, rfl⟩
                      ⟨t₂, t₃, named, victim, victimCert, reason, t.now, ?_, ?_, ?_, h₃, hname,
                        hnamed, hvictim, ?_, rfl⟩
                    · exact h₁.trans ((h₂.mild.trans h₃.mild).trans hnamed.mild)
                    · exact h₁.trans h₂.mild
                    · exact fun heq => hroot (Or.inl heq)
                    · exact fun heq => hroot (Or.inr heq)
                    · exact (hactive.trans htoFile).trans htoCommit

theorem follow_revoke
    (hD : Lenient D)
    {config : Config}
    {target : Profile}
    {cn serial : String}
    {reason : Reason}
    (h : ∀ t fp at_, D.Meets p t (.commit (.revoke fp reason at_))) :
    D.Safe machine p (revoke config target cn serial reason) s := by
  refine follow_look hD ?_
  intro t₁ _ _ _
  split
  · trivial
  · refine follow_look hD ?_
    intro t₂ _ _ _
    split
    · trivial
    · refine follow_look hD ?_
      intro t₃ _ _ _
      split
      · trivial
      · split
        · trivial
        · refine follow_look hD ?_
          intro t₄ _ _ _
          split
          · trivial
          · refine follow_look hD ?_
            intro t₅ _ _ _
            split
            · trivial
            · refine follow_caKey hD ?_
              intro t₆ key _
              refine follow_beginWrite hD ?_
              intro t₇ _ _
              refine follow_look hD ?_
              intro t₈ _ _ _
              split
              · exact follow_abort hD
              · refine follow_look hD ?_
                intro t₉ _ _ _
                split
                · exact follow_abort hD
                · refine follow_rewriteCrl hD ?_
                  intro t₁₀ _
                  exact follow_commitWrite hD fun t _ => h t _ _

theorem follow_collectJobs
    (hD : Lenient D)
    {config : Config}
    {kind : CaKind}
    {horizon now : Nat}
    {next : List Job → Command}
    {cas : List CaGen}
    {jobs : List Job}
    (h : ∀ t jobs, D.Safe machine p (next jobs) t) :
    D.Safe machine p (collectJobs config kind horizon now next cas jobs) s := by
  induction cas generalizing s jobs with
  | nil => exact h s jobs
  | cons g rest ih =>
      unfold collectJobs
      split
      · trivial
      · refine follow_look hD ?_
        intro t₁ _ _ _
        split
        · trivial
        · refine follow_look hD ?_
          intro t₂ _ _ _
          split
          · trivial
          · split
            · exact ih
            · exact ih

theorem follow_loadKeys
    (hD : Lenient D)
    {next : List (Job × KeyPair) → Command}
    {jobs : List Job}
    {keyed : List (Job × KeyPair)}
    (h : ∀ t keyed, D.Safe machine p (next keyed) t) :
    D.Safe machine p (loadKeys next jobs keyed) s := by
  induction jobs generalizing s keyed with
  | nil => exact h s keyed
  | cons j rest ih => exact follow_caKey hD fun t pair _ => ih

theorem follow_refreshJobs
    (hD : Lenient D)
    {next : Command}
    {jobs : List (Job × KeyPair)}
    (h : ∀ t, D.Safe machine p next t) :
    D.Safe machine p (refreshJobs next jobs) s := by
  induction jobs generalizing s with
  | nil => exact h s
  | cons j rest ih =>
      obtain ⟨job, key⟩ := j
      refine follow_look hD ?_
      intro t₁ _ _ _
      split
      · exact follow_abort hD
      · exact follow_rewriteCrl hD fun t _ => ih

theorem follow_refreshCrl
    (hD : Lenient D)
    {config : Config}
    {scope : CrlScope}
    (h : ∀ t, D.Meets p t (.commit .nothing)) :
    D.Safe machine p (refreshCrl config scope) s := by
  have hscope : ∀ (t : Store) (now : Nat) (kind : CaKind) (wanted : Bool) (jobs : List Job)
      (next : List Job → Command), (∀ u jobs, D.Safe machine p (next jobs) u) →
      D.Safe machine p (refreshCrl.collectScope config now kind wanted jobs next) t := by
    intro t now kind wanted jobs next hnext
    unfold refreshCrl.collectScope
    split
    · exact follow_look hD fun u _ _ _ => follow_collectJobs hD hnext
    · exact hnext t jobs
  refine follow_look hD ?_
  intro t₁ _ _ _
  refine hscope _ _ _ _ _ _ ?_
  intro t₂ jobs
  refine hscope _ _ _ _ _ _ ?_
  intro t₃ jobs'
  split
  · trivial
  · refine follow_loadKeys hD ?_
    intro t₄ keyed
    refine follow_beginWrite hD ?_
    intro t₅ _ _
    refine follow_refreshJobs hD ?_
    intro t₆
    exact follow_commitWrite hD fun t _ => h t

theorem follow_enroll
    (hD : Lenient D)
    {id : String}
    (h : ∀ t created, D.Meets p t (.commit (.enroll id created))) :
    D.Safe machine p (enroll id) s := by
  unfold enroll
  split
  · trivial
  · refine follow_beginWrite hD ?_
    intro t₁ _ _
    refine follow_look hD ?_
    intro t₂ _ _ _
    split
    · exact follow_abort hD
    · exact follow_commitWrite hD fun t _ => h t _

theorem follow_getNonce
    (hD : Lenient D)
    {id : String}
    (h : ∀ t e, NonceAccount D.Rely p id t e → D.Meets p t e) :
    D.Safe machine p (getNonce id) s := by
  refine follow_beginWrite hD ?_
  intro begun _ hlock
  refine follow_look hD ?_
  intro found _ hfound _
  split
  · exact follow_abort hD
  · rename_i row hrow
    refine follow_look hD ?_
    intro clock k hclock _
    split
    · rename_i value hpending
      refine follow_commitWrite hD ?_
      intro t ht
      refine h t _ ⟨begun, found, clock, row, "", hlock, hfound, hrow, hclock, ht, ?_⟩
      rw [hpending]
    · rename_i hnone
      refine follow_commitWrite hD ?_
      intro t ht
      refine h t _ ⟨begun, found, clock, row, k.nonce, hlock, hfound, hrow, hclock, ht, ?_⟩
      rw [hnone]

end Commands

/-- Every call accounts for what it does. -/
theorem accounts_start
    (inv : Store → Prop)
    (Rely : Pid → Store → Store → Prop)
    (allow : Pid → Store → Event → Prop)
    (req : Request)
    (p : Pid)
    (s : Store) :
    (accounting inv Rely allow req).Safe machine p (start req) s := by
  have hD : Lenient (accounting inv Rely allow req) := fun _ _ _ he => Or.inl he
  refine follow_look hD ?_
  intro t _ _ _
  cases req with
  | issueEe profile cn valid =>
      simp only [Request.run]
      split
      · trivial
      · rename_i ca hca
        split
        · trivial
        · rename_i validity hvalid
          split
          · trivial
          · refine follow_issue hD ?_
            rintro at_ cert issuer purpose u rfl hissued
            exact Or.inr ⟨_, rfl, at_, ca, validity, cert, issuer, purpose, hca, hvalid, rfl,
              hissued⟩
  | signCsr profile id nonce cn csrKey valid =>
      simp only [Request.run]
      split
      · trivial
      · rename_i ca hca
        split
        · trivial
        · rename_i validity hvalid
          refine follow_issue hD ?_
          rintro at_ cert issuer purpose u rfl hissued
          exact Or.inr ⟨_, rfl, at_, ca, validity, cert, issuer, purpose, hca, hvalid, rfl,
            hissued⟩
  | revoke target cn serial reason =>
      simp only [Request.run]
      split
      · trivial
      · exact follow_revoke hD fun u fp at_ => Or.inr ⟨fp, _, at_, rfl⟩
  | revokeCa selector reason =>
      simp only [Request.run]
      split
      · trivial
      · exact follow_revokeCa hD (fun _ h => h) (fun u e h => Or.inr ⟨t, Or.inl h⟩)
          (fun u e h _ => Or.inr ⟨t, Or.inr h⟩)
  | refreshCrl scope => exact follow_refreshCrl hD fun u => Or.inr rfl
  | addSigningCa file purpose =>
      exact follow_addSigningCa hD (fun _ h => h) (fun u e h => Or.inr ⟨t, Or.inl h⟩)
        (fun u e h => Or.inr ⟨t, Or.inr h⟩)
  | renewSigningCa purpose newCn =>
      exact follow_renewSigningCa hD (fun _ h => h) (fun u e h => Or.inr ⟨t, Or.inl h⟩)
        (fun u e h => Or.inr ⟨t, Or.inr h⟩)
  | enroll id => exact follow_enroll hD fun u created => Or.inr ⟨created, rfl⟩
  | getNonce id => exact follow_getNonce hD fun u e h => Or.inr h

section Commits

variable {Rely : Pid → Store → Store → Prop} {p : Pid}

/-- The call that records a leaf, by what it asks for. -/
def Request.issues
    (profile : Profile)
    (cn : String)
    (valid : Option Nat)
    (csrKey : Option Key)
    (enrolled : Option (String × String)) : Request → Prop
  | .issueEe profile' cn' valid' =>
      profile' = profile ∧ cn' = cn ∧ valid' = valid ∧ csrKey = none ∧ enrolled = none
  | .signCsr profile' id nonce cn' csrKey' valid' =>
      profile' = profile ∧ cn' = cn ∧ valid' = valid ∧ csrKey = some csrKey' ∧
        enrolled = some (id, nonce)
  | _ => False

/-- Who commits a transaction, and what the call has seen. -/
def CommitAccount
    (Rely : Pid → Store → Store → Prop)
    (p : Pid)
    (req : Request)
    (t : Store)
    (tx : Tx) : Prop :=
  match tx with
  | .issue .. =>
      ∃ profile cn valid csrKey enrolled,
        req.issues profile cn valid csrKey enrolled ∧
        IssueAccount Rely p profile cn valid csrKey enrolled t tx
  | .revokeCa .. => ∃ read, RevokeCaAccount Rely p read t (.commit tx)
  | .generation .. =>
      ∃ read,
        (∃ file purpose, req = .addSigningCa file purpose ∧
          AddAccount Rely p file purpose read t (.commit tx)) ∨
        (∃ purpose newCn, req = .renewSigningCa purpose newCn ∧
          RenewAccount Rely p purpose newCn read t (.commit tx))
  | .nonce .. => ∃ id, req = .getNonce id ∧ NonceAccount Rely p id t (.commit tx)
  | _ => True

/-- A backfill is no commit. -/
theorem BackfillAccount.not_commit
    {inv : Store → Prop}
    {config : Config}
    {read t : Store}
    {tx : Tx} :
    ¬ BackfillAccount Rely p inv config read t (.commit tx) := by
  rintro ⟨_, _, _, _, _, _, _, _, _, _, htx⟩
  simp at htx

/-- A ceremony commits the generation it minted. -/
theorem MintAccount.commit
    {at_ : MintTimes}
    {config : Config}
    {ca : SigningCa}
    {next : CaGen}
    {lock : Option SigningCa}
    {t : Store}
    {tx : Tx}
    (h : MintAccount Rely p at_ config ca next lock t (.commit tx)) :
    ∃ cert key, tx = .generation next cert key lock := by
  obtain ⟨_, cert, _, ⟨_, hpublish⟩ | ⟨_, _, key, _, _, _, _, _, hcommit⟩⟩ := h
  · simp at hpublish
  · exact ⟨cert, key, Event.commit.inj hcommit⟩

theorem commit_cases
    {inv : Store → Prop}
    {req : Request}
    {t : Store}
    {tx : Tx}
    (h : Account Rely p inv req t (.commit tx)) :
    CommitAccount Rely p req t tx := by
  rcases h with hplain | h
  · simp [Event.plain] at hplain
  · cases req with
    | issueEe profile cn valid =>
        obtain ⟨tx', htx, hissue⟩ := h
        obtain rfl := Event.commit.inj htx
        have hcopy := hissue
        obtain ⟨_, _, _, _, _, _, _, _, rfl, _⟩ := hcopy
        exact ⟨_, _, _, _, _, ⟨rfl, rfl, rfl, rfl, rfl⟩, hissue⟩
    | signCsr profile id nonce cn csrKey valid =>
        obtain ⟨tx', htx, hissue⟩ := h
        obtain rfl := Event.commit.inj htx
        have hcopy := hissue
        obtain ⟨_, _, _, _, _, _, _, _, rfl, _⟩ := hcopy
        exact ⟨_, _, _, _, _, ⟨rfl, rfl, rfl, rfl, rfl⟩, hissue⟩
    | revoke target cn serial reason =>
        obtain ⟨_, _, _, htx⟩ := h
        obtain rfl := Event.commit.inj htx
        trivial
    | revokeCa selector reason =>
        obtain ⟨read, hback | hrevoke⟩ := h
        · exact absurd hback BackfillAccount.not_commit
        · have hcopy := hrevoke
          obtain ⟨_, _, _, _, _, _, _, _, _, _, _, _, _, _, _, htx⟩ := hcopy
          obtain rfl := Event.commit.inj htx
          exact ⟨read, hrevoke⟩
    | refreshCrl scope =>
        obtain rfl := Event.commit.inj h
        trivial
    | addSigningCa file purpose =>
        obtain ⟨read, hback | hadd⟩ := h
        · exact absurd hback BackfillAccount.not_commit
        · have hcopy := hadd
          obtain ⟨_, _, _, _, _, _, _, hmint⟩ := hcopy
          obtain ⟨cert, key, rfl⟩ := hmint.commit
          exact ⟨read, Or.inl ⟨file, purpose, rfl, hadd⟩⟩
    | renewSigningCa purpose newCn =>
        obtain ⟨read, hback | hrenew⟩ := h
        · exact absurd hback BackfillAccount.not_commit
        · have hcopy := hrenew
          obtain ⟨_, _, _, _, _, _, _, hmint⟩ := hcopy
          obtain ⟨cert, key, rfl⟩ := hmint.commit
          exact ⟨read, Or.inr ⟨purpose, newCn, rfl, hrenew⟩⟩
    | enroll id =>
        obtain ⟨_, htx⟩ := h
        obtain rfl := Event.commit.inj htx
        trivial
    | getNonce id =>
        have hnonce : NonceAccount Rely p id t (.commit tx) := h
        have hcopy := hnonce
        obtain ⟨_, _, clock, row, drawn, _, _, _, _, _, htx⟩ := hcopy
        have heq := Event.commit.inj htx
        split at heq
        · rw [heq]
          trivial
        · obtain rfl := heq
          exact ⟨id, rfl, hnonce⟩

/-- Only a ceremony publishes certificates. -/
theorem publish_cases
    {inv : Store → Prop}
    {req : Request}
    {t : Store}
    {slug : String}
    {issuer cert : Cert}
    (h : Account Rely p inv req t (.publish slug issuer (.pem cert))) :
    ∃ read,
      (∃ file purpose, req = .addSigningCa file purpose ∧
        AddAccount Rely p file purpose read t (.publish slug issuer (.pem cert))) ∨
      (∃ purpose newCn, req = .renewSigningCa purpose newCn ∧
        RenewAccount Rely p purpose newCn read t (.publish slug issuer (.pem cert))) := by
  rcases h with hplain | h
  · simp [Event.plain] at hplain
  · cases req with
    | revokeCa selector reason =>
        obtain ⟨read, ⟨_, _, _, _, _, _, _, _, _, _, htx⟩ | hrevoke⟩ := h
        · simp at htx
        · obtain ⟨_, _, _, _, _, _, _, _, _, _, _, _, _, _, _, htx⟩ := hrevoke
          simp at htx
    | addSigningCa file purpose =>
        obtain ⟨read, ⟨_, _, _, _, _, _, _, _, _, _, htx⟩ | hadd⟩ := h
        · simp at htx
        · exact ⟨read, Or.inl ⟨file, purpose, rfl, hadd⟩⟩
    | renewSigningCa purpose newCn =>
        obtain ⟨read, ⟨_, _, _, _, _, _, _, _, _, _, htx⟩ | hrenew⟩ := h
        · simp at htx
        · exact ⟨read, Or.inr ⟨purpose, newCn, rfl, hrenew⟩⟩
    | issueEe profile cn valid =>
        obtain ⟨_, htx, _⟩ := h
        simp at htx
    | signCsr profile id nonce cn csrKey valid =>
        obtain ⟨_, htx, _⟩ := h
        simp at htx
    | revoke target cn serial reason =>
        obtain ⟨_, _, _, htx⟩ := h
        simp at htx
    | refreshCrl scope => simp at h
    | enroll id =>
        obtain ⟨_, htx⟩ := h
        simp at htx
    | getNonce id =>
        obtain ⟨_, _, _, _, _, _, _, _, _, _, htx⟩ := h
        simp at htx

/-- The configuration a call works on: the file, or the one it read. -/
def Request.config (read : Store) : Request → Config
  | .addSigningCa file _ => file
  | _ => read.db.loadConfig

/-- Only `ensure_ca_index` backfills. -/
theorem backfill_cases
    {inv : Store → Prop}
    {req : Request}
    {t : Store}
    {row : CaRow}
    (h : Account Rely p inv req t (.backfill row)) :
    ∃ read, BackfillAccount Rely p inv (req.config read) read t (.backfill row) := by
  have hmint : ∀ {at_ config ca next lock},
      ¬ MintAccount Rely p at_ config ca next lock t (.backfill row) := by
    rintro _ _ _ _ _ ⟨_, _, _, ⟨_, htx⟩ | ⟨_, _, _, _, _, _, _, _, htx⟩⟩
    · simp at htx
    · simp at htx
  rcases h with hplain | h
  · simp [Event.plain] at hplain
  · cases req with
    | revokeCa selector reason =>
        obtain ⟨read, hback | hrevoke⟩ := h
        · exact ⟨read, hback⟩
        · obtain ⟨_, _, _, _, _, _, _, _, _, _, _, _, _, _, _, htx⟩ := hrevoke
          simp at htx
    | addSigningCa file purpose =>
        obtain ⟨read, hback | ⟨_, _, _, _, _, _, _, hadd⟩⟩ := h
        · exact ⟨read, hback⟩
        · exact absurd hadd hmint
    | renewSigningCa purpose newCn =>
        obtain ⟨read, hback | ⟨_, _, _, _, _, _, _, hrenew⟩⟩ := h
        · exact ⟨read, hback⟩
        · exact absurd hrenew hmint
    | issueEe profile cn valid =>
        obtain ⟨_, htx, _⟩ := h
        simp at htx
    | signCsr profile id nonce cn csrKey valid =>
        obtain ⟨_, htx, _⟩ := h
        simp at htx
    | revoke target cn serial reason =>
        obtain ⟨_, _, _, htx⟩ := h
        simp at htx
    | refreshCrl scope => simp at h
    | enroll id =>
        obtain ⟨_, htx⟩ := h
        simp at htx
    | getNonce id =>
        obtain ⟨_, _, _, _, _, _, _, _, _, _, htx⟩ := h
        simp at htx

end Commits

end Ca
end Yca
