import Yca.Ca.Accounts
import Yca.Ca.Founding

/-!
# Certificates and their issuers

Before a certificate is made, `outlives_issuer` compares the end of its
validity with the end of its issuer's; the certificate is dated by a second
reading of the clock.  What lies between the two readings decides: the check
passes for a certificate that just fits, and the certificate made a second later
outlives its issuer.

Dates are those of the source as long as its clock holds them (`OnClock`): with a
root that ends on the clock this is so of all that is issued in time.
-/

namespace Yca
namespace Ca

open Yca.Core

/-- The validity of the certificate a call makes. -/
def Request.validity (config : Config) : Request → Option Nat
  | .issueEe profile _ valid => (config.caForProfile profile).bind fun ca => leafValidity ca valid
  | .signCsr profile _ _ _ _ valid =>
      (config.caForProfile profile).bind fun ca => leafValidity ca valid
  | .addSigningCa file purpose => (file.ca purpose).map fun ca => ca.validDays * day
  | .renewSigningCa purpose _ => (config.ca purpose).map fun ca => ca.validDays * day
  | _ => none

/-- Where a call asked `outlives_issuer`: issuing in its fourth step, a ceremony
in the fourth before it publishes. -/
def Request.checked (past : List Store) : Request → Option Store
  | .issueEe .. => past[3]?
  | .signCsr .. => past[3]?
  | _ => past[past.length - 4]?

/-- What a call that issues a certificate has behind it: it read the
configuration and the issuer's file, asked `outlives_issuer` and dated the certificate in
its last step. -/
def Dated (req : Request) (past : List Store) (cert issuer : Cert) : Prop :=
  ∃ read validity check draw,
    past.head? = some read ∧
    (∃ file ∈ past, ∃ slug, file.pem slug = some issuer) ∧
    req.validity read.db.loadConfig = some validity ∧
    req.checked past = some check ∧
    past.getLast? = some draw ∧
    check.now + validity ≤ issuer.notAfter ∧
    cert.notAfter = draw.now + validity

/-- From the check to the dating of the certificate no more time passes than the
issuer had to spare at the check. -/
def Timely (req : Request) (past : List Store) (issuer : Cert) : Prop :=
  ∀ read ∈ past.head?, ∀ validity ∈ req.validity read.db.loadConfig,
    ∀ check ∈ req.checked past, ∀ draw ∈ past.getLast?,
      draw.now - check.now ≤ issuer.notAfter - (check.now + validity)

instance (req : Request) (past : List Store) (issuer : Cert) :
    Decidable (Timely req past issuer) := by
  unfold Timely
  infer_instance

/-- An issuing call is exactly as timely as its certificate is within its
issuer's life. -/
theorem Dated.timely_iff
    {req : Request}
    {past : List Store}
    {cert issuer : Cert}
    (h : Dated req past cert issuer) :
    Timely req past issuer ↔ cert.notAfter ≤ issuer.notAfter := by
  obtain ⟨read, validity, check, draw, hread, _, hvalidity, hcheck, hdraw, hlives, hafter⟩ := h
  constructor
  · intro htimely
    have hle := htimely read hread validity hvalidity check hcheck draw hdraw
    omega
  · intro hwithin read' hread' validity' hvalidity' check' hcheck' draw' hdraw'
    obtain rfl : read = read' := Option.some.inj (hread.symm.trans hread')
    obtain rfl : validity = validity' := Option.some.inj (hvalidity.symm.trans hvalidity')
    obtain rfl : check = check' := Option.some.inj (hcheck.symm.trans hcheck')
    obtain rfl : draw = draw' := Option.some.inj (hdraw.symm.trans hdraw')
    omega

section Steps

variable
  {Meets : List Store → Store → Event → Prop}
  (hM : ∀ past s e, e.issued = none → Meets past s e)
  {past : List Store}
include hM

theorem note_look
    {next : Choice → Store → Command}
    (h : ∀ k t, Script.Notes Meets (past ++ [t]) (next k t)) :
    Script.Notes Meets past (look next) := by
  intro k t _
  exact ⟨hM past t _ rfl, h k t⟩

theorem note_beginWrite
    {next : Command}
    (h : ∀ t, Script.Notes Meets (past ++ [t]) next) :
    Script.Notes Meets past (beginWrite next) := by
  intro k t _
  exact ⟨hM past t _ rfl, h t⟩

theorem note_abort :
    Script.Notes Meets past abort := by
  intro k t _
  exact ⟨hM past t _ rfl, trivial⟩

theorem note_commitWrite
    {tx : Store → Tx}
    (h : ∀ t, Meets past t (.commit (tx t))) :
    Script.Notes Meets past (commitWrite tx) := by
  intro k t _
  refine ⟨?_, trivial⟩
  show Meets past t (if ((tx t).run t.db).isSome = true then _ else _)
  split
  · exact h t
  · exact hM past t _ rfl

theorem note_key
    {α : Type}
    {found : Choice → Store → Option α}
    {use : α → KeyUse}
    {next : α → Command}
    (h : ∀ a t, Script.Notes Meets (past ++ [t]) (next a)) :
    Script.Notes Meets past (emitting found (fun a => .key (use a)) next) := by
  intro k t hready
  obtain ⟨a, ha⟩ := Option.isSome_iff_exists.mp hready
  simp only [ha, Option.map_some, Option.getD_some]
  exact ⟨hM past t _ rfl, h a t⟩

theorem note_ceremonyRootKey
    {config : Config}
    {rootCert : Cert}
    {slug : String}
    {next : KeyPair → Command}
    (h : ∀ pair t, Script.Notes Meets (past ++ [t]) (next pair)) :
    Script.Notes Meets past (ceremonyRootKey config rootCert slug next) := by
  unfold ceremonyRootKey
  split
  · exact note_key hM fun found t => h found.1 t
  · exact note_key hM h

theorem note_makeCaKey
    {spec : CaSpec}
    {slug : String}
    {next : KeyPair → Command}
    (h : ∀ pair t, Script.Notes Meets (past ++ [t]) (next pair)) :
    Script.Notes Meets past (makeCaKey spec slug next) := by
  unfold makeCaKey
  split
  · exact note_key hM fun found t => h found.1 t
  · exact note_key hM h

omit hM in
theorem note_publish
    {slug : String}
    {issuer : Cert}
    {file : Store → Artifact}
    {next : Command}
    (hpublish : ∀ t, Meets past t (.publish slug issuer (file t)))
    (h : ∀ t, Script.Notes Meets (past ++ [t]) next) :
    Script.Notes Meets past (publish slug issuer file next) := by
  intro k t _
  exact ⟨hpublish t, h t⟩

/-- The steps before a ceremony's own. -/
theorem note_ensureCaIndexLoop
    {config : Config}
    {next : Command}
    (h : ∀ more, Script.Notes Meets (past ++ more) next)
    {purposes : List String} :
    Script.Notes Meets past (ensureCaIndexLoop config next purposes) := by
  induction purposes generalizing past with
  | nil => simpa [ensureCaIndexLoop] using h []
  | cons purpose rest ih =>
      have hrest : ∀ more, Script.Notes Meets (past ++ more)
          (ensureCaIndexLoop config next rest) := by
        intro more
        refine ih fun more' => ?_
        rw [List.append_assoc]
        exact h (more ++ more')
      refine note_look hM fun _ t => ?_
      split
      · exact hrest [t]
      · refine note_look hM fun _ u => ?_
        split
        · intro k v _
          refine ⟨hM _ v _ rfl, ?_⟩
          simpa using hrest [t, u, v]
        · simpa using hrest [t, u]

end Steps

section Commands

variable
  {Meets : List Store → Store → Event → Prop}
  (hM : ∀ past s e, e.issued = none → Meets past s e)
  {past : List Store}
include hM

theorem note_checkNonce
    {enrolled : Option (String × String)}
    {refused next : Command}
    (hrefused : ∀ more, Script.Notes Meets (past ++ more) refused)
    (h : ∀ more, Script.Notes Meets (past ++ more) next) :
    Script.Notes Meets past (checkNonce enrolled refused next) := by
  cases enrolled with
  | none => simpa [checkNonce] using h []
  | some pair =>
      refine note_look hM fun _ t => ?_
      split
      · exact hrefused [t]
      · exact h [t]

theorem note_checkDuplicate
    {cn : String}
    {profile : Profile}
    {refused next : Command}
    (hrefused : ∀ more, Script.Notes Meets (past ++ more) refused)
    (h : ∀ more, Script.Notes Meets (past ++ more) next) :
    Script.Notes Meets past (checkDuplicate cn profile refused next) := by
  refine note_look hM fun _ t => ?_
  split
  · exact hrefused [t]
  · exact h [t]

/-- Issuing asks in its third step on and dates the leaf just before it
commits. -/
theorem note_issue
    {config : Config}
    {ca : SigningCa}
    {profile : Profile}
    {cn : String}
    {validity : Nat}
    {csrKey : Option Key}
    {enrolled : Option (String × String)}
    (h : ∀ active file check mid draw t cert issuer purpose slug,
      file.pem slug = some issuer →
      check.now + validity ≤ issuer.notAfter →
      cert.notAfter = draw.now + validity →
      Meets (past ++ ([active, file, check] ++ mid ++ [draw])) t
        (.commit (.issue cert issuer profile purpose (enrolled.map Prod.fst)))) :
    Script.Notes Meets past (issue config ca profile cn validity csrKey enrolled) := by
  refine note_look hM fun _ active => ?_
  refine note_look hM fun _ file => ?_
  split
  · trivial
  · rename_i signCert hpem
    refine note_look hM fun _ check => ?_
    split
    · trivial
    · rename_i hlives
      refine note_checkNonce hM (fun _ => trivial) fun m₁ => ?_
      refine note_checkDuplicate hM (fun _ => trivial) fun m₂ => ?_
      refine note_key hM fun key t₁ => ?_
      refine note_beginWrite hM fun t₂ => ?_
      refine note_checkNonce hM (fun _ => note_abort hM) fun m₃ => ?_
      refine note_checkDuplicate hM (fun _ => note_abort hM) fun m₄ => ?_
      refine note_look hM fun k draw => ?_
      refine note_commitWrite hM fun t => ?_
      have hmade := h active file check (m₁ ++ m₂ ++ [t₁, t₂] ++ m₃ ++ m₄) draw t
        { serial := k.serial
          subjectCn := cn
          issuerCn := signCert.subjectCn
          notBefore := draw.now
          notAfter := draw.now + validity
          ski := csrKey.getD k.key
          aki := signCert.ski
          publicKey := csrKey.getD k.key
          signedBy := key.priv }
        signCert (activeCa active.db config ca.purpose).purpose _ hpem
        (by simpa [outlivesIssuer] using hlives) rfl
      simpa [List.append_assoc] using hmade

/-- A ceremony asks, obtains two keys, dates the certificate and publishes it. -/
theorem note_mint
    {config : Config}
    {ca : SigningCa}
    {root gen : CaGen}
    {next : Cert → KeyPair → Command}
    (h : ∀ more check key₁ key₂ draw t cert issuer,
      (∃ file ∈ more, file.pem root.slug = some issuer) →
      check.now + ca.validDays * day ≤ issuer.notAfter →
      cert.notAfter = draw.now + ca.validDays * day →
      Meets (past ++ more ++ [check, key₁, key₂, draw]) t
        (.publish gen.slug issuer (.pem cert)))
    (hnext : ∀ more cert key, Script.Notes Meets (past ++ more) (next cert key)) :
    Script.Notes Meets past (mintCaGeneration config ca root gen next) := by
  refine note_look hM fun _ file => ?_
  split
  · trivial
  · rename_i rootCert hpem
    refine note_look hM fun _ check => ?_
    split
    · trivial
    · rename_i hlives
      refine note_ceremonyRootKey hM fun rootKey t₁ => ?_
      refine note_makeCaKey hM fun key t₂ => ?_
      refine note_look hM fun k draw => ?_
      refine note_publish ?_ fun t₃ => ?_
      · intro t
        have hmade := h [file] check t₁ t₂ draw t
          { serial := k.serial
            subjectCn := gen.cn
            issuerCn := rootCert.subjectCn
            notBefore := draw.now
            notAfter := draw.now + ca.validDays * day
            ski := key.pub
            aki := rootCert.ski
            publicKey := key.pub
            signedBy := rootKey.priv }
          rootCert ⟨file, List.mem_singleton_self file, hpem⟩
          (by simpa [outlivesIssuer] using hlives) rfl
        simpa [List.append_assoc] using hmade
      · refine note_publish (fun t => hM _ t _ rfl) fun t₄ => ?_
        refine note_publish (fun t => hM _ t _ rfl) fun t₅ => ?_
        simpa [List.append_assoc] using
          hnext [file, check, t₁, t₂, draw, t₃, t₄, t₅] _ key

theorem note_unlessCnTaken
    {root : CaGen}
    {cn : String}
    {next : Command}
    (h : ∀ more, Script.Notes Meets (past ++ more) next) :
    Script.Notes Meets past (unlessCnTaken root cn next) := by
  unfold unlessCnTaken
  split
  · trivial
  · refine note_look hM fun _ t => ?_
    split
    · trivial
    · refine note_look hM fun _ u => ?_
      split
      · trivial
      · simpa using h [t, u]

/-- What follows the publishing of a ceremony issues nothing. -/
theorem note_record
    {tx : Tx}
    (htx : (Event.commit tx).issued = none) :
    Script.Notes Meets past (beginWrite (commitWrite fun _ => tx)) :=
  note_beginWrite hM fun _ => note_commitWrite hM fun t => hM _ t _ htx

/-- The ceremony of a request: its check, its dating, and the issuer. -/
theorem note_ceremony
    {config : Config}
    {ca : SigningCa}
    {root : CaGen}
    (gen : CaGen)
    {lock : Option SigningCa}
    (h : ∀ more check key₁ key₂ draw t cert issuer,
      (∃ file ∈ more, file.pem root.slug = some issuer) →
      check.now + ca.validDays * day ≤ issuer.notAfter →
      cert.notAfter = draw.now + ca.validDays * day →
      Meets (past ++ more ++ [check, key₁, key₂, draw]) t
        (.publish gen.slug issuer (.pem cert))) :
    Script.Notes Meets past
      (unlessCnTaken root gen.cn <|
        mintCaGeneration config ca root gen fun cert key =>
        beginWrite <|
        commitWrite fun _ => .generation gen cert (persisted ca key) lock) := by
  refine note_unlessCnTaken hM fun more => ?_
  refine note_mint hM ?_ fun _ _ _ => note_record hM rfl
  intro more' check key₁ key₂ draw t cert issuer hfile hlives hafter
  have hread : ∃ file ∈ more ++ more', file.pem root.slug = some issuer := by
    obtain ⟨file, hmem, hpem⟩ := hfile
    exact ⟨file, List.mem_append_right more hmem, hpem⟩
  simpa [List.append_assoc] using
    h (more ++ more') check key₁ key₂ draw t cert issuer hread hlives hafter

end Commands

section Requests

/-- What a request issues is dated. -/
def Dates (req : Request) (past : List Store) (_ : Store) (e : Event) : Prop :=
  ∀ cert issuer, e.issued = some (cert, issuer) → Dated req past cert issuer

theorem dates_plain
    (req : Request)
    (past : List Store)
    (s : Store)
    (e : Event)
    (he : e.issued = none) :
    Dates req past s e := by
  intro cert issuer hissued
  rw [he] at hissued
  simp at hissued

/-- The requests that issue certificates. -/
def Request.issuing : Request → Bool
  | .issueEe .. => true
  | .signCsr .. => true
  | .addSigningCa .. => true
  | .renewSigningCa .. => true
  | _ => false

theorem issued_of_plain
    {e : Event}
    (he : e.plain = true) :
    e.issued = none := by
  cases e with
  | commit tx => simp [Event.plain] at he
  | publish slug issuer file =>
      cases file with
      | pem cert => simp [Event.plain] at he
      | _ => rfl
  | _ => rfl

/-- The other requests issue none. -/
theorem issued_of_account
    {Rely : Pid → Store → Store → Prop}
    {p : Pid}
    {inv : Store → Prop}
    {req : Request}
    (hreq : req.issuing = false)
    {s : Store}
    {e : Event}
    (h : Account Rely p inv req s e) :
    e.issued = none := by
  rcases h with hplain | h
  · exact issued_of_plain hplain
  · cases req with
    | revoke target cn serial reason =>
        obtain ⟨_, _, _, rfl⟩ := h
        rfl
    | revokeCa selector reason =>
        obtain ⟨_, ⟨_, _, _, _, _, _, _, _, _, _, rfl⟩ | hrevoke⟩ := h
        · rfl
        · obtain ⟨_, _, _, _, _, _, _, _, _, _, _, _, _, _, _, rfl⟩ := hrevoke
          rfl
    | refreshCrl scope =>
        obtain rfl : e = .commit .nothing := h
        rfl
    | enroll id =>
        obtain ⟨_, rfl⟩ := h
        rfl
    | getNonce id =>
        obtain ⟨_, _, _, row, _, _, _, _, _, _, rfl⟩ := h
        split <;> rfl
    | _ => simp [Request.issuing] at hreq

theorem dates_of_safe
    {req : Request}
    (hreq : req.issuing = false) :
    (start req).Notes (Dates req) [] := by
  have hsafe := accounts_start (fun _ => True) (fun _ _ _ => True) (fun _ _ _ => True) req 0
    sampleStore
  refine (Script.notes_of_safe (fun _ _ => trivial) (fun _ => trivial) (fun _ _ => trivial)
    hsafe []).mono ?_
  intro past s e haccount
  exact dates_plain req past s e (issued_of_account hreq haccount)

/-- A leaf is dated. -/
theorem dates_issue
    {req : Request}
    {read : Store}
    {ca : SigningCa}
    {profile : Profile}
    {cn : String}
    {validity : Nat}
    {csrKey : Option Key}
    {enrolled : Option (String × String)}
    (hvalidity : req.validity read.db.loadConfig = some validity)
    (hchecked : ∀ past : List Store, req.checked past = past[3]?) :
    Script.Notes (Dates req) [read]
      (issue read.db.loadConfig ca profile cn validity csrKey enrolled) := by
  refine note_issue (dates_plain req) ?_
  intro active file check mid draw t cert issuer purpose slug hpem hlives hafter cert' issuer' hissued
  obtain ⟨rfl, rfl⟩ := Prod.mk.inj (Option.some.inj hissued)
  refine ⟨read, validity, check, draw, rfl, ⟨file, by simp, slug, hpem⟩, hvalidity, ?_, ?_,
    hlives, hafter⟩
  · rw [hchecked]
    rfl
  · rw [← List.append_assoc]
    exact List.getLast?_concat

/-- A generation is dated. -/
theorem dates_publish
    {req : Request}
    {read check key₁ key₂ draw t : Store}
    {more : List Store}
    {slug : String}
    {cert issuer : Cert}
    {validity : Nat}
    (hvalidity : req.validity read.db.loadConfig = some validity)
    (hchecked : ∀ past : List Store, req.checked past = past[past.length - 4]?)
    {rootSlug : String}
    (hfile : ∃ file ∈ more, file.pem rootSlug = some issuer)
    (hlives : check.now + validity ≤ issuer.notAfter)
    (hafter : cert.notAfter = draw.now + validity) :
    Dates req (([read] ++ more) ++ [check, key₁, key₂, draw]) t
      (.publish slug issuer (.pem cert)) := by
  intro cert' issuer' hissued
  obtain ⟨rfl, rfl⟩ := Prod.mk.inj (Option.some.inj hissued)
  obtain ⟨file, hmem, hpem⟩ := hfile
  refine ⟨read, validity, check, draw, rfl, ⟨file, by simp [hmem], rootSlug, hpem⟩, hvalidity,
    ?_, ?_, hlives, hafter⟩
  · rw [hchecked, List.length_append]
    simp
  · rw [List.getLast?_append]
    rfl

/-- So is what a ceremony publishes. -/
theorem dates_ceremony
    {req : Request}
    {read : Store}
    {past : List Store}
    (more : List Store)
    (hpast : past = read :: more)
    {config : Config}
    {ca : SigningCa}
    {root : CaGen}
    (gen : CaGen)
    {lock : Option SigningCa}
    (hvalidity : req.validity read.db.loadConfig = some (ca.validDays * day))
    (hchecked : ∀ past : List Store, req.checked past = past[past.length - 4]?) :
    Script.Notes (Dates req) past
      (unlessCnTaken root gen.cn <|
        mintCaGeneration config ca root gen fun cert key =>
        beginWrite <|
        commitWrite fun _ => .generation gen cert (persisted ca key) lock) := by
  refine note_ceremony (dates_plain req) gen ?_
  intro more' check key₁ key₂ draw t cert issuer hfile hlives hafter
  obtain ⟨file, hmem, hpem⟩ := hfile
  have hdated : Dates req (([read] ++ (more ++ more')) ++ [check, key₁, key₂, draw]) t
      (.publish gen.slug issuer (.pem cert)) :=
    dates_publish hvalidity hchecked ⟨file, List.mem_append_right _ hmem, hpem⟩ hlives hafter
  rw [hpast]
  simpa [List.append_assoc] using hdated

theorem dates_start (req : Request) :
    (start req).Notes (Dates req) [] := by
  cases req with
  | issueEe profile cn valid =>
      refine note_look (dates_plain _) fun _ read => ?_
      simp only [Request.run]
      split
      · trivial
      · rename_i ca hca
        split
        · trivial
        · rename_i validity hvalid
          split
          · trivial
          · refine dates_issue ?_ fun _ => rfl
            show (read.db.loadConfig.caForProfile profile).bind _ = _
            rw [hca]
            exact hvalid
  | signCsr profile id nonce cn csrKey valid =>
      refine note_look (dates_plain _) fun _ read => ?_
      simp only [Request.run]
      split
      · trivial
      · rename_i ca hca
        split
        · trivial
        · rename_i validity hvalid
          refine dates_issue ?_ fun _ => rfl
          show (read.db.loadConfig.caForProfile profile).bind _ = _
          rw [hca]
          exact hvalid
  | addSigningCa file purpose =>
      refine note_look (dates_plain _) fun _ read => ?_
      simp only [Request.run]
      unfold addSigningCa
      split
      · trivial
      · rename_i ca hca
        refine note_ensureCaIndexLoop (dates_plain _) fun more => ?_
        refine note_look (dates_plain _) fun _ held => ?_
        split
        · trivial
        · refine note_look (dates_plain _) fun _ root => ?_
          exact dates_ceremony (more ++ [held] ++ [root]) rfl ⟨purpose, 1, ca.cn, ca.slug⟩
            (by simp [Request.validity, hca]) fun _ => rfl
  | renewSigningCa purpose newCn =>
      refine note_look (dates_plain _) fun _ read => ?_
      simp only [Request.run]
      unfold renewSigningCa
      split
      · trivial
      · rename_i ca hca
        split
        · trivial
        · refine note_ensureCaIndexLoop (dates_plain _) fun more => ?_
          refine note_look (dates_plain _) fun _ root => ?_
          refine note_look (dates_plain _) fun _ incumbent => ?_
          exact dates_ceremony (more ++ [root] ++ [incumbent]) rfl ⟨purpose, _, newCn, _⟩
            (by simp [Request.validity, hca]) fun _ => rfl
  | _ => exact dates_of_safe rfl

end Requests

section Runs

/-- Every certificate issued ends no later than the one it was issued under. -/
def Within (s : Store) : Prop :=
  ∀ e ∈ s.log, ∀ cert issuer, e.issued = some (cert, issuer) → cert.notAfter ≤ issuer.notAfter

/-- Every certificate issued ends on the clock. -/
def IssuedOnClock (s : Store) : Prop :=
  ∀ e ∈ s.log, ∀ cert issuer, e.issued = some (cert, issuer) → OnClock cert.notAfter

/-- So does every certificate that may be read from a file. -/
structure Timed (s : Store) : Prop where
  within : Within s
  issued : IssuedOnClock s
  files : ∀ slug cert, s.pem slug = some cert → OnClock cert.notAfter

/-- The runs in which every issuing call is timely. -/
def timelyCalls : ycaRecords.Guarded :=
  machine.recordPolicy start fun req past _ e => ∀ issued ∈ e.issued, Timely req past issued.2

/-- All runs. -/
def allCalls : ycaRecords.Guarded :=
  machine.recordPolicy start fun _ _ _ _ => True

instance (w : World Store (Recorded Store Request Command)) (a : Action Choice Request Outside) :
    Decidable (timelyCalls w a) := by
  unfold timelyCalls
  infer_instance

instance (w : World Store (Recorded Store Request Command)) (a : Action Choice Request Outside) :
    Decidable (allCalls w a) := by
  unfold allCalls
  infer_instance

/-- Of the files only an issued certificate is new. -/
theorem pem_apply
    {s : Store}
    {p : Pid}
    {e : Event}
    {slug : String}
    {cert : Cert}
    (h : (s.apply p e).pem slug = some cert) :
    s.pem slug = some cert ∨ ∃ issuer, e.issued = some (cert, issuer) := by
  cases e with
  | publish slug' issuer file =>
      cases file with
      | pem cert' =>
          by_cases hslug : slug = slug'
          · subst hslug
            have hsame : Function.update s.pem slug (some cert') slug = some cert := h
            rw [Function.update_self] at hsame
            obtain rfl := Option.some.inj hsame
            exact Or.inr ⟨issuer, rfl⟩
          · have hother : Function.update s.pem slug' (some cert') slug = some cert := h
            rw [Function.update_of_ne hslug] at hother
            exact Or.inl hother
      | _ => exact Or.inl h
  | key use =>
      rw [(apply_key_db p use s).2.2.1] at h
      exact Or.inl h
  | _ => exact Or.inl h

theorem Timed.event
    {s : Store}
    (h : Timed s)
    {p : Pid}
    {e : Event}
    (he : ∀ cert issuer, e.issued = some (cert, issuer) →
      cert.notAfter ≤ issuer.notAfter ∧ OnClock cert.notAfter) :
    Timed (s.apply p e) where
  within := by
    intro x hx cert issuer hissued
    rcases mem_log_apply hx with hold | rfl
    · exact h.within x hold cert issuer hissued
    · exact (he cert issuer hissued).1
  issued := by
    intro x hx cert issuer hissued
    rcases mem_log_apply hx with hold | rfl
    · exact h.issued x hold cert issuer hissued
    · exact (he cert issuer hissued).2
  files := by
    intro slug cert hpem
    rcases pem_apply hpem with hold | ⟨issuer, hissued⟩
    · exact h.files slug cert hold
    · exact (he cert issuer hissued).2

theorem FoundedOnClock.timed
    {s : Store}
    (h : FoundedOnClock s) :
    Timed s where
  within _ he _ _ hissued := (h.1.issued_within he hissued).1
  issued e he cert issuer hissued := by
    obtain ⟨hwithin, hend⟩ := h.1.issued_within he hissued
    exact h.2.mono (hend ▸ hwithin)
  files _ _ hpem := h.2.mono (h.1.files_within hpem)

/-- In every run whose issuing calls are timely no certificate outlives its
issuer, or the clock; and in every run whatsoever a certificate is within its
issuer's life exactly when the call that issues it is timely, both ending on the
clock. -/
theorem issued_within_issuer_iff_timely (w : World Store (Recorded Store Request Command)) :
    ((ycaRecords.system FoundedOnClock).Reachable timelyCalls w →
      Within w.shared ∧ IssuedOnClock w.shared) ∧
    ∀ p k c e cert issuer,
      (ycaRecords.system FoundedOnClock).Reachable allCalls w →
      w.procs p = some c →
      c.rest.event k w.shared = some e →
      e.issued = some (cert, issuer) →
      OnClock cert.notAfter → OnClock issuer.notAfter →
      (Timely c.call c.past issuer ↔ cert.notAfter ≤ issuer.notAfter) := by
  constructor
  · intro hw
    have htimed : Timed w.shared := by
      refine (Machine.records_hold (P := Timed) dates_start (fun _ hs => hs.timed) ?_ ?_ ?_ hw).shared
      · intro req past p s e hs hpast hallow hdates
        refine hs.event ?_
        intro cert issuer hissued
        have hdated := hdates cert issuer hissued
        have hle := hdated.timely_iff.mp (hallow _ hissued)
        obtain ⟨_, _, _, _, _, ⟨file, hfile, slug, hpem⟩, _⟩ := hdated
        exact ⟨hle, ((hpast file hfile).files slug issuer hpem).mono hle⟩
      · intro p s hs
        show Timed (s.die p)
        unfold Store.die
        split
        · exact ⟨hs.within, hs.issued, hs.files⟩
        · exact hs
      · intro x s s' hs hx
        cases x with
        | tick seconds =>
            rw [← Option.some.inj hx]
            exact ⟨hs.within, hs.issued, hs.files⟩
        | token label objects =>
            rw [← Option.some.inj hx]
            exact ⟨hs.within, hs.issued, hs.files⟩
    exact ⟨htimed.within, htimed.issued⟩
  · intro p k c e cert issuer hw hc he hissued _ _
    exact (Machine.records_noted dates_start hw hc he cert issuer hissued).timely_iff

/-- The last moment at which a leaf of 90 days fits under the first generation
of `tls`. -/
def lastMoment : Nat := (1825 - 90) * day

/-- A leaf is issued at that moment, with a second gone by between the check and
the dating. -/
def lateLabels (late : Nat) : List (Action Choice Request Outside) :=
  [.env (.tick lastMoment), .spawn 1 (.issueEe .server "a.ca" none)] ++ acts 1 4 (sampleChoice 31) ++
    [.env (.tick late)] ++ acts 1 5 (sampleChoice 32)

theorem issued_within_issuer_iff_timely_sample :
    ∃ w : World Store (Recorded Store Request Command),
      (w.shared.log.any fun e => e matches .commit (.issue ..)) = true ∧ Within w.shared ∧
      IssuedOnClock w.shared := by
  have h :
      ((ycaRecords.system FoundedOnClock).follow timelyCalls (World.idle sampleStore)
        (lateLabels 0 ++ acts 1 1 (sampleChoice 33))).any
        (fun w => w.shared.log.any fun e => e matches .commit (.issue ..)) = true := by
    decide
  obtain ⟨w, hrun, hcheck⟩ := Automaton.Run.exists_of_follow h
  exact ⟨w, hcheck, (issued_within_issuer_iff_timely w).1 (Automaton.Reachable.of_run
    (M := ycaRecords.system FoundedOnClock) ⟨sampleStore_onClock, World.idle_quiet _⟩ hrun)⟩

theorem issued_beyond_issuer :
    ¬ ∀ w, (ycaRecords.system FoundedOnClock).Reachable allCalls w → Within w.shared := by
  intro hall
  have h :
      ((ycaRecords.system FoundedOnClock).follow allCalls (World.idle sampleStore)
        (lateLabels 1 ++ acts 1 1 (sampleChoice 33))).any
        (fun w => w.shared.log.any fun e => e.issued.any fun issued =>
          decide (issued.2.notAfter < issued.1.notAfter)) = true := by
    decide
  obtain ⟨w, hrun, hcheck⟩ := Automaton.Run.exists_of_follow h
  have hwithin := hall w (Automaton.Reachable.of_run
    (M := ycaRecords.system FoundedOnClock) ⟨sampleStore_onClock, World.idle_quiet _⟩ hrun)
  simp only [List.any_eq_true, Option.any_eq_true, decide_eq_true_eq] at hcheck
  obtain ⟨e, he, ⟨cert, issuer⟩, hissued, hlate⟩ := hcheck
  exact Nat.not_le.mpr hlate (hwithin e he cert issuer hissued)

end Runs

end Ca
end Yca
