import Yca.Ca.Safety
import Yca.Ca.Initial

/-!
# The keys behind certificates and CRLs

A key in the store is found by the certificate it belongs to.  A key on a token
is found by its label and curve alone, and is generated where a ceremony finds
none; nothing compares it with the certificate it is meant for.  As long as
every token holds the keys that the recorded certificates certify, everything a
command writes verifies under the recorded certificate of its issuer.
-/

namespace Yca
namespace Ca

open Yca.Core

/-- `cert_index` records this certificate for a CA. -/
def Db.RecordsCa (db : Db) (cert : Cert) : Prop :=
  ∃ row ∈ db.certIndex, row.isLeaf = false ∧ row.fingerprint = cert

/-- A CA certificate recorded under this name certifies this key. -/
def Db.Certifies (db : Db) (cn : String) (key : Key) : Prop :=
  ∃ row ∈ db.certIndex,
    row.isLeaf = false ∧ row.fingerprint.subjectCn = cn ∧ row.fingerprint.publicKey = key

instance (db : Db) (cn : String) (key : Key) : Decidable (db.Certifies cn key) :=
  inferInstanceAs (Decidable (∃ row ∈ db.certIndex, _ ∧ _ ∧ _))

/-- The private key is the one the recorded certificate of its CA certifies; before
there is a certificate, the one of the public point that goes into it. -/
def KeyUse.Fits (db : Db) (use : KeyUse) : Prop :=
  match use.holder with
  | some cert => db.Certifies cert.subjectCn use.pair.priv
  | none => use.pair.priv = use.pair.pub

instance (db : Db) (use : KeyUse) : Decidable (use.Fits db) := by
  unfold KeyUse.Fits
  split <;> infer_instance

/-- A key that came from a token fits. -/
def Event.TokenFits (db : Db) : Event → Prop
  | .key use => use.spec.keyBackend = .pkcs11 → use.Fits db
  | _ => True

instance (db : Db) : (e : Event) → Decidable (e.TokenFits db)
  | .key use => (inferInstance : Decidable (use.spec.keyBackend = .pkcs11 → use.Fits db))
  | .quiet | .begin | .rollback | .backfill _ | .publish .. | .rewrite _ | .commit _ =>
      instDecidableTrue

/-- What an event writes verifies under the recorded certificate of its issuer.
The first CRL of a generation verifies under the certificate that its ceremony
goes on to record. -/
def Event.Verifies (db : Db) : Event → Prop
  | .publish _ issuer (.pem cert) => db.Certifies issuer.subjectCn cert.signedBy
  | .publish _ issuer (.crt cert) => db.Certifies issuer.subjectCn cert.signedBy
  | .publish _ issuer (.crl crl) => crl.signedBy = issuer.publicKey
  | .rewrite w => db.Certifies w.signer.subjectCn w.crl.signedBy
  | .commit (.issue cert issuer _ _ _) => db.Certifies issuer.subjectCn cert.signedBy
  | _ => True

instance (db : Db) : (e : Event) → Decidable (e.Verifies db)
  | .publish _ issuer (.pem cert) | .publish _ issuer (.crt cert) =>
      (inferInstance : Decidable (db.Certifies issuer.subjectCn cert.signedBy))
  | .publish _ issuer (.crl crl) => (inferInstance : Decidable (crl.signedBy = issuer.publicKey))
  | .rewrite w => (inferInstance : Decidable (db.Certifies w.signer.subjectCn w.crl.signedBy))
  | .commit (.issue cert issuer _ _ _) =>
      (inferInstance : Decidable (db.Certifies issuer.subjectCn cert.signedBy))
  | .commit (.revoke ..) | .commit (.revokeCa ..) | .commit (.generation ..)
  | .commit (.enroll ..) | .commit (.nonce ..) | .commit .nothing => instDecidableTrue
  | .quiet | .begin | .rollback | .key _ | .backfill _ => instDecidableTrue

/-- Every certificate and CRL ever written verifies. -/
def Verified (s : Store) : Prop :=
  ∀ e ∈ s.log, e.Verifies s.db

/-- Runs in which every key from a token is the one its certificate certifies,
and no leaf is a certificate already on record. -/
def Rules.fitting : Rules where
  issuance := True
  ceremonies := True
  caRevocation := True
  keep _ _ := False
  keep_mono _ _ _ _ h := h
  only s e :=
    match e with
    | .key use => use.spec.keyBackend = .pkcs11 → use.Fits s.db
    | .commit (.issue cert _ _ _ _) => ∀ row ∈ s.db.certIndex, row.fingerprint ≠ cert
    | _ => True

instance : Decidable Rules.fitting.ceremonies :=
  inferInstanceAs (Decidable True)

instance (db : Db) (slug : String) : Decidable (Rules.fitting.keep db slug) :=
  inferInstanceAs (Decidable False)

instance (s : Store) : (e : Event) → Decidable (Rules.fitting.only s e)
  | .key use => (inferInstance : Decidable (use.spec.keyBackend = .pkcs11 → use.Fits s.db))
  | .commit (.issue cert ..) =>
      (inferInstance : Decidable (∀ row ∈ s.db.certIndex, row.fingerprint ≠ cert))
  | .commit (.revoke ..) | .commit (.revokeCa ..) | .commit (.generation ..)
  | .commit (.enroll ..) | .commit (.nonce ..) | .commit .nothing => instDecidableTrue
  | .quiet | .begin | .rollback | .backfill _ | .publish .. | .rewrite _ => instDecidableTrue

theorem Rules.fitting_admits (req : Request) :
    Rules.fitting.Admits req := by
  cases req <;> trivial

section Records

/-- A recorded certificate certifies its own key. -/
theorem Db.RecordsCa.certifies
    {db : Db}
    {cert : Cert}
    (h : db.RecordsCa cert) :
    db.Certifies cert.subjectCn cert.publicKey := by
  obtain ⟨row, hrow, hkind, rfl⟩ := h
  exact ⟨row, hrow, hkind, rfl, rfl⟩

/-- No CA certificate is taken off the record. -/
def Db.KeepsCas (db db' : Db) : Prop :=
  ∀ cert, db.RecordsCa cert → db'.RecordsCa cert

variable {db db' : Db}

theorem Db.KeepsCas.certifies
    (h : db.KeepsCas db')
    {cn : String}
    {key : Key}
    (hkey : db.Certifies cn key) :
    db'.Certifies cn key := by
  obtain ⟨row, hrow, hkind, rfl, rfl⟩ := hkey
  exact (h row.fingerprint ⟨row, hrow, hkind, rfl⟩).certifies

theorem Db.KeepsCas.fits
    (h : db.KeepsCas db')
    {use : KeyUse}
    (hfits : use.Fits db) :
    use.Fits db' := by
  unfold KeyUse.Fits at hfits ⊢
  split
  · rename_i cert hholder
    simp only [hholder] at hfits
    exact h.certifies hfits
  · rename_i hholder
    simp only [hholder] at hfits
    exact hfits

theorem Db.KeepsCas.verifies
    (h : db.KeepsCas db')
    {e : Event}
    (he : e.Verifies db) :
    e.Verifies db' := by
  unfold Event.Verifies at he ⊢
  split at he
  · exact h.certifies he
  · exact h.certifies he
  · exact he
  · exact h.certifies he
  · exact h.certifies he
  · trivial

theorem keepsCas_of_eq
    (h : db'.certIndex = db.certIndex) :
    db.KeepsCas db' := by
  intro cert hcert
  unfold Db.RecordsCa
  rw [h]
  exact hcert

theorem keepsCas_of_markRevoked
    {fp : Cert}
    {reason : Reason}
    {at_ : Nat}
    (h : db'.certIndex = markRevoked db.certIndex fp reason at_) :
    db.KeepsCas db' := by
  rintro cert ⟨row, hrow, hkind, rfl⟩
  unfold Db.RecordsCa
  rw [h]
  by_cases hfp : row.fingerprint = fp
  · exact ⟨_, mem_updateWhere.mpr ⟨row, hrow, Or.inl ⟨by simpa using hfp, rfl⟩⟩, hkind, rfl⟩
  · exact ⟨row, mem_updateWhere.mpr ⟨row, hrow, Or.inr ⟨by simpa using hfp, rfl⟩⟩, hkind, rfl⟩

/-- Indexing a certificate replaces a row only by one of the same certificate. -/
theorem keepsCas_of_indexCert
    {c : Cert}
    {kind : Kind}
    {purpose : String}
    (h : db'.certIndex = indexCert db.certIndex c kind purpose)
    (hsame : (indexRow c kind purpose).isLeaf = false ∨
      ∀ row ∈ db.certIndex, row.fingerprint ≠ c) :
    db.KeepsCas db' := by
  rintro cert ⟨row, hrow, hkind, rfl⟩
  unfold Db.RecordsCa
  rw [h]
  by_cases hfp : row.fingerprint = c
  · rcases hsame with hca | hfresh
    · exact ⟨_, self_mem_indexCert _ _ _ _, hca, hfp.symm⟩
    · exact absurd hfp (hfresh row hrow)
  · exact ⟨row, mem_indexCert_of_ne hrow hfp, hkind, rfl⟩

/-- No transaction of these runs takes a CA certificate off the record. -/
theorem keepsCas_of_run
    {s : Store}
    {tx : Tx}
    (hdb : tx.run s.db = some db')
    (honly : Rules.fitting.only s (.commit tx)) :
    s.db.KeepsCas db' := by
  have hindex := run_certIndex hdb
  cases tx with
  | issue cert issuer profile purpose id => exact keepsCas_of_indexCert hindex (Or.inr honly)
  | revoke fp reason at_ => exact keepsCas_of_markRevoked hindex
  | revokeCa victim cert reason at_ => exact keepsCas_of_markRevoked hindex
  | generation next cert key lock => exact keepsCas_of_indexCert hindex (Or.inl rfl)
  | _ => exact keepsCas_of_eq hindex

end Records

section Stored

/-- A key in the store belongs to its certificate, and this is on record. -/
def Stored (db : Db) (rows : List StoredCert) : Prop :=
  ∀ row ∈ rows, ∀ key, row.priv = some key →
    key = row.cert.publicKey ∧ db.RecordsCa row.cert

variable {db db' : Db} {rows : List StoredCert}

theorem Stored.mono
    (h : Stored db rows)
    (hkeeps : db.KeepsCas db') :
    Stored db' rows := by
  intro row hrow key hkey
  obtain ⟨hpub, hrecorded⟩ := h row hrow key hkey
  exact ⟨hpub, hkeeps _ hrecorded⟩

theorem Stored.insertCert
    (h : Stored db rows)
    (c : Cert) :
    Stored db (insertCert rows c) := by
  intro row hrow key hkey
  rcases List.mem_append.mp hrow with hold | hnew
  · exact h row (List.mem_of_mem_filter hold) key hkey
  · rw [List.mem_singleton.mp hnew] at hkey
    simp at hkey

theorem Stored.insertKey
    (h : Stored db rows)
    {c : Cert}
    {key : Key}
    (hkey : c.publicKey = key)
    (hrecorded : db.RecordsCa c) :
    Stored db (insertKey rows c key) := by
  intro row hrow k hk
  obtain ⟨row₀, hrow₀, ⟨hcert, rfl⟩ | ⟨_, rfl⟩⟩ := mem_updateWhere.mp hrow
  · have hcert : row₀.cert = c := by simpa using hcert
    show k = row₀.cert.publicKey ∧ db.RecordsCa row₀.cert
    rw [hcert, hkey, Option.some.inj hk]
    exact ⟨rfl, hrecorded⟩
  · exact h.insertCert c row hrow₀ k hk

/-- The lookup by certificate finds its key. -/
theorem Stored.findKey
    (h : Stored db db.certificates)
    {cert : Cert}
    {key : Key}
    (hfind : findKey db cert = some key) :
    db.Certifies cert.subjectCn key := by
  obtain ⟨row, hrow, hpriv⟩ := Option.bind_eq_some_iff.mp hfind
  obtain ⟨hmem, hcert⟩ := mem_of_find?_key hrow
  obtain ⟨rfl, hrecorded⟩ := h row hmem key hpriv
  rw [← hcert]
  exact hrecorded.certifies

/-- What a transaction leaves in the table of certificates. -/
theorem Stored.run
    {r : Rules}
    {s : Store}
    {tx : Tx}
    (h : Stored s.db s.db.certificates)
    (hdb : tx.run s.db = some db')
    (hkeeps : s.db.KeepsCas db')
    (hmeets : TxMeets r s tx) :
    Stored db' db'.certificates := by
  have hold := h.mono hkeeps
  cases tx with
  | issue cert issuer profile purpose id =>
      rw [← Option.some.inj hdb] at hold ⊢
      exact hold.insertCert cert
  | revoke fp reason at_ =>
      rw [← Option.some.inj hdb] at hold ⊢
      exact hold.insertCert fp
  | revokeCa victim cert reason at_ =>
      rw [← Option.some.inj hdb] at hold ⊢
      exact hold.insertCert cert
  | generation next cert key lock =>
      obtain ⟨_, _, rfl⟩ := run_generation hdb
      cases key with
      | none => exact hold.insertCert cert
      | some key =>
          exact hold.insertKey (hmeets.2.2 key rfl) ⟨_, self_mem_indexCert _ _ _ _, rfl, rfl⟩
  | enroll id created =>
      obtain ⟨_, rfl⟩ := run_enroll hdb
      exact hold
  | nonce id value issued =>
      rw [← Option.some.inj hdb] at hold ⊢
      exact hold
  | nothing =>
      rw [← Option.some.inj hdb] at hold ⊢
      exact hold

end Stored

section Invariant

/-- The invariant of these runs. -/
structure Signing (s : Store) : Prop where
  stored : Stored s.db s.db.certificates
  keys : ∀ use, Event.key use ∈ s.log → use.Fits s.db
  verified : Verified s

/-- A key that was looked up for a certificate is one its CA's record certifies. -/
theorem Signing.certifies
    {s : Store}
    (h : Signing s)
    {issuer : Cert}
    {priv : Key}
    (hsigned : Signed s issuer priv) :
    s.db.Certifies issuer.subjectCn priv := by
  obtain ⟨use, huse, rfl, hholder⟩ := hsigned
  have hfits := h.keys use huse
  unfold KeyUse.Fits at hfits
  simp only [hholder] at hfits
  exact hfits

/-- A key obtained for a new certificate is the one it certifies. -/
theorem made_fits
    {s : Store}
    (hkeys : ∀ use, Event.key use ∈ s.log → use.Fits s.db)
    {cert : Cert}
    {priv : Key}
    (hmade : Made s cert priv) :
    priv = cert.publicKey := by
  obtain ⟨use, huse, rfl, hholder, hpub⟩ := hmade
  have hfits := hkeys use huse
  unfold KeyUse.Fits at hfits
  simp only [hholder] at hfits
  rw [hpub]
  exact hfits

/-- A key that was looked up fits: one from the store always, one from a token
in these runs. -/
theorem fits_of_found
    {s : Store}
    {use : KeyUse}
    (hstored : Stored s.db s.db.certificates)
    (hfound : KeyFound s use)
    (htoken : use.spec.keyBackend = .pkcs11 → use.Fits s.db) :
    use.Fits s.db := by
  obtain ⟨holder, spec, slug, pair, generated⟩ := use
  cases hbackend : spec.keyBackend with
  | pkcs11 => exact htoken hbackend
  | internal =>
      simp only [KeyFound, hbackend] at hfound
      cases holder with
      | none =>
          cases generated with
          | false => exact hfound
          | true => exact hfound
      | some cert =>
          cases generated with
          | false => exact hstored.findKey hfound
          | true => exact hfound.elim

/-- The invariant is about the record, the stored keys and the log. -/
theorem Signing.frame
    {s s' : Store}
    (h : Signing s)
    (hkeeps : s.db.KeepsCas s'.db)
    (hstored : Stored s'.db s'.db.certificates)
    (hlog : ∀ e ∈ s'.log, e ∈ s.log ∨
      (e.Verifies s.db ∧ ∀ use, e = .key use → use.Fits s.db)) :
    Signing s' := by
  refine ⟨hstored, ?_, ?_⟩
  · intro use huse
    rcases hlog _ huse with hold | ⟨_, hnew⟩
    · exact hkeeps.fits (h.keys use hold)
    · exact hkeeps.fits (hnew use rfl)
  · intro e he
    rcases hlog e he with hold | ⟨hnew, _⟩
    · exact hkeeps.verifies (h.verified e hold)
    · exact hkeeps.verifies hnew

end Invariant

section Steps

theorem Signing.event
    {p : Pid}
    {s : Store}
    {e : Event}
    (h : Signing s)
    (hallow : Rules.fitting.allow p s e)
    (hmeets : Meets Rules.fitting p s e) :
    Signing (s.apply p e) := by
  -- What remains to show of an event that leaves the database alone.
  have hquiet : (s.apply p e).db = s.db → e.Verifies s.db →
      (∀ use, e = .key use → use.Fits s.db) → Signing (s.apply p e) := by
    intro hdb hverifies hfits
    refine h.frame (keepsCas_of_eq (congrArg Db.certIndex hdb)) ?_ ?_
    · rw [hdb]
      exact h.stored
    · intro x hx
      rcases mem_log_apply hx with hold | rfl
      · exact Or.inl hold
      · exact Or.inr ⟨hverifies, hfits⟩
  cases e with
  | quiet => exact h
  | key use =>
      refine hquiet (apply_key_db p use s).1 trivial ?_
      intro use' heq
      rw [← Event.key.inj heq]
      exact fits_of_found h.stored hmeets hallow
  | publish slug issuer file =>
      cases file with
      | pem cert => exact hquiet rfl (h.certifies hmeets.2) (by simp)
      | crt cert => exact hquiet rfl (h.certifies hmeets.2) (by simp)
      | crl crl => exact hquiet rfl (made_fits h.keys hmeets.2.1) (by simp)
  | rewrite w => exact hquiet rfl (h.certifies hmeets.signed) (by simp)
  | backfill row =>
      refine h.frame (keepsCas_of_eq rfl) (h.stored.mono (keepsCas_of_eq rfl)) ?_
      intro x hx
      rcases mem_log_apply hx with hold | rfl
      · exact Or.inl hold
      · exact Or.inr ⟨trivial, by simp⟩
  | commit tx =>
      obtain ⟨_, hrun, htx⟩ := hmeets
      obtain ⟨db, hdb⟩ := Option.isSome_iff_exists.mp hrun
      have hkeeps := keepsCas_of_run hdb hallow
      have happly := congrArg Store.db (apply_commit p hdb)
      refine h.frame ?_ ?_ ?_
      · rw [happly]
        exact hkeeps
      · rw [happly]
        exact h.stored.run hdb hkeeps htx
      · intro x hx
        rcases mem_log_apply hx with hold | rfl
        · exact Or.inl hold
        · refine Or.inr ⟨?_, by simp⟩
          cases tx with
          | issue cert issuer profile purpose id =>
              obtain ⟨_, _, _, _, _, hsigned⟩ := htx
              exact h.certifies hsigned
          | _ => trivial
  | _ => exact hquiet rfl trivial (by simp)

/-- The ceremony's own signatures, when the keys it found on tokens fit. -/
theorem Initialised.signing
    {s : Store}
    (h : Initialised s)
    (htoken : ∀ e ∈ s.log, e.TokenFits s.db) :
    Signing s := by
  obtain ⟨config, rootCert, rootKey, minted, hs⟩ := h.ceremony
  have hkeys : ∀ use, Event.key use ∈ s.log → use.Fits s.db := by
    intro use huse
    rcases hs.log _ huse with ⟨use', heq, hholder, hpair⟩ | ⟨slug, issuer, file, heq, _⟩
    · have heq := Event.key.inj heq
      subst heq
      cases hbackend : use.spec.keyBackend with
      | pkcs11 => exact htoken _ huse hbackend
      | internal =>
          unfold KeyUse.Fits
          simp only [hholder]
          exact hpair hbackend
    · simp at heq
  refine ⟨?_, hkeys, ?_⟩
  · rw [hs.db]
    intro row hrow key hkey
    rcases List.mem_cons.mp hrow with rfl | hrow
    · refine ⟨?_, _, List.mem_cons_self, rfl, rfl⟩
      obtain ⟨serial, now, hroot⟩ := hs.root
      simp only [Option.ite_none_right_eq_some, Option.some.injEq] at hkey
      obtain ⟨hbackend, rfl⟩ := hkey
      rw [hroot]
      exact hs.rootPair hbackend
    · obtain ⟨m, hm, rfl⟩ := List.mem_map.mp hrow
      refine ⟨?_, _, List.mem_cons_of_mem _ (List.mem_map_of_mem hm), rfl, rfl⟩
      obtain ⟨serial, now, hcert⟩ := hs.certs m hm
      have hkey : persisted m.ca m.key = some key := hkey
      unfold persisted at hkey
      split at hkey
      · rename_i hbackend
        rw [← Option.some.inj hkey, hs.pairs m hm hbackend, hcert]
        rfl
      · simp at hkey
  · intro e he
    rcases hs.log e he with ⟨use, rfl, _⟩ | ⟨slug, issuer, file, rfl, hmade, hrecorded⟩
    · trivial
    · have hpriv := made_fits hkeys hmade
      have hcertifies : s.db.Certifies issuer.subjectCn file.signedBy := by
        rw [hpriv]
        exact Db.RecordsCa.certifies hrecorded
      cases file with
      | pem cert => exact hcertifies
      | crt cert => exact hcertifies
      | crl crl => exact hpriv

end Steps

section Runs

/-- A store that `init` made, finding on the tokens only keys whose halves belong
together. -/
def InitialisedFitting (s : Store) : Prop :=
  Initialised s ∧ ∀ e ∈ s.log, e.TokenFits s.db

/-- In every run in which the keys from tokens fit, from the first ceremony on,
everything any command writes verifies under the recorded certificate of its
issuer. -/
theorem writes_verify
    {w : World Store Command}
    (hw : (yca.system InitialisedFitting).Reachable (Rules.fitting.runs fun _ => True) w) :
    Verified w.shared := by
  have hsigning : Signing w.shared := by
    refine holds_of_reachable (fun req _ => Rules.fitting_admits req)
      (fun s hs => hs.1.signing hs.2) ?_ hw
    intro s s' hs hmove
    refine keeps_of_events ?_ ?_ hs hmove
    · intro s p e hs hallow hmeets
      exact hs.event hallow hmeets
    · intro s s' hs hdb _ _ hlog _
      refine hs.frame (keepsCas_of_eq (congrArg Db.certIndex hdb)) ?_ ?_
      · rw [hdb]
        exact hs.stored
      · rw [hlog]
        exact fun _ he => Or.inl he
  exact hsigning.verified

/-- The sample configuration with one key on a token. -/
def tokenConfig : Config :=
  { sampleConfig with
    cas :=
      sampleConfig.cas.map fun ca =>
        if ca.purpose = "tls" then { ca with keyBackend := .pkcs11, tokenLabel := "hsm" } else ca }

/-- What `init` makes of it on an empty token. -/
def tokenStore : Store :=
  (create tokenConfig ⟨1, [0x41]⟩ [⟨2, [0x42]⟩, ⟨3, [0x43]⟩] (fun _ => []) 1000).getD
    (blank tokenConfig (fun _ => []) 0)

theorem tokenStore_initialised :
    Initialised tokenStore := by
  refine ⟨tokenConfig, ⟨1, [0x41]⟩, [⟨2, [0x42]⟩, ⟨3, [0x43]⟩], fun _ => [], 1000, ?_, rfl,
    by decide, rfl⟩
  exact ⟨by decide, by decide, by decide, by decide, by decide, by decide⟩

/-- A leaf was issued. -/
def Store.issued (s : Store) : Bool :=
  s.log.any fun e =>
    match e with
    | .commit (.issue ..) => true
    | _ => false

/-- A leaf is issued with the key that `init` generated on the token. -/
theorem writes_verify_sample :
    ∃ w : World Store Command,
      w.shared.issued = true ∧
      Verified w.shared := by
  have h :
      ((yca.system InitialisedFitting).follow
        (Rules.fitting.runs fun _ => True) (World.idle tokenStore)
        ([.spawn 1 (.issueEe .server "a.ca" none)] ++ acts 1 10 (sampleChoice 21))).any
        (fun w => w.shared.issued) = true := by
    decide
  obtain ⟨w, hrun, hcheck⟩ := Automaton.Run.exists_of_follow h
  have hw := Automaton.Reachable.of_run
    (M := yca.system InitialisedFitting)
    ⟨⟨tokenStore_initialised, by decide⟩, World.idle_quiet _⟩ hrun
  exact ⟨w, hcheck, writes_verify hw⟩

/-- The token is replaced by one that holds another key under the same label;
the next leaf is signed with that key. -/
theorem writes_not_verified :
    ¬ ∀ w : World Store Command,
      (yca.system Initialised).Reachable (commands fun _ => True) w → Verified w.shared := by
  intro hall
  have h :
      ((yca.system Initialised).follow (commands fun _ => True) (World.idle tokenStore)
        ([.env (.token "hsm"
            [⟨"ca-e1", true, "secp256r1", 99⟩, ⟨"ca-e1", false, "secp256r1", 99⟩]),
          .spawn 1 (.issueEe .server "a.ca" none)] ++ acts 1 10 (sampleChoice 21))).any
        (fun w => w.shared.log.any fun e => !decide (e.Verifies w.shared.db)) = true := by
    decide
  obtain ⟨w, hrun, hcheck⟩ := Automaton.Run.exists_of_follow h
  have hw := Automaton.Reachable.of_run
    (M := yca.system Initialised) ⟨tokenStore_initialised, World.idle_quiet _⟩ hrun
  simp only [List.any_eq_true, Bool.not_eq_true', decide_eq_false_iff_not] at hcheck
  obtain ⟨e, he, hwrong⟩ := hcheck
  exact hwrong (hall w hw e he)

end Runs

end Ca
end Yca
