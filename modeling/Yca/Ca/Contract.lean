import Yca.Ca.Commands

/-!
# What the commands guarantee

Every event a command emits meets a contract (`Meets`): what holds in the store
at that very moment, given what the command read before and what other
processes may have done since (`Interference`).  The commands are followed once,
here; the results about runs only use the contracts.

A group of results may restrict the runs it is about (`Rules`): by the commands
that run, by the slugs whose artifacts no ceremony publishes over, and by
further conditions on events.
-/

namespace Yca
namespace Ca

open Yca.Core

/-- Every recorded generation is still recorded. -/
def Db.Extends (db db' : Db) : Prop :=
  ∀ r ∈ db.caIndex, ∃ r' ∈ db'.caIndex, r'.toCaGen = r.toCaGen ∧ r'.kind = r.kind

/-- A recorded generation has this slug. -/
def Db.Recorded (db : Db) (slug : String) : Prop :=
  ∃ r ∈ db.caIndex, r.slug = slug

instance (db : Db) (slug : String) : Decidable (db.Recorded slug) :=
  inferInstanceAs (Decidable (∃ r ∈ db.caIndex, r.slug = slug))

/-- The runs a group of results is about. -/
structure Rules where
  /-- Whether leaves are issued. -/
  issuance : Prop
  /-- Whether generations of issuing CAs are minted. -/
  ceremonies : Prop
  /-- Whether generations of issuing CAs are revoked. -/
  caRevocation : Prop
  /-- The slugs whose artifacts no ceremony publishes over. -/
  keep : Db → String → Prop
  keep_mono : ∀ db db' slug, db.Extends db' → keep db slug → keep db' slug
  /-- Further conditions on events. -/
  only : Store → Event → Prop

/-- The commands of the runs. -/
def Rules.Admits (r : Rules) : Request → Prop
  | .issueEe .. => r.issuance
  | .signCsr .. => r.issuance
  | .addSigningCa .. => r.ceremonies
  | .renewSigningCa .. => r.ceremonies
  | .revokeCa .. => r.caRevocation
  | _ => True

/-- The events of the runs. -/
def Rules.allow (r : Rules) (_ : Pid) (s : Store) (e : Event) : Prop :=
  match e with
  | .publish slug _ _ => (r.ceremonies → ¬ r.keep s.db slug) ∧ r.only s e
  | e => r.only s e

instance
    (r : Rules)
    [Decidable r.ceremonies]
    [∀ db slug, Decidable (r.keep db slug)]
    [∀ s e, Decidable (r.only s e)]
    (p : Pid)
    (s : Store)
    (e : Event) :
    Decidable (r.allow p s e) := by
  unfold Rules.allow
  split <;> infer_instance

/-- The artifacts of recorded generations are safe from ceremonies. -/
def Rules.Protects (r : Rules) : Prop :=
  ∀ db slug, Db.Recorded db slug → r.keep db slug

/-- What the others may do to the store under a process. -/
structure Interference (r : Rules) (p : Pid) (s s' : Store) : Prop where
  now : s.now ≤ s'.now
  log : ∀ e ∈ s.log, e ∈ s'.log
  rows : s.db.Extends s'.db
  locked : s.lock = some p → s'.lock = some p ∧ s'.db = s.db
  pem : ∀ slug, r.keep s.db slug → s'.pem slug = s.pem slug
  crl : ∀ slug, s.lock = some p → r.keep s.db slug → s'.crl slug = s.crl slug

section Contracts

/-- A key at hand was looked up for this certificate. -/
def Signed (s : Store) (issuer : Cert) (priv : Key) : Prop :=
  ∃ use, Event.key use ∈ s.log ∧ use.pair.priv = priv ∧ use.holder = some issuer

/-- A key at hand was obtained for a certificate still to be made, and its
public point went into this one. -/
def Made (s : Store) (cert : Cert) (priv : Key) : Prop :=
  ∃ use, Event.key use ∈ s.log ∧ use.pair.priv = priv ∧ use.holder = none ∧
    cert.publicKey = use.pair.pub

/-- How a key lookup came by its key. -/
def KeyFound (s : Store) (use : KeyUse) : Prop :=
  match use.spec.keyBackend, use.generated, use.holder with
  | .internal, false, some cert => findKey s.db cert = some use.pair.priv
  | .internal, true, some _ => False
  | .pkcs11, false, _ =>
      findKeypair (s.tokens use.spec.tokenLabel) use.slug use.spec.curve =
        some (some use.pair)
  | _, _, _ => use.pair.priv = use.pair.pub

/-- The private key a file was signed with. -/
def Artifact.signedBy : Artifact → Key
  | .pem c => c.signedBy
  | .crt c => c.signedBy
  | .crl l => l.signedBy

/-- What holds when a ceremony publishes a file: the issuer signs the new
certificate, and the new generation its own first CRL. -/
def PublishMeets (s : Store) (issuer : Cert) : Artifact → Prop
  | .pem cert => Signed s issuer cert.signedBy
  | .crt cert => Signed s issuer cert.signedBy
  | .crl crl => Made s issuer crl.signedBy ∧ crl.thisUpdate = s.now

/-- What holds when a CRL is rewritten. -/
structure RewriteMeets (r : Rules) (p : Pid) (s : Store) (w : Rewrite) : Prop where
  lock : s.lock = some p
  prev : r.keep s.db w.slug → s.crl w.slug = some w.prev
  entries : ∃ reason, w.crl.entries =
    pruneCrlEntries s.db w.prev ++ (w.added.map fun c => ⟨c.serial, reason⟩).toList
  number : w.crl.number = w.prev.number + 1
  thisUpdate : w.crl.thisUpdate = s.now
  signed : Signed s w.signer w.crl.signedBy

/-- What holds when a transaction commits. -/
def TxMeets (r : Rules) (s : Store) : Tx → Prop
  | .issue cert issuer profile _ _ =>
      r.issuance ∧
        blockingDuplicate s.db cert.subjectCn (.ee profile) s.now = false ∧
        cert.notBefore ≤ s.now ∧
        cert.notBefore ≤ cert.notAfter ∧
        cert.aki = issuer.ski ∧
        Signed s issuer cert.signedBy
  | .revoke fp _ _ =>
      (∃ row ∈ s.db.certIndex, row.isLeaf = true ∧ row.fingerprint = fp) ∧
        ∃ w, Event.rewrite w ∈ s.log ∧
          w.added = some fp ∧
          s.db.Recorded w.slug ∧
          (r.Protects → s.pem w.slug = some w.signer ∧ s.crl w.slug = some w.crl) ∧
          ∃ reason, (⟨fp.serial, reason⟩ : CrlEntry) ∈ w.crl.entries
  | .generation next cert key _ =>
      r.ceremonies ∧
        cert.subjectCn = next.cn ∧
        ∀ k, key = some k → cert.publicKey = k
  | .revokeCa .. => r.caRevocation
  | _ => True

/-- The contract of an event. -/
def Meets (r : Rules) (p : Pid) (s : Store) : Event → Prop
  | .quiet => True
  | .begin => s.lock = none
  | .rollback => s.lock = some p
  | .key use => KeyFound s use
  | .backfill row => s.lock = none ∧ s.db.hasGen row.purpose row.gen = false
  | .publish _ issuer file => r.ceremonies ∧ PublishMeets s issuer file
  | .rewrite w => RewriteMeets r p s w
  | .commit tx => s.lock = some p ∧ (tx.run s.db).isSome = true ∧ TxMeets r s tx

/-- The discipline the commands keep. -/
def discipline (r : Rules) : Discipline Store Event where
  inv _ := True
  Rely := Interference r
  allow := r.allow
  Meets := Meets r

end Contracts

section Effects

/-- Reads change nothing. -/
@[simp] theorem apply_quiet (p : Pid) (s : Store) :
    s.apply p .quiet = s := by
  rfl

/-- Every event but a read is logged. -/
theorem mem_apply_log
    (p : Pid)
    (e : Event)
    (s : Store)
    {x : Event}
    (hx : x ∈ s.log) :
    x ∈ (s.apply p e).log := by
  cases e <;> simp [Store.apply, hx]

theorem mem_apply_self
    (p : Pid)
    {e : Event}
    (he : e ≠ .quiet)
    (s : Store) :
    e ∈ (s.apply p e).log := by
  cases e <;> simp [Store.apply] at he ⊢

/-- An event adds nothing to the log but itself. -/
theorem mem_log_apply
    {p : Pid}
    {e x : Event}
    {s : Store}
    (hx : x ∈ (s.apply p e).log) :
    x ∈ s.log ∨ x = e := by
  cases e with
  | quiet => exact Or.inl hx
  | _ => exact (List.mem_cons.mp hx).symm

/-- Only the passing of time changes the clock. -/
@[simp] theorem apply_now (p : Pid) (e : Event) (s : Store) :
    (s.apply p e).now = s.now := by
  cases e with
  | key use =>
      by_cases h : (use.generated && use.spec.keyBackend == .pkcs11) = true
      · simp [Store.apply, Store.effect, h]
      · simp [Store.apply, Store.effect, h]
  | publish slug issuer file => cases file <;> rfl
  | _ => rfl

/-- Key lookups leave the database alone. -/
@[simp] theorem apply_key_db (p : Pid) (use : KeyUse) (s : Store) :
    (s.apply p (.key use)).db = s.db ∧
      (s.apply p (.key use)).lock = s.lock ∧
      (s.apply p (.key use)).pem = s.pem ∧
      (s.apply p (.key use)).crl = s.crl := by
  by_cases h : (use.generated && use.spec.keyBackend == .pkcs11) = true
  · simp [Store.apply, Store.effect, h]
  · simp [Store.apply, Store.effect, h]

theorem Db.Extends.refl (db : Db) :
    db.Extends db := by
  intro r hr
  exact ⟨r, hr, rfl, rfl⟩

theorem Db.Extends.trans
    {db₁ db₂ db₃ : Db}
    (h₁ : db₁.Extends db₂)
    (h₂ : db₂.Extends db₃) :
    db₁.Extends db₃ := by
  intro r hr
  obtain ⟨r₂, hr₂, hgen₂, hkind₂⟩ := h₁ r hr
  obtain ⟨r₃, hr₃, hgen₃, hkind₃⟩ := h₂ r₂ hr₂
  exact ⟨r₃, hr₃, hgen₃.trans hgen₂, hkind₃.trans hkind₂⟩

theorem Db.Extends.recorded
    {db db' : Db}
    (h : db.Extends db')
    {slug : String}
    (hrec : db.Recorded slug) :
    db'.Recorded slug := by
  obtain ⟨r, hr, rfl⟩ := hrec
  obtain ⟨r', hr', hgen, _⟩ := h r hr
  exact ⟨r', hr', congrArg CaGen.slug hgen⟩

/-- The rows a new generation leaves: when it succeeds one, that one retires. -/
def keptRows (rows : List CaRow) (purpose : String) (lock : Option SigningCa) : List CaRow :=
  if lock.isSome then rows else retire rows purpose

/-- A new generation needs a purpose and a number of its own. -/
theorem run_generation
    {next : CaGen}
    {cert : Cert}
    {key : Option Key}
    {lock : Option SigningCa}
    {db db' : Db}
    (h : (Tx.generation next cert key lock).run db = some db') :
    (∀ ca ∈ lock, ∀ held ∈ db.purposes, held.purpose ≠ ca.purpose) ∧
      db.hasGen next.purpose next.gen = false ∧
      db' =
        { db with
          certificates :=
            key.elim (insertCert db.certificates cert) (insertKey db.certificates cert)
          certIndex := indexCert db.certIndex cert (.ca .signing) next.purpose
          caIndex := keptRows db.caIndex next.purpose lock ++ [⟨next, .signing, .active⟩]
          purposes := db.purposes ++ lock.toList } := by
  simp only [Tx.run] at h
  split at h
  · simp at h
  · rename_i hfree
    simp only [Bool.or_eq_true, not_or, Bool.not_eq_true] at hfree
    refine ⟨?_, hfree.2, ?_⟩
    · rintro ca rfl held hheld
      simpa using List.any_eq_false.mp hfree.1 held hheld
    · rw [← Option.some.inj h]
      cases key <;> rfl

/-- An identity is enrolled once. -/
theorem run_enroll
    {id : String}
    {created : Nat}
    {db db' : Db}
    (h : (Tx.enroll id created).run db = some db') :
    (∀ row ∈ db.enrollment, row.id ≠ id) ∧
      db' = { db with enrollment := db.enrollment ++ [⟨id, created, "", 0, 0, true⟩] } := by
  simp only [Tx.run] at h
  split at h
  · simp at h
  · rename_i hnew
    exact ⟨by simpa using hnew, (Option.some.inj h).symm⟩

/-- What a transaction makes of `ca_cert_index`. -/
def Tx.caIndex (rows : List CaRow) : Tx → List CaRow
  | .revokeCa victim _ _ _ =>
      updateWhere
        (fun r => r.kind == .signing && r.purpose == victim.purpose && r.gen == victim.gen)
        (fun r => { r with status := .revoked }) rows
  | .generation next _ _ lock => keptRows rows next.purpose lock ++ [⟨next, .signing, .active⟩]
  | _ => rows

theorem run_caIndex
    {tx : Tx}
    {db db' : Db}
    (h : tx.run db = some db') :
    db'.caIndex = tx.caIndex db.caIndex := by
  cases tx with
  | generation next cert key lock =>
      obtain ⟨_, _, rfl⟩ := run_generation h
      rfl
  | enroll id created =>
      obtain ⟨_, rfl⟩ := run_enroll h
      rfl
  | _ =>
      rw [← Option.some.inj h]
      rfl

/-- Changing only the status of rows keeps every generation recorded. -/
theorem updateWhere_extends
    (q : CaRow → Bool)
    {f : CaRow → CaRow}
    (hf : ∀ r, (f r).toCaGen = r.toCaGen ∧ (f r).kind = r.kind)
    {rows : List CaRow}
    {r : CaRow}
    (hr : r ∈ rows) :
    ∃ r' ∈ updateWhere q f rows, r'.toCaGen = r.toCaGen ∧ r'.kind = r.kind := by
  by_cases hq : q r = true
  · exact ⟨f r, mem_updateWhere.mpr ⟨r, hr, Or.inl ⟨hq, rfl⟩⟩, hf r⟩
  · have hq' : q r = false := by simpa using hq
    exact ⟨r, mem_updateWhere.mpr ⟨r, hr, Or.inr ⟨hq', rfl⟩⟩, rfl, rfl⟩

theorem keptRows_extends
    (purpose : String)
    (lock : Option SigningCa)
    {rows : List CaRow}
    {r : CaRow}
    (hr : r ∈ rows) :
    ∃ r' ∈ keptRows rows purpose lock, r'.toCaGen = r.toCaGen ∧ r'.kind = r.kind := by
  unfold keptRows
  split
  · exact ⟨r, hr, rfl, rfl⟩
  · refine updateWhere_extends _ ?_ hr
    intro r
    exact ⟨rfl, rfl⟩

/-- No transaction drops a generation. -/
theorem run_extends
    {tx : Tx}
    {db db' : Db}
    (h : tx.run db = some db') :
    db.Extends db' := by
  intro r hr
  rw [run_caIndex h]
  cases tx with
  | revokeCa victim cert reason at_ =>
      refine updateWhere_extends _ ?_ hr
      intro r
      exact ⟨rfl, rfl⟩
  | generation next cert key lock =>
      obtain ⟨r', hr', hsame⟩ := keptRows_extends next.purpose lock hr
      exact ⟨r', List.mem_append_left _ hr', hsame⟩
  | _ => exact ⟨r, hr, rfl, rfl⟩

/-- What a transaction makes of `cert_index`. -/
def Tx.index (rows : List CertRow) : Tx → List CertRow
  | .issue cert _ profile purpose _ => indexCert rows cert (.ee profile) purpose
  | .revoke fp reason at_ => markRevoked rows fp reason at_
  | .revokeCa _ cert reason at_ => markRevoked rows cert reason at_
  | .generation next cert _ _ => indexCert rows cert (.ca .signing) next.purpose
  | _ => rows

theorem run_certIndex
    {tx : Tx}
    {db db' : Db}
    (h : tx.run db = some db') :
    db'.certIndex = tx.index db.certIndex := by
  cases tx with
  | generation next cert key lock =>
      obtain ⟨_, _, rfl⟩ := run_generation h
      rfl
  | enroll id created =>
      obtain ⟨_, rfl⟩ := run_enroll h
      rfl
  | _ =>
      rw [← Option.some.inj h]
      rfl

/-- A committed transaction in the store. -/
theorem apply_commit
    (p : Pid)
    {tx : Tx}
    {s : Store}
    {db : Db}
    (h : tx.run s.db = some db) :
    s.apply p (.commit tx) =
      { s with db := db, lock := none, log := .commit tx :: s.log } := by
  simp [Store.apply, Store.effect, h]

end Effects

section Soundness

variable {r : Rules} {p : Pid}

theorem Interference.refl (s : Store) :
    Interference r p s s where
  now := Nat.le_refl _
  log _ h := h
  rows := Db.Extends.refl _
  locked h := ⟨h, rfl⟩
  pem _ _ := rfl
  crl _ _ _ := rfl

theorem Interference.keep
    {s s' : Store}
    (h : Interference r p s s')
    {slug : String}
    (hslug : r.keep s.db slug) :
    r.keep s'.db slug :=
  r.keep_mono _ _ _ h.rows hslug

theorem Interference.trans
    {s₁ s₂ s₃ : Store}
    (h₁ : Interference r p s₁ s₂)
    (h₂ : Interference r p s₂ s₃) :
    Interference r p s₁ s₃ where
  now := Nat.le_trans h₁.now h₂.now
  log e h := h₂.log e (h₁.log e h)
  rows := h₁.rows.trans h₂.rows
  locked h := by
    obtain ⟨hlock₂, hdb₂⟩ := h₁.locked h
    obtain ⟨hlock₃, hdb₃⟩ := h₂.locked hlock₂
    exact ⟨hlock₃, hdb₃.trans hdb₂⟩
  pem slug h := (h₂.pem slug (h₁.keep h)).trans (h₁.pem slug h)
  crl slug hlock h :=
    (h₂.crl slug (h₁.locked hlock).1 (h₁.keep h)).trans (h₁.crl slug hlock h)

/-- A step that leaves the database and the published files alone. -/
theorem Interference.ofFrame
    {s s' : Store}
    (hnow : s.now ≤ s'.now)
    (hlog : ∀ e ∈ s.log, e ∈ s'.log)
    (hdb : s'.db = s.db)
    (hlock : s.lock = some p → s'.lock = some p)
    (hpem : s'.pem = s.pem)
    (hcrl : s'.crl = s.crl) :
    Interference r p s s' where
  now := hnow
  log := hlog
  rows := by
    rw [hdb]
    exact Db.Extends.refl _
  locked h := ⟨hlock h, hdb⟩
  pem slug _ := by rw [hpem]
  crl slug _ _ := by rw [hcrl]

/-- A process is only disturbed by what the others may do to it. -/
theorem interference_of_event
    {q : Pid}
    (hqp : q ≠ p)
    {s : Store}
    {e : Event}
    (hallow : r.allow p s e)
    (hmeets : Meets r p s e) :
    Interference r q s (s.apply p e) := by
  have hlog : ∀ x ∈ s.log, x ∈ (s.apply p e).log := fun x hx => mem_apply_log p e s hx
  have hother : s.lock = some p → ¬ s.lock = some q := by
    intro hp hq
    rw [hp] at hq
    exact hqp (Option.some.inj hq).symm
  cases e with
  | quiet => exact Interference.refl s
  | begin =>
      have hfree : s.lock = none := hmeets
      refine Interference.ofFrame (Nat.le_refl _) hlog rfl ?_ rfl rfl
      intro hq
      simp [hfree] at hq
  | rollback =>
      refine Interference.ofFrame (Nat.le_refl _) hlog rfl ?_ rfl rfl
      intro hq
      exact absurd hq (hother hmeets)
  | key use =>
      obtain ⟨hdb, hlock, hpem, hcrl⟩ := apply_key_db p use s
      refine Interference.ofFrame (by simp) hlog hdb ?_ hpem hcrl
      intro hq
      rw [hlock]
      exact hq
  | backfill row =>
      refine ⟨Nat.le_refl _, hlog, ?_, ?_, fun _ _ => rfl, fun _ _ _ => rfl⟩
      · intro r' hr'
        exact ⟨r', List.mem_append_left _ hr', rfl, rfl⟩
      · intro hq
        simp [hmeets.1] at hq
  | publish slug issuer file =>
      have hkeep : ∀ other, r.keep s.db other → other ≠ slug := by
        rintro other hother rfl
        exact hallow.1 hmeets.1 hother
      refine ⟨by simp, hlog, ?_, ?_, ?_, ?_⟩
      · cases file <;> exact Db.Extends.refl _
      · intro hq
        cases file <;> exact ⟨hq, rfl⟩
      · intro other hk
        cases file with
        | pem cert => exact Function.update_of_ne (hkeep other hk) _ _
        | _ => rfl
      · intro other _ hk
        cases file with
        | crl crl => exact Function.update_of_ne (hkeep other hk) _ _
        | _ => rfl
  | rewrite w =>
      refine ⟨Nat.le_refl _, hlog, Db.Extends.refl _, fun hq => ⟨hq, rfl⟩, fun _ _ => rfl, ?_⟩
      intro _ hq
      exact absurd hq (hother hmeets.lock)
  | commit tx =>
      obtain ⟨hlock, hrun, _⟩ := hmeets
      obtain ⟨db, hdb⟩ := Option.isSome_iff_exists.mp hrun
      rw [apply_commit p hdb] at hlog ⊢
      refine ⟨Nat.le_refl _, hlog, run_extends hdb, ?_, fun _ _ => rfl, fun _ _ _ => rfl⟩
      intro hq
      exact absurd hq (hother hlock)

/-- The store keeps every discipline of this kind. -/
theorem discipline_sound (r : Rules) :
    (discipline r).Sound machine where
  refl _ s := Interference.refl s
  trans _ _ _ _ h₁ h₂ := h₁.trans h₂
  event p s e _ hallow hmeets :=
    ⟨trivial, fun _ hqp => interference_of_event hqp hallow hmeets⟩
  die p s _ := by
    refine ⟨trivial, ?_⟩
    intro q hqp
    show Interference r q s (s.die p)
    unfold Store.die
    split
    · rename_i hlock
      refine Interference.ofFrame (Nat.le_refl _) (fun _ h => h) rfl ?_ rfl rfl
      intro hq
      rw [hlock] at hq
      exact absurd (Option.some.inj hq).symm hqp
    · exact Interference.refl s
  env x s s' _ hx := by
    refine ⟨trivial, ?_⟩
    intro q
    cases x with
    | tick seconds =>
        rw [← Option.some.inj hx]
        exact Interference.ofFrame (Nat.le_add_right _ _) (fun _ h => h) rfl (fun h => h) rfl rfl
    | token label objects =>
        rw [← Option.some.inj hx]
        exact Interference.ofFrame (Nat.le_refl _) (fun _ h => h) rfl (fun h => h) rfl rfl

end Soundness

end Ca
end Yca
