import Yca.Ca.Safety
import Yca.Ca.Index

/-!
# Revoked leaves are on their issuer's CRL

`revoke` picks the CRL it rewrites from the certificate it finds before it takes
the lock, and the certificate it revokes from the one it finds under it.  The
two can have different issuers, and a ceremony publishes an empty CRL without
looking whose it replaces.  Where neither happens, every revoked, unexpired
leaf is on the CRL of the generation that issued it, in every interleaving.
-/

namespace Yca
namespace Ca

open Yca.Core

/-- The serial of a row is on the CRL of a recorded generation whose subject key
is the row's authority key. -/
def onIssuersCrl (s : Store) (row : CertRow) : Bool :=
  s.db.caIndex.any fun g =>
    (s.pem g.slug).any (fun cert => cert.ski == row.aki) &&
      (s.crl g.slug).any fun crl =>
        crl.entries.any fun e => e.serial == row.fingerprint.serial

/-- Every revoked leaf that has not expired is on its issuer's CRL. -/
def RevokedListed (s : Store) : Prop :=
  ∀ row ∈ s.db.certIndex, row.isLeaf = true → row.status = .revoked →
    s.now ≤ row.notAfter → onIssuersCrl s row = true

/-- Runs in which an entry is only added to the CRL of the generation that
issued its certificate, no ceremony publishes over a recorded generation, and
every certificate has a serial of its own. -/
def Rules.sound : Rules where
  issuance := True
  ceremonies := True
  caRevocation := False
  keep := Db.Recorded
  keep_mono _ _ _ h hrec := h.recorded hrec
  only s e :=
    match e with
    | .rewrite w => ∀ cert ∈ w.added, cert.aki = w.signer.ski
    | .commit tx => tx.Fresh s.db
    | _ => True

instance : Decidable Rules.sound.ceremonies :=
  inferInstanceAs (Decidable True)

instance (db : Db) (slug : String) : Decidable (Rules.sound.keep db slug) :=
  inferInstanceAs (Decidable (db.Recorded slug))

instance (s : Store) : (e : Event) → Decidable (Rules.sound.only s e)
  | .rewrite w => (inferInstance : Decidable (∀ cert ∈ w.added, cert.aki = w.signer.ski))
  | .commit tx => (inferInstance : Decidable (tx.Fresh s.db))
  | .quiet | .begin | .rollback | .key _ | .backfill _ | .publish .. => instDecidableTrue

/-- The commands that do not revoke a generation. -/
def Request.keepsCas : Request → Bool
  | .revokeCa .. => false
  | _ => true

theorem Rules.sound_admits (req : Request) (h : req.keepsCas = true) :
    Rules.sound.Admits req := by
  cases req with
  | revokeCa selector reason => simp [Request.keepsCas] at h
  | _ => trivial

section Invariant

/-- The invariant of these runs. -/
structure Listed (s : Store) : Prop where
  indexed : Indexed s.db
  past : ∀ slug crl, s.crl slug = some crl → crl.thisUpdate ≤ s.now
  rewrites : ∀ w, Event.rewrite w ∈ s.log → ∀ cert ∈ w.added, cert.aki = w.signer.ski
  listed : RevokedListed s

theorem onIssuersCrl_iff
    {s : Store}
    {row : CertRow} :
    onIssuersCrl s row = true ↔
      ∃ g ∈ s.db.caIndex, ∃ cert crl,
        s.pem g.slug = some cert ∧
        cert.ski = row.aki ∧
        s.crl g.slug = some crl ∧
        ∃ e ∈ crl.entries, e.serial = row.fingerprint.serial := by
  simp only [onIssuersCrl, List.any_eq_true, Bool.and_eq_true, Option.any_eq_true, beq_iff_eq]
  constructor
  · rintro ⟨g, hg, ⟨cert, hcert, hski⟩, crl, hcrl, e, he, hserial⟩
    exact ⟨g, hg, cert, crl, hcert, hski, hcrl, e, he, hserial⟩
  · rintro ⟨g, hg, cert, crl, hcert, hski, hcrl, e, he, hserial⟩
    exact ⟨g, hg, ⟨cert, hcert, hski⟩, crl, hcrl, e, he, hserial⟩

/-- A listed row stays listed while recorded generations keep their artifacts'
certificate and the entry. -/
theorem onIssuersCrl.mono
    {s s' : Store}
    {row : CertRow}
    (h : onIssuersCrl s row = true)
    (hrows : s.db.Extends s'.db)
    (hpem : ∀ slug, s.db.Recorded slug → s'.pem slug = s.pem slug)
    (hcrl : ∀ slug, s.db.Recorded slug → ∀ crl, s.crl slug = some crl →
      (∃ e ∈ crl.entries, e.serial = row.fingerprint.serial) →
      ∃ crl', s'.crl slug = some crl' ∧
        ∃ e ∈ crl'.entries, e.serial = row.fingerprint.serial) :
    onIssuersCrl s' row = true := by
  obtain ⟨g, hg, cert, crl, hcert, hski, hget, hentry⟩ := onIssuersCrl_iff.mp h
  obtain ⟨g', hg', hgen, _⟩ := hrows g hg
  have hslug : g'.slug = g.slug := congrArg CaGen.slug hgen
  have hrec : s.db.Recorded g.slug := ⟨g, hg, rfl⟩
  obtain ⟨crl', hget', hentry'⟩ := hcrl g.slug hrec crl hget hentry
  refine onIssuersCrl_iff.mpr ⟨g', hg', cert, crl', ?_, hski, ?_, hentry'⟩
  · rw [hslug, hpem g.slug hrec]
    exact hcert
  · rw [hslug]
    exact hget'

/-- The entry of an unexpired row survives the pruning. -/
theorem entry_kept
    {s : Store}
    (h : Listed s)
    {row : CertRow}
    (hrow : row ∈ s.db.certIndex)
    (hvalid : s.now ≤ row.notAfter)
    {prev : Crl}
    (hprev : prev.thisUpdate ≤ s.now)
    {e : CrlEntry}
    (he : e ∈ prev.entries)
    (hserial : e.serial = row.fingerprint.serial) :
    e ∈ pruneCrlEntries s.db prev := by
  refine List.mem_filter.mpr ⟨he, ?_⟩
  simp only [Bool.not_eq_true', List.contains_eq_mem, decide_eq_false_iff_not]
  intro hprune
  simp only [prunable, List.mem_map, List.mem_filter, Bool.and_eq_true, decide_eq_true_eq]
    at hprune
  obtain ⟨row', ⟨hrow', _, hexpired⟩, htext⟩ := hprune
  have hsame : row' = row := by
    refine h.indexed.eq hrow' hrow ?_
    rw [htext, hserial, (h.indexed.faithful row hrow).serial]
  subst hsame
  omega

/-- The invariant only depends on the index, the recorded generations, the
files, the log and, downwards, on the clock. -/
theorem Listed.sameIndex
    {s s' : Store}
    (h : Listed s)
    (hindex : s'.db.certIndex = s.db.certIndex)
    (hrows : s.db.Extends s'.db)
    (hpem : s'.pem = s.pem)
    (hcrl : s'.crl = s.crl)
    (hlog : ∀ w, Event.rewrite w ∈ s'.log → Event.rewrite w ∈ s.log)
    (hnow : s.now ≤ s'.now) :
    Listed s' := by
  refine ⟨h.indexed.congr hindex, ?_, ?_, ?_⟩
  · intro slug crl hget
    rw [hcrl] at hget
    exact Nat.le_trans (h.past slug crl hget) hnow
  · intro w hw
    exact h.rewrites w (hlog w hw)
  · intro row hrow hleaf hrevoked hvalid
    rw [hindex] at hrow
    have hold := h.listed row hrow hleaf hrevoked (Nat.le_trans hnow hvalid)
    refine onIssuersCrl.mono hold hrows ?_ ?_
    · intro slug _
      rw [hpem]
    · intro slug _ crl hget hentry
      exact ⟨crl, by rw [hcrl]; exact hget, hentry⟩

/-- Indexing a certificate with a serial of its own. -/
theorem Listed.index
    {s s' : Store}
    (h : Listed s)
    {c : Cert}
    {kind : Kind}
    {purpose : String}
    (hfresh : ∀ row ∈ s.db.certIndex, row.serial ≠ hexEncode c.serial)
    (hindex : s'.db.certIndex = indexCert s.db.certIndex c kind purpose)
    (hrows : s.db.Extends s'.db)
    (hpem : s'.pem = s.pem)
    (hcrl : s'.crl = s.crl)
    (hlog : ∀ w, Event.rewrite w ∈ s'.log → Event.rewrite w ∈ s.log)
    (hnow : s'.now = s.now) :
    Listed s' := by
  refine ⟨h.indexed.indexCert hfresh hindex, ?_, ?_, ?_⟩
  · intro slug crl hget
    rw [hcrl] at hget
    rw [hnow]
    exact h.past slug crl hget
  · intro w hw
    exact h.rewrites w (hlog w hw)
  · intro row hrow hleaf hrevoked hvalid
    rw [hindex] at hrow
    rcases mem_indexCert hrow with hold | rfl
    · rw [hnow] at hvalid
      refine onIssuersCrl.mono (h.listed row hold hleaf hrevoked hvalid) hrows ?_ ?_
      · intro slug _
        rw [hpem]
      · intro slug _ crl hget hentry
        exact ⟨crl, by rw [hcrl]; exact hget, hentry⟩
    · simp [indexRow] at hrevoked

end Invariant

section Steps

/-- Rewriting a CRL keeps every unexpired revoked leaf on it. -/
theorem Listed.rewrite
    {p : Pid}
    {s : Store}
    {w : Rewrite}
    (h : Listed s)
    (honly : ∀ cert ∈ w.added, cert.aki = w.signer.ski)
    (hmeets : RewriteMeets Rules.sound p s w) :
    Listed (s.apply p (.rewrite w)) := by
  refine ⟨h.indexed, ?_, ?_, ?_⟩
  · intro slug crl hget
    have hget : Function.update s.crl w.slug (some w.crl) slug = some crl := hget
    by_cases hslug : slug = w.slug
    · subst hslug
      rw [Function.update_self] at hget
      rw [← Option.some.inj hget, hmeets.thisUpdate]
      exact Nat.le_refl _
    · rw [Function.update_of_ne hslug] at hget
      exact h.past slug crl hget
  · intro w' hw'
    rcases List.mem_cons.mp hw' with heq | hw'
    · rw [Event.rewrite.inj heq]
      exact honly
    · exact h.rewrites w' hw'
  · intro row hrow hleaf hrevoked hvalid
    refine onIssuersCrl.mono (h.listed row hrow hleaf hrevoked hvalid) (Db.Extends.refl _)
      (fun _ _ => rfl) ?_
    intro slug hrec crl hget hentry
    by_cases hslug : slug = w.slug
    · subst hslug
      rw [hmeets.prev hrec] at hget
      have hprev := Option.some.inj hget
      subst hprev
      obtain ⟨e, he, hserial⟩ := hentry
      obtain ⟨reason, hentries⟩ := hmeets.entries
      refine ⟨w.crl, Function.update_self _ _ _, e, ?_, hserial⟩
      rw [hentries]
      refine List.mem_append_left _ (entry_kept h hrow hvalid ?_ he hserial)
      exact h.past _ _ (hmeets.prev hrec)
    · exact ⟨crl, (Function.update_of_ne hslug _ _).trans hget, hentry⟩

/-- Publishing over no recorded generation leaves every listed leaf listed. -/
theorem Listed.publish
    {p : Pid}
    {s : Store}
    {slug : String}
    {issuer : Cert}
    {file : Artifact}
    (h : Listed s)
    (hkeep : ¬ s.db.Recorded slug)
    (hthis : ∀ crl, file = .crl crl → crl.thisUpdate = s.now) :
    Listed (s.apply p (.publish slug issuer file)) := by
  have hne : ∀ other, s.db.Recorded other → other ≠ slug := by
    rintro other hrec rfl
    exact hkeep hrec
  have hlog : ∀ w, Event.rewrite w ∈ (s.apply p (.publish slug issuer file)).log →
      Event.rewrite w ∈ s.log := by
    intro w hw
    rcases List.mem_cons.mp hw with heq | hw
    · simp at heq
    · exact hw
  have hlisted : ∀ s' : Store, s'.db = s.db → s'.now = s.now →
      (∀ other, other ≠ slug → s'.pem other = s.pem other) →
      (∀ other, other ≠ slug → s'.crl other = s.crl other) → RevokedListed s' := by
    intro s' hdb hnow hpem hcrl row hrow hleaf hrevoked hvalid
    rw [hdb] at hrow
    rw [hnow] at hvalid
    refine onIssuersCrl.mono (h.listed row hrow hleaf hrevoked hvalid) ?_ ?_ ?_
    · rw [hdb]
      exact Db.Extends.refl _
    · intro other hrec
      exact hpem other (hne other hrec)
    · intro other hrec crl hget hentry
      exact ⟨crl, (hcrl other (hne other hrec)).trans hget, hentry⟩
  cases file with
  | pem cert =>
      exact ⟨h.indexed, h.past, fun w hw => h.rewrites w (hlog w hw),
        hlisted _ rfl rfl (fun other hother => Function.update_of_ne hother _ _) fun _ _ => rfl⟩
  | crt cert =>
      exact ⟨h.indexed, h.past, fun w hw => h.rewrites w (hlog w hw),
        hlisted _ rfl rfl (fun _ _ => rfl) fun _ _ => rfl⟩
  | crl crl =>
      refine ⟨h.indexed, ?_, fun w hw => h.rewrites w (hlog w hw),
        hlisted _ rfl rfl (fun _ _ => rfl) fun other hother => Function.update_of_ne hother _ _⟩
      intro other crl' hget
      have hget : Function.update s.crl slug (some crl) other = some crl' := hget
      by_cases hother : other = slug
      · subst hother
        rw [Function.update_self] at hget
        rw [← Option.some.inj hget, hthis crl rfl]
        exact Nat.le_refl _
      · rw [Function.update_of_ne hother] at hget
        exact h.past other crl' hget

/-- Revoking a certificate whose entry was put on its issuer's CRL. -/
theorem Listed.revoke
    {p : Pid}
    {s : Store}
    {fp : Cert}
    {reason : Reason}
    {at_ : Nat}
    (h : Listed s)
    (htx : TxMeets Rules.sound s (.revoke fp reason at_)) :
    Listed (s.apply p (.commit (.revoke fp reason at_))) := by
  obtain ⟨_, w, hw, hadded, hrec, hfiles, reason', hentry⟩ := htx
  obtain ⟨hpem, hcrl⟩ := hfiles fun _ _ h => h
  have haki := h.rewrites w hw fp hadded
  obtain ⟨g, hg, hslug⟩ := hrec
  refine ⟨h.indexed.markRevoked rfl, h.past, ?_, ?_⟩
  · intro w' hw'
    rcases List.mem_cons.mp hw' with heq | hw'
    · simp at heq
    · exact h.rewrites w' hw'
  · intro row hrow hleaf hrevoked hvalid
    rcases mem_updateWhere.mp hrow with ⟨row₀, hrow₀, ⟨hfp, rfl⟩ | ⟨_, rfl⟩⟩
    · -- The row just revoked: its entry is on the CRL of the generation found before.
      have hfp : row₀.fingerprint = fp := by simpa using hfp
      refine onIssuersCrl_iff.mpr ⟨g, hg, w.signer, w.crl, ?_, ?_, ?_, ⟨fp.serial, reason'⟩,
        hentry, ?_⟩
      · rw [hslug]
        exact hpem
      · show w.signer.ski = row₀.aki
        rw [(h.indexed.faithful row₀ hrow₀).aki, hfp, haki]
      · rw [hslug]
        exact hcrl
      · show fp.serial = row₀.fingerprint.serial
        rw [hfp]
    · exact h.listed row hrow₀ hleaf hrevoked hvalid

theorem Listed.commit
    {p : Pid}
    {s : Store}
    {tx : Tx}
    (h : Listed s)
    (honly : Rules.sound.only s (.commit tx))
    (hmeets : Meets Rules.sound p s (.commit tx)) :
    Listed (s.apply p (.commit tx)) := by
  obtain ⟨_, hrun, htx⟩ := hmeets
  obtain ⟨db, hdb⟩ := Option.isSome_iff_exists.mp hrun
  have hlog : ∀ w, Event.rewrite w ∈ (s.apply p (.commit tx)).log → Event.rewrite w ∈ s.log := by
    intro w hw
    rcases List.mem_cons.mp hw with heq | hw
    · simp at heq
    · exact hw
  have hextends : s.db.Extends (s.apply p (.commit tx)).db := by
    rw [apply_commit p hdb]
    exact run_extends hdb
  have hindex : (s.apply p (.commit tx)).db.certIndex = tx.index s.db.certIndex := by
    rw [apply_commit p hdb]
    exact run_certIndex hdb
  cases tx with
  | issue cert issuer profile purpose id => exact h.index honly hindex hextends rfl rfl hlog rfl
  | revoke fp reason at_ => exact h.revoke htx
  | revokeCa victim cert reason at_ => exact htx.elim
  | generation next cert key lock => exact h.index honly hindex hextends rfl rfl hlog rfl
  | _ => exact h.sameIndex hindex hextends rfl rfl hlog (Nat.le_refl _)

theorem Listed.event
    {p : Pid}
    {s : Store}
    {e : Event}
    (h : Listed s)
    (hallow : Rules.sound.allow p s e)
    (hmeets : Meets Rules.sound p s e) :
    Listed (s.apply p e) := by
  cases e with
  | quiet => exact h
  | rewrite w => exact h.rewrite hallow hmeets
  | publish slug issuer file =>
      refine h.publish (hallow.1 trivial) ?_
      rintro crl rfl
      exact hmeets.2.2
  | commit tx => exact h.commit hallow hmeets
  | key use =>
      obtain ⟨hdb, _, hpem, hcrl⟩ := apply_key_db p use s
      refine h.sameIndex (congrArg Db.certIndex hdb) ?_ hpem hcrl ?_ (by simp)
      · rw [hdb]
        exact Db.Extends.refl _
      · simp [Store.apply]
  | backfill row =>
      refine h.sameIndex rfl ?_ rfl rfl (by simp [Store.apply]) (Nat.le_refl _)
      intro r hr
      exact ⟨r, List.mem_append_left _ hr, rfl, rfl⟩
  | _ =>
      exact h.sameIndex rfl (Db.Extends.refl _) rfl rfl (by simp [Store.apply]) (Nat.le_refl _)

/-- The ceremony issues no leaf and rewrites no CRL. -/
theorem Initialised.listed
    {s : Store}
    (h : Initialised s) :
    Listed s := by
  obtain ⟨hindexed, hnoLeaf⟩ := h.indexed
  obtain ⟨config, rootCert, rootKey, minted, hs⟩ := h.ceremony
  refine ⟨hindexed, ?_, ?_, ?_⟩
  · intro slug crl hcrl
    exact Nat.le_of_eq (hs.crl slug crl hcrl)
  · intro w hw
    rcases hs.log _ hw with ⟨use, heq, _⟩ | ⟨slug, issuer, file, heq, _⟩
    · simp at heq
    · simp at heq
  · intro row hrow hleaf
    rw [hnoLeaf row hrow] at hleaf
    simp at hleaf

end Steps

section Runs

/-- Issuing, revoking and renewing. -/
def Request.turnsOver : Request → Bool
  | .issueEe .. => true
  | .signCsr .. => true
  | .revoke .. => true
  | .renewSigningCa .. => true
  | _ => false

/-- In every sound run of any number of commands that revoke no generation, with
crashes anywhere, every revoked and unexpired leaf is on its issuer's CRL. -/
theorem revoked_leaves_listed
    {w : World Store Command}
    (hw : (yca.system Initialised).Reachable
      (Rules.sound.runs fun req => req.keepsCas = true) w) :
    RevokedListed w.shared := by
  have hlisted : Listed w.shared := by
    refine holds_of_reachable Rules.sound_admits (fun s hs => hs.listed) ?_ hw
    intro s s' hs hmove
    refine keeps_of_events ?_ ?_ hs hmove
    · intro s p e hs hallow hmeets
      exact hs.event hallow hmeets
    · intro s s' hs hdb hpem hcrl hlog hnow
      refine hs.sameIndex (congrArg Db.certIndex hdb) ?_ hpem hcrl ?_ hnow
      · rw [hdb]
        exact Db.Extends.refl _
      · rw [hlog]
        exact fun _ h => h
  exact hlisted.listed

/-- A leaf is issued, the issuing CA renewed, and the leaf revoked by name. -/
theorem revoked_leaves_listed_sample :
    ∃ w : World Store Command,
      (∃ row ∈ w.shared.db.certIndex, row.isLeaf = true ∧ row.status = .revoked ∧
        w.shared.now ≤ row.notAfter) ∧
      RevokedListed w.shared := by
  have h :
      ((yca.system Initialised).follow (Rules.sound.runs fun req => req.keepsCas = true)
        (World.idle sampleStore)
        ([.spawn 1 (.issueEe .server "a.ca" none)] ++ acts 1 10 (sampleChoice 21) ++
          [.spawn 2 (.renewSigningCa "tls" "CA E2")] ++ acts 2 18 (sampleChoice 31) ++
          [.spawn 3 (.revoke .server "a.ca" "" "keyCompromise")] ++
          acts 3 12 (sampleChoice 0))).any
        (fun w => w.shared.db.certIndex.any fun row =>
          row.isLeaf && row.status == .revoked && decide (w.shared.now ≤ row.notAfter)) =
          true := by
    decide
  obtain ⟨w, hrun, hcheck⟩ := Automaton.Run.exists_of_follow h
  have hw := Automaton.Reachable.of_run
    (M := yca.system Initialised) ⟨sampleStore_initialised, World.idle_quiet _⟩ hrun
  refine ⟨w, ?_, revoked_leaves_listed hw⟩
  simpa only [List.any_eq_true, Bool.and_eq_true, beq_iff_eq, decide_eq_true_eq, and_assoc]
    using hcheck

/-- The certificate found under the lock is the successor, issued by the next
generation; its entry goes on the CRL of the generation before. -/
theorem revoked_leaves_not_listed :
    ¬ ∀ w : World Store Command,
      (yca.system Initialised).Reachable (commands fun req => req.turnsOver = true) w →
        RevokedListed w.shared := by
  intro hall
  have h :
      ((yca.system Initialised).follow (commands fun req => req.turnsOver = true)
        (World.idle sampleStore)
        ([.spawn 1 (.issueEe .server "a.ca" none)] ++ acts 1 10 (sampleChoice 21) ++
          [.env (.tick (61 * day)), .spawn 3 (.revoke .server "a.ca" "" "keyCompromise")] ++
          acts 3 7 (sampleChoice 0) ++
          [.spawn 2 (.renewSigningCa "tls" "CA E2")] ++ acts 2 18 (sampleChoice 31) ++
          [.env (.tick 1), .spawn 1 (.issueEe .server "a.ca" none)] ++
          acts 1 10 (sampleChoice 22) ++ acts 3 5 (sampleChoice 0))).any
        (fun w => w.shared.db.certIndex.any fun row =>
          row.isLeaf && row.status == .revoked && decide (w.shared.now ≤ row.notAfter) &&
            !onIssuersCrl w.shared row) = true := by
    decide
  obtain ⟨w, hrun, hcheck⟩ := Automaton.Run.exists_of_follow h
  have hw := Automaton.Reachable.of_run
    (M := yca.system Initialised) ⟨sampleStore_initialised, World.idle_quiet _⟩ hrun
  simp only [List.any_eq_true, Bool.and_eq_true, beq_iff_eq, decide_eq_true_eq,
    Bool.not_eq_true'] at hcheck
  obtain ⟨row, hrow, ⟨⟨hleaf, hrevoked⟩, hvalid⟩, hmissing⟩ := hcheck
  rw [hall w hw row hrow hleaf hrevoked hvalid] at hmissing
  simp at hmissing

end Runs

end Ca
end Yca
