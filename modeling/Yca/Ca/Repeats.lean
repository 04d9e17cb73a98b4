import Yca.Ca.Retention

/-!
# Serials that a CRL lists twice

A revocation appends its entry to the CRL it read and records the certificate as
revoked when it commits.  If it dies in between, the certificate is on the CRL and
still active, and the command run again appends the entry once more.  `revoke_ca`
also looks whether its victim is revoked before it takes the lock, so two of them
can both go on.

Where every CRL is extended for an active certificate, and every earlier extension
for it was committed, a CRL lists each serial once.
-/

namespace Yca
namespace Ca

open Yca.Core

/-- The CRL extensions of a run. -/
def extensions (log : List Event) : List Rewrite :=
  log.filterMap fun e =>
    match e with
    | .rewrite w => some w
    | _ => none

/-- The certificates whose revocation was committed. -/
def recordedRevocations (log : List Event) : List Cert :=
  log.filterMap fun e =>
    match e with
    | .commit (.revoke fp _ _) => some fp
    | .commit (.revokeCa _ cert _ _) => some cert
    | _ => none

/-- The certificate a CRL is extended for is active, and no earlier extension of
this CRL for it was left uncommitted. -/
def Whole (s : Store) (w : Rewrite) : Prop :=
  ∀ c ∈ w.added,
    (∃ row ∈ s.db.certIndex, row.fingerprint = c ∧ row.status = .active) ∧
      ∀ w' ∈ extensions s.log, w'.slug = w.slug → w'.added = some c →
        c ∈ recordedRevocations s.log

/-- Revocations and refreshes under that condition. -/
def Rules.whole : Rules where
  issuance := False
  ceremonies := False
  caRevocation := True
  keep _ _ := True
  keep_mono _ _ _ _ h := h
  only s e :=
    match e with
    | .rewrite w => Whole s w
    | _ => True

instance (s : Store) (w : Rewrite) : Decidable (Whole s w) := by
  unfold Whole
  infer_instance

instance : Decidable Rules.whole.ceremonies :=
  inferInstanceAs (Decidable False)

instance (db : Db) (slug : String) : Decidable (Rules.whole.keep db slug) :=
  inferInstanceAs (Decidable True)

instance (s : Store) (e : Event) : Decidable (Rules.whole.only s e) := by
  unfold Rules.whole
  dsimp only
  split <;> infer_instance

theorem Rules.whole_admits (req : Request) (h : req.revokes = true) :
    Rules.whole.Admits req := by
  cases req <;> trivial

/-- Each CRL lists a serial once, and lists no active certificate. -/
def TidyCrls (s : Store) : Prop :=
  ∀ slug crl, s.crl slug = some crl →
    (crl.entries.map CrlEntry.serial).Nodup ∧
      ∀ e ∈ crl.entries, ∀ row ∈ s.db.certIndex,
        row.fingerprint.serial = e.serial → row.status = .revoked

/-- A store at rest with no revocation half done. -/
def Tidy (s : Store) : Prop :=
  Resting s ∧ extensions s.log = [] ∧ recordedRevocations s.log = [] ∧ TidyCrls s

section Logs

theorem mem_extensions
    {log : List Event}
    {w : Rewrite} :
    w ∈ extensions log ↔ .rewrite w ∈ log := by
  simp only [extensions, List.mem_filterMap]
  constructor
  · rintro ⟨e, he, hw⟩
    split at hw
    · exact Option.some.inj hw ▸ he
    · simp at hw
  · intro hw
    exact ⟨_, hw, rfl⟩

@[simp] theorem extensions_cons_rewrite (w : Rewrite) (log : List Event) :
    extensions (.rewrite w :: log) = w :: extensions log := by
  rfl

@[simp] theorem recordedRevocations_cons_rewrite (w : Rewrite) (log : List Event) :
    recordedRevocations (.rewrite w :: log) = recordedRevocations log := by
  rfl

/-- What a transaction adds to the revocations on record. -/
def Tx.revoked : Tx → List Cert
  | .revoke fp _ _ => [fp]
  | .revokeCa _ cert _ _ => [cert]
  | _ => []

theorem recordedRevocations_cons_commit (tx : Tx) (log : List Event) :
    recordedRevocations (.commit tx :: log) = tx.revoked ++ recordedRevocations log := by
  cases tx <;> rfl

end Logs

/-- What holds along these runs: an entry whose certificate is not on record as
revoked is from an extension that was not committed. -/
structure Once (s : Store) : Prop where
  indexed : Indexed s.db
  nodup : ∀ slug crl, s.crl slug = some crl → (crl.entries.map CrlEntry.serial).Nodup
  written : ∀ w ∈ extensions s.log, (w.crl.entries.map CrlEntry.serial).Nodup
  traced : ∀ slug crl, s.crl slug = some crl →
    ∀ e ∈ crl.entries, ∀ row ∈ s.db.certIndex, row.fingerprint.serial = e.serial →
      row.status = .revoked ∨
        ∃ w ∈ extensions s.log, w.slug = slug ∧ w.added = some row.fingerprint
  settled : ∀ c ∈ recordedRevocations s.log,
    ∀ row ∈ s.db.certIndex, row.fingerprint = c → row.status = .revoked

namespace Once

theorem of_tidy
    {s : Store}
    (h : Tidy s) :
    Once s := by
  obtain ⟨hresting, hextensions, hrecorded, hcrls⟩ := h
  refine ⟨hresting.2, fun slug crl hcrl => (hcrls slug crl hcrl).1, ?_, ?_, ?_⟩
  · intro w hw
    simp [hextensions] at hw
  · intro slug crl hcrl e he row hrow hserial
    exact .inl ((hcrls slug crl hcrl).2 e he row hrow hserial)
  · intro c hc
    simp [hrecorded] at hc

/-- A CRL is extended for a certificate it does not list. -/
theorem unlisted
    {s : Store}
    (h : Once s)
    {w : Rewrite}
    (hwhole : Whole s w)
    {c : Cert}
    (hc : w.added = some c)
    {crl : Crl}
    (hcrl : s.crl w.slug = some crl)
    {e : CrlEntry}
    (he : e ∈ crl.entries) :
    e.serial ≠ c.serial := by
  intro hserial
  obtain ⟨⟨row, hrow, hfp, hactive⟩, hcommitted⟩ := hwhole c hc
  have hrevoked : row.status = .revoked := by
    rcases h.traced w.slug crl hcrl e he row hrow (by rw [hfp, hserial]) with
      hrevoked | ⟨w', hw', hslug, hadded⟩
    · exact hrevoked
    · rw [hfp] at hadded
      exact h.settled c (hcommitted w' hw' hslug hadded) row hrow hfp
  rw [hactive] at hrevoked
  simp at hrevoked

/-- The step that writes a CRL. -/
theorem rewrite
    {p : Pid}
    {s : Store}
    (h : Once s)
    {w : Rewrite}
    (hwhole : Whole s w)
    (hmeets : RewriteMeets Rules.whole p s w) :
    Once (s.apply p (.rewrite w)) := by
  have hprev : s.crl w.slug = some w.prev := hmeets.prev trivial
  obtain ⟨reason, hentries⟩ := hmeets.entries
  have hkept : ∀ e ∈ pruneCrlEntries s.db w.prev, e ∈ w.prev.entries :=
    fun e he => List.mem_of_mem_filter he
  have hold : ((pruneCrlEntries s.db w.prev).map CrlEntry.serial).Nodup :=
    (h.nodup w.slug w.prev hprev).sublist (List.filter_sublist.map _)
  have hnodup : (w.crl.entries.map CrlEntry.serial).Nodup := by
    rw [hentries, List.map_append]
    cases hadded : w.added with
    | none => simpa using hold
    | some c =>
        refine List.Nodup.append hold (by simp) ?_
        intro serial hserial hmem
        obtain ⟨e, he, rfl⟩ := List.mem_map.mp hserial
        have hsame : e.serial = c.serial := by simpa using hmem
        exact h.unlisted hwhole hadded hprev (hkept e he) hsame
  refine ⟨h.indexed, ?_, ?_, ?_, h.settled⟩
  · intro slug crl hcrl
    have hcrl : Function.update s.crl w.slug (some w.crl) slug = some crl := hcrl
    by_cases hslug : slug = w.slug
    · subst hslug
      rw [Function.update_self] at hcrl
      exact Option.some.inj hcrl ▸ hnodup
    · rw [Function.update_of_ne hslug] at hcrl
      exact h.nodup slug crl hcrl
  · intro w' hw'
    rcases List.mem_cons.mp hw' with rfl | hw'
    · exact hnodup
    · exact h.written w' hw'
  · intro slug crl hcrl e he row hrow hserial
    have hcrl : Function.update s.crl w.slug (some w.crl) slug = some crl := hcrl
    have hlater : (∃ w' ∈ extensions s.log, w'.slug = slug ∧ w'.added = some row.fingerprint) →
        ∃ w' ∈ extensions (s.apply p (.rewrite w)).log,
          w'.slug = slug ∧ w'.added = some row.fingerprint := by
      rintro ⟨w', hw', hrest⟩
      exact ⟨w', List.mem_cons_of_mem _ hw', hrest⟩
    by_cases hslug : slug = w.slug
    · subst hslug
      rw [Function.update_self] at hcrl
      obtain rfl := Option.some.inj hcrl
      rw [hentries] at he
      rcases List.mem_append.mp he with he | he
      · exact (h.traced w.slug w.prev hprev e (hkept e he) row hrow hserial).imp_right hlater
      · -- the new entry, and the active row it is for
        right
        cases hadded : w.added with
        | none => simp [hadded] at he
        | some c =>
            have hentry : e = ⟨c.serial, reason⟩ := by simpa [hadded] using he
            subst hentry
            obtain ⟨⟨row', hrow', hfp, _⟩, _⟩ := hwhole c hadded
            have hsame : row = row' :=
              h.indexed.distinct.eq hrow hrow' (by rw [hserial, hfp])
            refine ⟨w, List.mem_cons_self, rfl, ?_⟩
            rw [hadded, hsame, hfp]
    · rw [Function.update_of_ne hslug] at hcrl
      exact (h.traced slug crl hcrl e he row hrow hserial).imp_right hlater

/-- The step that records a revocation. -/
theorem commit
    {p : Pid}
    {s : Store}
    (h : Once s)
    {tx : Tx}
    (hmeets : Meets Rules.whole p s (.commit tx)) :
    Once (s.apply p (.commit tx)) := by
  obtain ⟨_, hrun, htx⟩ := hmeets
  obtain ⟨db, hdb⟩ := Option.isSome_iff_exists.mp hrun
  have hfresh : tx.Fresh s.db := by
    cases tx with
    | issue cert issuer profile purpose id => exact htx.1.elim
    | generation next cert key lock => exact htx.1.elim
    | _ => trivial
  -- rows only ever become revoked, and those of a revoked certificate do
  have hrows : ∀ row ∈ db.certIndex,
      (row.status = .revoked ∨ row ∈ s.db.certIndex) ∧
        (row.fingerprint ∈ tx.revoked → row.status = .revoked) := by
    have hmarked : ∀ fp reason at_, ∀ row ∈ markRevoked s.db.certIndex fp reason at_,
        (row.status = .revoked ∨ row ∈ s.db.certIndex) ∧
          (row.fingerprint ∈ [fp] → row.status = .revoked) := by
      intro fp reason at_ row hrow
      obtain ⟨row₀, hrow₀, ⟨_, rfl⟩ | ⟨hne, rfl⟩⟩ := mem_updateWhere.mp hrow
      · exact ⟨.inl rfl, fun _ => rfl⟩
      · refine ⟨.inr hrow₀, ?_⟩
        intro hmem
        have hne' : row.fingerprint ≠ fp := by simpa using hne
        exact absurd (List.mem_singleton.mp hmem) hne'
    rw [run_certIndex hdb]
    cases tx with
    | revoke fp reason at_ => exact hmarked fp reason at_
    | revokeCa victim cert reason at_ => exact hmarked cert reason at_
    | issue cert issuer profile purpose id => exact htx.1.elim
    | generation next cert key lock => exact htx.1.elim
    | _ => exact fun row hrow => ⟨.inr hrow, fun hmem => by simp [Tx.revoked] at hmem⟩
  have hextensions : extensions (.commit tx :: s.log) = extensions s.log := by rfl
  rw [apply_commit p hdb]
  refine ⟨h.indexed.run hdb hfresh, h.nodup, ?_, ?_, ?_⟩
  · intro w hw
    exact h.written w (hextensions ▸ hw)
  · intro slug crl hcrl e he row hrow hserial
    rw [hextensions]
    rcases (hrows row hrow).1 with hrevoked | hold
    · exact .inl hrevoked
    · exact h.traced slug crl hcrl e he row hold hserial
  · intro c hc row hrow hfp
    rw [recordedRevocations_cons_commit] at hc
    rcases List.mem_append.mp hc with hc | hc
    · exact (hrows row hrow).2 (hfp ▸ hc)
    · rcases (hrows row hrow).1 with hrevoked | hold
      · exact hrevoked
      · exact h.settled c hc row hold hfp

theorem event
    {p : Pid}
    {s : Store}
    {e : Event}
    (h : Once s)
    (hallow : Rules.whole.allow p s e)
    (hmeets : Meets Rules.whole p s e) :
    Once (s.apply p e) := by
  cases e with
  | quiet => exact h
  | rewrite w => exact h.rewrite hallow hmeets
  | commit tx => exact h.commit hmeets
  | publish slug issuer file => exact hmeets.1.elim
  | key use =>
      obtain ⟨hdb, _, _, hcrl⟩ := apply_key_db p use s
      have hlog : (s.apply p (.key use)).log = .key use :: s.log := by rfl
      refine ⟨?_, ?_, ?_, ?_, ?_⟩
      · rw [hdb]
        exact h.indexed
      · rw [hcrl]
        exact h.nodup
      · rw [hlog]
        exact h.written
      · rw [hdb, hcrl, hlog]
        exact h.traced
      · rw [hdb, hlog]
        exact h.settled
  | backfill row => exact ⟨h.indexed.congr rfl, h.nodup, h.written, h.traced, h.settled⟩
  | begin => exact ⟨h.indexed, h.nodup, h.written, h.traced, h.settled⟩
  | rollback => exact ⟨h.indexed, h.nodup, h.written, h.traced, h.settled⟩

end Once

/-- In every run of `revoke`, `revoke_ca` and `refresh_crl` in which each CRL is
extended for an active certificate and no earlier extension for it was left
uncommitted, every CRL ever written lists each serial once. -/
theorem crl_lists_once
    {w : World Store Command}
    (hw : (yca.system Tidy).Reachable
      (Rules.whole.runs fun req => req.revokes = true) w) :
    (∀ r, .rewrite r ∈ w.shared.log → (r.crl.entries.map CrlEntry.serial).Nodup) ∧
      ∀ slug crl, w.shared.crl slug = some crl →
        (crl.entries.map CrlEntry.serial).Nodup := by
  have honce : Once w.shared := by
    refine holds_of_reachable (P := Once) Rules.whole_admits (fun _ hs => Once.of_tidy hs) ?_ hw
    intro s s' hs hmove
    refine keeps_of_events ?_ ?_ hs hmove
    · intro s p e hs hallow hmeets
      exact hs.event hallow hmeets
    · intro s s' hs hdb _ hcrl hlog _
      refine ⟨?_, ?_, ?_, ?_, ?_⟩
      · rw [hdb]
        exact hs.indexed
      · rw [hcrl]
        exact hs.nodup
      · rw [hlog]
        exact hs.written
      · rw [hdb, hcrl, hlog]
        exact hs.traced
      · rw [hdb, hlog]
        exact hs.settled
  exact ⟨fun r hr => honce.written r (mem_extensions.mpr hr), honce.nodup⟩

section Sample

/-- A leaf of the first issuing CA, active. -/
def activeStore : Store :=
  { sampleStore with
    db :=
      { sampleStore.db with
        certIndex := indexCert sampleStore.db.certIndex sampleLeaf (.ee .server) "tls"
        certificates := insertCert sampleStore.db.certificates sampleLeaf } }

/-- The generation that follows the first issuing CA. -/
def sampleSuccessor : Cert :=
  ⟨[0x61], "CA E2", "Root R", 1000, 158760000, 8, 1, 8, 1⟩

/-- The first issuing CA is retired and can be revoked. -/
def renewedStore : Store :=
  { sampleStore with
    db :=
      { sampleStore.db with
        certIndex := indexCert sampleStore.db.certIndex sampleSuccessor (.ca .signing) "tls"
        certificates := insertKey sampleStore.db.certificates sampleSuccessor 8
        caIndex :=
          retire sampleStore.db.caIndex "tls" ++
            [⟨⟨"tls", 2, "CA E2", "ca-e2"⟩, .signing, .active⟩] }
    pem := Function.update sampleStore.pem "ca-e2" (some sampleSuccessor)
    crl := Function.update sampleStore.crl "ca-e2" (some ⟨[], 1, 1000, 9000, 8, 8⟩) }

/-- The ceremony publishes empty CRLs. -/
theorem sampleStore_lists_nothing :
    ∀ slug crl, sampleStore.crl slug = some crl → crl.entries = [] := by
  have hcrls : sampleStore.crl =
      Function.update (Function.update (Function.update (fun _ => none)
        "ca-r1" (some ⟨[], 1, 1000, 15812200, 1, 1⟩))
        "ca-e1" (some ⟨[], 1, 1000, 605800, 2, 2⟩))
        "ca-m1" (some ⟨[], 1, 1000, 605800, 3, 3⟩) := by
    rfl
  intro slug
  rw [hcrls]
  rcases eq_or_ne slug "ca-m1" with rfl | hm
  · simp
  rw [Function.update_of_ne hm]
  rcases eq_or_ne slug "ca-e1" with rfl | he
  · simp
  rw [Function.update_of_ne he]
  rcases eq_or_ne slug "ca-r1" with rfl | hr
  · simp
  simp [Function.update_of_ne hr]

/-- A store whose CRLs list nothing is tidy. -/
theorem tidy_of_lists_nothing
    {s : Store}
    (hresting : Resting s)
    (hlog : extensions s.log = [] ∧ recordedRevocations s.log = [])
    (hcrls : ∀ slug crl, s.crl slug = some crl → crl.entries = []) :
    Tidy s := by
  refine ⟨hresting, hlog.1, hlog.2, ?_⟩
  intro slug crl hcrl
  rw [hcrls slug crl hcrl]
  exact ⟨List.nodup_nil, by simp⟩

theorem activeStore_tidy :
    Tidy activeStore := by
  refine tidy_of_lists_nothing ⟨by decide, ?_⟩ ⟨by decide, by decide⟩ sampleStore_lists_nothing
  exact sampleStore_initialised.indexed.1.indexCert (by decide) rfl

theorem renewedStore_tidy :
    Tidy renewedStore := by
  refine tidy_of_lists_nothing ⟨by decide, ?_⟩ ⟨by decide, by decide⟩ ?_
  · exact sampleStore_initialised.indexed.1.indexCert (by decide) rfl
  · intro slug crl hcrl
    have hcrl : Function.update sampleStore.crl "ca-e2" (some ⟨[], 1, 1000, 9000, 8, 8⟩) slug =
        some crl := hcrl
    rcases eq_or_ne slug "ca-e2" with rfl | hslug
    · rw [Function.update_self] at hcrl
      exact Option.some.inj hcrl ▸ rfl
    · rw [Function.update_of_ne hslug] at hcrl
      exact sampleStore_lists_nothing slug crl hcrl

/-- One revocation, followed to its end. -/
theorem crl_lists_once_sample :
    ∃ w : World Store Command,
      w.shared.crl "ca-e1" = some ⟨[⟨[0x60], .superseded⟩], 2, 1000, 605800, 2, 2⟩ ∧
        ∀ slug crl, w.shared.crl slug = some crl →
          (crl.entries.map CrlEntry.serial).Nodup := by
  have hinit : (yca.system Tidy).init (World.idle activeStore) :=
    ⟨activeStore_tidy, World.idle_quiet _⟩
  have hend :
      ((yca.system Tidy).follow (Rules.whole.runs fun req => req.revokes = true)
        (World.idle activeStore)
        ([.spawn 1 (.revoke .server "a.ca" "" "superseded")] ++ acts 1 12 (sampleChoice 0))).any
        (fun w => w.shared.crl "ca-e1" ==
          some ⟨[⟨[0x60], .superseded⟩], 2, 1000, 605800, 2, 2⟩) = true := by
    decide
  obtain ⟨w, hrun, hcheck⟩ := Automaton.Run.exists_of_follow hend
  exact ⟨w, by simpa using hcheck,
    (crl_lists_once (Automaton.Reachable.of_run hinit hrun)).2⟩

/-- A CRL that lists a serial twice. -/
def ListsTwice (s : Store) (slug : String) (serial : List UInt8) : Prop :=
  ∃ crl, s.crl slug = some crl ∧ 2 ≤ (crl.entries.map CrlEntry.serial).count serial

theorem ListsTwice.of_check
    {s : Store}
    {slug : String}
    {serial : List UInt8}
    (h : ((s.crl slug).any fun crl => (crl.entries.map CrlEntry.serial) == [serial, serial]) =
      true) :
    ListsTwice s slug serial := by
  cases hcrl : s.crl slug with
  | none => simp [hcrl] at h
  | some crl =>
      rw [hcrl, Option.any_some, beq_iff_eq] at h
      refine ⟨crl, hcrl, ?_⟩
      simp [h]

/-- A revocation that dies after it wrote the CRL and is run again lists its
certificate twice, and so do two revocations of one CA that both found it active. -/
theorem crl_lists_twice :
    (∃ w, (yca.system Tidy).Reachable revocations w ∧
      ListsTwice w.shared "ca-e1" sampleLeaf.serial) ∧
    ∃ w, (yca.system Tidy).Reachable revocations w ∧
      ListsTwice w.shared "ca-r1" [0x42] := by
  constructor
  · have hend :
        ((yca.system Tidy).follow revocations (World.idle activeStore)
          ([.spawn 1 (.revoke .server "a.ca" "" "superseded")] ++ acts 1 11 (sampleChoice 0) ++
            [.crash 1, .spawn 2 (.revoke .server "a.ca" "" "superseded")] ++
              acts 2 12 (sampleChoice 0))).any
          (fun w => (w.shared.crl "ca-e1").any fun crl =>
            (crl.entries.map CrlEntry.serial) == [sampleLeaf.serial, sampleLeaf.serial]) =
          true := by
      decide
    obtain ⟨w, hrun, hcheck⟩ := Automaton.Run.exists_of_follow hend
    exact ⟨w, Automaton.Reachable.of_run ⟨activeStore_tidy, World.idle_quiet _⟩ hrun,
      .of_check hcheck⟩
  · have hend :
        ((yca.system Tidy).follow revocations (World.idle renewedStore)
          ([.spawn 1 (.revokeCa "CA E1" "superseded"), .spawn 2 (.revokeCa "CA E1" "superseded")] ++
            acts 1 12 (sampleChoice 0) ++ acts 2 12 (sampleChoice 0) ++
              acts 1 4 (sampleChoice 0) ++ acts 2 4 (sampleChoice 0))).any
          (fun w => (w.shared.crl "ca-r1").any fun crl =>
            (crl.entries.map CrlEntry.serial) == [[0x42], [0x42]]) =
          true := by
      decide
    obtain ⟨w, hrun, hcheck⟩ := Automaton.Run.exists_of_follow hend
    exact ⟨w, Automaton.Reachable.of_run ⟨renewedStore_tidy, World.idle_quiet _⟩ hrun,
      .of_check hcheck⟩

end Sample

end Ca
end Yca
