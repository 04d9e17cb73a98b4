import Yca.Ca.Conduct
import Yca.Ca.Index

/-!
# Certificates in the order of their recording

Rows are added to `cert_index` and none is taken out.  A leaf is only recorded
when no active certificate of its name and profile is outside its renewal
window, so of two that are active and unexpired the one recorded first is
strictly the older.  `active_fp` therefore finds the last one recorded.
-/

namespace Yca
namespace Ca

open Yca.Core

/-- A transaction that records a certificate gives it a serial of its own. -/
def FreshSerial (s : Store) : Event → Prop
  | .commit tx => tx.Fresh s.db
  | _ => True

instance (s : Store) : (e : Event) → Decidable (FreshSerial s e)
  | .commit tx => (inferInstance : Decidable (tx.Fresh s.db))
  | .quiet | .begin | .rollback | .key _ | .backfill _ | .publish .. | .rewrite _ =>
      instDecidableTrue

/-- The leaf a transaction records. -/
def Event.newLeaf : Event → Option Cert
  | .commit (.issue cert ..) => some cert
  | _ => none

theorem Event.eq_of_newLeaf
    {e : Event}
    {cert : Cert}
    (h : e.newLeaf = some cert) :
    ∃ issuer profile purpose enrolled,
      e = .commit (.issue cert issuer profile purpose enrolled) := by
  unfold Event.newLeaf at h
  split at h
  · rw [← Option.some.inj h]
    exact ⟨_, _, _, _, rfl⟩
  · simp at h

theorem Event.eq_of_commits
    {e : Event}
    (h : e.commits = true) :
    ∃ tx, e = .commit tx := by
  unfold Event.commits at h
  split at h
  · exact ⟨_, rfl⟩
  · simp at h

/-- Runs in which every new certificate gets a serial of its own. -/
abbrev Rules.freshSerials : Rules :=
  Rules.given FreshSerial

/-- A leaf of this name and profile is active and unexpired. -/
def CertRow.live (r : CertRow) (cn : String) (profile : Profile) (now : Nat) : Bool :=
  r.cn == cn && r.kind == .ee profile && r.status == .active && decide (r.notAfter > now)

section Rows

/-- The certificate a transaction records. -/
def Tx.recorded : Tx → Option Cert
  | .issue cert _ _ _ _ => some cert
  | .generation _ cert _ _ => some cert
  | _ => none

/-- Where a row with a serial of its own is the last. -/
theorem indexCert_fresh
    {db : Db}
    (h : Indexed db)
    {c : Cert}
    (hfresh : ∀ row ∈ db.certIndex, row.serial ≠ hexEncode c.serial)
    (kind : Kind)
    (purpose : String) :
    indexCert db.certIndex c kind purpose = db.certIndex ++ [indexRow c kind purpose] := by
  refine indexCert_of_new (fun row hrow => ?_) kind purpose
  rintro rfl
  exact hfresh row hrow (h.faithful row hrow).serial

/-- A transaction leaves the certificates on record in their order, and the one
it records comes last. -/
theorem fingerprints_run
    {db db' : Db}
    (h : Indexed db)
    {tx : Tx}
    (hdb : tx.run db = some db')
    (hfresh : tx.Fresh db) :
    db'.certIndex.map CertRow.fingerprint =
      db.certIndex.map CertRow.fingerprint ++ tx.recorded.toList := by
  have hindex := run_certIndex hdb
  have hmarked : ∀ fp reason at_, (markRevoked db.certIndex fp reason at_).map CertRow.fingerprint =
      db.certIndex.map CertRow.fingerprint := by
    intro fp reason at_
    unfold markRevoked
    refine updateWhere_map ?_ _
    intro row
    rfl
  rw [hindex]
  cases tx with
  | issue cert issuer profile purpose id =>
      show (indexCert db.certIndex cert _ _).map _ = _
      rw [indexCert_fresh h hfresh, List.map_append]
      rfl
  | generation next cert key lock =>
      show (indexCert db.certIndex cert _ _).map _ = _
      rw [indexCert_fresh h hfresh, List.map_append]
      rfl
  | revoke fp reason at_ => exact (hmarked fp reason at_).trans (List.append_nil _).symm
  | revokeCa victim cert reason at_ =>
      exact (hmarked cert reason at_).trans (List.append_nil _).symm
  | _ => exact (List.append_nil _).symm

/-- A certificate is in the table of certificates. -/
def Kept (rows : List StoredCert) (cert : Cert) : Prop :=
  ∃ c ∈ rows, c.cert = cert

theorem Kept.insertCert
    {rows : List StoredCert}
    {cert : Cert}
    (h : Kept rows cert)
    (new : Cert) :
    Kept (insertCert rows new) cert := by
  obtain ⟨c, hc, rfl⟩ := h
  by_cases heq : c.cert = new
  · exact ⟨⟨new, none⟩, by simp [Ca.insertCert], heq.symm⟩
  · exact ⟨c, by simp [Ca.insertCert, hc, heq], rfl⟩

theorem kept_insertCert (rows : List StoredCert) (new : Cert) :
    Kept (insertCert rows new) new :=
  ⟨⟨new, none⟩, by simp [insertCert], rfl⟩

theorem kept_insertKey_iff
    {rows : List StoredCert}
    {cert new : Cert}
    {key : Key} :
    Kept (insertKey rows new key) cert ↔ Kept (insertCert rows new) cert := by
  constructor
  · rintro ⟨c, hc, rfl⟩
    obtain ⟨c₀, hc₀, ⟨_, rfl⟩ | ⟨_, rfl⟩⟩ := mem_updateWhere.mp hc
    · exact ⟨c₀, hc₀, rfl⟩
    · exact ⟨c, hc₀, rfl⟩
  · rintro ⟨c, hc, rfl⟩
    by_cases heq : (c.cert == new) = true
    · exact ⟨_, mem_updateWhere.mpr ⟨c, hc, Or.inl ⟨heq, rfl⟩⟩, rfl⟩
    · exact ⟨c, mem_updateWhere.mpr ⟨c, hc, Or.inr ⟨by simpa using heq, rfl⟩⟩, rfl⟩

/-- A transaction drops no certificate, and adds the one it records. -/
theorem kept_run
    {db db' : Db}
    {tx : Tx}
    (hdb : tx.run db = some db')
    {cert : Cert}
    (h : Kept db.certificates cert ∨ cert ∈ tx.recorded) :
    Kept db'.certificates cert := by
  have hinsert : ∀ new, Kept db.certificates cert ∨ cert = new →
      Kept (insertCert db.certificates new) cert := by
    rintro new (hold | rfl)
    · exact hold.insertCert new
    · exact kept_insertCert _ _
  cases tx with
  | issue new issuer profile purpose id =>
      rw [← Option.some.inj hdb]
      refine hinsert new (h.imp_right ?_)
      intro hnew
      exact (Option.some.inj hnew).symm
  | revoke fp reason at_ =>
      rw [← Option.some.inj hdb]
      exact hinsert fp (Or.inl (h.resolve_right (by simp [Tx.recorded])))
  | revokeCa victim fp reason at_ =>
      rw [← Option.some.inj hdb]
      exact hinsert fp (Or.inl (h.resolve_right (by simp [Tx.recorded])))
  | generation next new key lock =>
      obtain ⟨_, _, rfl⟩ := run_generation hdb
      have hnew := hinsert new (h.imp_right fun hnew => (Option.some.inj hnew).symm)
      cases key with
      | none => exact hnew
      | some key => exact kept_insertKey_iff.mpr hnew
  | enroll id created =>
      obtain ⟨_, rfl⟩ := run_enroll hdb
      exact h.resolve_right (by simp [Tx.recorded])
  | _ =>
      rw [← Option.some.inj hdb]
      exact h.resolve_right (by simp [Tx.recorded])

/-- Of two rows of one name and profile that are active, the first is the older
if it is unexpired. -/
def CertRow.Precedes (now : Nat) (first second : CertRow) : Prop :=
  first.isLeaf = true → first.cn = second.cn → first.kind = second.kind →
    first.status = .active → second.status = .active → now < first.notAfter →
      first.notBefore < second.notBefore

/-- What holds of the index: it is faithful, the certificates can be loaded, and
successors come later. -/
structure Registered (s : Store) : Prop where
  indexed : Indexed s.db
  loadable : ∀ row ∈ s.db.certIndex, Kept s.db.certificates row.fingerprint
  ordered : s.db.certIndex.Pairwise (CertRow.Precedes s.now)

/-- Rows of one certificate are one row. -/
theorem Registered.row_eq
    {s : Store}
    (h : Registered s)
    {row row' : CertRow}
    (hrow : row ∈ s.db.certIndex)
    (hrow' : row' ∈ s.db.certIndex)
    (hfp : row.fingerprint = row'.fingerprint) :
    row = row' := by
  refine h.indexed.eq hrow hrow' ?_
  rw [(h.indexed.faithful row hrow).serial, (h.indexed.faithful row' hrow').serial, hfp]

/-- A row that does not block is older than the moment it was looked at. -/
theorem lt_of_not_blocks
    {row : CertRow}
    {cn : String}
    {kind : Kind}
    {now : Nat}
    (h : row.blocks cn kind now = false)
    (hcn : row.cn = cn)
    (hkind : row.kind = kind)
    (hactive : row.status = .active)
    (hlives : now < row.notAfter) :
    row.notBefore < now := by
  simp only [CertRow.blocks, hcn, hkind, hactive, beq_self_eq_true, Bool.true_and,
    Bool.and_eq_false_iff, decide_eq_false_iff_not, renewWindowPct] at h
  rcases h with hexpired | hwindow
  · exact absurd hlives hexpired
  · have hleft := of_decide_eq_false hwindow
    omega

/-- The row of a leaf comes after those of its name and profile. -/
theorem precedes_issued
    {db : Db}
    {cn : String}
    {profile : Profile}
    {purpose : String}
    {cert : Cert}
    {then_ now : Nat}
    (hblocked : blockingDuplicate db cn (.ee profile) then_ = false)
    (hcn : cert.subjectCn = cn)
    (hthen : then_ ≤ cert.notBefore)
    (hnow : then_ ≤ now)
    {row : CertRow}
    (hrow : row ∈ db.certIndex) :
    row.Precedes now (indexRow cert (.ee profile) purpose) := by
  intro _ hname hkind hactive _ hlives
  have hblocks : row.blocks cn (.ee profile) then_ = false := by
    simp only [blockingDuplicate, List.any_eq_false] at hblocked
    simpa using hblocked row hrow
  have hlt := lt_of_not_blocks hblocks (hname.trans hcn) hkind hactive (by omega)
  show row.notBefore < cert.notBefore
  omega

/-- Rewriting the status of rows to revoked keeps their order. -/
theorem ordered_markRevoked
    {rows : List CertRow}
    {now : Nat}
    (h : rows.Pairwise (CertRow.Precedes now))
    (fp : Cert)
    (reason : Reason)
    (at_ : Nat) :
    (markRevoked rows fp reason at_).Pairwise (CertRow.Precedes now) := by
  refine List.Pairwise.map _ ?_ h
  intro a b hab
  by_cases ha : (a.fingerprint == fp) = true
  · rw [if_pos ha]
    intro _ _ _ hactive
    simp at hactive
  · rw [if_neg ha]
    by_cases hb : (b.fingerprint == fp) = true
    · rw [if_pos hb]
      intro _ _ _ _ hactive
      simp at hactive
    · rw [if_neg hb]
      exact hab

end Rows

section Runs

variable {r : Rules} {p : Pid} {s : Store}

/-- What a leaf's commit rests on: no blocking duplicate in the database it
commits on, at a moment before its own date. -/
theorem unblocked_of_account
    {profile : Profile}
    {cn : String}
    {valid : Option Nat}
    {csrKey : Option Key}
    {enrolled : Option (String × String)}
    {tx : Tx}
    (h : IssueAccount (Shared r) p profile cn valid csrKey enrolled s tx) :
    ∃ cert issuer purpose then_,
      tx = .issue cert issuer profile purpose (enrolled.map Prod.fst) ∧
      cert.subjectCn = cn ∧
      (∀ key, csrKey = some key → cert.publicKey = key) ∧
      blockingDuplicate s.db cn (.ee profile) then_ = false ∧
      then_ ≤ cert.notBefore ∧
      then_ ≤ s.now := by
  obtain ⟨at_, ca, validity, cert, issuer, purpose, _, _, htx, h⟩ := h
  obtain ⟨hlock, _⟩ := h.toNonce.calm.locked h.locked
  obtain ⟨hlock', _⟩ := h.toDuplicate.calm.locked hlock
  have hto : Calm (Shared r) p at_.duplicate s := h.toDraw.calm.trans h.toCommit.calm
  obtain ⟨_, hdb⟩ := hto.locked hlock'
  refine ⟨cert, issuer, purpose, at_.duplicate.now, htx, h.subject, h.key, ?_, ?_, hto.now⟩
  · rw [hdb]
    exact h.duplicate
  · rw [h.notBefore]
    exact h.toDraw.calm.now

/-- A leaf is recorded by an issuing call. -/
theorem issued_by_account
    {inv : Store → Prop}
    {req : Request}
    {cert issuer : Cert}
    {profile : Profile}
    {purpose : String}
    {id : Option String}
    (h : Account (Shared r) p inv req s (.commit (.issue cert issuer profile purpose id))) :
    ∃ then_,
      blockingDuplicate s.db cert.subjectCn (.ee profile) then_ = false ∧
        then_ ≤ cert.notBefore ∧ then_ ≤ s.now := by
  obtain ⟨profile', cn, valid, csrKey, enrolled, _, haccount⟩ := commit_cases h
  obtain ⟨cert', issuer', purpose', then_, htx, rfl, _, hblocked, hthen, hnow⟩ :=
    unblocked_of_account haccount
  obtain ⟨rfl, rfl, rfl, rfl, rfl⟩ := Tx.issue.inj htx
  exact ⟨then_, hblocked, hthen, hnow⟩

theorem Registered.commit
    {req : Request}
    {tx : Tx}
    {db : Db}
    (h : Registered s)
    (hdb : tx.run s.db = some db)
    (hfresh : tx.Fresh s.db)
    (haccount : Account (Shared r) p (fun _ => True) req s (.commit tx)) :
    Registered (s.apply p (.commit tx)) := by
  rw [apply_commit p hdb]
  refine ⟨h.indexed.run hdb hfresh, ?_, ?_⟩
  · intro row hrow
    have hfp : row.fingerprint ∈ db.certIndex.map CertRow.fingerprint := List.mem_map_of_mem hrow
    rw [fingerprints_run h.indexed hdb hfresh] at hfp
    refine kept_run hdb ?_
    rcases List.mem_append.mp hfp with hold | hnew
    · obtain ⟨row₀, hrow₀, heq⟩ := List.mem_map.mp hold
      left
      rw [← heq]
      exact h.loadable row₀ hrow₀
    · right
      exact Option.mem_toList.mp hnew
  · show db.certIndex.Pairwise (CertRow.Precedes s.now)
    rw [run_certIndex hdb]
    cases tx with
    | issue cert issuer profile purpose id =>
        obtain ⟨then_, hblocked, hthen, hnow⟩ := issued_by_account haccount
        show (indexCert s.db.certIndex cert _ _).Pairwise _
        rw [indexCert_fresh h.indexed hfresh]
        refine List.pairwise_append.mpr ⟨h.ordered, List.pairwise_singleton _ _, ?_⟩
        intro row hrow new hnew
        rw [List.mem_singleton.mp hnew]
        exact precedes_issued hblocked rfl hthen hnow hrow
    | generation next cert key lock =>
        show (indexCert s.db.certIndex cert _ _).Pairwise _
        rw [indexCert_fresh h.indexed hfresh]
        refine List.pairwise_append.mpr ⟨h.ordered, List.pairwise_singleton _ _, ?_⟩
        intro row _ new hnew hleaf _ hkind
        rw [List.mem_singleton.mp hnew] at hkind
        simp [CertRow.isLeaf, hkind, indexRow] at hleaf
    | revoke fp reason at_ => exact ordered_markRevoked h.ordered fp reason at_
    | revokeCa victim cert reason at_ => exact ordered_markRevoked h.ordered cert reason at_
    | _ => exact h.ordered

theorem Registered.frame
    {s' : Store}
    (h : Registered s)
    (hindex : s'.db.certIndex = s.db.certIndex)
    (hcertificates : s'.db.certificates = s.db.certificates)
    (hnow : s.now ≤ s'.now) :
    Registered s' := by
  refine ⟨h.indexed.congr hindex, ?_, ?_⟩
  · rw [hindex, hcertificates]
    exact h.loadable
  · rw [hindex]
    refine h.ordered.imp ?_
    intro a b hab hleaf hcn hkind ha hb hlives
    exact hab hleaf hcn hkind ha hb (by omega)

/-- Only transactions change the table of certificates. -/
theorem apply_certificates
    {e : Event}
    (hne : ∀ tx, e ≠ .commit tx) :
    (s.apply p e).db.certificates = s.db.certificates := by
  cases e with
  | key use => rw [(apply_key_db p use s).1]
  | publish slug issuer file => cases file <;> rfl
  | commit tx => exact absurd rfl (hne tx)
  | _ => rfl

theorem Registered.event
    {req : Request}
    {e : Event}
    (h : Registered s)
    (hfresh : FreshSerial s e)
    (hmeets : Meets r p s e)
    (haccount : Account (Shared r) p (fun _ => True) req s e) :
    Registered (s.apply p e) := by
  by_cases hcommit : ∃ tx, e = .commit tx
  · obtain ⟨tx, rfl⟩ := hcommit
    obtain ⟨db, hdb⟩ := Option.isSome_iff_exists.mp hmeets.2.1
    exact h.commit hdb hfresh haccount
  · have hne : ∀ tx, e ≠ .commit tx := fun tx he => hcommit ⟨tx, he⟩
    exact h.frame (apply_certIndex hne) (apply_certificates hne)
      (Nat.le_of_eq (apply_now p e s).symm)

theorem Initialised.registered
    (h : Initialised s) :
    Registered s := by
  obtain ⟨hindexed, hleaf⟩ := h.indexed
  obtain ⟨config, rootCert, rootKey, minted, hs⟩ := h.ceremony
  refine ⟨hindexed, ?_, ?_⟩
  · rw [hs.db]
    intro row hrow
    rcases List.mem_cons.mp hrow with rfl | hrow
    · exact ⟨_, List.mem_cons_self, rfl⟩
    · obtain ⟨m, hm, rfl⟩ := List.mem_map.mp hrow
      exact ⟨_, List.mem_cons_of_mem _ (List.mem_map_of_mem hm), rfl⟩
  · refine List.pairwise_of_forall_mem_list ?_
    intro a ha _ _ hisLeaf
    rw [hleaf a ha] at hisLeaf
    simp at hisLeaf

/-- In every run with serials of their own the index is in order. -/
theorem registered_of_reachable
    {w : World Store (Request × Command)}
    (hw : (ycaCalls.system Initialised).Reachable
      (Rules.freshSerials.calls fun _ => True) w) :
    Registered w.shared := by
  refine calls_keep (fun req _ => Rules.given_admits _ req) (fun s hs => hs.registered) ?_ hw
  intro s s' hs hmove
  refine keeps_of_calls ?_ ?_ hs hmove
  · intro s p req e hs hallow hmeets haccount
    exact hs.event (Rules.given_only hallow) hmeets haccount
  · intro s s' hs hdb _ _ _ hnow
    exact hs.frame (congrArg Db.certIndex hdb) (congrArg Db.certificates hdb) hnow

/-- The certificates that were on record come first. -/
structure Onward (before : List Cert) (s : Store) : Prop where
  indexed : Indexed s.db
  grown : ∃ new, s.db.certIndex.map CertRow.fingerprint = before ++ new

theorem Onward.event
    {before : List Cert}
    {e : Event}
    (h : Onward before s)
    (hfresh : FreshSerial s e)
    (hmeets : Meets r p s e) :
    Onward before (s.apply p e) := by
  obtain ⟨hindexed, new, hnew⟩ := h
  by_cases hcommit : ∃ tx, e = .commit tx
  · obtain ⟨tx, rfl⟩ := hcommit
    obtain ⟨db, hdb⟩ := Option.isSome_iff_exists.mp hmeets.2.1
    rw [apply_commit p hdb]
    refine ⟨hindexed.run hdb hfresh, new ++ tx.recorded.toList, ?_⟩
    show db.certIndex.map _ = _
    rw [fingerprints_run hindexed hdb hfresh, hnew, List.append_assoc]
  · have hsame := apply_certIndex (p := p) (s := s) fun tx he => hcommit ⟨tx, he⟩
    exact ⟨hindexed.congr hsame, new, by rw [hsame]; exact hnew⟩

/-- Certificates on record stay on record, in their order. -/
theorem fingerprints_of_run
    {w w' : World Store (Request × Command)}
    {as : List (Action Choice Request Outside)}
    (hw : (ycaCalls.system Initialised).Reachable
      (Rules.freshSerials.calls fun _ => True) w)
    (hrun : (ycaCalls.system Initialised).Run
      (Rules.freshSerials.calls fun _ => True) w as w') :
    ∃ new, w'.shared.db.certIndex.map CertRow.fingerprint =
      w.shared.db.certIndex.map CertRow.fingerprint ++ new := by
  have hstart : Onward (w.shared.db.certIndex.map CertRow.fingerprint) w.shared :=
    ⟨(registered_of_reachable hw).indexed, [], (List.append_nil _).symm⟩
  refine (calls_stable (fun req _ => Rules.given_admits _ req) ?_ hw hrun hstart).grown
  intro s s' hs hmove
  refine keeps_of_calls ?_ ?_ hs hmove
  · intro s p req e hs hallow hmeets _
    exact hs.event (Rules.given_only hallow) hmeets
  · intro s s' hs hdb _ _ _ _
    exact ⟨by rw [hdb]; exact hs.indexed, by rw [hdb]; exact hs.grown⟩

end Runs

end Ca
end Yca
