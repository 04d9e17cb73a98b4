import Yca.Ca.Succession
import Yca.Ca.Nonces

/-!
# The certificate the frontend fetches

`ycaRunner.issue` has a request signed and then, in a process of its own, asks
for the certificate by its common name: `get server --cn` prints the newest one
that is active and unexpired.  Between the two anything may happen in the CA.
What is fetched is compared here with what was signed, for every run of the CA
around the two calls.
-/

namespace Yca
namespace Bridge

open Yca.Core Ca

/-- The first certificate `get server --cn --chain` prints, when it looks up the
name in one state and loads the certificate in another; none when it fails. -/
def fetched (cn : String) (found loaded : Store) : Option Cert :=
  (activeFp found.db cn (.ee .server) found.now).bind (loadCert loaded.db)

/-- The certificate is the last one signed that counts: the others of its name
that are active and unexpired were on record before it, and if there are any, it
is active and unexpired itself. -/
def LastSigned (before s : Store) (cn : String) (cert : Cert) : Prop :=
  ∀ row ∈ s.db.certIndex, row.live cn .server s.now = true → row.fingerprint ≠ cert →
    row.fingerprint ∈ before.db.certIndex.map CertRow.fingerprint ∧
    ∃ own ∈ s.db.certIndex, own.fingerprint = cert ∧ own.live cn .server s.now = true

section Rows

variable {s : Store} {cn : String} {now : Nat}

theorem live_iff
    {row : CertRow}
    {profile : Profile} :
    row.live cn profile now = true ↔
      row.cn = cn ∧ row.kind = .ee profile ∧ row.status = .active ∧ now < row.notAfter := by
  simp [CertRow.live, and_assoc]

/-- What the lookup by name finds: a live row, and none that is newer. -/
theorem activeFp_eq_some
    {db : Db}
    {profile : Profile}
    {fp : Cert}
    (h : activeFp db cn (.ee profile) now = some fp) :
    ∃ row ∈ db.certIndex, row.fingerprint = fp ∧ row.live cn profile now = true ∧
      ∀ other ∈ db.certIndex, other.live cn profile now = true →
        other.notBefore ≤ row.notBefore := by
  obtain ⟨row, hrow, hfp⟩ := Option.map_eq_some_iff.mp h
  obtain ⟨hmem, hlive⟩ := List.mem_filter.mp (mem_of_newest hrow)
  refine ⟨row, hmem, hfp, hlive, ?_⟩
  intro other hother hlive'
  exact le_newest hrow (List.mem_filter.mpr ⟨hother, hlive'⟩)

theorem activeFp_isSome
    {db : Db}
    {profile : Profile}
    {row : CertRow}
    (hrow : row ∈ db.certIndex)
    (hlive : row.live cn profile now = true) :
    ∃ fp, activeFp db cn (.ee profile) now = some fp := by
  have hmem : row ∈ db.certIndex.filter fun r => r.live cn profile now :=
    List.mem_filter.mpr ⟨hrow, hlive⟩
  obtain ⟨newer, hnewer⟩ := newest_isSome CertRow.notBefore hmem
  exact ⟨newer.fingerprint, Option.map_eq_some_iff.mpr ⟨newer, hnewer, rfl⟩⟩

/-- A certificate on record can be loaded. -/
theorem loadCert_of_registered
    (h : Registered s)
    {cert : Cert}
    (hcert : cert ∈ s.db.certIndex.map CertRow.fingerprint) :
    loadCert s.db cert = some cert := by
  obtain ⟨row, hrow, rfl⟩ := List.mem_map.mp hcert
  obtain ⟨c, hc, hcert⟩ := h.loadable row hrow
  rw [← hcert]
  exact loadCert_of_stored hc

/-- Where the row of a certificate stands: after those on record before it. -/
def Placed (rows : List CertRow) (before : List Cert) (own : CertRow) : Prop :=
  ∃ old new, rows = old ++ own :: new ∧ old.map CertRow.fingerprint = before

theorem placed_of_fingerprints
    {rows : List CertRow}
    {before new : List Cert}
    {cert : Cert}
    (h : rows.map CertRow.fingerprint = (before ++ [cert]) ++ new) :
    ∃ own, own.fingerprint = cert ∧ Placed rows before own := by
  rw [List.append_assoc] at h
  obtain ⟨old, rest, rfl, hold, hrest⟩ := List.map_eq_append_iff.mp h
  obtain ⟨own, later, rfl, hown, _⟩ := List.map_eq_cons_iff.mp hrest
  exact ⟨own, hown, old, later, rfl, hold⟩

theorem Placed.mem
    {rows : List CertRow}
    {before : List Cert}
    {own : CertRow}
    (h : Placed rows before own) :
    own ∈ rows := by
  obtain ⟨old, new, rfl, _⟩ := h
  simp

/-- A live row on record before the certificate is older than its own, one
recorded after it is newer. -/
theorem Placed.order
    {before : List Cert}
    {own row : CertRow}
    (hplaced : Placed s.db.certIndex before own)
    (hs : Registered s)
    (hrow : row ∈ s.db.certIndex)
    (hown : own.live cn .server s.now = true)
    (hlive : row.live cn .server s.now = true) :
    (row.fingerprint ∈ before → row.notBefore < own.notBefore) ∧
      (row.fingerprint ∉ before → row.fingerprint ≠ own.fingerprint →
        own.notBefore < row.notBefore) := by
  obtain ⟨hownCn, hownKind, hownActive, hownLives⟩ := live_iff.mp hown
  obtain ⟨hcn, hkind, hactive, hlives⟩ := live_iff.mp hlive
  obtain ⟨old, new, hrows, hbefore⟩ := hplaced
  have hordered := hs.ordered
  rw [hrows] at hordered
  obtain ⟨_, hnew, hold⟩ := List.pairwise_append.mp hordered
  obtain ⟨hafter, _⟩ := List.pairwise_cons.mp hnew
  constructor
  · intro hmem
    rw [← hbefore] at hmem
    obtain ⟨row', hrow', hfp⟩ := List.mem_map.mp hmem
    have hrow'' : row' ∈ s.db.certIndex := by
      rw [hrows]
      exact List.mem_append_left _ hrow'
    obtain rfl := hs.row_eq hrow'' hrow hfp
    exact hold row' hrow' own List.mem_cons_self (isLeaf_of_kind hkind) (hcn.trans hownCn.symm)
      (hkind.trans hownKind.symm) hactive hownActive hlives
  · intro hmem hne
    rw [hrows] at hrow
    rcases List.mem_append.mp hrow with hrow' | hrow'
    · refine absurd ?_ hmem
      rw [← hbefore]
      exact List.mem_map_of_mem hrow'
    · rcases List.mem_cons.mp hrow' with rfl | hrow'
      · exact absurd rfl hne
      · exact hafter row hrow' (isLeaf_of_kind hownKind) (hownCn.trans hcn.symm)
          (hownKind.trans hkind.symm) hownActive hactive hownLives

/-- What is fetched, if anything, is the certificate just signed exactly when it
is the last one signed that counts. -/
theorem fetched_iff
    {before loaded : Store}
    {cert : Cert}
    {new : List Cert}
    (hs : Registered s)
    (hrows : s.db.certIndex.map CertRow.fingerprint =
      (before.db.certIndex.map CertRow.fingerprint ++ [cert]) ++ new)
    (hloaded : ∀ fp ∈ s.db.certIndex.map CertRow.fingerprint, loadCert loaded.db fp = some fp) :
    (∀ head, fetched cn s loaded = some head → head = cert) ↔ LastSigned before s cn cert := by
  obtain ⟨own, rfl, hplaced⟩ := placed_of_fingerprints hrows
  constructor
  · intro hall row hrow hlive hne
    obtain ⟨fp, hfp⟩ := activeFp_isSome hrow hlive
    obtain ⟨newer, hnewer, rfl, hnewerLive, hnewest⟩ := activeFp_eq_some hfp
    have hhead : fetched cn s loaded = some newer.fingerprint := by
      rw [fetched, hfp]
      exact hloaded _ (List.mem_map_of_mem hnewer)
    obtain rfl := hs.row_eq hnewer hplaced.mem (hall _ hhead)
    refine ⟨?_, newer, hnewer, rfl, hnewerLive⟩
    by_contra hmem
    have hlt := (hplaced.order hs hrow hnewerLive hlive).2 hmem hne
    have hle := hnewest row hrow hlive
    omega
  · intro hlast head hhead
    obtain ⟨fp, hfp, hload⟩ := Option.bind_eq_some_iff.mp hhead
    obtain rfl := loadCert_eq hload
    obtain ⟨newer, hnewer, rfl, hnewerLive, hnewest⟩ := activeFp_eq_some hfp
    by_contra hne
    obtain ⟨hmem, own', hown', hfp', hownLive⟩ := hlast newer hnewer hnewerLive hne
    obtain rfl := hs.row_eq hown' hplaced.mem hfp'
    have hlt := (hplaced.order hs hnewer hownLive hnewerLive).1 hmem
    have hle := hnewest own' hown' hownLive
    omega

end Rows

section Runs

/-- Whatever the commands do between the commit of a signing request and the
lookup of its name, and between that and the loading: the certificate has the
request's key and name, and what is fetched is this certificate, unless the
fetching fails, if and only if it is the last one signed that counts when the
name is looked up. -/
theorem fetched_is_signed_iff
    {w w' u v : World Store (Request × Command)}
    {as bs : List (Action Choice Request Outside)}
    (hw : (ycaCalls.system Initialised).Reachable (Rules.freshSerials.calls fun _ => True) w)
    {p : Pid}
    {id nonce cn : String}
    {key : Key}
    {valid : Option Nat}
    {cert issuer : Cert}
    {profile : Profile}
    {purpose : String}
    {enrolled : Option String}
    (he : machine.Emits start (Rules.freshSerials.calls fun _ => True) w p
      (.signCsr .server id nonce cn key valid)
      (.commit (.issue cert issuer profile purpose enrolled)) w')
    (hrun : (ycaCalls.system Initialised).Run (Rules.freshSerials.calls fun _ => True) w' as u)
    (hrun' : (ycaCalls.system Initialised).Run (Rules.freshSerials.calls fun _ => True) u bs v) :
    cert.publicKey = key ∧ cert.subjectCn = cn ∧
      ((∀ head, fetched cn u.shared v.shared = some head → head = cert) ↔
        LastSigned w.shared u.shared cn cert) := by
  have hshared : w'.shared =
      w.shared.apply p (.commit (.issue cert issuer profile purpose enrolled)) := he.shared
  obtain ⟨hallow, hmeets, haccount⟩ := call_emitted (fun req _ => Rules.given_admits _ req) hw he
  obtain ⟨profile', cn', valid', csrKey, enrolled', hreq, hissue⟩ := commit_cases haccount
  obtain ⟨cert', issuer', purpose', then_, htx, hsubject, hkey, _⟩ := unblocked_of_account hissue
  obtain ⟨rfl, rfl, rfl, rfl, rfl⟩ := Tx.issue.inj htx
  obtain ⟨rfl, rfl, rfl, rfl, rfl⟩ := hreq
  refine ⟨hkey _ rfl, hsubject, ?_⟩
  obtain ⟨db, hdb⟩ := Option.isSome_iff_exists.mp hmeets.2.1
  obtain ⟨k, hG, hx⟩ := he.step
  have hw' := hw.step hG hx
  obtain ⟨new, hnew⟩ := fingerprints_of_run hw' hrun
  obtain ⟨more, hmore⟩ := fingerprints_of_run (hw'.run hrun) hrun'
  have hrows : u.shared.db.certIndex.map CertRow.fingerprint =
      (w.shared.db.certIndex.map CertRow.fingerprint ++ [cert]) ++ new := by
    rw [hnew, hshared, apply_commit p hdb]
    show db.certIndex.map CertRow.fingerprint ++ new = _
    rw [fingerprints_run (registered_of_reachable hw).indexed hdb (Rules.given_only hallow)]
    rfl
  refine fetched_iff (registered_of_reachable (hw'.run hrun)) hrows ?_
  intro fp hfp
  refine loadCert_of_registered (registered_of_reachable ((hw'.run hrun).run hrun')) ?_
  rw [hmore]
  exact List.mem_append_left _ hfp

/-- A request for a name that has a certificate in its renewal window is about
to be committed. -/
def overlapLabels : List (Action Choice Request Outside) :=
  [.spawn 1 (.issueEe .server "a.ca" none)] ++ acts 1 10 (sampleChoice 31) ++
    [.env (.tick (61 * day)), .spawn 2 (.enroll "c")] ++ acts 2 4 (sampleChoice 32) ++
    [.spawn 3 (.getNonce "c")] ++ acts 3 5 (nonceChoice 33 "n1") ++
    [.spawn 4 (.signCsr .server "c" "n1" "a.ca" 77 none)] ++ acts 4 11 (sampleChoice 34)

/-- Somebody revokes the newest certificate of the name. -/
def revokeLabels : List (Action Choice Request Outside) :=
  [.spawn 5 (.revoke .server "a.ca" "" "superseded")] ++ acts 5 12 (sampleChoice 35)

/-- The request is signed, and its certificate is fetched before and after a
revocation. -/
theorem overlap_sample :
    ∃ w w' u cert issuer profile purpose enrolled,
      (ycaCalls.system Initialised).Reachable (Rules.freshSerials.calls fun _ => True) w ∧
      machine.Emits start (Rules.freshSerials.calls fun _ => True) w 4
        (.signCsr .server "c" "n1" "a.ca" 77 none)
        (.commit (.issue cert issuer profile purpose enrolled)) w' ∧
      (ycaCalls.system Initialised).Run (Rules.freshSerials.calls fun _ => True) w'
        revokeLabels u ∧
      fetched "a.ca" w'.shared w'.shared = some cert ∧
      (fetched "a.ca" u.shared u.shared).any (fun head => head.publicKey != 77) = true := by
  have h :
      ((ycaCalls.system Initialised).follow (Rules.freshSerials.calls fun _ => True)
        (World.idle sampleStore) overlapLabels).any
        (fun w =>
          (w.procs 4).map Prod.fst == some (.signCsr .server "c" "n1" "a.ca" 77 none) &&
            decide (Rules.freshSerials.calls (fun _ => True) w (.act 4 (sampleChoice 34))) &&
            ((w.procs 4).bind fun c => c.2.event (sampleChoice 34) w.shared).any (fun e =>
              e.newLeaf.any fun cert =>
                ((ycaCalls.system Initialised).exec w (.act 4 (sampleChoice 34))).any fun w' =>
                  fetched "a.ca" w'.shared w'.shared == some cert &&
                    ((ycaCalls.system Initialised).follow
                      (Rules.freshSerials.calls fun _ => True) w' revokeLabels).any fun u =>
                        (fetched "a.ca" u.shared u.shared).any fun head =>
                          head.publicKey != 77)) = true := by
    decide
  obtain ⟨w, hrun, hcheck⟩ := Automaton.Run.exists_of_follow h
  simp only [Bool.and_eq_true, beq_iff_eq, decide_eq_true_eq, Option.any_eq_true] at hcheck
  obtain ⟨⟨hreq, hG⟩, e, hevent, cert, hleaf, w', hx, hfetched, u, hfollow, head, hhead, hother⟩ :=
    hcheck
  obtain ⟨issuer, profile, purpose, enrolled, rfl⟩ := Event.eq_of_newLeaf hleaf
  refine ⟨w, w', u, _, _, _, _, _, Automaton.Reachable.of_run
    (M := ycaCalls.system Initialised) ⟨sampleStore_initialised, World.idle_quiet _⟩ hrun,
    Machine.Emits.of_event hreq hevent hG hx, Automaton.Run.of_follow hfollow, hfetched, ?_⟩
  rw [hhead]
  exact hother

theorem fetched_is_signed_iff_sample :
    ∃ (w w' : World Store (Request × Command)) (cert : Cert),
      cert.publicKey = 77 ∧ LastSigned w.shared w'.shared "a.ca" cert := by
  obtain ⟨w, w', u, cert, issuer, profile, purpose, enrolled, hw, he, _, hfetched, _⟩ :=
    overlap_sample
  obtain ⟨hkey, _, hiff⟩ :=
    fetched_is_signed_iff hw he (Automaton.Run.nil w') (Automaton.Run.nil w')
  refine ⟨w, w', cert, hkey, hiff.mp ?_⟩
  intro head hhead
  exact Option.some.inj (hhead.symm.trans hfetched)

/-- What is fetched after the revocation is the older certificate of the
overlap. -/
theorem fetched_is_not_signed :
    ¬ ∀ (w w' u v : World Store (Request × Command)) as bs p id nonce cn key valid cert issuer
        profile purpose enrolled,
      (ycaCalls.system Initialised).Reachable (Rules.freshSerials.calls fun _ => True) w →
      machine.Emits start (Rules.freshSerials.calls fun _ => True) w p
        (.signCsr .server id nonce cn key valid)
        (.commit (.issue cert issuer profile purpose enrolled)) w' →
      (ycaCalls.system Initialised).Run (Rules.freshSerials.calls fun _ => True) w' as u →
      (ycaCalls.system Initialised).Run (Rules.freshSerials.calls fun _ => True) u bs v →
      ∀ head, fetched cn u.shared v.shared = some head → head = cert ∧ head.publicKey = key := by
  intro hall
  obtain ⟨w, w', u, cert, issuer, profile, purpose, enrolled, hw, he, hrun, _, hother⟩ :=
    overlap_sample
  simp only [Option.any_eq_true] at hother
  obtain ⟨head, hhead, hkey⟩ := hother
  have hsigned := hall w w' u u revokeLabels [] 4 "c" "n1" "a.ca" 77 none cert issuer profile
    purpose enrolled hw he hrun (Automaton.Run.nil u) head hhead
  simp [hsigned.2] at hkey

end Runs

end Bridge
end Yca
