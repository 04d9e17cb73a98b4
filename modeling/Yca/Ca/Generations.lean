import Yca.Ca.Safety
import Yca.Ca.Accounts
import Yca.Ca.Initial

/-!
# The generations of the issuing CAs

`renew_signing_ca` and `add_signing_ca` settle the number, the slug and the
common name of the next generation and publish its files before they take the
lock; under the lock only a primary key stands between two of them.  As long as
no ceremony gets in another's way, the file of every active generation holds
the certificate recorded for it, and no two generations share a common name.
-/

namespace Yca
namespace Ca

open Yca.Core

/-- A row of `cert_index` is about a generation. -/
def CertRow.records (row : CertRow) (r : CaRow) : Prop :=
  row.cn = r.cn ∧ row.kind = .ca r.kind ∧ row.purpose = r.purpose

instance (row : CertRow) (r : CaRow) : Decidable (row.records r) :=
  inferInstanceAs (Decidable (_ ∧ _ ∧ _))

/-- The lineages are in order. -/
structure Lineages (s : Store) : Prop where
  /-- The common names of the recorded generations are pairwise distinct. -/
  cns : UniqueKey (fun r : CaRow => r.cn) s.db.caIndex
  /-- Every recorded purpose has an active generation. -/
  active : ∀ r ∈ s.db.caIndex, ∃ a ∈ s.db.caIndex, a.purpose = r.purpose ∧ a.status = .active
  /-- The file of an active generation holds the one certificate recorded for it. -/
  published : ∀ r ∈ s.db.caIndex, r.status = .active →
    ∃ row ∈ s.db.certIndex,
      row.records r ∧
      s.pem r.slug = some row.fingerprint ∧
      ∀ row' ∈ s.db.certIndex, row'.records r → row' = row

/-- The two ceremonies that mint generations. -/
def Request.mints : Request → Bool
  | .addSigningCa .. => true
  | .renewSigningCa .. => true
  | _ => false

/-- Runs in which no ceremony publishes over an active generation, a generation
is recorded while its file is in place and its common name is free, and
`ensure_ca_index` finds nothing to record. -/
def Rules.undisturbed : Rules where
  issuance := False
  ceremonies := True
  caRevocation := False
  keep _ _ := False
  keep_mono _ _ _ _ h := h
  only s e :=
    match e with
    | .publish slug _ (.pem _) => ∀ r ∈ s.db.caIndex, r.status = .active → r.slug ≠ slug
    | .commit (.generation next cert _ _) =>
        s.pem next.slug = some cert ∧ ∀ r ∈ s.db.caIndex, r.cn ≠ next.cn
    | .backfill _ => False
    | _ => True

instance : Decidable Rules.undisturbed.ceremonies :=
  inferInstanceAs (Decidable True)

instance (db : Db) (slug : String) : Decidable (Rules.undisturbed.keep db slug) :=
  inferInstanceAs (Decidable False)

instance (s : Store) (e : Event) : Decidable (Rules.undisturbed.only s e) := by
  unfold Rules.undisturbed
  dsimp only
  split <;> infer_instance

theorem Rules.undisturbed_admits (req : Request) (h : req.mints = true) :
    Rules.undisturbed.Admits req := by
  cases req with
  | addSigningCa file purpose => trivial
  | renewSigningCa purpose newCn => trivial
  | _ => simp [Request.mints] at h

section Commits

/-- The name of a generation stays free, and its file is not written. -/
structure Spares (next : CaGen) (s t : Store) : Prop where
  name : ∀ kind, genByCn s.db kind next.cn = none → genByCn t.db kind next.cn = none
  file : t.pem next.slug = s.pem next.slug

variable
  {Rely : Pid → Store → Store → Prop}
  {p : Pid}
  {next : CaGen}
  {s t : Store}

/-- A free name that the others spare stays free under a call. -/
theorem Calm.free
    (hspares : ∀ s t, Rely p s t → Spares next s t)
    (h : Calm Rely p s t)
    {kind : CaKind}
    (hfree : genByCn s.db kind next.cn = none) :
    genByCn t.db kind next.cn = none := by
  refine Machine.Since.induct (Q := fun u => genByCn u.db kind next.cn = none) ?_ ?_ h hfree
  · intro u v hu hv
    exact (hspares u v hv).name kind hu
  · intro u e hu he
    show genByCn (u.apply p e).db kind next.cn = none
    rw [apply_calm_db he]
    exact hu

/-- A file that the others spare is what the call has written. -/
theorem Still.file
    (hspares : ∀ s t, Rely p s t → Spares next s t)
    (h : Still Rely p s t) :
    t.pem next.slug = s.pem next.slug := by
  refine Machine.Since.induct (Q := fun u => u.pem next.slug = s.pem next.slug) ?_ ?_ h rfl
  · intro u v hu hv
    exact (hspares u v hv).file.trans hu
  · intro u e hu he
    show (u.apply p e).pem next.slug = s.pem next.slug
    rw [apply_still_pem he]
    exact hu

/-- A ceremony commits undisturbed if, between its checks and its commit, nobody else
records a generation of that name or publishes that slug. -/
theorem MintAccount.undisturbed
    (hspares : ∀ s t, Rely p s t → Spares next s t)
    {at_ : MintTimes}
    {config : Config}
    {ca : SigningCa}
    {lock : Option SigningCa}
    {tx : Tx}
    (h : MintAccount Rely p at_ config ca next lock t (.commit tx)) :
    Rules.undisturbed.only t (.commit tx) := by
  obtain ⟨root, cert, hcast, ⟨_, he⟩ |
    ⟨published, listed, key, hpublished, hpem, hlisted, _, hlast, he⟩⟩ := h
  · simp at he
  · obtain rfl := Event.commit.inj he
    have htoDraw : Calm Rely p at_.named at_.draw :=
      Still.calm ((hcast.toAnchor.trans hcast.toCheck).trans hcast.toDraw)
    have htoCommit : Calm Rely p at_.named t :=
      (htoDraw.trans hpublished).trans (Still.calm (hlisted.trans hlast))
    have hfree : ∀ kind, genByCn t.db kind next.cn = none := by
      intro kind
      cases kind with
      | root => exact Calm.free hspares htoCommit hcast.freeRoot
      | signing => exact Calm.free hspares ((Still.calm hcast.toNamed).trans htoCommit) hcast.free
    constructor
    · rw [Still.file hspares (hlisted.trans hlast)]
      exact hpem
    · intro r hr hcn
      have hnone := List.find?_eq_none.mp (Option.map_eq_none_iff.mp (hfree r.kind)) r hr
      simp [hcn] at hnone

end Commits

section Invariant

/-- The invariant of these runs. -/
structure Minting (s : Store) : Prop where
  cns : UniqueKey (fun r : CaRow => r.cn) s.db.caIndex
  active : ∀ r ∈ s.db.caIndex, ∃ a ∈ s.db.caIndex, a.purpose = r.purpose ∧ a.status = .active
  rows : UniqueKey CertRow.cn s.db.certIndex
  faithful : ∀ row ∈ s.db.certIndex, row.cn = row.fingerprint.subjectCn
  owned : ∀ row ∈ s.db.certIndex, ∃ r ∈ s.db.caIndex, r.cn = row.cn
  published : ∀ r ∈ s.db.caIndex, r.status = .active →
    ∃ row ∈ s.db.certIndex, row.records r ∧ s.pem r.slug = some row.fingerprint

/-- The invariant puts the lineages in order. -/
theorem Minting.lineages
    {s : Store}
    (h : Minting s) :
    Lineages s := by
  refine ⟨h.cns, h.active, ?_⟩
  intro r hr hactive
  obtain ⟨row, hrow, hof, hpem⟩ := h.published r hr hactive
  refine ⟨row, hrow, hof, hpem, ?_⟩
  intro row' hrow' hof'
  exact h.rows.eq hrow' hrow (hof'.1.trans hof.1.symm)

/-- The invariant is about the two indexes and the files of active
generations. -/
theorem Minting.frame
    {s s' : Store}
    (h : Minting s)
    (hca : s'.db.caIndex = s.db.caIndex)
    (hindex : s'.db.certIndex = s.db.certIndex)
    (hpem : ∀ r ∈ s.db.caIndex, r.status = .active → s'.pem r.slug = s.pem r.slug) :
    Minting s' := by
  constructor
  · rw [hca]
    exact h.cns
  · rw [hca]
    exact h.active
  · rw [hindex]
    exact h.rows
  · rw [hindex]
    exact h.faithful
  · rw [hca, hindex]
    exact h.owned
  · rw [hca, hindex]
    intro r hr hactive
    rw [hpem r hr hactive]
    exact h.published r hr hactive

/-- Revoking a certificate changes neither its name nor what it is for. -/
theorem Minting.markRevoked
    {s s' : Store}
    {fp : Cert}
    {reason : Reason}
    {at_ : Nat}
    (h : Minting s)
    (hca : s'.db.caIndex = s.db.caIndex)
    (hindex : s'.db.certIndex = markRevoked s.db.certIndex fp reason at_)
    (hpem : s'.pem = s.pem) :
    Minting s' := by
  have hrow : ∀ row ∈ s'.db.certIndex, ∃ row₀ ∈ s.db.certIndex,
      row.cn = row₀.cn ∧ row.fingerprint = row₀.fingerprint := by
    intro row hrow
    rw [hindex] at hrow
    obtain ⟨row₀, hrow₀, hcase⟩ := mem_updateWhere.mp hrow
    refine ⟨row₀, hrow₀, ?_⟩
    rcases hcase with ⟨_, rfl⟩ | ⟨_, rfl⟩
    · exact ⟨rfl, rfl⟩
    · exact ⟨rfl, rfl⟩
  constructor
  · rw [hca]
    exact h.cns
  · rw [hca]
    exact h.active
  · rw [hindex]
    exact h.rows.updateWhere _ fun _ => rfl
  · intro row hmem
    obtain ⟨row₀, hrow₀, hcn, hfp⟩ := hrow row hmem
    rw [hcn, hfp]
    exact h.faithful row₀ hrow₀
  · intro row hmem
    obtain ⟨row₀, hrow₀, hcn, _⟩ := hrow row hmem
    rw [hca, hcn]
    exact h.owned row₀ hrow₀
  · rw [hca, hindex, hpem]
    intro r hr hactive
    obtain ⟨row, hmem, hof, hfile⟩ := h.published r hr hactive
    by_cases hfp : row.fingerprint = fp
    · refine ⟨_, mem_updateWhere.mpr ⟨row, hmem, Or.inl ⟨by simpa using hfp, rfl⟩⟩, hof, hfile⟩
    · refine ⟨row, mem_updateWhere.mpr ⟨row, hmem, Or.inr ⟨by simpa using hfp, rfl⟩⟩, hof, hfile⟩

end Invariant

section Generation

variable {rows : List CaRow} {purpose : String} {lock : Option SigningCa}

/-- A kept row is an old one, or an old one of the lineage that retires. -/
theorem mem_keptRows
    {r : CaRow}
    (hr : r ∈ keptRows rows purpose lock) :
    ∃ r₀ ∈ rows, r.toCaGen = r₀.toCaGen ∧ (r.status = .active → r = r₀) := by
  unfold keptRows at hr
  split at hr
  · exact ⟨r, hr, rfl, fun _ => rfl⟩
  · obtain ⟨r₀, hr₀, ⟨_, rfl⟩ | ⟨_, rfl⟩⟩ := mem_updateWhere.mp hr
    · exact ⟨r₀, hr₀, rfl, by simp⟩
    · exact ⟨r, hr₀, rfl, fun _ => rfl⟩

/-- The rows of the other lineages are kept as they are. -/
theorem keptRows_other
    {r : CaRow}
    (hr : r ∈ rows)
    (hpurpose : r.purpose ≠ purpose) :
    r ∈ keptRows rows purpose lock := by
  unfold keptRows
  split
  · exact hr
  · exact mem_updateWhere.mpr ⟨r, hr, Or.inr ⟨by simp [hpurpose], rfl⟩⟩

theorem keptRows_unique
    (h : UniqueKey (fun r : CaRow => r.cn) rows) :
    UniqueKey (fun r : CaRow => r.cn) (keptRows rows purpose lock) := by
  unfold keptRows
  split
  · exact h
  · exact h.updateWhere _ fun _ => rfl

/-- The lineage of the new generation becomes active in it, the others stay
active where they were. -/
theorem active_keptRows
    {rows' : List CaRow}
    {next : CaGen}
    (h : ∀ r ∈ rows, ∃ a ∈ rows, a.purpose = r.purpose ∧ a.status = .active)
    (hrows : rows' = keptRows rows next.purpose lock ++ [⟨next, .signing, .active⟩]) :
    ∀ r ∈ rows', ∃ a ∈ rows', a.purpose = r.purpose ∧ a.status = .active := by
  subst hrows
  intro r hr
  have hself : (⟨next, .signing, .active⟩ : CaRow) ∈
      keptRows rows next.purpose lock ++ [⟨next, .signing, .active⟩] :=
    List.mem_append_right _ List.mem_cons_self
  by_cases hpurpose : r.purpose = next.purpose
  · exact ⟨_, hself, hpurpose.symm, rfl⟩
  · rcases List.mem_append.mp hr with hold | hlast
    · obtain ⟨r₀, hr₀, hgen, _⟩ := mem_keptRows hold
      obtain ⟨a, ha, hsame, hactive⟩ := h r₀ hr₀
      have hlineage : a.purpose = r.purpose := hsame.trans (congrArg CaGen.purpose hgen).symm
      have hother : a.purpose ≠ next.purpose := by
        rw [hlineage]
        exact hpurpose
      exact ⟨a, List.mem_append_left _ (keptRows_other ha hother), hlineage, hactive⟩
    · rw [List.mem_singleton.mp hlast] at hpurpose
      exact absurd rfl hpurpose

/-- Recording a generation whose file is in place and whose name is free. -/
theorem Minting.generation
    {s s' : Store}
    {next : CaGen}
    {cert : Cert}
    (h : Minting s)
    (hfile : s.pem next.slug = some cert)
    (hfresh : ∀ r ∈ s.db.caIndex, r.cn ≠ next.cn)
    (hcn : cert.subjectCn = next.cn)
    (hca : s'.db.caIndex = keptRows s.db.caIndex next.purpose lock ++ [⟨next, .signing, .active⟩])
    (hindex : s'.db.certIndex = indexCert s.db.certIndex cert (.ca .signing) next.purpose)
    (hpem : s'.pem = s.pem) :
    Minting s' := by
  have hrowFresh : ∀ row ∈ s.db.certIndex, row.cn ≠ next.cn := by
    intro row hrow heq
    obtain ⟨r, hr, hname⟩ := h.owned row hrow
    exact hfresh r hr (hname.trans heq)
  -- No indexed certificate is the new one: none has its name.
  have hother : ∀ row ∈ s.db.certIndex, row.fingerprint ≠ cert := by
    intro row hrow heq
    refine hrowFresh row hrow ?_
    rw [h.faithful row hrow, heq, hcn]
  have hself : (⟨next, .signing, .active⟩ : CaRow) ∈ s'.db.caIndex := by
    rw [hca]
    exact List.mem_append_right _ List.mem_cons_self
  constructor
  · rw [hca]
    refine (keptRows_unique h.cns).append ?_
    intro r hr
    obtain ⟨r₀, hr₀, hgen, _⟩ := mem_keptRows hr
    rw [congrArg CaGen.cn hgen]
    exact hfresh r₀ hr₀
  · exact active_keptRows h.active hca
  · rw [hindex]
    refine (h.rows.filter _).append ?_
    intro row hrow
    show row.cn ≠ cert.subjectCn
    rw [hcn]
    exact hrowFresh row (List.mem_of_mem_filter hrow)
  · rw [hindex]
    intro row hrow
    rcases mem_indexCert hrow with hold | rfl
    · exact h.faithful row hold
    · rfl
  · rw [hindex]
    intro row hrow
    rcases mem_indexCert hrow with hold | rfl
    · obtain ⟨r, hr, hname⟩ := h.owned row hold
      obtain ⟨r', hr', hgen, _⟩ := keptRows_extends next.purpose lock hr
      refine ⟨r', ?_, (congrArg CaGen.cn hgen).trans hname⟩
      rw [hca]
      exact List.mem_append_left _ hr'
    · exact ⟨_, hself, hcn.symm⟩
  · rw [hca, hindex, hpem]
    intro r hr hactive
    rcases List.mem_append.mp hr with hold | hlast
    · obtain ⟨r₀, hr₀, _, hsame⟩ := mem_keptRows hold
      have hsame := hsame hactive
      subst hsame
      obtain ⟨row, hrow, hof, hslug⟩ := h.published r hr₀ hactive
      exact ⟨row, mem_indexCert_of_ne hrow (hother row hrow), hof, hslug⟩
    · rw [List.mem_singleton.mp hlast]
      exact ⟨_, self_mem_indexCert _ _ _ _, ⟨hcn, rfl, rfl⟩, hfile⟩

end Generation

section Steps

theorem Minting.commit
    {p : Pid}
    {s : Store}
    {tx : Tx}
    (h : Minting s)
    (honly : Rules.undisturbed.only s (.commit tx))
    (hmeets : Meets Rules.undisturbed p s (.commit tx)) :
    Minting (s.apply p (.commit tx)) := by
  obtain ⟨_, hrun, htx⟩ := hmeets
  obtain ⟨db, hdb⟩ := Option.isSome_iff_exists.mp hrun
  have hca := run_caIndex hdb
  have hindex := run_certIndex hdb
  rw [apply_commit p hdb]
  cases tx with
  | issue cert issuer profile purpose id => exact htx.1.elim
  | revokeCa victim cert reason at_ => exact htx.elim
  | revoke fp reason at_ => exact h.markRevoked hca hindex rfl
  | generation next cert key lock => exact h.generation honly.1 honly.2 htx.2.1 hca hindex rfl
  | _ => exact h.frame hca hindex fun _ _ _ => rfl

theorem Minting.event
    {p : Pid}
    {s : Store}
    {e : Event}
    (h : Minting s)
    (hallow : Rules.undisturbed.allow p s e)
    (hmeets : Meets Rules.undisturbed p s e) :
    Minting (s.apply p e) := by
  cases e with
  | quiet => exact h
  | backfill row => exact hallow.elim
  | commit tx => exact h.commit hallow hmeets
  | publish slug issuer file =>
      cases file with
      | pem cert =>
          refine h.frame rfl rfl ?_
          intro r hr hactive
          exact Function.update_of_ne (hallow.2 r hr hactive) _ _
      | _ => exact h.frame rfl rfl fun _ _ _ => rfl
  | key use =>
      obtain ⟨hdb, _, hpem, _⟩ := apply_key_db p use s
      refine h.frame (congrArg Db.caIndex hdb) (congrArg Db.certIndex hdb) ?_
      intro r _ _
      rw [hpem]
  | _ => exact h.frame rfl rfl fun _ _ _ => rfl

/-- The ceremony publishes and records the first generation of every CA. -/
theorem Initialised.minting
    {s : Store}
    (h : Initialised s) :
    Minting s := by
  obtain ⟨config, rootCert, rootKey, minted, hs⟩ := h.ceremony
  obtain ⟨rootSerial, rootNow, hroot⟩ := hs.root
  have hrootCn : rootCert.subjectCn = config.root.cn := by
    rw [hroot]
    rfl
  have hmintedCn : ∀ m ∈ minted, m.cert.subjectCn = m.ca.cn := by
    intro m hm
    obtain ⟨serial, now, hcert⟩ := hs.certs m hm
    rw [hcert]
    rfl
  have hca := hs.caIndex
  have hindex : s.db.certIndex = indexRow rootCert (.ca .root) "root" ::
      minted.map fun m => indexRow m.cert (.ca .signing) m.ca.purpose := by
    rw [hs.db]
    rfl
  constructor
  · rw [hca]
    simpa [UniqueKey, Function.comp_def] using hs.cns
  · intro r hr
    refine ⟨r, hr, rfl, ?_⟩
    rw [hca] at hr
    rcases List.mem_cons.mp hr with rfl | hr
    · rfl
    · obtain ⟨m, _, rfl⟩ := List.mem_map.mp hr
      rfl
  · rw [hindex]
    have hnames : minted.map (fun m => m.cert.subjectCn) = minted.map fun m => m.ca.cn :=
      List.map_congr_left hmintedCn
    have hcns := hs.cns
    rw [← hnames, ← hrootCn] at hcns
    simpa [UniqueKey, indexRow, Function.comp_def] using hcns
  · rw [hindex]
    intro row hrow
    rcases List.mem_cons.mp hrow with rfl | hrow
    · rfl
    · obtain ⟨m, _, rfl⟩ := List.mem_map.mp hrow
      rfl
  · rw [hindex, hca]
    intro row hrow
    rcases List.mem_cons.mp hrow with rfl | hrow
    · exact ⟨_, List.mem_cons_self, hrootCn.symm⟩
    · obtain ⟨m, hm, rfl⟩ := List.mem_map.mp hrow
      refine ⟨_, List.mem_cons_of_mem _ (List.mem_map.mpr ⟨m, hm, rfl⟩), ?_⟩
      exact (hmintedCn m hm).symm
  · rw [hindex, hca]
    intro r hr _
    rcases List.mem_cons.mp hr with rfl | hr
    · exact ⟨_, List.mem_cons_self, ⟨hrootCn, rfl, rfl⟩, hs.rootPem⟩
    · obtain ⟨m, hm, rfl⟩ := List.mem_map.mp hr
      refine ⟨_, List.mem_cons_of_mem _ (List.mem_map.mpr ⟨m, hm, rfl⟩), ?_, hs.pem m hm⟩
      exact ⟨hmintedCn m hm, rfl, rfl⟩

end Steps

section Runs

/-- In every undisturbed run of any number of `renew_signing_ca` and
`add_signing_ca` processes, with crashes anywhere, the lineages are in order at
every moment. -/
theorem lineages_in_order
    {w : World Store Command}
    (hw : (yca.system Initialised).Reachable
      (Rules.undisturbed.runs fun req => req.mints = true) w) :
    Lineages w.shared := by
  have hminting : Minting w.shared := by
    refine holds_of_reachable Rules.undisturbed_admits (fun s hs => hs.minting) ?_ hw
    intro s s' hs hmove
    refine keeps_of_events ?_ ?_ hs hmove
    · intro s p e hs hallow hmeets
      exact hs.event hallow hmeets
    · intro s s' hs hdb hpem _ _ _
      refine hs.frame (congrArg Db.caIndex hdb) (congrArg Db.certIndex hdb) ?_
      intro r _ _
      rw [hpem]
  exact hminting.lineages

/-- Two renewals of different CAs at the same time; the first is killed once
and tried again. -/
theorem lineages_in_order_sample :
    ∃ w : World Store Command,
      (w.shared.db.caIndex.any fun r => r.cn == "CA E2" && r.status == .active) = true ∧
      Lineages w.shared := by
  have h :
      ((yca.system Initialised).follow (Rules.undisturbed.runs fun req => req.mints = true)
        (World.idle sampleStore)
        ([.spawn 1 (.renewSigningCa "tls" "CA E2")] ++ acts 1 15 (sampleChoice 31) ++
          [.crash 1, .spawn 1 (.renewSigningCa "tls" "CA E2"),
            .spawn 2 (.renewSigningCa "mail" "CA M2")] ++
          acts 1 9 (sampleChoice 32) ++ acts 2 18 (sampleChoice 33) ++
          acts 1 9 (sampleChoice 34))).any
        (fun w => w.shared.db.caIndex.any fun r => r.cn == "CA E2" && r.status == .active) =
          true := by
    decide
  obtain ⟨w, hrun, hcheck⟩ := Automaton.Run.exists_of_follow h
  have hw := Automaton.Reachable.of_run
    (M := yca.system Initialised) ⟨sampleStore_initialised, World.idle_quiet _⟩ hrun
  exact ⟨w, hcheck, lineages_in_order hw⟩

/-- Of two renewals of one CA the second publishes its files over those of the
first and then fails on the primary key. -/
theorem lineages_out_of_order :
    ¬ ∀ w : World Store Command,
      (yca.system Initialised).Reachable (commands fun req => req.mints = true) w →
        w.Quiet → Lineages w.shared := by
  intro hall
  have h :
      ((yca.system Initialised).follow (commands fun req => req.mints = true)
        (World.idle sampleStore)
        ([.spawn 1 (.renewSigningCa "tls" "CA E2"), .spawn 2 (.renewSigningCa "tls" "CA E3")] ++
          acts 1 9 (sampleChoice 31) ++ acts 2 9 (sampleChoice 32) ++
          acts 1 9 (sampleChoice 31) ++ acts 2 9 (sampleChoice 32))).any
        (fun w => (w.procs 1).isNone && (w.procs 2).isNone &&
          w.shared.db.caIndex.any fun r => r.status == .active &&
            !w.shared.db.certIndex.any fun row => w.shared.pem r.slug == some row.fingerprint) =
          true := by
    decide
  obtain ⟨w, hrun, hcheck⟩ := Automaton.Run.exists_of_follow h
  have hw := Automaton.Reachable.of_run
    (M := yca.system Initialised) ⟨sampleStore_initialised, World.idle_quiet _⟩ hrun
  simp only [Bool.and_eq_true, Option.isNone_iff_eq_none, List.any_eq_true, beq_iff_eq,
    Bool.not_eq_true'] at hcheck
  obtain ⟨⟨hfirst, hsecond⟩, r, hr, hactive, hmissing⟩ := hcheck
  have hquiet : w.Quiet := by
    intro p
    by_cases hone : p = 1
    · rw [hone]
      exact hfirst
    · by_cases htwo : p = 2
      · rw [htwo]
        exact hsecond
      · refine Program.procs_of_run hrun rfl ?_
        intro req
        simp [acts, hone, htwo]
  obtain ⟨row, hrow, _, hpem, _⟩ := (hall w hw hquiet).published r hr hactive
  have hfound : (w.shared.db.certIndex.any fun row =>
      w.shared.pem r.slug == some row.fingerprint) = true :=
    List.any_eq_true.mpr ⟨row, hrow, by simpa using hpem⟩
  rw [hfound] at hmissing
  simp at hmissing

end Runs

end Ca
end Yca
