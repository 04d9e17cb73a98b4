import Yca.Ca.Issuers
import Yca.Ca.Selectors

/-!
# Names that mean their generation

The common names of the generations and the aliases share one name space.  A name
means its own generation exactly when it is no alias, or is the alias of its own
lineage while the generation is active; neither `cfg::load` nor a renewal looks at
the aliases.
-/

namespace Yca
namespace Ca

open Yca.Core

/-- The commands that take a selector act on a generation when they are given its
common name. -/
structure ActsOn (s : Store) (r : CaRow) : Prop where
  resolves : resolveName s.db s.db.loadConfig r.cn = r.cn
  /-- `get ca` prints the certificate in its file. -/
  cert : ∃ cert, s.pem r.slug = some cert ∧ getCa s.db s.db.loadConfig r.cn = some cert
  /-- `get crl` prints its list. -/
  crl : crlSlug s.db s.db.loadConfig r.cn = some r.slug
  /-- `revoke ca` takes it for its victim, or refuses it as the root. -/
  revoke : revokeTarget s.db s.db.loadConfig r.cn =
    some (if r.kind = .root then .root else .generation r.toCaGen)

section Lookups

variable {s : Store}

/-- The active generation of a lineage is the one marked so. -/
theorem Lineal.activeCa_eq
    (h : Lineal s)
    {r : CaRow}
    (hr : r ∈ s.db.caIndex)
    (hactive : r.status = .active) :
    activeCa s.db s.db.loadConfig r.purpose = r.toCaGen := by
  by_cases hroot : r.purpose = "root"
  · rw [hroot, h.activeCa_root, ← h.root_eq hr hroot]
  · obtain ⟨ca, hca, hpurpose⟩ := h.declared hr hroot
    obtain ⟨n, hn⟩ := h.numbered ca hca
    rw [hpurpose] at hn
    obtain ⟨a, ha, haPurpose, hgen, _, hactiveCa⟩ := hn.activeCa s.db.loadConfig
    rw [hactiveCa, hn.row_eq ha hr haPurpose rfl (hgen.trans ((hn.active r hr rfl).mp hactive).symm)]

/-- An alias stands for an active generation. -/
theorem Lineal.active_of_alias
    (h : Lineal s)
    {name purpose : String}
    (halias : s.db.loadConfig.aliasOf name = some (.active purpose)) :
    ∃ r ∈ s.db.caIndex,
      r.purpose = purpose ∧
      r.status = .active ∧
      activeCa s.db s.db.loadConfig purpose = r.toCaGen := by
  rcases purpose_of_alias halias with rfl | ⟨ca, hca, rfl⟩
  · exact ⟨_, h.root_mem, rfl, rfl, h.activeCa_root _⟩
  · obtain ⟨r, hr, hpurpose, _, hactive, hactiveCa, _⟩ := h.active hca
    exact ⟨r, hr, hpurpose, hactive, hactiveCa⟩

/-- A name resolves to itself exactly when it means its generation. -/
theorem Lineal.resolves_iff
    (h : Lineal s)
    {r : CaRow}
    (hr : r ∈ s.db.caIndex)
    (hcn : r.cn ≠ "") :
    resolveName s.db s.db.loadConfig r.cn = r.cn ↔ r.Unshadowed s.db.loadConfig := by
  constructor
  · intro hname a ha
    rw [resolveName_of_alias ha] at hname
    cases a with
    | ambiguous => exact absurd hname.symm hcn
    | active purpose =>
        obtain ⟨r', hr', hpurpose, hactive, hactiveCa⟩ := h.active_of_alias ha
        have hsame : r'.cn = r.cn := by
          rw [← hname, Alias.cn, hactiveCa]
        obtain rfl := h.cns.eq hr' hr hsame
        exact ⟨by rw [hpurpose], hactive⟩
  · intro hmeans
    cases ha : s.db.loadConfig.aliasOf r.cn with
    | none => exact resolveName_of_literal ha
    | some a =>
        obtain ⟨rfl, hactive⟩ := hmeans a ha
        rw [resolveName_of_alias ha, Alias.cn, h.activeCa_eq hr hactive]

/-- The root has a name of its own. -/
theorem Lineal.cn_root
    (h : Lineal s)
    {r : CaRow}
    (hr : r ∈ s.db.caIndex) :
    r.cn = s.db.root.cn ↔ r.kind = .root := by
  constructor
  · intro hcn
    rw [h.cns.eq hr h.root_mem hcn]
    rfl
  · intro hkind
    have hpurpose : r.purpose = "root" := by
      by_contra hne
      rw [(h.kind_signing hr).mpr hne] at hkind
      simp at hkind
    rw [h.root_eq hr hpurpose]
    rfl

/-- `gen_by_cn` finds an issuing generation by its name. -/
theorem Lineal.genByCn_eq
    (h : Lineal s)
    {r : CaRow}
    (hr : r ∈ s.db.caIndex)
    (hkind : r.kind = .signing) :
    genByCn s.db .signing r.cn = some r.toCaGen := by
  have hfind : s.db.caIndex.find? (fun r' => r'.kind == .signing && r'.cn == r.cn) = some r := by
    refine find?_eq_of_only hr (by simp [hkind]) ?_
    intro r' hr' hmatch
    simp only [Bool.and_eq_true, beq_iff_eq] at hmatch
    exact h.cns.eq hr' hr hmatch.2
  rw [genByCn, hfind]
  rfl

/-- A name that means the root is the name of the root. -/
theorem Lineal.rootCa
    (h : Lineal s)
    {r : CaRow}
    (hr : r ∈ s.db.caIndex)
    (hmeans : r.Unshadowed s.db.loadConfig)
    (hcn : r.cn = "root-ca") :
    r.kind = .root := by
  have halias : s.db.loadConfig.aliasOf r.cn = some (.active "root") := by
    simp [Config.aliasOf, hcn]
  obtain ⟨hpurpose, _⟩ := hmeans _ halias
  rw [h.root_eq hr (Alias.active.inj hpurpose).symm]
  rfl

end Lookups

section Invariant

/-- Every generation is on record in both indexes. -/
structure OnRecord (s : Store) : Prop where
  rooted : Rooted s
  /-- The certificate that bears the name of the root is a root's. -/
  root : ∀ row ∈ s.db.certIndex, row.isLeaf = false → row.cn = s.db.root.cn → row.kind = .ca .root

variable {s s' : Store} {r : Rules} {req : Request}

/-- The invariant is about the database and the certificate files. -/
theorem OnRecord.frame
    (h : OnRecord s)
    (hdb : s'.db = s.db)
    (hpem : s'.pem = s.pem)
    (hlog : s'.log = s.log) :
    OnRecord s' := by
  refine ⟨h.rooted.frame hdb hpem ?_, ?_⟩
  · intro leaf issuer
    simp only [IssuedUnder, hlog]
  · rw [hdb]
    exact h.root

/-- What a transaction records has not the name of the root. -/
theorem OnRecord.commit
    {tx : Tx}
    {db : Db}
    (h : OnRecord s)
    (hreq : req.declares = false)
    (hdb : tx.run s.db = some db)
    (haccount : Account (Undisturbed r) 0 (Solo OnRecord) req s (.commit tx))
    (hcas : ∀ row ∈ db.certIndex, row.isLeaf = false → row.cn = row.fingerprint.subjectCn)
    {row : CertRow}
    (hrow : row ∈ db.certIndex)
    (hleaf : row.isLeaf = false)
    (hcn : row.cn = s.db.root.cn) :
    row.kind = .ca .root := by
  have hcases := commit_cases haccount
  rcases row_of_index hdb hrow with
    ⟨row₀, hrow₀, hfp, hkind, _⟩ | ⟨cert, issuer, profile, purpose, id, _, rfl⟩ |
    ⟨next, cert, key, lock, rfl, rfl⟩
  · have hleaf₀ : row₀.isLeaf = false := by simpa only [CertRow.isLeaf, hkind] using hleaf
    have hcn₀ : row₀.cn = s.db.root.cn := by
      rw [(h.rooted.lineal.cas row₀ hrow₀ hleaf₀).1, ← hfp, ← hcas row hrow hleaf, hcn]
    rw [hkind]
    exact h.root row₀ hrow₀ hleaf₀ hcn₀
  · simp [CertRow.isLeaf, indexRow] at hleaf
  · obtain ⟨read, ⟨file, purpose, rfl, _⟩ | ⟨purpose, newCn, rfl, hrenew⟩⟩ := hcases
    · simp [Request.declares] at hreq
    · obtain ⟨ca, _, hfree, _, cert', hsubject, _, ⟨_, htx⟩ | ⟨_, _, _, htx⟩⟩ := hrenew.alone
      · simp at htx
      · obtain ⟨_, rfl, _, _⟩ := Tx.generation.inj (Event.commit.inj htx)
        -- the new name was free, the root's is taken
        exact absurd (hcn.symm.trans hsubject) (cn_free hfree h.rooted.lineal.root_mem)

theorem OnRecord.event
    {e : Event}
    (h : OnRecord s)
    (hreq : req.declares = false)
    (hmeets : Meets r 0 s e)
    (haccount : Account (Undisturbed r) 0 (Solo OnRecord) req s e) :
    OnRecord (s.apply 0 e) := by
  have hrooted : Rooted (s.apply 0 e) :=
    h.rooted.event hreq hmeets
      (haccount.mono fun t (ht : Solo OnRecord t) => (⟨ht.lock, ht.inv.rooted⟩ : Solo Rooted t))
  have hroot : (s.apply 0 e).db.root = s.db.root := (grows_apply 0 s e).root
  refine ⟨hrooted, ?_⟩
  intro row hrow hleaf hcn
  rw [hroot] at hcn
  by_cases hcommit : ∃ tx, e = .commit tx
  · obtain ⟨tx, rfl⟩ := hcommit
    obtain ⟨db, hdb⟩ := Option.isSome_iff_exists.mp hmeets.2.1
    have hcas := hrooted.lineal.cas
    rw [apply_commit 0 hdb] at hrow hcas
    exact h.commit hreq hdb haccount (fun row hrow hleaf => (hcas row hrow hleaf).1) hrow hleaf hcn
  · rw [apply_certIndex fun tx heq => hcommit ⟨tx, heq⟩] at hrow
    exact h.root row hrow hleaf hcn

/-- The ceremony names the CAs apart. -/
theorem Founded.onRecord
    (h : Founded s) :
    OnRecord s := by
  refine ⟨h.rooted, ?_⟩
  obtain ⟨config, rootCert, rootKey, minted, hloaded, hs⟩ := h.ceremony
  rw [hs.db]
  intro row hrow _ hcn
  rcases List.mem_cons.mp hrow with rfl | hrow
  · rfl
  · obtain ⟨m, hm, rfl⟩ := List.mem_map.mp hrow
    obtain ⟨_, _, hcert⟩ := hs.certs m hm
    have hmem : m.ca ∈ config.cas := by
      rw [← hs.cas]
      exact List.mem_map_of_mem hm
    have hname : m.ca.cn = config.root.cn := by
      rw [← show m.cert.subjectCn = m.ca.cn by rw [hcert]; rfl]
      exact hcn
    have hcns := List.nodup_cons.mp hloaded.cns
    exact absurd (hname ▸ List.mem_map_of_mem hmem) hcns.1

/-- Every generation has its row in `cert_index` and its file. -/
theorem OnRecord.row
    (h : OnRecord s)
    {g : CaRow}
    (hg : g ∈ s.db.caIndex) :
    ∃ row ∈ s.db.certIndex,
      row.cn = g.cn ∧ row.kind = .ca g.kind ∧ s.pem g.slug = some row.fingerprint := by
  have hlineal := h.rooted.lineal
  cases hkind : g.kind with
  | signing =>
      obtain ⟨row, hrow, hof, hpem, _⟩ := hlineal.recorded g hg hkind
      exact ⟨row, hrow, hof.1, by rw [hof.2.1, hkind], hpem⟩
  | root =>
      obtain ⟨root, hroot⟩ := h.rooted.anchored
      obtain ⟨row, hrow, hleaf, rfl⟩ := hroot.recorded
      obtain rfl : g = s.db.loadConfig.rootRow :=
        hlineal.cns.eq hg hlineal.root_mem ((hlineal.cn_root hg).mpr hkind)
      have hcn : row.cn = s.db.root.cn := by
        rw [(hlineal.cas row hrow hleaf).1, hroot.subject]
      exact ⟨row, hrow, hcn, h.root row hrow hleaf hcn, hroot.pem⟩

end Invariant

section Commands

variable {s : Store} {g : CaRow}

theorem isLeaf_of_isCaOf
    {row : CertRow}
    {kind : Option CaKind}
    (h : row.isCaOf kind = true) :
    row.isLeaf = false := by
  unfold CertRow.isLeaf
  cases hkind : row.kind with
  | ca _ => rfl
  | ee profile => cases kind <;> simp [CertRow.isCaOf, hkind] at h

/-- `get ca` prints the certificate of the generation its selector means. -/
theorem OnRecord.getCa
    (h : OnRecord s)
    (hg : g ∈ s.db.caIndex)
    (hcn : g.cn ≠ "")
    (hmeans : g.Unshadowed s.db.loadConfig) :
    ∃ cert, s.pem g.slug = some cert ∧ getCa s.db s.db.loadConfig g.cn = some cert := by
  obtain ⟨row, hrow, hname, hkind, hpem⟩ := h.row hg
  have hleaf : row.isLeaf = false := by simp [CertRow.isLeaf, hkind]
  refine ⟨row.fingerprint, hpem, ?_⟩
  have hfind : ∀ kind, row.isCaOf kind = true →
      (s.db.certIndex.find? fun row => row.cn == g.cn && row.isCaOf kind) = some row := by
    intro kind hof
    refine find?_eq_of_only hrow (by simp [hname, hof]) ?_
    intro row' hrow' hmatch
    simp only [Bool.and_eq_true, beq_iff_eq] at hmatch
    exact h.rooted.lineal.row_unique hrow' hrow (isLeaf_of_isCaOf hmatch.2) hleaf
      (hmatch.1.trans hname.symm)
  have hload : loadCert s.db row.fingerprint = some row.fingerprint := by
    obtain ⟨stored, hstored, hcert⟩ := h.rooted.kept row hrow
    rw [← hcert]
    exact loadCert_of_stored hstored
  unfold Ca.getCa
  simp only [(h.rooted.lineal.resolves_iff hg hcn).mpr hmeans, if_neg hcn]
  by_cases hroot : g.cn = "root-ca"
  · rw [if_pos hroot, hfind]
    · exact hload
    · simp [CertRow.isCaOf, hkind, h.rooted.lineal.rootCa hg hmeans hroot]
  · rw [if_neg hroot, if_pos trivial, hfind]
    · exact hload
    · cases hg' : g.kind <;> simp [CertRow.isCaOf, hkind, hg']

/-- `get crl` prints the list of the generation its selector means. -/
theorem Lineal.crlSlug
    (h : Lineal s)
    (hg : g ∈ s.db.caIndex)
    (hcn : g.cn ≠ "")
    (hmeans : g.Unshadowed s.db.loadConfig) :
    crlSlug s.db s.db.loadConfig g.cn = some g.slug := by
  unfold Ca.crlSlug
  simp only [(h.resolves_iff hg hcn).mpr hmeans, if_neg hcn, h.activeCa_root]
  by_cases hroot : g.cn = s.db.root.cn
  · rw [h.cns.eq hg h.root_mem hroot]
    exact if_pos rfl
  · have hkind : g.kind = .signing := by
      cases hkind : g.kind with
      | signing => rfl
      | root => exact absurd ((h.cn_root hg).mpr hkind) hroot
    rw [if_neg (show g.cn ≠ s.db.loadConfig.rootRow.cn from hroot), h.genByCn_eq hg hkind]
    rfl

/-- `revoke ca` chooses the generation its selector means. -/
theorem Lineal.revokeTarget
    (h : Lineal s)
    (hg : g ∈ s.db.caIndex)
    (hcn : g.cn ≠ "")
    (hmeans : g.Unshadowed s.db.loadConfig) :
    revokeTarget s.db s.db.loadConfig g.cn =
      some (if g.kind = .root then .root else .generation g.toCaGen) := by
  unfold Ca.revokeTarget
  simp only [(h.resolves_iff hg hcn).mpr hmeans, if_neg hcn, h.activeCa_root]
  have hname : g.cn = s.db.loadConfig.rootRow.cn ↔ g.kind = .root := h.cn_root hg
  cases hkind : g.kind with
  | root => simp [hname.mpr hkind]
  | signing =>
      have hroot : ¬ (g.cn = "root-ca" ∨ g.cn = s.db.loadConfig.rootRow.cn) := by
        rintro (hcn | hcn)
        · rw [h.rootCa hg hmeans hcn] at hkind
          simp at hkind
        · rw [hname.mp hcn] at hkind
          simp at hkind
      rw [if_neg hroot, h.genByCn_eq hg hkind]
      simp

/-- The commands act on a generation exactly when its name means it. -/
theorem OnRecord.actsOn_iff
    (h : OnRecord s)
    (hg : g ∈ s.db.caIndex) :
    ActsOn s g ↔ g.cn ≠ "" ∧ g.Unshadowed s.db.loadConfig := by
  constructor
  · intro hacts
    have hcn : g.cn ≠ "" := by
      intro hcn
      obtain ⟨cert, _, hcert⟩ := hacts.cert
      have hname := hacts.resolves.trans hcn
      simp [Ca.getCa, hname] at hcert
    exact ⟨hcn, (h.rooted.lineal.resolves_iff hg hcn).mp hacts.resolves⟩
  · rintro ⟨hcn, hmeans⟩
    exact ⟨(h.rooted.lineal.resolves_iff hg hcn).mpr hmeans, h.getCa hg hcn hmeans,
      h.rooted.lineal.crlSlug hg hcn hmeans, h.rooted.lineal.revokeTarget hg hcn hmeans⟩

end Commands

section Selection

variable {r : Rules} {admits : Request → Prop} {inv : Store → Prop}

/-- A revocation of a generation accounts for its choice. -/
def Selects
    (Rely : Pid → Store → Store → Prop)
    (req : Request)
    (p : Pid)
    (t : Store)
    (e : Event) : Prop :=
  ∀ selector reason, req = .revokeCa selector reason →
    (∀ tx, e ≠ .commit tx) ∨ ∃ read, SelectAccount Rely p selector read t e

/-- Every command behaves, and `revoke ca` chooses as it should. -/
theorem selects_start
    {req : Request}
    (hadmits : admits req)
    (hreq : r.Admits req)
    (p : Pid)
    (s : Store) :
    (((r.oneByOne admits inv).also (Selects (Undisturbed r))).of req).Safe machine p
      (start req) s := by
  have hbase : ((r.oneByOne admits inv).of req).Safe machine p (start req) s :=
    oneByOne_start hadmits hreq p s
  cases req with
  | revokeCa selector reason =>
      let D : Discipline Store Event :=
        { inv := Solo inv
          Rely := Undisturbed r
          allow := (r.oneByOne admits inv).allow (.revokeCa selector reason)
          Meets := Selects (Undisturbed r) (.revokeCa selector reason) }
      have hD : Lenient D := by
        intro q t e he _ _ _
        left
        rintro tx rfl
        simp [Event.plain] at he
      have hchoice : D.Safe machine p (start (.revokeCa selector reason)) s := by
        refine follow_look hD ?_
        intro t _ _ _
        simp only [Request.run]
        split
        · trivial
        · refine follow_revokeCa hD (fun _ h => h) ?_ ?_
          · rintro u e ⟨_, _, _, _, _, _, _, _, _, _, rfl⟩ _ _ _
            left
            simp
          · intro u e _ hselect selector' reason' heq
            obtain ⟨rfl, _⟩ := Request.revokeCa.inj heq
            exact Or.inr ⟨t, hselect⟩
      exact Discipline.Safe.and (D := (r.oneByOne admits inv).of (.revokeCa selector reason)) D
        (fun _ h => h) (fun _ _ _ h => h) (fun _ _ _ h => h) hbase hchoice
  | _ => exact hbase.always fun q t e selector reason heq => by simp at heq

/-- What a lone revocation has chosen is what its selector selects. -/
theorem SelectAccount.alone
    {selector : String}
    {read t : Store}
    {victim : CaGen}
    {cert : Cert}
    {reason : Reason}
    {at_ : Nat}
    (h : SelectAccount (Undisturbed r) 0 selector read t
      (.commit (.revokeCa victim cert reason at_))) :
    revokeTarget t.db t.db.loadConfig selector = some (.generation victim) := by
  obtain ⟨root, resolved, named, victim', cert', reason', at', hread, hne, hneRoot, hto, hname,
    hto', hvictim, hto'', he⟩ := h
  obtain ⟨rfl, rfl, rfl, rfl⟩ := Tx.revokeCa.inj (Event.commit.inj he)
  obtain ⟨hresolved, _⟩ := hto.same
  obtain ⟨hnamed, _⟩ := hto'.same
  obtain ⟨hdb, _⟩ := hto''.same
  have hroot : t.db = root.db := by rw [hdb, hnamed, hresolved]
  have hconfig : read.db.loadConfig = t.db.loadConfig := by
    rw [hroot]
    exact hread.config.symm
  rw [hconfig, ← hroot] at hneRoot
  rw [hconfig, hresolved, ← hroot] at hname
  rw [hconfig, hnamed, hresolved, ← hroot] at hvictim
  unfold revokeTarget
  simp only [if_neg (not_or.mpr ⟨hne, hneRoot⟩), if_neg hname, hvictim]
  rfl

end Selection

section Results

theorem onRecord_kept :
    (∀ s req e, OnRecord s → req.declares = false → Rules.free.allow 0 s e →
      Meets Rules.free 0 s e → Account (Undisturbed Rules.free) 0 (Solo OnRecord) req s e →
      OnRecord (s.apply 0 e)) ∧
    (∀ s s' : Store, OnRecord s → s'.db = s.db → s'.pem = s.pem → s'.crl = s.crl →
      s'.log = s.log → s.now ≤ s'.now → OnRecord s') ∧
    ∀ s, Founded s → s.lock = none ∧ OnRecord s := by
  refine ⟨?_, ?_, ?_⟩
  · intro s req e hs hreq _ hmeets haccount
    exact hs.event hreq hmeets haccount
  · intro s s' hs hdb hpem _ hlog _
    exact hs.frame hdb hpem hlog
  · intro s hs
    obtain ⟨_, _, _, _, hceremony⟩ := hs.initialised.ceremony
    exact ⟨hceremony.lock, hs.onRecord⟩

/-- One command at a time, from `init` on, the commands that take a selector act on
a generation exactly when its name is no alias, or the alias of its own lineage while
it is active; what `revoke ca` revokes is what its selector selects. -/
theorem names_generations
    {w : World Store (Request × Command)}
    (hw : (ycaCalls.system Founded).Reachable undeclaring w) :
    (∀ g ∈ w.shared.db.caIndex,
      ActsOn w.shared g ↔ g.cn ≠ "" ∧ g.Unshadowed w.shared.db.loadConfig) ∧
    ∀ p selector reason victim cert reason' at_ w',
      machine.Emits start undeclaring w p (.revokeCa selector reason)
        (.commit (.revokeCa victim cert reason' at_)) w' →
      revokeTarget w.shared.db w.shared.db.loadConfig selector = some (.generation victim) := by
  obtain ⟨hevent, hframe, hinit⟩ := onRecord_kept
  constructor
  · intro g hg
    exact (alone_inv hevent hframe (fun req _ => Rules.free_admits req) hinit hw).actsOn_iff hg
  · intro p selector reason victim cert reason' at_ w' hemits
    obtain ⟨⟨rfl, _⟩, hselects, _⟩ :=
      Conduct.emitted
        (C := (Rules.free.oneByOne (fun req => req.declares = false) OnRecord).also
          (Selects (Undisturbed Rules.free)))
        ((oneByOne_sound hevent hframe).also _)
        (fun s hs => ⟨Or.inl (hinit s hs).1, (hinit s hs).2⟩)
        (fun _ p s h _ => selects_start h.2 (Rules.free_admits _) p s) hw hemits
    rcases hselects selector reason rfl with hnone | ⟨read, hselect⟩
    · exact absurd rfl (hnone _)
    · exact hselect.alone

/-- `tls` is renewed under the alias of another CA, and renewed again. -/
def captureLabels : List (Action Choice Request Outside) :=
  [.spawn 0 (.renewSigningCa "tls" "mail-ca")] ++ acts 0 18 (sampleChoice 31) ++
    [.spawn 0 (.renewSigningCa "tls" "CA E3")] ++ acts 0 18 (sampleChoice 32)

/-- The first generation of `tls` goes by its name. -/
theorem names_generations_sample :
    ∃ (w : World Store (Request × Command)) (g : CaRow),
      g ∈ w.shared.db.caIndex ∧
      g.status = .retiring ∧
      ActsOn w.shared g := by
  have h :
      ((ycaCalls.system Founded).follow undeclaring (World.idle sampleStore) captureLabels).any
        (fun w => w.shared.db.caIndex.any fun g => g.status == .retiring && decide (g.cn ≠ "") &&
          decide (g.Unshadowed w.shared.db.loadConfig)) = true := by
    decide
  obtain ⟨w, hrun, hcheck⟩ := Automaton.Run.exists_of_follow h
  have hw := Automaton.Reachable.of_run
    (M := ycaCalls.system Founded) ⟨sampleStore_founded, World.idle_quiet _⟩ hrun
  simp only [List.any_eq_true, Bool.and_eq_true, beq_iff_eq, decide_eq_true_eq] at hcheck
  obtain ⟨g, hg, ⟨hstatus, hcn⟩, hmeans⟩ := hcheck
  exact ⟨w, g, hg, hstatus, ((names_generations hw).1 g hg).mpr ⟨hcn, hmeans⟩⟩

/-- A renewal may take the alias of another CA for its name: the generation then
cannot be named, and its name leads to the other CA. -/
theorem captured_name :
    ∃ w : World Store (Request × Command),
      (ycaCalls.system Founded).Reachable undeclaring w ∧
      ∃ g ∈ w.shared.db.caIndex,
        g.purpose = "tls" ∧
        g.cn = "mail-ca" ∧
        g.status = .retiring ∧
        ¬ ActsOn w.shared g ∧
        ∃ other ∈ w.shared.db.caIndex,
          other.purpose = "mail" ∧
          revokeTarget w.shared.db w.shared.db.loadConfig g.cn =
            some (.generation other.toCaGen) := by
  have h :
      ((ycaCalls.system Founded).follow undeclaring (World.idle sampleStore) captureLabels).any
        (fun w => w.shared.db.caIndex.any fun g =>
          g.purpose == "tls" && g.cn == "mail-ca" && g.status == .retiring &&
            decide (resolveName w.shared.db w.shared.db.loadConfig g.cn ≠ g.cn) &&
              w.shared.db.caIndex.any fun other => other.purpose == "mail" &&
                decide (revokeTarget w.shared.db w.shared.db.loadConfig g.cn =
                  some (.generation other.toCaGen))) = true := by
    decide
  obtain ⟨w, hrun, hcheck⟩ := Automaton.Run.exists_of_follow h
  have hw := Automaton.Reachable.of_run
    (M := ycaCalls.system Founded) ⟨sampleStore_founded, World.idle_quiet _⟩ hrun
  simp only [List.any_eq_true, Bool.and_eq_true, beq_iff_eq, decide_eq_true_eq] at hcheck
  obtain ⟨g, hg, ⟨⟨⟨hpurpose, hcn⟩, hstatus⟩, hresolve⟩, other, hother, hmail, htarget⟩ := hcheck
  exact ⟨w, hw, g, hg, hpurpose, hcn, hstatus, fun hacts => hresolve hacts.resolves, other, hother,
    hmail, htarget⟩

end Results

end Ca
end Yca
