import Yca.Ca.Alone
import Yca.Ca.Founding
import Yca.Ca.Generations
import Yca.Ca.Index
import Yca.Ca.Uniqueness

/-!
# The lineages of the CAs

One command at a time, every purpose keeps its generations numbered from one, the
last of them active, and the two indexes agree on which are revoked.  Common
names and slugs tell generations apart, and every leaf comes from the generation
that was active when it was recorded.
-/

namespace Yca
namespace Ca

open Yca.Core

/-- The generations of a purpose are numbered from one to `n`; the last one is
active, and no other. -/
structure NumberedTo (rows : List CaRow) (purpose : String) (n : Nat) : Prop where
  pos : 0 < n
  gens : (rows.filter fun r => r.purpose == purpose).map (fun r => r.gen) = List.range' 1 n
  active : ∀ r ∈ rows, r.purpose = purpose → (r.status = .active ↔ r.gen = n)

/-- The same, whatever the number. -/
def Numbered (rows : List CaRow) (purpose : String) : Prop :=
  ∃ n, NumberedTo rows purpose n

/-- The row of the root. -/
def Config.rootRow (config : Config) : CaRow :=
  ⟨configGen config "root", .root, .active⟩

/-- The slug prefix of a purpose. -/
def Config.slugPrefixOf (config : Config) (purpose : String) : Option String :=
  if purpose = "root" then some config.root.slugPrefix
  else (config.ca purpose).map fun ca => ca.slugPrefix

section Numbers

variable {rows : List CaRow} {purpose : String} {n : Nat}

/-- Generations of one purpose are told apart by their number. -/
theorem NumberedTo.row_eq
    (h : NumberedTo rows purpose n)
    {r r' : CaRow}
    (hr : r ∈ rows)
    (hr' : r' ∈ rows)
    (hpurpose : r.purpose = purpose)
    (hpurpose' : r'.purpose = purpose)
    (hgen : r.gen = r'.gen) :
    r = r' := by
  have hnodup : ((rows.filter fun r => r.purpose == purpose).map fun r => r.gen).Nodup := by
    rw [h.gens]
    exact List.nodup_range'
  refine List.inj_on_of_nodup_map hnodup ?_ ?_ hgen
  · exact List.mem_filter.mpr ⟨hr, by simpa using hpurpose⟩
  · exact List.mem_filter.mpr ⟨hr', by simpa using hpurpose'⟩

/-- A recorded number is at most the last. -/
theorem NumberedTo.gen_le
    (h : NumberedTo rows purpose n)
    {r : CaRow}
    (hr : r ∈ rows)
    (hpurpose : r.purpose = purpose) :
    1 ≤ r.gen ∧ r.gen ≤ n := by
  have hmem : r.gen ∈ (rows.filter fun r => r.purpose == purpose).map fun r => r.gen :=
    List.mem_map_of_mem (List.mem_filter.mpr ⟨hr, by simpa using hpurpose⟩)
  rw [h.gens, List.mem_range'_1] at hmem
  omega

/-- The last generation is on record. -/
theorem NumberedTo.last
    (h : NumberedTo rows purpose n) :
    ∃ r ∈ rows, r.purpose = purpose ∧ r.gen = n ∧ r.status = .active := by
  have hmem : n ∈ List.range' 1 n := by
    have hpos := h.pos
    rw [List.mem_range'_1]
    omega
  rw [← h.gens] at hmem
  obtain ⟨r, hr, hgen⟩ := List.mem_map.mp hmem
  obtain ⟨hrow, hpurpose⟩ := List.mem_filter.mp hr
  have hpurpose : r.purpose = purpose := by simpa using hpurpose
  exact ⟨r, hrow, hpurpose, hgen, (h.active r hrow hpurpose).mpr hgen⟩

/-- The active generation is the last one. -/
theorem NumberedTo.activeCa
    {db : Db}
    (h : NumberedTo db.caIndex purpose n)
    (config : Config) :
    ∃ r ∈ db.caIndex,
      r.purpose = purpose ∧ r.gen = n ∧ r.status = .active ∧
        activeCa db config purpose = r.toCaGen := by
  obtain ⟨last, hlast, hpurpose, _, hactive⟩ := h.last
  obtain ⟨r, hr⟩ := newest_isSome (fun r : CaRow => r.gen)
    (List.mem_filter.mpr ⟨hlast, by simp [hpurpose, hactive]⟩ :
      last ∈ db.caIndex.filter fun r => r.purpose == purpose && r.status == .active)
  obtain ⟨hmem, hboth⟩ := List.mem_filter.mp (mem_of_newest hr)
  simp only [Bool.and_eq_true, beq_iff_eq] at hboth
  refine ⟨r, hmem, hboth.1, (h.active r hmem hboth.1).mp hboth.2, hboth.2, ?_⟩
  simp only [Ca.activeCa, hr]

/-- A kept row, where a lineage retires for its successor. -/
theorem mem_retire
    {r : CaRow}
    (hr : r ∈ retire rows purpose) :
    ∃ r₀ ∈ rows,
      r.toCaGen = r₀.toCaGen ∧
      r.kind = r₀.kind ∧
      (r.status = .revoked ↔ r₀.status = .revoked) ∧
      (r.purpose = purpose → r.status ≠ .active) ∧
      (r.purpose ≠ purpose → r = r₀) := by
  obtain ⟨r₀, hr₀, ⟨hold, rfl⟩ | ⟨hold, rfl⟩⟩ := mem_updateWhere.mp hr
  · simp only [Bool.and_eq_true, beq_iff_eq] at hold
    refine ⟨r₀, hr₀, rfl, rfl, by simp [hold.2], by simp, ?_⟩
    intro hne
    exact absurd hold.1 hne
  · simp only [Bool.and_eq_false_iff, beq_eq_false_iff_ne] at hold
    refine ⟨r, hr₀, rfl, rfl, Iff.rfl, ?_, fun _ => rfl⟩
    intro hpurpose
    rcases hold with hne | hne
    · exact absurd hpurpose hne
    · exact hne

theorem retire_gens (rows : List CaRow) (lineage purpose : String) :
    ((retire rows lineage).filter fun r => r.purpose == purpose).map (fun r => r.gen) =
      (rows.filter fun r => r.purpose == purpose).map (fun r => r.gen) := by
  unfold retire
  refine updateWhere_filter_map ?_ ?_ rows
  · intro r
    rfl
  · intro r
    rfl

/-- The lineage that a new generation continues. -/
theorem NumberedTo.renewed
    (h : NumberedTo rows purpose n)
    {next : CaGen}
    (hpurpose : next.purpose = purpose)
    (hgen : next.gen = n + 1) :
    NumberedTo (retire rows purpose ++ [⟨next, .signing, .active⟩]) purpose (n + 1) := by
  constructor
  · omega
  · rw [List.filter_append, List.map_append, retire_gens, h.gens]
    simp [hpurpose, hgen, List.range'_concat, Nat.add_comm]
  · intro r hr hlineage
    rcases List.mem_append.mp hr with hold | hnew
    · obtain ⟨r₀, hr₀, hsame, _, _, hretired, _⟩ := mem_retire hold
      have hle := (h.gen_le hr₀ ((congrArg CaGen.purpose hsame).symm.trans hlineage)).2
      have hgen₀ : r.gen = r₀.gen := congrArg CaGen.gen hsame
      constructor
      · intro hactive
        exact absurd hactive (hretired hlineage)
      · omega
    · rw [List.mem_singleton.mp hnew]
      simp [hgen]

/-- The other lineages. -/
theorem NumberedTo.other
    (h : NumberedTo rows purpose n)
    {next : CaGen}
    (hpurpose : next.purpose ≠ purpose) :
    NumberedTo (retire rows next.purpose ++ [⟨next, .signing, .active⟩]) purpose n := by
  constructor
  · exact h.pos
  · rw [List.filter_append, List.map_append, retire_gens, h.gens]
    simp [hpurpose]
  · intro r hr hlineage
    rcases List.mem_append.mp hr with hold | hnew
    · obtain ⟨r₀, hr₀, _, _, _, _, hkept⟩ := mem_retire hold
      have hsame : r = r₀ := by
        refine hkept ?_
        rw [hlineage]
        exact Ne.symm hpurpose
      subst hsame
      exact h.active r hr₀ hlineage
    · rw [List.mem_singleton.mp hnew] at hlineage
      exact absurd hlineage hpurpose

/-- The rows a revocation of a generation marks. -/
def strike (rows : List CaRow) (victim : CaGen) : List CaRow :=
  updateWhere
    (fun r => r.kind == .signing && r.purpose == victim.purpose && r.gen == victim.gen)
    (fun r => { r with status := .revoked }) rows

theorem mem_strike
    {victim : CaGen}
    {r : CaRow}
    (hr : r ∈ strike rows victim) :
    ∃ r₀ ∈ rows,
      r.toCaGen = r₀.toCaGen ∧
      r.kind = r₀.kind ∧
      ((r₀.kind = .signing ∧ r₀.purpose = victim.purpose ∧ r₀.gen = victim.gen ∧
          r.status = .revoked) ∨
        (¬ (r₀.kind = .signing ∧ r₀.purpose = victim.purpose ∧ r₀.gen = victim.gen) ∧
          r = r₀)) := by
  obtain ⟨r₀, hr₀, ⟨hold, rfl⟩ | ⟨hold, rfl⟩⟩ := mem_updateWhere.mp hr
  · simp only [Bool.and_eq_true, beq_iff_eq, and_assoc] at hold
    exact ⟨r₀, hr₀, rfl, rfl, Or.inl ⟨hold.1, hold.2.1, hold.2.2, rfl⟩⟩
  · refine ⟨r, hr₀, rfl, rfl, Or.inr ⟨?_, rfl⟩⟩
    rintro ⟨hkind, hpurpose, hgen⟩
    simp [hkind, hpurpose, hgen] at hold

theorem strike_extends
    (victim : CaGen)
    {r : CaRow}
    (hr : r ∈ rows) :
    ∃ r' ∈ strike rows victim, r'.toCaGen = r.toCaGen ∧ r'.kind = r.kind := by
  unfold strike
  refine updateWhere_extends _ ?_ hr
  intro r
  exact ⟨rfl, rfl⟩

/-- The other lineages are left alone. -/
theorem strike_other
    {victim : CaGen}
    (h : victim.purpose ≠ purpose) :
    (strike rows victim).filter (fun r => r.purpose == purpose) =
      rows.filter fun r => r.purpose == purpose := by
  unfold strike
  refine updateWhere_filter ?_ ?_ rows
  · intro r hr
    simp only [Bool.and_eq_true, beq_iff_eq] at hr
    rw [beq_eq_false_iff_ne, hr.1.2]
    exact h
  · intro r
    rfl

theorem retire_other
    {lineage : String}
    (h : lineage ≠ purpose) :
    (retire rows lineage).filter (fun r => r.purpose == purpose) =
      rows.filter fun r => r.purpose == purpose := by
  unfold retire
  refine updateWhere_filter ?_ ?_ rows
  · intro r hr
    simp only [Bool.and_eq_true, beq_iff_eq] at hr
    rw [beq_eq_false_iff_ne, hr.1]
    exact h
  · intro r
    rfl

/-- Only a generation that is not the last is revoked. -/
theorem NumberedTo.struck
    (h : NumberedTo rows purpose n)
    {victim : CaGen}
    (hvictim : victim.purpose = purpose → victim.gen ≠ n) :
    NumberedTo (strike rows victim) purpose n := by
  constructor
  · exact h.pos
  · rw [← h.gens]
    unfold strike
    refine updateWhere_filter_map ?_ ?_ rows
    · intro r
      rfl
    · intro r
      rfl
  · intro r hr hlineage
    obtain ⟨r₀, hr₀, hsame, _, ⟨_, hpurpose, hgen, hstruck⟩ | ⟨_, rfl⟩⟩ := mem_strike hr
    · have hgen₀ : r.gen = r₀.gen := congrArg CaGen.gen hsame
      have hpurpose₀ : r.purpose = r₀.purpose := congrArg CaGen.purpose hsame
      have hne : victim.gen ≠ n := hvictim (by rw [← hpurpose, ← hpurpose₀, hlineage])
      constructor
      · intro hactive
        rw [hstruck] at hactive
        simp at hactive
      · intro hlast
        exact absurd (hgen.symm.trans (hgen₀.symm.trans hlast)) hne
    · exact h.active r hr₀ hlineage

end Numbers

section Slugs

variable {config : Config}

theorem Config.Loaded.slugPrefixOf_ca
    (h : config.Loaded)
    {ca : SigningCa}
    (hca : ca ∈ config.cas) :
    config.ca ca.purpose = some ca ∧ config.slugPrefixOf ca.purpose = some ca.slugPrefix := by
  have hunique : UniqueKey SigningCa.purpose config.cas := h.purposes
  have hfind : config.ca ca.purpose = some ca := hunique.find?_eq hca
  exact ⟨hfind, by simp [Config.slugPrefixOf, h.notRoot ca hca, hfind]⟩

/-- A purpose with a slug prefix is the root or declared. -/
theorem slugPrefixOf_cases
    {purpose pre : String}
    (h : config.slugPrefixOf purpose = some pre) :
    (purpose = "root" ∧ pre = config.root.slugPrefix) ∨
      (purpose ≠ "root" ∧
        ∃ ca ∈ config.cas, ca.purpose = purpose ∧ ca.slugPrefix = pre) := by
  unfold Config.slugPrefixOf at h
  split at h
  · rename_i hroot
    exact Or.inl ⟨hroot, (Option.some.inj h).symm⟩
  · rename_i hroot
    obtain ⟨ca, hca, hpre⟩ := Option.map_eq_some_iff.mp h
    exact Or.inr ⟨hroot, ca, List.mem_of_find?_eq_some hca,
      by simpa using List.find?_some hca, hpre⟩

theorem mem_slugPrefixes
    {purpose pre : String}
    (h : config.slugPrefixOf purpose = some pre) :
    pre ∈ config.slugPrefixes := by
  rcases slugPrefixOf_cases h with ⟨_, rfl⟩ | ⟨_, ca, hca, _, rfl⟩
  · exact List.mem_cons_self
  · exact List.mem_cons_of_mem _ (List.mem_map_of_mem hca)

/-- No two purposes share a slug prefix. -/
theorem Config.Loaded.slugPrefixOf_inj
    (h : config.Loaded)
    {purpose purpose' pre : String}
    (hpre : config.slugPrefixOf purpose = some pre)
    (hpre' : config.slugPrefixOf purpose' = some pre) :
    purpose = purpose' := by
  obtain ⟨hroot, hcas⟩ := List.nodup_cons.mp h.slugPrefixes
  rcases slugPrefixOf_cases hpre with ⟨rfl, rfl⟩ | ⟨_, ca, hca, rfl, rfl⟩
  · rcases slugPrefixOf_cases hpre' with ⟨rfl, _⟩ | ⟨_, ca, hca, rfl, heq⟩
    · rfl
    · exact absurd (List.mem_map.mpr ⟨ca, hca, heq⟩) hroot
  · rcases slugPrefixOf_cases hpre' with ⟨_, heq⟩ | ⟨_, ca', hca', rfl, heq⟩
    · exact absurd (List.mem_map.mpr ⟨ca, hca, heq⟩) hroot
    · rw [List.inj_on_of_nodup_map hcas hca hca' heq.symm]

/-- Slugs tell the purpose and the generation. -/
theorem Config.Loaded.slug_inj
    (h : config.Loaded)
    {purpose purpose' pre pre' : String}
    {m n : Nat}
    (hpre : config.slugPrefixOf purpose = some pre)
    (hpre' : config.slugPrefixOf purpose' = some pre')
    (hslug : pre ++ toString m = pre' ++ toString n) :
    purpose = purpose' ∧ m = n := by
  have hmem := mem_slugPrefixes hpre
  have hmem' := mem_slugPrefixes hpre'
  obtain ⟨rfl, hgen⟩ := Ca.slug_inj
    (fun hne => ⟨h.apart _ hmem _ hmem' hne, h.apart _ hmem' _ hmem (Ne.symm hne)⟩) hslug
  exact ⟨h.slugPrefixOf_inj hpre hpre', hgen⟩

end Slugs

section Invariant

/-- The invariant of the lineages. -/
structure Lineal (s : Store) : Prop where
  loaded : s.db.loadConfig.Loaded
  root : s.db.caIndex.filter (fun r => r.purpose == "root") = [s.db.loadConfig.rootRow]
  numbered : ∀ ca ∈ s.db.purposes, Numbered s.db.caIndex ca.purpose
  /-- Every recorded generation has the slug and the kind of its purpose. -/
  slugs : ∀ r ∈ s.db.caIndex,
    r.kind = kindOf r.purpose ∧
    ∃ pre, s.db.loadConfig.slugPrefixOf r.purpose = some pre ∧ r.slug = pre ++ toString r.gen
  cns : UniqueKey (fun r : CaRow => r.cn) s.db.caIndex
  /-- The file of the root holds a certificate of its name. -/
  anchor : ∃ c, s.pem s.db.root.slug = some c ∧ c.subjectCn = s.db.root.cn
  /-- The certificates in the files are signed by the root. -/
  files : ∀ slug c, s.pem slug = some c → c.issuerCn = s.db.root.cn
  /-- The file of an issuing generation holds the certificate recorded for it, and
  the two indexes agree on its status. -/
  recorded : ∀ r ∈ s.db.caIndex, r.kind = .signing →
    ∃ row ∈ s.db.certIndex,
      row.records r ∧
      s.pem r.slug = some row.fingerprint ∧
      (r.status = .revoked ↔ row.status = .revoked)
  /-- The certificates of CAs. -/
  rows : UniqueKey CertRow.cn (s.db.certIndex.filter fun row => !row.isLeaf)
  cas : ∀ row ∈ s.db.certIndex, row.isLeaf = false →
    row.cn = row.fingerprint.subjectCn ∧
    row.fingerprint.issuerCn = s.db.root.cn ∧
    ∃ r ∈ s.db.caIndex, r.cn = row.cn
  leaves : ∀ row ∈ s.db.certIndex, row.isLeaf = true →
    row.fingerprint.issuerCn ≠ s.db.root.cn

variable {s s' : Store}

/-- The invariant is about the database and the certificate files. -/
theorem Lineal.frame
    (h : Lineal s)
    (hdb : s'.db = s.db)
    (hpem : s'.pem = s.pem) :
    Lineal s' := by
  obtain ⟨db, lock, pem, crt, crl, tokens, now, log⟩ := s'
  subst hdb
  subst hpem
  exact ⟨h.loaded, h.root, h.numbered, h.slugs, h.cns, h.anchor, h.files, h.recorded, h.rows,
    h.cas, h.leaves⟩

theorem Lineal.root_mem
    (h : Lineal s) :
    s.db.loadConfig.rootRow ∈ s.db.caIndex := by
  have hmem : s.db.loadConfig.rootRow ∈ s.db.caIndex.filter fun r => r.purpose == "root" := by
    rw [h.root]
    exact List.mem_cons_self
  exact List.mem_of_mem_filter hmem

theorem Lineal.root_eq
    (h : Lineal s)
    {r : CaRow}
    (hr : r ∈ s.db.caIndex)
    (hpurpose : r.purpose = "root") :
    r = s.db.loadConfig.rootRow := by
  have hmem : r ∈ s.db.caIndex.filter fun r => r.purpose == "root" :=
    List.mem_filter.mpr ⟨hr, by simpa using hpurpose⟩
  rw [h.root] at hmem
  exact List.mem_singleton.mp hmem

/-- A generation that is not the root's belongs to a declared purpose. -/
theorem Lineal.declared
    (h : Lineal s)
    {r : CaRow}
    (hr : r ∈ s.db.caIndex)
    (hpurpose : r.purpose ≠ "root") :
    ∃ ca ∈ s.db.purposes, ca.purpose = r.purpose := by
  obtain ⟨_, pre, hpre, _⟩ := h.slugs r hr
  rcases slugPrefixOf_cases hpre with ⟨hroot, _⟩ | ⟨_, ca, hca, heq, _⟩
  · exact absurd hroot hpurpose
  · exact ⟨ca, hca, heq⟩

theorem Lineal.kind_signing
    (h : Lineal s)
    {r : CaRow}
    (hr : r ∈ s.db.caIndex) :
    r.kind = .signing ↔ r.purpose ≠ "root" := by
  rw [(h.slugs r hr).1]
  unfold kindOf
  split
  · rename_i hroot
    simp [hroot]
  · rename_i hroot
    simp [hroot]

/-- The root is active in its one generation. -/
theorem Lineal.activeCa_root
    (h : Lineal s)
    (config : Config) :
    activeCa s.db config "root" = s.db.loadConfig.rootRow.toCaGen := by
  have hactive : (s.db.caIndex.filter fun r => r.purpose == "root" && r.status == .active) =
      [s.db.loadConfig.rootRow] := by
    have hsplit := congrArg (List.filter fun r : CaRow => r.status == .active) h.root
    rw [List.filter_filter] at hsplit
    simpa [Bool.and_comm, Config.rootRow] using hsplit
  simp only [activeCa, hactive, newest]

/-- A purpose and a number name one generation. -/
theorem Lineal.row_eq
    (h : Lineal s)
    {r r' : CaRow}
    (hr : r ∈ s.db.caIndex)
    (hr' : r' ∈ s.db.caIndex)
    (hpurpose : r.purpose = r'.purpose)
    (hgen : r.gen = r'.gen) :
    r = r' := by
  by_cases hroot : r.purpose = "root"
  · rw [h.root_eq hr hroot, h.root_eq hr' (hpurpose.symm.trans hroot)]
  · obtain ⟨ca, hca, heq⟩ := h.declared hr hroot
    obtain ⟨n, hn⟩ := h.numbered ca hca
    exact hn.row_eq hr hr' heq.symm (hpurpose.symm.trans heq.symm) hgen

/-- A slug names one generation. -/
theorem Lineal.slug_eq
    (h : Lineal s)
    {r r' : CaRow}
    (hr : r ∈ s.db.caIndex)
    (hr' : r' ∈ s.db.caIndex)
    (hslug : r.slug = r'.slug) :
    r = r' := by
  obtain ⟨_, pre, hpre, hr₁⟩ := h.slugs r hr
  obtain ⟨_, pre', hpre', hr₂⟩ := h.slugs r' hr'
  rw [hr₁, hr₂] at hslug
  obtain ⟨hpurpose, hgen⟩ := h.loaded.slug_inj hpre hpre' hslug
  exact h.row_eq hr hr' hpurpose hgen

/-- The certificate of an issuing generation is no other CA's. -/
theorem Lineal.row_unique
    (h : Lineal s)
    {row row' : CertRow}
    (hrow : row ∈ s.db.certIndex)
    (hrow' : row' ∈ s.db.certIndex)
    (hleaf : row.isLeaf = false)
    (hleaf' : row'.isLeaf = false)
    (hcn : row.cn = row'.cn) :
    row = row' := by
  refine h.rows.eq ?_ ?_ hcn
  · exact List.mem_filter.mpr ⟨hrow, by simp [hleaf]⟩
  · exact List.mem_filter.mpr ⟨hrow', by simp [hleaf']⟩

/-- Rewriting `cert_index` alone. -/
theorem Lineal.reindex
    (h : Lineal s)
    (hca : s'.db.caIndex = s.db.caIndex)
    (hconfig : s'.db.loadConfig = s.db.loadConfig)
    (hpem : s'.pem = s.pem)
    (hrecorded : ∀ r ∈ s.db.caIndex, r.kind = .signing →
      ∃ row ∈ s'.db.certIndex,
        row.records r ∧
        s.pem r.slug = some row.fingerprint ∧
        (r.status = .revoked ↔ row.status = .revoked))
    (hrows : UniqueKey CertRow.cn (s'.db.certIndex.filter fun row => !row.isLeaf))
    (hcas : ∀ row ∈ s'.db.certIndex, row.isLeaf = false →
      row.cn = row.fingerprint.subjectCn ∧
      row.fingerprint.issuerCn = s.db.root.cn ∧
      ∃ r ∈ s.db.caIndex, r.cn = row.cn)
    (hleaves : ∀ row ∈ s'.db.certIndex, row.isLeaf = true →
      row.fingerprint.issuerCn ≠ s.db.root.cn) :
    Lineal s' := by
  have hroot : s'.db.root = s.db.root := congrArg Config.root hconfig
  have hpurposes : s'.db.purposes = s.db.purposes := congrArg Config.cas hconfig
  constructor
  · rw [hconfig]
    exact h.loaded
  · rw [hca, hconfig]
    exact h.root
  · rw [hca, hpurposes]
    exact h.numbered
  · rw [hca, hconfig]
    exact h.slugs
  · rw [hca]
    exact h.cns
  · rw [hpem, hroot]
    exact h.anchor
  · rw [hpem, hroot]
    exact h.files
  · rw [hca, hpem]
    exact hrecorded
  · exact hrows
  · rw [hca, hroot]
    exact hcas
  · rw [hroot]
    exact hleaves

/-- What the invariant does not speak of may change. -/
theorem Lineal.congr
    (h : Lineal s)
    (hca : s'.db.caIndex = s.db.caIndex)
    (hindex : s'.db.certIndex = s.db.certIndex)
    (hconfig : s'.db.loadConfig = s.db.loadConfig)
    (hpem : s'.pem = s.pem) :
    Lineal s' := by
  refine h.reindex hca hconfig hpem ?_ ?_ ?_ ?_
  · rw [hindex]
    exact h.recorded
  · rw [hindex]
    exact h.rows
  · rw [hindex]
    exact h.cas
  · rw [hindex]
    exact h.leaves

/-- The certificate of the active generation of a declared CA. -/
theorem Lineal.active
    (h : Lineal s)
    {ca : SigningCa}
    (hca : ca ∈ s.db.purposes) :
    ∃ r ∈ s.db.caIndex,
      r.purpose = ca.purpose ∧
      r.kind = .signing ∧
      r.status = .active ∧
      activeCa s.db s.db.loadConfig ca.purpose = r.toCaGen ∧
      ∃ row ∈ s.db.certIndex,
        row.records r ∧
        s.pem r.slug = some row.fingerprint ∧
        row.fingerprint.subjectCn = r.cn := by
  obtain ⟨n, hn⟩ := h.numbered ca hca
  obtain ⟨r, hr, hpurpose, _, hactive, hactiveCa⟩ := hn.activeCa s.db.loadConfig
  have hkind : r.kind = .signing := by
    rw [h.kind_signing hr, hpurpose]
    exact h.loaded.notRoot ca hca
  obtain ⟨row, hrow, hof, hpem, _⟩ := h.recorded r hr hkind
  have hleaf : row.isLeaf = false := by simp [CertRow.isLeaf, hof.2.1]
  refine ⟨r, hr, hpurpose, hkind, hactive, hactiveCa, row, hrow, hof, hpem, ?_⟩
  rw [← (h.cas row hrow hleaf).1]
  exact hof.1

/-- Recording a leaf under the active generation of its profile's CA. -/
theorem Lineal.issued
    (h : Lineal s)
    {profile : Profile}
    {ca : SigningCa}
    {cert issuer : Cert}
    {purpose : String}
    (hca : s.db.loadConfig.caForProfile profile = some ca)
    (hpemIssuer : s.pem (activeCa s.db s.db.loadConfig ca.purpose).slug = some issuer)
    (hissuer : cert.issuerCn = issuer.subjectCn)
    (hcaIndex : s'.db.caIndex = s.db.caIndex)
    (hconfig : s'.db.loadConfig = s.db.loadConfig)
    (hpem : s'.pem = s.pem)
    (hindex : s'.db.certIndex = indexCert s.db.certIndex cert (.ee profile) purpose) :
    Lineal s' := by
  obtain ⟨r, hr, hpurpose, hkind, _, hactive, row, _, _, hfile, hsubject⟩ :=
    h.active (List.mem_of_find?_eq_some hca)
  rw [hactive, hfile] at hpemIssuer
  -- The issuer is not the root, so no CA certificate is replaced.
  have hnotRoot : cert.issuerCn ≠ s.db.root.cn := by
    rw [hissuer, ← Option.some.inj hpemIssuer, hsubject]
    intro heq
    have hroot := h.cns.eq hr h.root_mem heq
    have hne := (h.kind_signing hr).mp hkind
    rw [hroot] at hne
    exact hne rfl
  have hother : ∀ row ∈ s.db.certIndex, row.isLeaf = false → row.fingerprint ≠ cert := by
    rintro row hrow hleaf rfl
    exact hnotRoot (h.cas row hrow hleaf).2.1
  refine h.reindex hcaIndex hconfig hpem ?_ ?_ ?_ ?_
  · intro r hr hkind
    obtain ⟨row, hrow, hof, hpem, hstatus⟩ := h.recorded r hr hkind
    have hleaf : row.isLeaf = false := by simp [CertRow.isLeaf, hof.2.1]
    rw [hindex]
    exact ⟨row, mem_indexCert_of_ne hrow (hother row hrow hleaf), hof, hpem, hstatus⟩
  · rw [hindex, indexCert, List.filter_append]
    have hnone : [indexRow cert (.ee profile) purpose].filter (fun row => !row.isLeaf) = [] := rfl
    rw [hnone, List.append_nil]
    exact List.Nodup.sublist ((List.filter_sublist.filter _).map _) h.rows
  · rw [hindex]
    intro row hrow hleaf
    rcases mem_indexCert hrow with hold | rfl
    · exact h.cas row hold hleaf
    · simp [CertRow.isLeaf, indexRow] at hleaf
  · rw [hindex]
    intro row hrow hleaf
    rcases mem_indexCert hrow with hold | rfl
    · exact h.leaves row hold hleaf
    · exact hnotRoot

/-- A row after some were revoked. -/
theorem mem_markRevoked
    {rows : List CertRow}
    {fp : Cert}
    {reason : Reason}
    {at_ : Nat}
    {row : CertRow}
    (hrow : row ∈ markRevoked rows fp reason at_) :
    ∃ row₀ ∈ rows,
      row.fingerprint = row₀.fingerprint ∧ row.cn = row₀.cn ∧ row.kind = row₀.kind := by
  obtain ⟨row₀, hrow₀, ⟨_, rfl⟩ | ⟨_, rfl⟩⟩ := mem_updateWhere.mp hrow
  · exact ⟨row₀, hrow₀, rfl, rfl, rfl⟩
  · exact ⟨row, hrow₀, rfl, rfl, rfl⟩

/-- A row stays, and becomes revoked if it is about the certificate. -/
theorem markRevoked_row
    {rows : List CertRow}
    {row : CertRow}
    (hrow : row ∈ rows)
    (fp : Cert)
    (reason : Reason)
    (at_ : Nat) :
    ∃ row' ∈ markRevoked rows fp reason at_,
      row'.fingerprint = row.fingerprint ∧
      (∀ r, row.records r → row'.records r) ∧
      (row'.status = .revoked ↔ row.fingerprint = fp ∨ row.status = .revoked) := by
  by_cases hfp : row.fingerprint = fp
  · exact ⟨_, mem_updateWhere.mpr ⟨row, hrow, Or.inl ⟨by simpa using hfp, rfl⟩⟩, rfl,
      fun _ hof => hof, by simp [hfp]⟩
  · exact ⟨row, mem_updateWhere.mpr ⟨row, hrow, Or.inr ⟨by simpa using hfp, rfl⟩⟩, rfl,
      fun _ hof => hof, by simp [hfp]⟩

theorem markRevoked_cas (rows : List CertRow) (fp : Cert) (reason : Reason) (at_ : Nat) :
    ((markRevoked rows fp reason at_).filter fun row => !row.isLeaf).map CertRow.cn =
      (rows.filter fun row => !row.isLeaf).map CertRow.cn := by
  unfold markRevoked
  refine updateWhere_filter_map ?_ ?_ rows
  · intro row
    rfl
  · intro row
    rfl

/-- Revoking certificates changes nothing else about them. -/
theorem Lineal.marked
    (h : Lineal s)
    (fp : Cert)
    (reason : Reason)
    (at_ : Nat) :
    UniqueKey CertRow.cn
        ((markRevoked s.db.certIndex fp reason at_).filter fun row => !row.isLeaf) ∧
      (∀ row ∈ markRevoked s.db.certIndex fp reason at_, row.isLeaf = false →
        row.cn = row.fingerprint.subjectCn ∧
        row.fingerprint.issuerCn = s.db.root.cn ∧
        ∃ r ∈ s.db.caIndex, r.cn = row.cn) ∧
      ∀ row ∈ markRevoked s.db.certIndex fp reason at_, row.isLeaf = true →
        row.fingerprint.issuerCn ≠ s.db.root.cn := by
  refine ⟨?_, ?_, ?_⟩
  · rw [UniqueKey, markRevoked_cas]
    exact h.rows
  · intro row hrow hleaf
    obtain ⟨row₀, hrow₀, hsame, hcn, hkind⟩ := mem_markRevoked hrow
    have hleaf₀ : row₀.isLeaf = false := by
      simpa only [CertRow.isLeaf, hkind] using hleaf
    rw [hsame, hcn]
    exact h.cas row₀ hrow₀ hleaf₀
  · intro row hrow hleaf
    obtain ⟨row₀, hrow₀, hsame, hcn, hkind⟩ := mem_markRevoked hrow
    have hleaf₀ : row₀.isLeaf = true := by
      simpa only [CertRow.isLeaf, hkind] using hleaf
    rw [hsame]
    exact h.leaves row₀ hrow₀ hleaf₀

/-- Revoking a leaf. -/
theorem Lineal.revoked
    (h : Lineal s)
    {fp : Cert}
    {reason : Reason}
    {at_ : Nat}
    (hfp : ∃ row ∈ s.db.certIndex, row.isLeaf = true ∧ row.fingerprint = fp)
    (hcaIndex : s'.db.caIndex = s.db.caIndex)
    (hconfig : s'.db.loadConfig = s.db.loadConfig)
    (hpem : s'.pem = s.pem)
    (hindex : s'.db.certIndex = markRevoked s.db.certIndex fp reason at_) :
    Lineal s' := by
  obtain ⟨leaf, hmem, hisLeaf, rfl⟩ := hfp
  obtain ⟨hrows, hcas, hleaves⟩ := h.marked leaf.fingerprint reason at_
  rw [← hindex] at hrows hcas hleaves
  refine h.reindex hcaIndex hconfig hpem ?_ hrows hcas hleaves
  intro r hr hkind
  obtain ⟨row, hrow, hof, hpem, hstatus⟩ := h.recorded r hr hkind
  have hleaf : row.isLeaf = false := by simp [CertRow.isLeaf, hof.2.1]
  have hne : row.fingerprint ≠ leaf.fingerprint := by
    intro heq
    have hissuer := (h.cas row hrow hleaf).2.1
    rw [heq] at hissuer
    exact h.leaves leaf hmem hisLeaf hissuer
  obtain ⟨row', hrow', hsame, hrecords, hmarked⟩ :=
    markRevoked_row hrow leaf.fingerprint reason at_
  rw [hindex]
  refine ⟨row', hrow', hrecords r hof, by rw [hsame]; exact hpem, ?_⟩
  rw [hmarked, hstatus]
  simp [hne]

/-- A row is about the generation, not about its status. -/
theorem records_congr
    {r r₀ : CaRow}
    (hgen : r.toCaGen = r₀.toCaGen)
    (hkind : r.kind = r₀.kind)
    {row : CertRow}
    (h : row.records r₀) :
    row.records r := by
  unfold CertRow.records at h ⊢
  rw [hgen, hkind]
  exact h

/-- Revoking a generation that is not active. -/
theorem Lineal.struck
    (h : Lineal s)
    {victim : CaGen}
    {cn : String}
    {cert : Cert}
    {reason : Reason}
    {at_ : Nat}
    (hvictim : genByCn s.db .signing cn = some victim)
    (hgen : victim.gen ≠ (activeCa s.db s.db.loadConfig victim.purpose).gen)
    (hfile : s.pem victim.slug = some cert)
    (hcaIndex : s'.db.caIndex = strike s.db.caIndex victim)
    (hconfig : s'.db.loadConfig = s.db.loadConfig)
    (hpem : s'.pem = s.pem)
    (hindex : s'.db.certIndex = markRevoked s.db.certIndex cert reason at_) :
    Lineal s' := by
  have hroot : s'.db.root = s.db.root := congrArg Config.root hconfig
  have hpurposes : s'.db.purposes = s.db.purposes := congrArg Config.cas hconfig
  obtain ⟨v, hfind, rfl⟩ := Option.map_eq_some_iff.mp hvictim
  have hv : v ∈ s.db.caIndex := List.mem_of_find?_eq_some hfind
  have hvkind : v.kind = .signing := by
    have hboth := List.find?_some hfind
    simp only [Bool.and_eq_true, beq_iff_eq] at hboth
    exact hboth.1
  have hnotRoot : v.purpose ≠ "root" := (h.kind_signing hv).mp hvkind
  obtain ⟨rowV, hrowV, hofV, hpemV, _⟩ := h.recorded v hv hvkind
  have hcert : rowV.fingerprint = cert := Option.some.inj (hpemV.symm.trans hfile)
  obtain ⟨hrows, hcas, hleaves⟩ := h.marked cert reason at_
  rw [← hindex] at hrows hcas hleaves
  constructor
  · rw [hconfig]
    exact h.loaded
  · rw [hcaIndex, hconfig, strike_other hnotRoot]
    exact h.root
  · rw [hcaIndex, hpurposes]
    intro ca hca
    obtain ⟨n, hn⟩ := h.numbered ca hca
    refine ⟨n, hn.struck ?_⟩
    intro hpurpose
    obtain ⟨r, _, _, hlast, _, hactive⟩ := hn.activeCa s.db.loadConfig
    rw [hpurpose, hactive, hlast] at hgen
    exact hgen
  · rw [hcaIndex, hconfig]
    intro r hr
    obtain ⟨r₀, hr₀, hsame, hkind, _⟩ := mem_strike hr
    rw [hsame, hkind]
    exact h.slugs r₀ hr₀
  · rw [hcaIndex]
    exact h.cns.updateWhere _ fun _ => rfl
  · rw [hpem, hroot]
    exact h.anchor
  · rw [hpem, hroot]
    exact h.files
  · rw [hcaIndex, hpem, hindex]
    intro r hr hkind
    obtain ⟨r₀, hr₀, hsame, hkind₀, hcase⟩ := mem_strike hr
    rw [hkind₀] at hkind
    obtain ⟨row, hrow, hof, hslug, hstatus⟩ := h.recorded r₀ hr₀ hkind
    obtain ⟨row', hrow', hfp, hrecords, hmarked⟩ := markRevoked_row hrow cert reason at_
    refine ⟨row', hrow', hrecords r (records_congr hsame hkind₀ hof), ?_, ?_⟩
    · rw [hfp, hsame]
      exact hslug
    · rw [hmarked]
      rcases hcase with ⟨_, hpurpose, hgen, hstruck⟩ | ⟨hother, rfl⟩
      · obtain rfl := h.row_eq hr₀ hv hpurpose hgen
        simp [hstruck, Option.some.inj (hslug.symm.trans hfile)]
      · have hne : row.fingerprint ≠ cert := by
          intro heq
          have hleaf : row.isLeaf = false := by simp [CertRow.isLeaf, hof.2.1]
          have hleafV : rowV.isLeaf = false := by simp [CertRow.isLeaf, hofV.2.1]
          have hcn : row.cn = rowV.cn := by
            rw [(h.cas row hrow hleaf).1, (h.cas rowV hrowV hleafV).1, heq, hcert]
          obtain rfl := h.cns.eq hr₀ hv (hof.1.symm.trans (hcn.trans hofV.1))
          exact hother ⟨hkind, rfl, rfl⟩
        rw [hstatus]
        simp [hne]
  · exact hrows
  · rw [hcaIndex, hroot]
    intro row hrow hleaf
    obtain ⟨hcn, hissuer, r₀, hr₀, hname⟩ := hcas row hrow hleaf
    obtain ⟨r, hr, hsame, _⟩ := strike_extends v.toCaGen hr₀
    exact ⟨hcn, hissuer, r, hr, (congrArg CaGen.cn hsame).trans hname⟩
  · rw [hroot]
    exact hleaves

/-- A name that `gen_by_cn` does not find is free. -/
theorem cn_free
    {db : Db}
    {cn : String}
    (h : ∀ kind, genByCn db kind cn = none)
    {r : CaRow}
    (hr : r ∈ db.caIndex) :
    r.cn ≠ cn := by
  rintro rfl
  have hnone := Option.map_eq_none_iff.mp (h r.kind)
  have hno := List.find?_eq_none.mp hnone r hr
  simp at hno

/-- The slug of the next generation is new. -/
theorem Lineal.successor_slug
    (h : Lineal s)
    {ca : SigningCa}
    (hca : ca ∈ s.db.purposes)
    (newCn : String)
    {r : CaRow}
    (hr : r ∈ s.db.caIndex) :
    r.slug ≠ (s.db.successor ca newCn).slug := by
  intro hslug
  obtain ⟨n, hn⟩ := h.numbered ca hca
  obtain ⟨a, _, _, hlast, _, hactive⟩ := hn.activeCa s.db.loadConfig
  obtain ⟨_, pre, hpre, hof⟩ := h.slugs r hr
  rw [hof] at hslug
  obtain ⟨hpurpose, hgen⟩ :=
    h.loaded.slug_inj hpre (h.loaded.slugPrefixOf_ca hca).2 hslug
  have hle := (hn.gen_le hr hpurpose).2
  rw [hactive] at hgen
  have hgen : r.gen = a.gen + 1 := hgen
  omega

/-- A ceremony publishes the certificate of the next generation. -/
theorem Lineal.published
    (h : Lineal s)
    {slug : String}
    {cert : Cert}
    (hslug : ∀ r ∈ s.db.caIndex, r.slug ≠ slug)
    (hissuer : cert.issuerCn = s.db.root.cn)
    (hdb : s'.db = s.db)
    (hpem : s'.pem = Function.update s.pem slug (some cert)) :
    Lineal s' := by
  have hkept : ∀ r ∈ s.db.caIndex, s'.pem r.slug = s.pem r.slug := by
    intro r hr
    rw [hpem, Function.update_of_ne (hslug r hr)]
  constructor
  · rw [hdb]
    exact h.loaded
  · rw [hdb]
    exact h.root
  · rw [hdb]
    exact h.numbered
  · rw [hdb]
    exact h.slugs
  · rw [hdb]
    exact h.cns
  · obtain ⟨c, hc, hcn⟩ := h.anchor
    refine ⟨c, ?_, ?_⟩
    · rw [hdb]
      exact (hkept _ h.root_mem).trans hc
    · rw [hdb]
      exact hcn
  · intro other c hc
    rw [hdb]
    rw [hpem] at hc
    by_cases heq : other = slug
    · rw [heq, Function.update_self] at hc
      rw [← Option.some.inj hc]
      exact hissuer
    · rw [Function.update_of_ne heq] at hc
      exact h.files other c hc
  · rw [hdb]
    intro r hr hkind
    rw [hkept r hr]
    exact h.recorded r hr hkind
  · rw [hdb]
    exact h.rows
  · rw [hdb]
    exact h.cas
  · rw [hdb]
    exact h.leaves

/-- Recording the next generation of a lineage. -/
theorem Lineal.renewed
    (h : Lineal s)
    {ca : SigningCa}
    {newCn : String}
    {cert : Cert}
    (hca : ca ∈ s.db.purposes)
    (hfree : ∀ kind, genByCn s.db kind newCn = none)
    (hsubject : cert.subjectCn = newCn)
    (hfile : s.pem (s.db.successor ca newCn).slug = some cert)
    (hcaIndex : s'.db.caIndex =
      retire s.db.caIndex ca.purpose ++ [⟨s.db.successor ca newCn, .signing, .active⟩])
    (hconfig : s'.db.loadConfig = s.db.loadConfig)
    (hpem : s'.pem = s.pem)
    (hindex : s'.db.certIndex = indexCert s.db.certIndex cert (.ca .signing) ca.purpose) :
    Lineal s' := by
  have hroot : s'.db.root = s.db.root := congrArg Config.root hconfig
  have hpurposes : s'.db.purposes = s.db.purposes := congrArg Config.cas hconfig
  have hnotRoot : ca.purpose ≠ "root" := h.loaded.notRoot ca hca
  -- No certificate of a CA has the new name, so none is replaced.
  have hname : ∀ row ∈ s.db.certIndex, row.isLeaf = false → row.cn ≠ newCn := by
    intro row hrow hleaf heq
    obtain ⟨_, _, r, hr, hcn⟩ := h.cas row hrow hleaf
    exact cn_free hfree hr (hcn.trans heq)
  have hother : ∀ row ∈ s.db.certIndex, row.isLeaf = false → row.fingerprint ≠ cert := by
    rintro row hrow hleaf rfl
    exact hname row hrow hleaf ((h.cas row hrow hleaf).1.trans hsubject)
  constructor
  · rw [hconfig]
    exact h.loaded
  · rw [hcaIndex, hconfig, List.filter_append, retire_other hnotRoot, h.root]
    have hnone : [(⟨s.db.successor ca newCn, .signing, .active⟩ : CaRow)].filter
        (fun r => r.purpose == "root") = [] := by
      simp [Db.successor, hnotRoot]
    rw [hnone, List.append_nil]
  · rw [hcaIndex, hpurposes]
    intro ca' hca'
    obtain ⟨n, hn⟩ := h.numbered ca' hca'
    by_cases hpurpose : ca.purpose = ca'.purpose
    · obtain ⟨a, _, _, hlast, _, hactive⟩ := hn.activeCa s.db.loadConfig
      rw [hpurpose]
      refine ⟨n + 1, hn.renewed hpurpose ?_⟩
      simp only [Db.successor, hpurpose, hactive, hlast]
    · have hnext : (s.db.successor ca newCn).purpose ≠ ca'.purpose := hpurpose
      exact ⟨n, hn.other hnext⟩
  · rw [hcaIndex, hconfig]
    intro r hr
    rcases List.mem_append.mp hr with hold | hnew
    · obtain ⟨r₀, hr₀, hsame, hkind, _⟩ := mem_retire hold
      rw [hsame, hkind]
      exact h.slugs r₀ hr₀
    · rw [List.mem_singleton.mp hnew]
      refine ⟨?_, ca.slugPrefix, (h.loaded.slugPrefixOf_ca hca).2, rfl⟩
      simp [kindOf, Db.successor, hnotRoot]
  · rw [hcaIndex]
    have hunique : UniqueKey (fun r : CaRow => r.cn) (retire s.db.caIndex ca.purpose) := by
      unfold retire
      exact h.cns.updateWhere _ fun _ => rfl
    refine hunique.append ?_
    intro r hr
    obtain ⟨r₀, hr₀, hsame, _⟩ := mem_retire hr
    rw [hsame]
    exact cn_free hfree hr₀
  · rw [hpem, hroot]
    exact h.anchor
  · rw [hpem, hroot]
    exact h.files
  · rw [hcaIndex, hpem, hindex]
    intro r hr hkind
    rcases List.mem_append.mp hr with hold | hnew
    · obtain ⟨r₀, hr₀, hsame, hkind₀, hrevoked, _⟩ := mem_retire hold
      obtain ⟨row, hrow, hof, hslug, hstatus⟩ := h.recorded r₀ hr₀ (hkind₀.symm.trans hkind)
      have hleaf : row.isLeaf = false := by simp [CertRow.isLeaf, hof.2.1]
      refine ⟨row, mem_indexCert_of_ne hrow (hother row hrow hleaf),
        records_congr hsame hkind₀ hof, ?_, hrevoked.trans hstatus⟩
      rw [hsame]
      exact hslug
    · rw [List.mem_singleton.mp hnew]
      exact ⟨_, self_mem_indexCert _ _ _ _, ⟨hsubject, rfl, rfl⟩, hfile, by simp [indexRow]⟩
  · rw [hindex, indexCert, List.filter_append]
    have hnew : [indexRow cert (.ca .signing) ca.purpose].filter (fun row => !row.isLeaf) =
        [indexRow cert (.ca .signing) ca.purpose] := rfl
    rw [hnew]
    refine UniqueKey.append (List.Nodup.sublist ((List.filter_sublist.filter _).map _) h.rows) ?_
    intro row hrow
    obtain ⟨hmem, hleaf⟩ := List.mem_filter.mp hrow
    show row.cn ≠ cert.subjectCn
    rw [hsubject]
    exact hname row (List.mem_of_mem_filter hmem) (by simpa using hleaf)
  · rw [hcaIndex, hindex, hroot]
    intro row hrow hleaf
    rcases mem_indexCert hrow with hold | rfl
    · obtain ⟨hcn, hissuer, r₀, hr₀, hname⟩ := h.cas row hold hleaf
      obtain ⟨r, hr, hsame, _⟩ := keptRows_extends ca.purpose none hr₀
      exact ⟨hcn, hissuer, r, List.mem_append_left _ hr, (congrArg CaGen.cn hsame).trans hname⟩
    · exact ⟨rfl, h.files _ _ hfile, _, List.mem_append_right _ List.mem_cons_self,
        hsubject.symm⟩
  · rw [hindex, hroot]
    intro row hrow hleaf
    rcases mem_indexCert hrow with hold | rfl
    · exact h.leaves row hold hleaf
    · simp [CertRow.isLeaf, indexRow] at hleaf

end Invariant

section Steps

/-- The command that declares a new purpose. -/
def Request.declares : Request → Bool
  | .addSigningCa .. => true
  | _ => false

variable {r : Rules} {s : Store} {req : Request}

/-- There is nothing to backfill. -/
theorem Lineal.no_backfill
    {row : CaRow}
    (hreq : req.declares = false)
    (h : Account (Undisturbed r) 0 (Solo Lineal) req s (.backfill row)) :
    False := by
  obtain ⟨read, hback⟩ := backfill_cases h
  obtain ⟨missing, hsolo, hconfig, _, hmem, _, hnone⟩ := hback.alone
  have hlineal := hsolo.inv
  have hfile : req.config read = missing.db.loadConfig := by
    rw [hconfig]
    cases req with
    | addSigningCa file purpose => simp [Request.declares] at hreq
    | _ => rfl
  rw [hfile] at hmem
  rcases List.mem_cons.mp hmem with hroot | hca
  · exact hnone _ hlineal.root_mem hroot.symm
  · obtain ⟨ca, hca, hpurpose⟩ := List.mem_map.mp hca
    obtain ⟨n, hn⟩ := hlineal.numbered ca hca
    obtain ⟨last, hlast, hof, _⟩ := hn.last
    exact hnone last hlast (hof.trans hpurpose)

theorem Lineal.commit
    {tx : Tx}
    {db : Db}
    (h : Lineal s)
    (hreq : req.declares = false)
    (hdb : tx.run s.db = some db)
    (hmeets : TxMeets r s tx)
    (haccount : Account (Undisturbed r) 0 (Solo Lineal) req s (.commit tx)) :
    Lineal (s.apply 0 (.commit tx)) := by
  rw [apply_commit 0 hdb]
  have hca := run_caIndex hdb
  have hindex := run_certIndex hdb
  have hcases := commit_cases haccount
  cases tx with
  | issue cert issuer profile purpose id =>
      obtain ⟨_, _, _, _, _, _, hissue⟩ := hcases
      obtain ⟨ca, cert', issuer', hprofile, hpem, hissuer, _, htx⟩ := hissue.alone
      obtain ⟨rfl, rfl, rfl, _, _⟩ := Tx.issue.inj htx
      rw [← Option.some.inj hdb]
      exact h.issued hprofile hpem hissuer rfl rfl rfl rfl
  | revoke fp reason at_ =>
      rw [← Option.some.inj hdb]
      exact h.revoked hmeets.1 rfl rfl rfl rfl
  | revokeCa victim cert reason at_ =>
      obtain ⟨_, hrevoke⟩ := hcases
      obtain ⟨victim', cn, cert', reason', at', hvictim, hgen, hfile, htx⟩ := hrevoke.alone
      obtain ⟨rfl, rfl, rfl, rfl⟩ := Tx.revokeCa.inj (Event.commit.inj htx)
      rw [← Option.some.inj hdb]
      exact h.struck hvictim hgen hfile rfl rfl rfl rfl
  | generation next cert key lock =>
      obtain ⟨read, ⟨file, purpose, rfl, _⟩ | ⟨purpose, newCn, rfl, hrenew⟩⟩ := hcases
      · simp [Request.declares] at hreq
      · obtain ⟨ca, hmem, hfree, _, cert', hsubject, _, ⟨_, htx⟩ | ⟨key', hfile, _, htx⟩⟩ :=
          hrenew.alone
        · simp at htx
        · obtain ⟨rfl, rfl, rfl, rfl⟩ := Tx.generation.inj (Event.commit.inj htx)
          have hconfig : db.loadConfig = s.db.loadConfig := by
            rw [(run_generation hdb).2.2]
            simp [Db.loadConfig]
          exact h.renewed hmem hfree hsubject hfile hca hconfig rfl hindex
  | enroll id created =>
      rw [(run_enroll hdb).2]
      exact h.congr rfl rfl rfl rfl
  | _ =>
      rw [← Option.some.inj hdb]
      exact h.congr rfl rfl rfl rfl

theorem Lineal.event
    {e : Event}
    (h : Lineal s)
    (hreq : req.declares = false)
    (hmeets : Meets r 0 s e)
    (haccount : Account (Undisturbed r) 0 (Solo Lineal) req s e) :
    Lineal (s.apply 0 e) := by
  cases e with
  | key use =>
      obtain ⟨hdb, _, hpem, _⟩ := apply_key_db 0 use s
      exact h.frame hdb hpem
  | backfill row => exact (Lineal.no_backfill hreq haccount).elim
  | publish slug issuer file =>
      cases file with
      | pem cert =>
          obtain ⟨read, ⟨file, purpose, rfl, _⟩ | ⟨purpose, newCn, rfl, hrenew⟩⟩ :=
            publish_cases haccount
          · simp [Request.declares] at hreq
          · obtain ⟨ca, hmem, _, root, cert', _, hissuer, ⟨hpem, hevent⟩ | ⟨_, _, _, hevent⟩⟩ :=
              hrenew.alone
            · obtain ⟨rfl, rfl, hfile⟩ := Event.publish.inj hevent
              obtain rfl := Artifact.pem.inj hfile
              refine h.published (fun _ => h.successor_slug hmem newCn) ?_ rfl rfl
              obtain ⟨c, hc, hcn⟩ := h.anchor
              rw [h.activeCa_root] at hpem
              rw [hissuer, ← hcn, Option.some.inj (hpem.symm.trans hc)]
            · simp at hevent
      | _ => exact h.frame rfl rfl
  | commit tx =>
      obtain ⟨db, hdb⟩ := Option.isSome_iff_exists.mp hmeets.2.1
      exact h.commit hreq hdb hmeets.2.2 haccount
  | _ => exact h.frame rfl rfl

/-- The ceremony starts every lineage. -/
theorem Founded.lineal
    (h : Founded s) :
    Lineal s := by
  obtain ⟨hcns, _, hrows, hfaithful, howned, hpublished⟩ := h.initialised.minting
  have hfiles : ∀ slug c, s.pem slug = some c → c.issuerCn = s.db.root.cn := fun _ _ => h.files
  obtain ⟨config, rootCert, rootKey, minted, hloaded, hs⟩ := h.ceremony
  have hconfig : s.db.loadConfig = config := by
    rw [hs.db]
    rfl
  have hroot : s.db.root = config.root := congrArg Config.root hconfig
  have hcas : s.db.purposes = config.cas := congrArg Config.cas hconfig
  have hca := hs.caIndex
  have hmem : ∀ m ∈ minted, m.ca ∈ config.cas := by
    intro m hm
    rw [← hs.cas]
    exact List.mem_map_of_mem hm
  have hactive : ∀ r ∈ s.db.caIndex, r.status = .active ∧ r.gen = 1 := by
    intro r hr
    rw [hca] at hr
    rcases List.mem_cons.mp hr with rfl | hr
    · exact ⟨rfl, rfl⟩
    · obtain ⟨m, _, rfl⟩ := List.mem_map.mp hr
      exact ⟨rfl, rfl⟩
  have hpurposes : UniqueKey (fun r : CaRow => r.purpose) s.db.caIndex := by
    have hnodup : ("root" :: config.cas.map SigningCa.purpose).Nodup := by
      refine List.nodup_cons.mpr ⟨?_, hloaded.purposes⟩
      intro hmem
      obtain ⟨ca, hca, heq⟩ := List.mem_map.mp hmem
      exact hloaded.notRoot ca hca heq
    rw [← hs.cas, List.map_map] at hnodup
    rw [hca]
    simpa [UniqueKey, Function.comp_def] using hnodup
  have hrootRow : s.db.loadConfig.rootRow ∈ s.db.caIndex := by
    rw [hconfig, hca]
    exact List.mem_cons_self
  have hcert : ∀ row ∈ s.db.certIndex,
      row.isLeaf = false ∧ row.status = .active ∧ row.fingerprint.issuerCn = s.db.root.cn := by
    obtain ⟨rootSerial, rootNow, hrootCert⟩ := hs.root
    intro row hrow
    rw [hs.db] at hrow
    rw [hroot]
    rcases List.mem_cons.mp hrow with rfl | hrow
    · refine ⟨rfl, rfl, ?_⟩
      rw [hrootCert]
      rfl
    · obtain ⟨m, hm, rfl⟩ := List.mem_map.mp hrow
      obtain ⟨serial, now, hcert⟩ := hs.certs m hm
      refine ⟨rfl, rfl, ?_⟩
      show m.cert.issuerCn = _
      rw [hcert, hrootCert]
      rfl
  constructor
  · rw [hconfig]
    exact hloaded
  · exact hpurposes.filter_eq hrootRow
  · rw [hcas]
    intro ca hmemCa
    rw [← hs.cas] at hmemCa
    obtain ⟨m, hm, rfl⟩ := List.mem_map.mp hmemCa
    have hrow : (⟨⟨m.ca.purpose, 1, m.ca.cn, m.ca.slug⟩, .signing, .active⟩ : CaRow) ∈
        s.db.caIndex := by
      rw [hca]
      exact List.mem_cons_of_mem _ (List.mem_map.mpr ⟨m, hm, rfl⟩)
    refine ⟨1, Nat.one_pos, ?_, ?_⟩
    · have hone := hpurposes.filter_eq hrow
      rw [hone]
      rfl
    · intro r hr _
      simp [hactive r hr]
  · rw [hconfig, hca]
    intro r hr
    rcases List.mem_cons.mp hr with rfl | hr
    · exact ⟨rfl, config.root.slugPrefix, rfl, hloaded.rootSlug⟩
    · obtain ⟨m, hm, rfl⟩ := List.mem_map.mp hr
      refine ⟨?_, m.ca.slugPrefix, (hloaded.slugPrefixOf_ca (hmem m hm)).2,
        hloaded.slugs m.ca (hmem m hm)⟩
      simp [kindOf, hloaded.notRoot m.ca (hmem m hm)]
  · exact hcns
  · obtain ⟨rootSerial, rootNow, hrootCert⟩ := hs.root
    refine ⟨rootCert, ?_, ?_⟩
    · rw [hroot]
      exact hs.rootPem
    · rw [hroot, hrootCert]
      rfl
  · exact hfiles
  · intro r hr _
    obtain ⟨row, hrow, hof, hpem⟩ := hpublished r hr (hactive r hr).1
    refine ⟨row, hrow, hof, hpem, ?_⟩
    rw [(hactive r hr).1, (hcert row hrow).2.1]
    simp
  · exact hrows.filter _
  · intro row hrow _
    exact ⟨hfaithful row hrow, (hcert row hrow).2.2, howned row hrow⟩
  · intro row hrow hleaf
    rw [(hcert row hrow).1] at hleaf
    simp at hleaf

end Steps

section Results

/-- What the lineages promise. -/
structure LineagesKept (s : Store) : Prop where
  /-- The generations of every declared purpose are `1..n`, active in the last. -/
  numbered : ∀ ca ∈ s.db.loadConfig.cas, Numbered s.db.caIndex ca.purpose
  /-- The root has one generation, and it is active. -/
  root : s.db.caIndex.filter (fun r => r.purpose == "root") = [s.db.loadConfig.rootRow]
  /-- Nothing else is on record. -/
  complete : ∀ r ∈ s.db.caIndex,
    r.purpose = "root" ∨ ∃ ca ∈ s.db.loadConfig.cas, ca.purpose = r.purpose
  cns : UniqueKey (fun r : CaRow => r.cn) s.db.caIndex
  slugs : UniqueKey (fun r : CaRow => r.slug) s.db.caIndex
  /-- The one row of its certificate says whether a generation is revoked. -/
  revoked : ∀ r ∈ s.db.caIndex, r.kind = .signing →
    ∃ row ∈ s.db.certIndex,
      row.records r ∧
      (∀ row' ∈ s.db.certIndex, row'.records r → row' = row) ∧
      (r.status = .revoked ↔ row.status = .revoked)
  /-- The live generations are those that are not revoked. -/
  live : ∀ kind,
    liveCas s.db s.db.loadConfig kind =
      (s.db.caIndex.filter fun r => r.kind == kind && r.status != .revoked).map CaRow.toCaGen

/-- A leaf comes from the active generation of the CA of its profile: it names
its certificate as issuer, and its key was looked up to sign it. -/
def SignedByActive (s : Store) (profile : Profile) (cert : Cert) : Prop :=
  ∃ ca, ∃ r ∈ s.db.caIndex, ∃ row ∈ s.db.certIndex,
    s.db.loadConfig.caForProfile profile = some ca ∧
    r.purpose = ca.purpose ∧
    r.status = .active ∧
    row.records r ∧
    cert.issuerCn = r.cn ∧
    cert.aki = row.fingerprint.ski ∧
    Signed s row.fingerprint cert.signedBy

theorem records_leaf
    {row : CertRow}
    {r : CaRow}
    (h : row.records r) :
    row.isLeaf = false := by
  simp [CertRow.isLeaf, h.2.1]

theorem Lineal.live
    {s : Store}
    (h : Lineal s)
    (kind : CaKind) :
    liveCas s.db s.db.loadConfig kind =
      (s.db.caIndex.filter fun r => r.kind == kind && r.status != .revoked).map CaRow.toCaGen := by
  have hfilter : (s.db.caIndex.filter fun r =>
      r.kind == kind && (r.status == .active || r.status == .retiring)) =
      s.db.caIndex.filter fun r => r.kind == kind && r.status != .revoked := by
    refine List.filter_congr ?_
    intro r _
    cases r.status <;> simp
  have hactive : ∀ r ∈ s.db.caIndex, r.kind = kind → r.status = .active →
      r.toCaGen ∈ (s.db.caIndex.filter fun r => r.kind == kind && r.status != .revoked).map
        CaRow.toCaGen := by
    intro r hr hkind hstatus
    exact List.mem_map_of_mem (List.mem_filter.mpr ⟨hr, by simp [hkind, hstatus]⟩)
  unfold liveCas
  rw [hfilter]
  split
  · rename_i hnone
    rw [hnone] at hactive ⊢
    cases kind with
    | root => exact absurd (hactive _ h.root_mem rfl rfl) List.not_mem_nil
    | signing =>
        have hempty : s.db.loadConfig.cas = [] := by
          refine List.eq_nil_iff_forall_not_mem.mpr ?_
          intro ca hca
          obtain ⟨r, hr, _, hkind, hstatus, _⟩ := h.active hca
          exact absurd (hactive r hr hkind hstatus) List.not_mem_nil
        simp [hempty]
  · rfl

theorem Lineal.kept
    {s : Store}
    (h : Lineal s) :
    LineagesKept s where
  numbered := h.numbered
  root := h.root
  complete r hr := by
    by_cases hroot : r.purpose = "root"
    · exact Or.inl hroot
    · exact Or.inr (h.declared hr hroot)
  cns := h.cns
  slugs := by
    refine List.Nodup.map_on ?_ (List.Nodup.of_map _ h.cns)
    intro r hr r' hr' hslug
    exact h.slug_eq hr hr' hslug
  revoked r hr hkind := by
    obtain ⟨row, hrow, hof, _, hstatus⟩ := h.recorded r hr hkind
    refine ⟨row, hrow, hof, ?_, hstatus⟩
    intro row' hrow' hof'
    exact h.row_unique hrow' hrow (records_leaf hof') (records_leaf hof)
      (hof'.1.trans hof.1.symm)
  live := h.live

/-- What an issuing call records comes from the active generation. -/
theorem Lineal.signedByActive
    {r : Rules}
    {s : Store}
    {req : Request}
    {cert issuer : Cert}
    {profile : Profile}
    {purpose : String}
    {id : Option String}
    (h : Lineal s)
    (hmeets : TxMeets r s (.issue cert issuer profile purpose id))
    (haccount : Account (Undisturbed r) 0 (Solo Lineal) req s
      (.commit (.issue cert issuer profile purpose id))) :
    SignedByActive s profile cert := by
  obtain ⟨_, _, _, _, _, _, hissue⟩ := commit_cases haccount
  obtain ⟨ca, cert', issuer', hprofile, hpem, hissuer, haki, htx⟩ := hissue.alone
  obtain ⟨rfl, rfl, rfl, _, _⟩ := Tx.issue.inj htx
  obtain ⟨g, hg, hpurpose, _, hactive, hactiveCa, row, hrow, hof, hfile, hsubject⟩ :=
    h.active (List.mem_of_find?_eq_some hprofile)
  rw [hactiveCa, hfile] at hpem
  obtain rfl := Option.some.inj hpem
  obtain ⟨_, _, _, _, _, hsigned⟩ := hmeets
  exact ⟨ca, g, hg, row, hrow, hprofile, hpurpose, hactive, hof, hissuer.trans hsubject, haki,
    hsigned⟩

/-- Where a row of `cert_index` comes from, in one step. -/
theorem row_of_exec
    {G : ycaCalls.Guarded}
    {w w' : World Store (Request × Command)}
    {a : Action Choice Request Outside}
    (hG : G w a)
    (hx : ycaCalls.exec w a = some w')
    {row : CertRow}
    (hrow : row ∈ w'.shared.db.certIndex)
    (hleaf : row.isLeaf = true) :
    (∃ row₀ ∈ w.shared.db.certIndex,
      row.fingerprint = row₀.fingerprint ∧ row.kind = row₀.kind) ∨
    ∃ p req cert issuer profile purpose id,
      machine.Emits start G w p req (.commit (.issue cert issuer profile purpose id)) w' ∧
      row.fingerprint = cert ∧
      row.kind = .ee profile := by
  cases a with
  | spawn p r =>
      obtain ⟨_, rfl⟩ := Program.exec_spawn hx
      exact Or.inl ⟨row, hrow, rfl, rfl⟩
  | crash p =>
      obtain ⟨c, _, rfl⟩ := Program.exec_crash hx
      refine Or.inl ⟨row, ?_, rfl, rfl⟩
      change row ∈ (w.shared.die p).db.certIndex at hrow
      unfold Store.die at hrow
      split at hrow <;> exact hrow
  | env o =>
      obtain ⟨s', hs', rfl⟩ := Program.exec_env hx
      refine Or.inl ⟨row, ?_, rfl, rfl⟩
      rw [← (alone_outside hs').db]
      exact hrow
  | act p k =>
      obtain ⟨req, ready, emit, next, hl, hready, rfl⟩ := Machine.act_calls hx
      by_cases hcommit : ∃ tx, emit k w.shared = .commit tx
      · obtain ⟨tx, htx⟩ := hcommit
        have hemits : machine.Emits start G w p req (.commit tx) _ :=
          ⟨k, _, hl, by simp [Script.event, hready, htx], hG, hx⟩
        have hshared : row ∈ (w.shared.apply p (.commit tx)).db.certIndex := by
          rw [← htx]
          exact hrow
        cases hrun : tx.run w.shared.db with
        | none =>
            simp only [Store.apply, Store.effect, hrun, Option.getD_none] at hshared
            exact Or.inl ⟨row, hshared, rfl, rfl⟩
        | some db =>
            rw [apply_commit p hrun] at hshared
            rcases row_of_index hrun hshared with
              ⟨row₀, hrow₀, hfp, hkind, _⟩ |
              ⟨cert, issuer, profile, purpose, id, rfl, rfl⟩ | ⟨_, _, _, _, rfl, rfl⟩
            · exact Or.inl ⟨row₀, hrow₀, hfp, hkind⟩
            · exact Or.inr ⟨p, req, cert, issuer, profile, purpose, id, hemits, rfl, rfl⟩
            · simp [CertRow.isLeaf, indexRow] at hleaf
      · have hsame := apply_certIndex (p := p) (s := w.shared) fun tx htx => hcommit ⟨tx, htx⟩
        refine Or.inl ⟨row, ?_, rfl, rfl⟩
        rw [← hsame]
        exact hrow

/-- Every leaf on record was recorded by a call of the run. -/
theorem leaf_origin
    {G : ycaCalls.Guarded}
    {init : Store → Prop}
    (hinit : ∀ s, init s → ∀ row ∈ s.db.certIndex, row.isLeaf = false)
    {w : World Store (Request × Command)}
    (hw : (ycaCalls.system init).Reachable G w) :
    ∀ row ∈ w.shared.db.certIndex, row.isLeaf = true →
      ∃ w₁ w₂ as p req cert issuer profile purpose id,
        (ycaCalls.system init).Reachable G w₁ ∧
        machine.Emits start G w₁ p req (.commit (.issue cert issuer profile purpose id)) w₂ ∧
        (ycaCalls.system init).Run G w₂ as w ∧
        row.fingerprint = cert ∧
        row.kind = .ee profile := by
  have hboth := Automaton.Reachable.invariant
    (I := fun v => (ycaCalls.system init).Reachable G v ∧
      ∀ row ∈ v.shared.db.certIndex, row.isLeaf = true →
        ∃ w₁ w₂ as p req cert issuer profile purpose id,
          (ycaCalls.system init).Reachable G w₁ ∧
          machine.Emits start G w₁ p req (.commit (.issue cert issuer profile purpose id)) w₂ ∧
          (ycaCalls.system init).Run G w₂ as v ∧
          row.fingerprint = cert ∧
          row.kind = .ee profile) ?_ ?_ hw
  · exact hboth.2
  · intro v hv
    refine ⟨Automaton.Reachable.of_init hv, ?_⟩
    intro row hrow hleaf
    rw [hinit _ hv.1 row hrow] at hleaf
    simp at hleaf
  · rintro v a v' ⟨hv, hleaves⟩ hG hx
    refine ⟨hv.step hG hx, ?_⟩
    intro row hrow hleaf
    rcases row_of_exec hG hx hrow hleaf with
      ⟨row₀, hrow₀, hfp, hkind⟩ | ⟨p, req, cert, issuer, profile, purpose, id, hemits, hfp, hkind⟩
    · have hleaf₀ : row₀.isLeaf = true := by
        simpa only [CertRow.isLeaf, hkind] using hleaf
      obtain ⟨w₁, w₂, as, p, req, cert, issuer, profile, purpose, id, hw₁, hemits, hrun, hcert,
        hprofile⟩ := hleaves row₀ hrow₀ hleaf₀
      exact ⟨w₁, w₂, as ++ [a], p, req, cert, issuer, profile, purpose, id, hw₁, hemits,
        hrun.append (Automaton.Run.cons hG hx (Automaton.Run.nil _)), hfp.trans hcert,
        hkind.trans hprofile⟩
    · exact ⟨v, v', [], p, req, cert, issuer, profile, purpose, id, hv, hemits,
        Automaton.Run.nil _, hfp, hkind⟩

/-- The runs of one command at a time that declare no new purpose. -/
abbrev undeclaring : ycaCalls.Guarded :=
  Rules.free.sequential fun req => req.declares = false

/-- One command at a time, from `init` on, the lineages stay in order, and every
leaf on record comes from the generation that was active when it was recorded. -/
theorem lineages_kept
    {w : World Store (Request × Command)}
    (hw : (ycaCalls.system Founded).Reachable undeclaring w) :
    LineagesKept w.shared ∧
      ∀ row ∈ w.shared.db.certIndex, row.isLeaf = true →
        ∃ w₁ w₂ as p req cert issuer profile purpose id,
          (ycaCalls.system Founded).Reachable undeclaring w₁ ∧
          machine.Emits start undeclaring w₁ p req
            (.commit (.issue cert issuer profile purpose id)) w₂ ∧
          (ycaCalls.system Founded).Run undeclaring w₂ as w ∧
          row.fingerprint = cert ∧
          row.kind = .ee profile ∧
          SignedByActive w₁.shared profile cert := by
  have hinit : ∀ s, Founded s → s.lock = none ∧ Lineal s := by
    intro s hs
    obtain ⟨_, _, _, _, hceremony⟩ := hs.initialised.ceremony
    exact ⟨hceremony.lock, hs.lineal⟩
  have hevent : ∀ s req e, Lineal s → req.declares = false → Rules.free.allow 0 s e →
      Meets Rules.free 0 s e → Account (Undisturbed Rules.free) 0 (Solo Lineal) req s e →
      Lineal (s.apply 0 e) :=
    fun s req e hs hreq _ hmeets haccount => hs.event hreq hmeets haccount
  have hframe : ∀ s s' : Store, Lineal s → s'.db = s.db → s'.pem = s.pem → s'.crl = s.crl →
      s'.log = s.log → s.now ≤ s'.now → Lineal s' :=
    fun s s' hs hdb hpem _ _ _ => hs.frame hdb hpem
  have hlineal : ∀ v, (ycaCalls.system Founded).Reachable undeclaring v → Lineal v.shared :=
    fun v hv => alone_inv hevent hframe (fun req _ => Rules.free_admits req) hinit hv
  refine ⟨(hlineal w hw).kept, ?_⟩
  intro row hrow hleaf
  obtain ⟨w₁, w₂, as, p, req, cert, issuer, profile, purpose, id, hw₁, hemits, hrun, hcert,
    hprofile⟩ := leaf_origin (fun s hs => hs.initialised.indexed.2) hw row hrow hleaf
  obtain ⟨_, _, _, hmeets, haccount⟩ :=
    alone_emitted hevent hframe (fun req _ => Rules.free_admits req) hinit hw₁ hemits
  exact ⟨w₁, w₂, as, p, req, cert, issuer, profile, purpose, id, hw₁, hemits, hrun, hcert,
    hprofile, (hlineal w₁ hw₁).signedByActive hmeets.2.2 haccount⟩

/-- A leaf is issued, `tls` is renewed, another leaf is issued, and the retired
generation is revoked. -/
def lineageLabels : List (Action Choice Request Outside) :=
  [.spawn 0 (.issueEe .server "a.ca" none)] ++ acts 0 10 (sampleChoice 31) ++
    [.spawn 0 (.renewSigningCa "tls" "CA E2")] ++ acts 0 18 (sampleChoice 32) ++
    [.spawn 0 (.issueEe .server "b.ca" none)] ++ acts 0 10 (sampleChoice 33) ++
    [.spawn 0 (.revokeCa "CA E1" "superseded")] ++ acts 0 16 (sampleChoice 34)

theorem lineages_kept_sample :
    ∃ w : World Store (Request × Command),
      (w.shared.db.caIndex.map CaRow.status) = [.active, .revoked, .active, .active] ∧
      (w.shared.db.certIndex.filter CertRow.isLeaf).length = 2 ∧
      LineagesKept w.shared := by
  have h :
      ((ycaCalls.system Founded).follow undeclaring (World.idle sampleStore) lineageLabels).any
        (fun w =>
          decide (w.shared.db.caIndex.map CaRow.status = [.active, .revoked, .active, .active]) &&
            decide ((w.shared.db.certIndex.filter CertRow.isLeaf).length = 2)) = true := by
    decide
  obtain ⟨w, hrun, hcheck⟩ := Automaton.Run.exists_of_follow h
  have hw := Automaton.Reachable.of_run (M := ycaCalls.system Founded)
    ⟨sampleStore_founded, World.idle_quiet _⟩ hrun
  simp only [Bool.and_eq_true, decide_eq_true_eq] at hcheck
  exact ⟨w, hcheck.1, hcheck.2, (lineages_kept hw).1⟩

end Results

end Ca
end Yca
