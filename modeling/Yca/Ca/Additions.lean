import Yca.Ca.Endings
import Yca.Ca.Lineage
import Yca.Ca.Sections

/-!
# Adding a CA

`add signing-ca` is run with a file that may have drifted from what is locked.
Before it checks anything it lets `ensure_ca_index` record a first generation of
every purpose in that file, if only the store holds a CA certificate of the
declared name: also of a purpose that no ceremony has created.  As long as that
finds nothing, an addition is all or nothing, and every live generation can be
refreshed.  Whatever it finds, the generations of a purpose are numbered without a gap
and the last one is active (`Ranked`).
-/

namespace Yca
namespace Ca

open Yca.Core

/-- No generation became active that was recorded and not active. -/
def Fades (s t : Store) : Prop :=
  ∀ r ∈ t.db.caIndex, r.status = .active →
    (∀ r₀ ∈ s.db.caIndex, r₀.purpose = r.purpose → r₀.gen ≠ r.gen) ∨
      ∃ r₀ ∈ s.db.caIndex, r₀.purpose = r.purpose ∧ r₀.gen = r.gen ∧ r₀.status = .active

/-- What the others may do to the store under a call, with the generations in
view. -/
structure Fading (r : Rules) (p : Pid) (s t : Store) : Prop where
  shared : Shared r p s t
  fades : Fades s t

/-- The calls with an invariant, in any interleaving. -/
def Rules.together
    (r : Rules)
    (admits : Request → Prop)
    (only : Request → Event → Prop)
    (inv : Store → Prop) : Conduct Store Event Request where
  inv := inv
  Rely := Fading r
  allow req p s e := r.allow p s e ∧ only req e
  Meets req p s e :=
    admits req ∧ Meets r p s e ∧ Account (Fading r) p inv req s e

section Fading

variable {r : Rules} {p : Pid} {s t u : Store}

theorem Fades.same
    (h : t.db.caIndex = s.db.caIndex) :
    Fades s t := by
  intro r hr hactive
  rw [h] at hr
  exact Or.inr ⟨r, hr, rfl, rfl, hactive⟩

theorem Fades.trans
    (hrows : s.db.Extends t.db)
    (h₁ : Fades s t)
    (h₂ : Fades t u) :
    Fades s u := by
  intro r hr hactive
  rcases h₂ r hr hactive with hnew | ⟨r₁, hr₁, hpurpose, hgen, hactive₁⟩
  · refine Or.inl ?_
    intro r₀ hr₀ hpurpose hgen
    obtain ⟨r₁, hr₁, hsame, _⟩ := hrows r₀ hr₀
    exact hnew r₁ hr₁ ((congrArg CaGen.purpose hsame).trans hpurpose)
      ((congrArg CaGen.gen hsame).trans hgen)
  · rw [← hpurpose, ← hgen]
    exact h₁ r₁ hr₁ hactive₁

theorem Fading.refl (r : Rules) (p : Pid) (s : Store) :
    Fading r p s s :=
  ⟨(conduct_sound r).refl p s, Fades.same rfl⟩

theorem Fading.trans
    (h₁ : Fading r p s t)
    (h₂ : Fading r p t u) :
    Fading r p s u :=
  ⟨(conduct_sound r).trans p s t u h₁.shared h₂.shared,
    h₁.fades.trans h₁.shared.others.rows h₂.fades⟩

/-- A recorded generation of a new number has no predecessor. -/
theorem fades_append
    {rows : List CaRow}
    {row : CaRow}
    (hnew : s.db.hasGen row.purpose row.gen = false)
    (hrows : ∀ r ∈ rows, r.status = .active → r ∈ s.db.caIndex)
    (h : t.db.caIndex = rows ++ [row]) :
    Fades s t := by
  intro r hr hactive
  rw [h] at hr
  rcases List.mem_append.mp hr with hold | hlast
  · exact Or.inr ⟨r, hrows r hold hactive, rfl, rfl, hactive⟩
  · rw [List.mem_singleton.mp hlast]
    refine Or.inl ?_
    intro r₀ hr₀ hpurpose hgen
    simp only [Db.hasGen, List.any_eq_false, Bool.and_eq_true, beq_iff_eq, not_and] at hnew
    exact hnew r₀ hr₀ hpurpose hgen

theorem caIndex_commit
    {tx : Tx}
    {db : Db}
    (hdb : tx.run s.db = some db) :
    (s.apply p (.commit tx)).db.caIndex = tx.caIndex s.db.caIndex := by
  rw [apply_commit p hdb]
  exact run_caIndex hdb

theorem purposes_commit
    {tx : Tx}
    {db : Db}
    (hdb : tx.run s.db = some db) :
    (s.apply p (.commit tx)).db.purposes = s.db.purposes ++ tx.locks.toList := by
  rw [apply_commit p hdb]
  exact congrArg Config.cas (run_config hdb).1

/-- No event makes a generation active again. -/
theorem fades_apply
    {e : Event}
    (hmeets : Meets r p s e) :
    Fades s (s.apply p e) := by
  cases e with
  | key use => exact Fades.same (by rw [(apply_key_db p use s).1])
  | publish slug issuer file => cases file <;> exact Fades.same rfl
  | backfill row => exact fades_append hmeets.2 (fun _ h _ => h) rfl
  | commit tx =>
      obtain ⟨db, hdb⟩ := Option.isSome_iff_exists.mp hmeets.2.1
      have hrows := caIndex_commit (p := p) hdb
      cases tx with
      | generation next cert key lock =>
          have hnew : s.db.hasGen next.purpose next.gen = false := (run_generation hdb).2.1
          refine fades_append hnew ?_ hrows
          intro r hr hactive
          unfold keptRows at hr
          split at hr
          · exact hr
          · obtain ⟨r₀, hr₀, _, _, _, hretired, hkept⟩ := mem_retire hr
            by_cases hpurpose : r.purpose = next.purpose
            · exact absurd hactive (hretired hpurpose)
            · rw [hkept hpurpose]
              exact hr₀
      | revokeCa victim cert reason at_ =>
          intro r hr hactive
          rw [hrows] at hr
          obtain ⟨r₀, hr₀, _, _, ⟨_, _, _, hstruck⟩ | ⟨_, rfl⟩⟩ := mem_strike hr
          · rw [hstruck] at hactive
            simp at hactive
          · exact Or.inr ⟨r, hr₀, rfl, rfl, hactive⟩
      | _ => exact Fades.same hrows
  | _ => exact Fades.same rfl

/-- Calm events leave the generations alone. -/
theorem Calm.fades
    (h : Calm (Fading r) p s t) :
    s.db.Extends t.db ∧ Fades s t := by
  refine Machine.Since.induct (Q := fun u => s.db.Extends u.db ∧ Fades s u) ?_ ?_ h
    ⟨Db.Extends.refl _, Fades.same rfl⟩
  · rintro u v ⟨hrows, hfades⟩ hv
    exact ⟨hrows.trans hv.shared.others.rows, hfades.trans hrows hv.fades⟩
  · rintro u e ⟨hrows, hfades⟩ he
    have hdb : (u.apply p e).db = u.db := apply_calm_db he p u
    refine ⟨?_, hfades.trans hrows (Fades.same (congrArg Db.caIndex hdb))⟩
    show s.db.Extends (u.apply p e).db
    rw [hdb]
    exact hrows

/-- What no process takes away is still there. -/
theorem Mild.kept
    (h : Mild (Fading r) p s t) :
    Grows s t :=
  Mild.grows (Machine.Since.relax (fun _ _ hv => hv.shared) h)

end Fading

section Furnished

/-- The root or a locked purpose. -/
def Db.Owns (db : Db) (purpose : String) : Prop :=
  purpose = "root" ∨ ∃ ca ∈ db.purposes, ca.purpose = purpose

/-- The generations of a purpose that is locked or on record are numbered, and the last
one is active. -/
def Ranked (s : Store) : Prop :=
  ∀ purpose, (s.db.Owns purpose ∨ ∃ r ∈ s.db.caIndex, r.purpose = purpose) →
    Numbered s.db.caIndex purpose

/-- Every locked purpose has its generations, every generation belongs to one and
has its files. -/
structure Furnished (s : Store) : Prop where
  ranked : Ranked s
  notRoot : ∀ ca ∈ s.db.purposes, ca.purpose ≠ "root"
  owned : ∀ r ∈ s.db.caIndex, r.kind = kindOf r.purpose ∧ s.db.Owns r.purpose
  files : ∀ r ∈ s.db.caIndex, (s.pem r.slug).isSome = true ∧ (s.crl r.slug).isSome = true

/-- The generations `live_cas` returns belong to a CA `load_config` describes and
have the files that `refresh_crl` reads. -/
structure LiveFurnished (s : Store) : Prop where
  described : ∀ kind, ∀ g ∈ liveCas s.db s.db.loadConfig kind,
    match kind with
    | .root => g.purpose = "root"
    | .signing => (s.db.loadConfig.ca g.purpose).isSome = true
  files : ∀ kind, ∀ g ∈ liveCas s.db s.db.loadConfig kind,
    (s.pem g.slug).isSome = true ∧ (s.crl g.slug).isSome = true

variable {s t : Store}

theorem Furnished.numbered
    (h : Furnished s)
    (purpose : String)
    (howns : s.db.Owns purpose) :
    Numbered s.db.caIndex purpose :=
  h.ranked purpose (Or.inl howns)

theorem Ranked.frame
    (h : Ranked s)
    (hrows : t.db.caIndex = s.db.caIndex)
    (hpurposes : t.db.purposes = s.db.purposes) :
    Ranked t := by
  unfold Ranked Db.Owns
  rw [hrows, hpurposes]
  exact h

/-- The invariant is about the generations, the locked sections and the files
that are there. -/
theorem Furnished.frame
    (h : Furnished s)
    (hrows : t.db.caIndex = s.db.caIndex)
    (hpurposes : t.db.purposes = s.db.purposes)
    (hgrows : Grows s t) :
    Furnished t := by
  constructor
  · exact h.ranked.frame hrows hpurposes
  · rw [hpurposes]
    exact h.notRoot
  · unfold Db.Owns
    rw [hrows, hpurposes]
    exact h.owned
  · rw [hrows]
    intro r hr
    exact ⟨hgrows.pem _ (h.files r hr).1, hgrows.crl _ (h.files r hr).2⟩

/-- A lineage that a row of another purpose joins. -/
theorem NumberedTo.beside
    {rows : List CaRow}
    {purpose : String}
    {n : Nat}
    (h : NumberedTo rows purpose n)
    {row : CaRow}
    (hpurpose : row.purpose ≠ purpose) :
    NumberedTo (rows ++ [row]) purpose n := by
  constructor
  · exact h.pos
  · rw [List.filter_append, List.map_append, h.gens]
    simp [hpurpose]
  · intro r hr hlineage
    rcases List.mem_append.mp hr with hold | hnew
    · exact h.active r hold hlineage
    · rw [List.mem_singleton.mp hnew] at hlineage
      exact absurd hlineage hpurpose

/-- The lineage that a first generation founds. -/
theorem numbered_first
    {rows : List CaRow}
    {row : CaRow}
    (hgen : row.gen = 1)
    (hactive : row.status = .active)
    (h : ∀ r ∈ rows, r.purpose ≠ row.purpose) :
    Numbered (rows ++ [row]) row.purpose := by
  have hnone : (rows.filter fun r => r.purpose == row.purpose) = [] := by
    rw [List.filter_eq_nil_iff]
    intro r hr
    simpa using h r hr
  refine ⟨1, Nat.one_pos, ?_, ?_⟩
  · rw [List.filter_append, hnone]
    simp [hgen]
  · intro r hr hpurpose
    rcases List.mem_append.mp hr with hold | hnew
    · exact absurd hpurpose (h r hold)
    · rw [List.mem_singleton.mp hnew]
      simp [hgen, hactive]

/-- Every live generation is a row. -/
theorem Furnished.live
    (h : Furnished s)
    {kind : CaKind}
    {g : CaGen}
    (hg : g ∈ liveCas s.db s.db.loadConfig kind) :
    ∃ r ∈ s.db.caIndex, r.toCaGen = g ∧ r.kind = kind := by
  -- The fallbacks of `live_cas` are for lineages without a live generation.
  have hlive : ∀ purpose, s.db.Owns purpose → kindOf purpose = kind →
      (s.db.caIndex.filter fun r =>
        r.kind == kind && (r.status == .active || r.status == .retiring)).map CaRow.toCaGen
        ≠ [] := by
    intro purpose howns hkind hnil
    obtain ⟨n, hn⟩ := h.numbered purpose howns
    obtain ⟨r, hr, hpurpose, _, hactive⟩ := hn.last
    have hof := (h.owned r hr).1
    rw [hpurpose, hkind] at hof
    have hmem : r ∈ s.db.caIndex.filter fun r =>
        r.kind == kind && (r.status == .active || r.status == .retiring) :=
      List.mem_filter.mpr ⟨hr, by simp [hof, hactive]⟩
    rw [List.map_eq_nil_iff.mp hnil] at hmem
    simp at hmem
  unfold liveCas at hg
  split at hg
  · rename_i hnil
    cases kind with
    | root => exact absurd hnil (hlive "root" (Or.inl rfl) rfl)
    | signing =>
        obtain ⟨ca, hca, _⟩ := List.mem_map.mp hg
        refine absurd hnil (hlive ca.purpose (Or.inr ⟨ca, hca, rfl⟩) ?_)
        simp [kindOf, h.notRoot ca hca]
  · obtain ⟨r, hr, rfl⟩ := List.mem_map.mp hg
    obtain ⟨hrow, hboth⟩ := List.mem_filter.mp hr
    simp only [Bool.and_eq_true, beq_iff_eq] at hboth
    exact ⟨r, hrow, rfl, hboth.1⟩

/-- Every live generation can be refreshed. -/
theorem Furnished.liveFurnished
    (h : Furnished s) :
    LiveFurnished s := by
  constructor
  · intro kind g hg
    obtain ⟨r, hr, rfl, hkind⟩ := h.live hg
    obtain ⟨hof, howns⟩ := h.owned r hr
    unfold kindOf at hof
    cases kind with
    | root =>
        split at hof
        · assumption
        · rw [hof] at hkind
          simp at hkind
    | signing =>
        split at hof
        · rw [hof] at hkind
          simp at hkind
        · rename_i hroot
          rcases howns with hr' | ⟨ca, hca, hpurpose⟩
          · exact absurd hr' hroot
          · exact List.find?_isSome.mpr ⟨ca, hca, by simpa using hpurpose⟩
  · intro kind g hg
    obtain ⟨r, hr, rfl, _⟩ := h.live hg
    exact h.files r hr

end Furnished

section Founded

variable {s : Store}

theorem writeAll_crl
    {rootCert : Cert}
    {minted : List Minted}
    {slug : String}
    (h : (s.crl slug).isSome = true ∨ ∃ m ∈ minted, m.ca.slug = slug) :
    ((writeAll rootCert minted s).crl slug).isSome = true := by
  induction minted generalizing s with
  | nil =>
      rcases h with hold | ⟨m, hm, _⟩
      · exact hold
      · simp at hm
  | cons m rest ih =>
      refine ih ?_
      obtain ⟨_, _, _, _, crl, hcrl, _⟩ :=
        writeCaArtifacts_spec s m.ca.slug m.cert rootCert m.key.priv crlNextUpdateDays
      rw [hcrl]
      rcases h with hold | ⟨m', hm', hslug⟩
      · exact Or.inl (isSome_update hold)
      · rcases List.mem_cons.mp hm' with rfl | hm'
        · left
          rw [hslug, Function.update_self]
          rfl
        · exact Or.inr ⟨m', hm', hslug⟩

/-- The ceremony writes the first CRL of every CA. -/
theorem Founded.crls
    (h : Founded s) :
    (s.crl s.db.root.slug).isSome = true ∧
      ∀ ca ∈ s.db.purposes, (s.crl ca.slug).isSome = true := by
  obtain ⟨config, root, draws, tokens, now, _, hlength, _, hcreate⟩ := h
  have hconfig := create_loadConfig hcreate
  have hroot : s.db.root = config.root := congrArg Config.root hconfig
  have hcas : s.db.purposes = config.cas := congrArg Config.cas hconfig
  rw [hroot, hcas]
  obtain ⟨rootKey, s₁, minted, s₂, _, hminted, hstore⟩ := create_eq_some hcreate
  obtain ⟨_, hmintedCas, _⟩ := mintAll_spec hminted
  rw [List.map_fst_zip (by omega)] at hmintedCas
  rw [← hstore]
  constructor
  · refine writeAll_crl (Or.inl ?_)
    obtain ⟨_, _, _, _, crl, hcrl, _⟩ :=
      writeCaArtifacts_spec
        { s₂ with db := ceremonyDb config (anchor config rootKey root.serial now) rootKey minted }
        config.root.slug (anchor config rootKey root.serial now)
        (anchor config rootKey root.serial now) rootKey.priv rootCrlNextUpdateDays
    rw [hcrl, Function.update_self]
    rfl
  · intro ca hca
    rw [← hmintedCas] at hca
    obtain ⟨m, hm, rfl⟩ := List.mem_map.mp hca
    exact writeAll_crl (Or.inr ⟨m, hm, rfl⟩)

/-- The ceremony furnishes every CA. -/
theorem Founded.furnished
    (h : Founded s) :
    Furnished s := by
  have hlineal := h.lineal
  have hcrls := h.crls
  obtain ⟨config, rootCert, rootKey, minted, hloaded, hs⟩ := h.ceremony
  have hconfig : s.db.loadConfig = config := by
    rw [hs.db]
    rfl
  have hroot : s.db.root = config.root := congrArg Config.root hconfig
  have hcas : s.db.purposes = config.cas := congrArg Config.cas hconfig
  have howns : ∀ r ∈ s.db.caIndex, s.db.Owns r.purpose := by
    intro r hr
    by_cases hpurpose : r.purpose = "root"
    · exact Or.inl hpurpose
    · exact Or.inr (hlineal.declared hr hpurpose)
  constructor
  · intro purpose hknown
    have howned : s.db.Owns purpose := by
      rcases hknown with howned | ⟨r, hr, rfl⟩
      · exact howned
      · exact howns r hr
    rcases howned with rfl | ⟨ca, hca, rfl⟩
    · refine ⟨1, Nat.one_pos, ?_, ?_⟩
      · rw [hlineal.root]
        rfl
      · intro r hr hpurpose
        rw [hlineal.root_eq hr hpurpose]
        simp [Config.rootRow, configGen]
    · exact hlineal.numbered ca hca
  · exact hlineal.loaded.notRoot
  · intro r hr
    exact ⟨(hlineal.slugs r hr).1, howns r hr⟩
  · rw [hs.caIndex]
    rw [hroot, hcas] at hcrls
    intro r hr
    rcases List.mem_cons.mp hr with rfl | hr
    · exact ⟨by rw [hs.rootPem]; rfl, hcrls.1⟩
    · obtain ⟨m, hm, rfl⟩ := List.mem_map.mp hr
      refine ⟨by rw [hs.pem m hm]; rfl, hcrls.2 m.ca ?_⟩
      rw [← hs.cas]
      exact List.mem_map_of_mem hm

end Founded

section Accounts

variable {r : Rules} {p : Pid} {s t u : Store}

/-- An earlier active generation is at most the last. -/
theorem NumberedTo.active_le
    {purpose : String}
    {n : Nat}
    (h : NumberedTo t.db.caIndex purpose n)
    (hrows : u.db.Extends t.db)
    (config : Config) :
    (Ca.activeCa u.db config purpose).gen ≤ n := by
  unfold Ca.activeCa
  split
  · rename_i row hnewest
    obtain ⟨hmem, hboth⟩ := List.mem_filter.mp (mem_of_newest hnewest)
    simp only [Bool.and_eq_true, beq_iff_eq] at hboth
    obtain ⟨row', hrow', hsame, _⟩ := hrows row hmem
    have hle := (h.gen_le hrow' ((congrArg CaGen.purpose hsame).trans hboth.1)).2
    rw [← hsame]
    exact hle
  · rw [configGen_gen]
    exact h.pos

/-- A generation that was recorded and not the active one is not the last: the
last one never stopped being active. -/
theorem NumberedTo.not_last
    {victim : CaGen}
    {n : Nat}
    (h : NumberedTo t.db.caIndex victim.purpose n)
    (hrows : u.db.Extends t.db)
    (hfades : Fades u t)
    (hvictim : ∃ row ∈ u.db.caIndex, row.toCaGen = victim)
    {config : Config}
    (hne : victim.gen ≠ (Ca.activeCa u.db config victim.purpose).gen) :
    victim.gen ≠ n := by
  intro hgen
  obtain ⟨row, hrow, rfl⟩ := hvictim
  obtain ⟨last, hlast, hpurpose, hnumber, hactive⟩ := h.last
  rcases hfades last hlast hactive with hnew | ⟨row₀, hrow₀, hpurpose₀, hgen₀, hactive₀⟩
  · exact hnew row hrow hpurpose.symm (hgen.trans hnumber.symm)
  · have hmem : row₀ ∈ u.db.caIndex.filter fun r =>
        r.purpose == row.purpose && r.status == .active :=
      List.mem_filter.mpr ⟨hrow₀, by simp [hpurpose₀, hpurpose, hactive₀]⟩
    obtain ⟨top, htop⟩ := newest_isSome (fun r : CaRow => r.gen) hmem
    have hge := le_newest htop hmem
    have hle := h.active_le hrows config
    simp only [Ca.activeCa, htop] at hge hle hne
    omega

/-- What a ceremony still finds when it records its generation. -/
theorem MintAccount.recorded
    {at_ : MintTimes}
    {config : Config}
    {ca : SigningCa}
    {next : CaGen}
    {lock : Option SigningCa}
    {tx : Tx}
    (h : MintAccount (Fading r) p at_ config ca next lock t (.commit tx)) :
    ∃ cert key,
      tx = .generation next cert key lock ∧
      cert.subjectCn = next.cn ∧
      at_.signing.db.Extends t.db ∧
      Grows at_.root t ∧
      (t.pem next.slug).isSome = true ∧
      (t.crl next.slug).isSome = true := by
  obtain ⟨root, cert, hcast, ⟨_, he⟩ |
    ⟨published, listed, key, hpublished, hpem, hlisted, hcrl, hlast, he⟩⟩ := h
  · simp at he
  · obtain rfl := Event.commit.inj he
    have hdraw : Calm (Fading r) p at_.signing at_.draw :=
      Still.calm (((hcast.toNamed.trans hcast.toAnchor).trans hcast.toCheck).trans hcast.toDraw)
    have hcalm : Calm (Fading r) p at_.signing t :=
      (hdraw.trans hpublished).trans (Still.calm (hlisted.trans hlast))
    have hgrows := Mild.kept (Still.mild (hlisted.trans hlast))
    refine ⟨cert, key, rfl, hcast.subject, hcalm.fades.1, ?_, ?_, ?_⟩
    · exact Mild.kept (Machine.Since.trans (Still.mild hcast.toSigning) (Calm.mild hcalm))
    · exact hgrows.pem _ (by rw [hpem]; rfl)
    · exact (Mild.kept (Still.mild hlast)).crl _ hcrl

/-- What a revocation of a generation still finds. -/
theorem RevokeCaAccount.recorded
    {read : Store}
    {victim : CaGen}
    {cert : Cert}
    {reason : Reason}
    {at_ : Nat}
    (h : RevokeCaAccount (Fading r) p read t (.commit (.revokeCa victim cert reason at_))) :
    ∃ u config,
      u.db.Extends t.db ∧
      Fades u t ∧
      (∃ row ∈ u.db.caIndex, row.toCaGen = victim) ∧
      victim.gen ≠ (activeCa u.db config victim.purpose).gen := by
  obtain ⟨named, active, file, victim', cn, cert', reason', _, _, hnamed, htoActive, hne,
    htoFile, _, htoCommit, htx⟩ := h
  obtain ⟨rfl, rfl, rfl, rfl⟩ := Tx.revokeCa.inj (Event.commit.inj htx)
  obtain ⟨hrows, hfades⟩ := (Still.calm (htoFile.trans htoCommit)).fades
  refine ⟨active, read.db.loadConfig, hrows, hfades, ?_, hne⟩
  simp only [genByCn, Option.map_eq_some_iff] at hnamed
  obtain ⟨row, hrow, hsame⟩ := hnamed
  obtain ⟨row', hrow', hgen, _⟩ := (Still.calm htoActive).fades.1 row (List.mem_of_find?_eq_some hrow)
  exact ⟨row', hrow', hgen.trans hsame⟩

end Accounts

/-- For an addition `ensure_ca_index` records nothing. -/
def NoBackfill : Request → Event → Prop
  | .addSigningCa .., .backfill _ => False
  | _, _ => True

instance : (req : Request) → (e : Event) → Decidable (NoBackfill req e)
  | .addSigningCa .., .backfill _ => instDecidableFalse
  | .addSigningCa .., .quiet | .addSigningCa .., .begin | .addSigningCa .., .rollback
  | .addSigningCa .., .key _ | .addSigningCa .., .publish .. | .addSigningCa .., .rewrite _
  | .addSigningCa .., .commit _ => instDecidableTrue
  | .issueEe .., _ | .signCsr .., _ | .revoke .., _ | .revokeCa .., _ | .refreshCrl _, _
  | .renewSigningCa .., _ | .enroll _, _ | .getNonce _, _ => instDecidableTrue

section Steps

variable {r : Rules} {p : Pid} {s t : Store}

/-- A purpose without a first generation has none. -/
theorem Ranked.fresh
    (h : Ranked s)
    {purpose : String}
    (hfree : s.db.hasGen purpose 1 = false) :
    ∀ r ∈ s.db.caIndex, r.purpose ≠ purpose := by
  intro r hr hpurpose
  obtain ⟨n, hn⟩ := h purpose (Or.inr ⟨r, hr, hpurpose⟩)
  have hone : 1 ∈ (s.db.caIndex.filter fun r => r.purpose == purpose).map fun r => r.gen := by
    have hpos := hn.pos
    rw [hn.gens, List.mem_range'_1]
    omega
  obtain ⟨row, hrow, hgen⟩ := List.mem_map.mp hone
  obtain ⟨hrow, hof⟩ := List.mem_filter.mp hrow
  simp only [Db.hasGen, List.any_eq_false, Bool.and_eq_true, beq_iff_eq, not_and] at hfree
  exact hfree row hrow (by simpa using hof) hgen

/-- A first generation is recorded, perhaps with the section of its purpose. -/
theorem Ranked.added
    (h : Ranked s)
    (row : CaRow)
    (hgen : row.gen = 1)
    (hactive : row.status = .active)
    (hfree : s.db.hasGen row.purpose row.gen = false)
    (hrows : t.db.caIndex = s.db.caIndex ++ [row])
    (hpurposes : ∀ ca ∈ t.db.purposes, ca ∈ s.db.purposes ∨ ca.purpose = row.purpose) :
    Ranked t := by
  rw [hgen] at hfree
  intro purpose hknown
  rw [hrows] at hknown ⊢
  by_cases heq : purpose = row.purpose
  · rw [heq]
    exact numbered_first hgen hactive (h.fresh hfree)
  · have hold : s.db.Owns purpose ∨ ∃ r ∈ s.db.caIndex, r.purpose = purpose := by
      rcases hknown with (hroot | ⟨ca, hca, hpurpose⟩) | ⟨r, hr, hpurpose⟩
      · exact Or.inl (Or.inl hroot)
      · rcases hpurposes ca hca with hheld | hnew
        · exact Or.inl (Or.inr ⟨ca, hheld, hpurpose⟩)
        · exact absurd (hpurpose.symm.trans hnew) heq
      · rcases List.mem_append.mp hr with hr | hr
        · exact Or.inr ⟨r, hr, hpurpose⟩
        · rw [List.mem_singleton.mp hr] at hpurpose
          exact absurd hpurpose.symm heq
    obtain ⟨n, hn⟩ := h purpose hold
    exact ⟨n, hn.beside (Ne.symm heq)⟩

/-- The number after one that was active, where it is free, is the next. -/
theorem NumberedTo.successor
    {purpose : String}
    {n : Nat}
    (h : NumberedTo t.db.caIndex purpose n)
    (hrows : s.db.Extends t.db)
    {config : Config}
    (hfree : t.db.hasGen purpose ((Ca.activeCa s.db config purpose).gen + 1) = false) :
    (Ca.activeCa s.db config purpose).gen + 1 = n + 1 := by
  have hle := h.active_le hrows config
  by_contra hgen
  have hmem : (Ca.activeCa s.db config purpose).gen + 1 ∈
      (t.db.caIndex.filter fun r => r.purpose == purpose).map fun r => r.gen := by
    rw [h.gens, List.mem_range'_1]
    omega
  obtain ⟨row, hrow, hnumber⟩ := List.mem_map.mp hmem
  obtain ⟨hrow, hpurpose⟩ := List.mem_filter.mp hrow
  simp only [Db.hasGen, List.any_eq_false, Bool.and_eq_true, beq_iff_eq, not_and] at hfree
  exact hfree row hrow (by simpa using hpurpose) hnumber

/-- A lineage gains its next generation. -/
theorem Ranked.renewed
    (h : Ranked s)
    {next : CaGen}
    (howns : s.db.Owns next.purpose)
    (hgen : ∀ n, NumberedTo s.db.caIndex next.purpose n → next.gen = n + 1)
    (hrows : t.db.caIndex = retire s.db.caIndex next.purpose ++ [⟨next, .signing, .active⟩])
    (hpurposes : t.db.purposes = s.db.purposes) :
    Ranked t := by
  intro purpose hknown
  by_cases heq : next.purpose = purpose
  · subst heq
    obtain ⟨n, hn⟩ := h next.purpose (Or.inl howns)
    rw [hrows]
    exact ⟨n + 1, hn.renewed rfl (hgen n hn)⟩
  · have hold : s.db.Owns purpose ∨ ∃ r ∈ s.db.caIndex, r.purpose = purpose := by
      unfold Db.Owns at hknown ⊢
      rw [hpurposes, hrows] at hknown
      rcases hknown with howned | ⟨r, hr, hpurpose⟩
      · exact Or.inl howned
      · rcases List.mem_append.mp hr with hr | hr
        · obtain ⟨r₀, hr₀, hsame, _⟩ := mem_retire hr
          exact Or.inr ⟨r₀, hr₀, (congrArg CaGen.purpose hsame).symm.trans hpurpose⟩
        · rw [List.mem_singleton.mp hr] at hpurpose
          exact absurd hpurpose heq
    obtain ⟨n, hn⟩ := h purpose hold
    rw [hrows]
    exact ⟨n, hn.other heq⟩

/-- A generation that is not the last is revoked. -/
theorem Ranked.struck
    (h : Ranked s)
    {victim : CaGen}
    (hvictim : ∀ n, NumberedTo s.db.caIndex victim.purpose n → victim.gen ≠ n)
    (hrows : t.db.caIndex = strike s.db.caIndex victim)
    (hpurposes : t.db.purposes = s.db.purposes) :
    Ranked t := by
  intro purpose hknown
  have hold : s.db.Owns purpose ∨ ∃ r ∈ s.db.caIndex, r.purpose = purpose := by
    unfold Db.Owns at hknown ⊢
    rw [hpurposes, hrows] at hknown
    rcases hknown with howned | ⟨r, hr, hpurpose⟩
    · exact Or.inl howned
    · obtain ⟨r₀, hr₀, hsame, _⟩ := mem_strike hr
      exact Or.inr ⟨r₀, hr₀, (congrArg CaGen.purpose hsame).symm.trans hpurpose⟩
  obtain ⟨n, hn⟩ := h purpose hold
  rw [hrows]
  refine ⟨n, hn.struck ?_⟩
  rintro rfl
  exact hvictim n hn

theorem Ranked.commit
    {inv : Store → Prop}
    {req : Request}
    {tx : Tx}
    {db : Db}
    (h : Ranked s)
    (hdb : tx.run s.db = some db)
    (haccount : Account (Fading r) p inv req s (.commit tx)) :
    Ranked (s.apply p (.commit tx)) := by
  have hrows := caIndex_commit (p := p) hdb
  have hpurposes := purposes_commit (p := p) hdb
  cases tx with
  | generation next cert key lock =>
      have hfree : s.db.hasGen next.purpose next.gen = false := (run_generation hdb).2.1
      obtain ⟨read, ⟨file, purpose, rfl, hadd⟩ | ⟨purpose, newCn, rfl, hrenew⟩⟩ :=
        commit_cases haccount
      · obtain ⟨_, _, ca, hca, _, _, _, hmint⟩ := hadd
        obtain ⟨_, _, htx, _⟩ := hmint.recorded
        obtain ⟨rfl, rfl, rfl, rfl⟩ := Tx.generation.inj htx
        obtain rfl : ca.purpose = purpose := by simpa using List.find?_some hca
        refine h.added ⟨⟨ca.purpose, 1, ca.cn, ca.slug⟩, .signing, .active⟩ rfl rfl hfree
          hrows ?_
        intro held hheld
        rw [hpurposes] at hheld
        rcases List.mem_append.mp hheld with hheld | hheld
        · exact Or.inl hheld
        · rw [List.mem_singleton.mp hheld]
          exact Or.inr rfl
      · obtain ⟨at_, incumbent, ca, hca, hread, _, htoSigning, hmint⟩ := hrenew
        obtain ⟨_, _, htx, _, hextends, hgrowsRoot, _⟩ := hmint.recorded
        obtain ⟨rfl, rfl, rfl, rfl⟩ := Tx.generation.inj htx
        obtain rfl : ca.purpose = purpose := by simpa using List.find?_some hca
        have hlocked : ca ∈ s.db.purposes :=
          hgrowsRoot.purposes ca ((Mild.kept hread).purposes ca (List.mem_of_find?_eq_some hca))
        have hbefore : incumbent.db.Extends s.db :=
          (Still.calm htoSigning).fades.1.trans hextends
        refine h.renewed (Or.inr ⟨ca, hlocked, rfl⟩) ?_ hrows ?_
        · intro n hn
          exact hn.successor hbefore hfree
        · rw [hpurposes]
          exact List.append_nil _
  | revokeCa victim cert reason at_ =>
      obtain ⟨read, hrevoke⟩ := commit_cases haccount
      obtain ⟨u, config, hextends, hfades, hvictim, hne⟩ := hrevoke.recorded
      refine h.struck ?_ hrows (hpurposes.trans (List.append_nil _))
      intro n hn
      exact hn.not_last hextends hfades hvictim hne
  | _ => exact h.frame hrows (hpurposes.trans (List.append_nil _))

/-- Every event keeps the numbering, also what `ensure_ca_index` records. -/
theorem Ranked.event
    {inv : Store → Prop}
    {req : Request}
    {e : Event}
    (h : Ranked s)
    (hmeets : Meets r p s e)
    (haccount : Account (Fading r) p inv req s e) :
    Ranked (s.apply p e) := by
  cases e with
  | key use =>
      obtain ⟨hdb, _⟩ := apply_key_db p use s
      exact h.frame (congrArg Db.caIndex hdb) (congrArg Db.purposes hdb)
  | backfill row =>
      obtain ⟨read, _, _, purpose, _, _, _, _, _, _, _, hrow⟩ := backfill_cases haccount
      obtain rfl := Event.backfill.inj hrow
      exact h.added ⟨configGen (req.config read) purpose, kindOf purpose, .active⟩
        (configGen_gen _ _) rfl hmeets.2 rfl fun _ hca => Or.inl hca
  | publish slug issuer file => cases file <;> exact h.frame rfl rfl
  | commit tx =>
      obtain ⟨db, hdb⟩ := Option.isSome_iff_exists.mp hmeets.2.1
      exact h.commit hdb haccount
  | _ => exact h.frame rfl rfl

/-- Every purpose that is locked has its generations: there is nothing to
record. -/
theorem Furnished.no_backfill
    {req : Request}
    {row : CaRow}
    (honly : NoBackfill req (.backfill row))
    (h : Account (Fading r) p Furnished req s (.backfill row)) :
    False := by
  obtain ⟨read, missing, _, purpose, hmild, _, _, hinv, hmem, hnone, _⟩ := backfill_cases h
  have hconfig : req.config read = read.db.loadConfig := by
    cases req with
    | addSigningCa file purpose => exact honly.elim
    | _ => rfl
  rw [hconfig] at hmem
  have howns : missing.db.Owns purpose := by
    rcases List.mem_cons.mp hmem with hroot | hmem
    · exact Or.inl hroot
    · obtain ⟨ca, hca, hpurpose⟩ := List.mem_map.mp hmem
      exact Or.inr ⟨ca, (Mild.kept hmild).purposes ca hca, hpurpose⟩
  obtain ⟨n, hn⟩ := hinv.numbered purpose howns
  obtain ⟨last, hlast, hpurpose, _⟩ := hn.last
  exact hnone last hlast hpurpose

/-- A new purpose gains its first generation. -/
theorem Furnished.added
    (h : Furnished s)
    {ca : SigningCa}
    (hranked : Ranked t)
    (hroot : ca.purpose ≠ "root")
    (hfiles : (s.pem ca.slug).isSome = true ∧ (s.crl ca.slug).isSome = true)
    (hrows : t.db.caIndex =
      s.db.caIndex ++ [⟨⟨ca.purpose, 1, ca.cn, ca.slug⟩, .signing, .active⟩])
    (hpurposes : t.db.purposes = s.db.purposes ++ [ca])
    (hgrows : Grows s t) :
    Furnished t := by
  have howns : ∀ purpose, s.db.Owns purpose → t.db.Owns purpose := by
    rintro purpose (hpurpose | ⟨held, hheld, hpurpose⟩)
    · exact Or.inl hpurpose
    · exact Or.inr ⟨held, hgrows.purposes held hheld, hpurpose⟩
  have hself : t.db.Owns ca.purpose := by
    refine Or.inr ⟨ca, ?_, rfl⟩
    rw [hpurposes]
    exact List.mem_append_right _ List.mem_cons_self
  constructor
  · exact hranked
  · rw [hpurposes]
    intro held hheld
    rcases List.mem_append.mp hheld with hheld | hheld
    · exact h.notRoot held hheld
    · rw [List.mem_singleton.mp hheld]
      exact hroot
  · rw [hrows]
    intro r hr
    rcases List.mem_append.mp hr with hr | hr
    · exact ⟨(h.owned r hr).1, howns _ (h.owned r hr).2⟩
    · rw [List.mem_singleton.mp hr]
      exact ⟨by simp [kindOf, hroot], hself⟩
  · rw [hrows]
    intro r hr
    have hfile : (s.pem r.slug).isSome = true ∧ (s.crl r.slug).isSome = true := by
      rcases List.mem_append.mp hr with hr | hr
      · exact h.files r hr
      · rw [List.mem_singleton.mp hr]
        exact hfiles
    exact ⟨hgrows.pem _ hfile.1, hgrows.crl _ hfile.2⟩

/-- A lineage gains its next generation. -/
theorem Furnished.renewed
    (h : Furnished s)
    {next : CaGen}
    (hranked : Ranked t)
    (hroot : next.purpose ≠ "root")
    (howns : s.db.Owns next.purpose)
    (hfiles : (s.pem next.slug).isSome = true ∧ (s.crl next.slug).isSome = true)
    (hrows : t.db.caIndex = retire s.db.caIndex next.purpose ++ [⟨next, .signing, .active⟩])
    (hpurposes : t.db.purposes = s.db.purposes)
    (hgrows : Grows s t) :
    Furnished t := by
  -- A row is the new one, or has the generation and the kind of an old one.
  have hof : ∀ r ∈ t.db.caIndex, r = ⟨next, .signing, .active⟩ ∨
      ∃ r₀ ∈ s.db.caIndex, r.toCaGen = r₀.toCaGen ∧ r.kind = r₀.kind := by
    rw [hrows]
    intro r hr
    rcases List.mem_append.mp hr with hr | hr
    · obtain ⟨r₀, hr₀, hsame, hkind, _⟩ := mem_retire hr
      exact Or.inr ⟨r₀, hr₀, hsame, hkind⟩
    · exact Or.inl (List.mem_singleton.mp hr)
  constructor
  · exact hranked
  · rw [hpurposes]
    exact h.notRoot
  · unfold Db.Owns
    rw [hpurposes]
    intro r hr
    rcases hof r hr with rfl | ⟨r₀, hr₀, hsame, hkind⟩
    · exact ⟨by simp [kindOf, hroot], howns⟩
    · rw [hsame, hkind]
      exact h.owned r₀ hr₀
  · intro r hr
    have hfile : (s.pem r.slug).isSome = true ∧ (s.crl r.slug).isSome = true := by
      rcases hof r hr with rfl | ⟨r₀, hr₀, hsame, _⟩
      · exact hfiles
      · rw [hsame]
        exact h.files r₀ hr₀
    exact ⟨hgrows.pem _ hfile.1, hgrows.crl _ hfile.2⟩

/-- A generation that is not the last is revoked. -/
theorem Furnished.struck
    (h : Furnished s)
    {victim : CaGen}
    (hranked : Ranked t)
    (hrows : t.db.caIndex = strike s.db.caIndex victim)
    (hpurposes : t.db.purposes = s.db.purposes)
    (hgrows : Grows s t) :
    Furnished t := by
  have hof : ∀ r ∈ t.db.caIndex, ∃ r₀ ∈ s.db.caIndex,
      r.toCaGen = r₀.toCaGen ∧ r.kind = r₀.kind := by
    rw [hrows]
    intro r hr
    obtain ⟨r₀, hr₀, hsame, hkind, _⟩ := mem_strike hr
    exact ⟨r₀, hr₀, hsame, hkind⟩
  constructor
  · exact hranked
  · rw [hpurposes]
    exact h.notRoot
  · unfold Db.Owns
    rw [hpurposes]
    intro r hr
    obtain ⟨r₀, hr₀, hsame, hkind⟩ := hof r hr
    rw [hsame, hkind]
    exact h.owned r₀ hr₀
  · intro r hr
    obtain ⟨r₀, hr₀, hsame, _⟩ := hof r hr
    rw [hsame]
    exact ⟨hgrows.pem _ (h.files r₀ hr₀).1, hgrows.crl _ (h.files r₀ hr₀).2⟩

/-- What one addition records: the first generation of a purpose that was
neither locked nor had any, and its section.  `cert_index` replaces by
fingerprint. -/
structure Gained (file : Config) (purpose : String) (s t : Store) : Prop where
  unlocked : ∀ held ∈ s.db.purposes, held.purpose ≠ purpose
  fresh : ∀ r ∈ s.db.caIndex, r.purpose ≠ purpose
  rows : ∃ ca cert,
    file.ca purpose = some ca ∧
    cert.subjectCn = ca.cn ∧
    t.db.caIndex = s.db.caIndex ++ [⟨⟨purpose, 1, ca.cn, ca.slug⟩, .signing, .active⟩] ∧
    t.db.purposes = s.db.purposes ++ [ca] ∧
    t.db.certIndex = indexCert s.db.certIndex cert (.ca .signing) purpose

/-- The commit of an addition. -/
theorem Furnished.gained
    {file : Config}
    {purpose : String}
    {read : Store}
    {tx : Tx}
    {db : Db}
    (h : Furnished s)
    (hfile : file.Loaded)
    (hdb : tx.run s.db = some db)
    (hadd : AddAccount (Fading r) p file purpose read s (.commit tx)) :
    Gained file purpose s (s.apply p (.commit tx)) ∧
      ∃ ca, file.ca purpose = some ca ∧
        (s.pem ca.slug).isSome = true ∧ (s.crl ca.slug).isSome = true := by
  obtain ⟨_, _, ca, hca, _, _, _, hmint⟩ := hadd
  obtain ⟨cert, key, rfl, hsubject, _, _, hpem, hcrl⟩ := hmint.recorded
  obtain ⟨hconfig, hunlocked⟩ := run_config hdb
  have hpurpose : ca.purpose = purpose := by simpa using List.find?_some hca
  have hroot : purpose ≠ "root" := by
    rw [← hpurpose]
    exact hfile.notRoot ca (List.mem_of_find?_eq_some hca)
  have hnew : ∀ held ∈ s.db.purposes, held.purpose ≠ purpose := by
    intro held hheld
    rw [← hpurpose]
    exact hunlocked ca rfl held hheld
  refine ⟨⟨hnew, ?_, ca, cert, hca, hsubject, ?_, ?_, ?_⟩, ca, hca, hpem, hcrl⟩
  · intro r hr heq
    rcases (h.owned r hr).2 with hr' | ⟨held, hheld, hof⟩
    · exact hroot (heq.symm.trans hr')
    · exact hnew held hheld (hof.trans heq)
  · exact caIndex_commit hdb
  · rw [apply_commit p hdb]
    exact congrArg Config.cas hconfig
  · rw [apply_commit p hdb]
    exact run_certIndex hdb

theorem Furnished.commit
    {req : Request}
    {tx : Tx}
    {db : Db}
    (h : Furnished s)
    (hreq : req.Loads)
    (hdb : tx.run s.db = some db)
    (haccount : Account (Fading r) p Furnished req s (.commit tx)) :
    Furnished (s.apply p (.commit tx)) := by
  have hranked := h.ranked.commit hdb haccount
  have hgrows := grows_apply p s (.commit tx)
  have hrows := caIndex_commit (p := p) hdb
  have hpurposes := purposes_commit (p := p) hdb
  cases tx with
  | generation next cert key lock =>
      obtain ⟨read, ⟨file, purpose, rfl, hadd⟩ | ⟨purpose, newCn, rfl, hrenew⟩⟩ :=
        commit_cases haccount
      · have hfile : file.Loaded := hreq
        obtain ⟨_, ca, hca, hfiles⟩ := h.gained hfile hdb hadd
        obtain ⟨_, _, ca', hca', _, _, _, hmint⟩ := hadd
        obtain ⟨_, _, htx, _⟩ := hmint.recorded
        obtain rfl := Option.some.inj (hca.symm.trans hca')
        obtain ⟨rfl, rfl, rfl, rfl⟩ := Tx.generation.inj htx
        obtain rfl : ca.purpose = purpose := by simpa using List.find?_some hca
        exact h.added hranked (hfile.notRoot ca (List.mem_of_find?_eq_some hca)) hfiles hrows
          hpurposes hgrows
      · obtain ⟨at_, incumbent, ca, hca, hread, _, htoSigning, hmint⟩ := hrenew
        obtain ⟨_, _, htx, _, hextends, hgrowsRoot, hfiles⟩ := hmint.recorded
        obtain ⟨rfl, rfl, rfl, rfl⟩ := Tx.generation.inj htx
        obtain rfl : ca.purpose = purpose := by simpa using List.find?_some hca
        have hlocked : ca ∈ s.db.purposes :=
          hgrowsRoot.purposes ca ((Mild.kept hread).purposes ca (List.mem_of_find?_eq_some hca))
        exact h.renewed hranked (h.notRoot ca hlocked) (Or.inr ⟨ca, hlocked, rfl⟩) hfiles hrows
          (hpurposes.trans (List.append_nil _)) hgrows
  | revokeCa victim cert reason at_ =>
      exact h.struck hranked hrows (hpurposes.trans (List.append_nil _)) hgrows
  | _ => exact h.frame hrows (hpurposes.trans (List.append_nil _)) hgrows

/-- Every event keeps the invariant. -/
theorem Furnished.event
    {req : Request}
    {e : Event}
    (h : Furnished s)
    (hreq : req.Loads)
    (honly : NoBackfill req e)
    (hmeets : Meets r p s e)
    (haccount : Account (Fading r) p Furnished req s e) :
    Furnished (s.apply p e) := by
  have hgrows := grows_apply p s e
  cases e with
  | key use =>
      obtain ⟨hdb, _⟩ := apply_key_db p use s
      exact h.frame (congrArg Db.caIndex hdb) (congrArg Db.purposes hdb) hgrows
  | backfill row => exact (Furnished.no_backfill honly haccount).elim
  | publish slug issuer file => cases file <;> exact h.frame rfl rfl hgrows
  | commit tx =>
      obtain ⟨db, hdb⟩ := Option.isSome_iff_exists.mp hmeets.2.1
      exact h.commit hreq hdb haccount
  | _ => exact h.frame rfl rfl hgrows

end Steps

section Runs

/-- Runs of all commands, in any interleaving, in which `ensure_ca_index` finds
nothing to record for an addition. -/
abbrev complete : ycaCalls.Guarded :=
  machine.callPolicy start (fun _ => Request.Loads) fun req p s e =>
    Rules.free.allow p s e ∧ NoBackfill req e

variable {r : Rules} {admits : Request → Prop} {only : Request → Event → Prop}
  {inv : Store → Prop}

/-- An invariant that every event keeps, given what its call has seen. -/
theorem together_sound
    (hevent : ∀ s req p e, inv s → admits req → only req e → Meets r p s e →
      Account (Fading r) p inv req s e → inv (s.apply p e))
    (hframe : ∀ s t : Store, inv s → t.db = s.db → t.pem = s.pem → t.crl = s.crl → inv t) :
    (r.together admits only inv).Sound machine where
  refl p s := Fading.refl r p s
  trans p _ _ _ h₁ h₂ := h₁.trans h₂
  event req p s e hs hallow hmeets := by
    obtain ⟨hallow, honly⟩ := hallow
    obtain ⟨hreq, hmeets, haccount⟩ := hmeets
    refine ⟨hevent s req p e hs hreq honly hmeets haccount, ?_⟩
    intro q hq
    exact ⟨⟨interference_of_event hq hallow hmeets, grows_apply p s e⟩, fades_apply hmeets⟩
  die p s hs := by
    obtain ⟨_, hrely⟩ := (conduct_sound r).die p s trivial
    have hdb : (s.die p).db = s.db ∧ (s.die p).pem = s.pem ∧ (s.die p).crl = s.crl := by
      unfold Store.die
      split <;> exact ⟨rfl, rfl, rfl⟩
    refine ⟨hframe s _ hs hdb.1 hdb.2.1 hdb.2.2, ?_⟩
    intro q hq
    exact ⟨hrely q hq, Fades.same (congrArg Db.caIndex hdb.1)⟩
  env x s s' hs hx := by
    obtain ⟨_, hrely⟩ := (conduct_sound r).env x s s' trivial hx
    have halone : Alone s s' := alone_outside hx
    refine ⟨hframe s s' hs halone.db halone.pem halone.crl, ?_⟩
    intro q
    exact ⟨hrely q, Fades.same (congrArg Db.caIndex halone.db)⟩

/-- Every command behaves. -/
theorem together_start
    {req : Request}
    (hadmits : admits req)
    (hreq : r.Admits req)
    (p : Pid)
    (s : Store) :
    ((r.together admits only inv).of req).Safe machine p (start req) s := by
  have hsafe := Discipline.Safe.and
    (D := accounting inv (Fading r) ((r.together admits only inv).allow req) req)
    (discipline r) (fun _ _ => trivial) (fun _ _ _ h => h.shared.others) (fun _ _ _ h => h.1)
    (accounts_start inv (Fading r) _ req p s) (safe_start hreq p s)
  exact hsafe.always fun _ _ _ => hadmits

/-- Every interleaving keeps the numbering, whatever `ensure_ca_index` records. -/
theorem ranked_sound :
    (Rules.free.together Request.Loads (fun _ _ => True) Ranked).Sound machine := by
  refine together_sound ?_ ?_
  · intro s req p e hs _ _ hmeets haccount
    exact hs.event hmeets haccount
  · intro s t hs hdb _ _
    exact hs.frame (congrArg Db.caIndex hdb) (congrArg Db.purposes hdb)

theorem furnished_sound :
    (Rules.free.together Request.Loads NoBackfill Furnished).Sound machine := by
  refine together_sound ?_ ?_
  · intro s req p e hs hreq honly hmeets haccount
    exact hs.event hreq honly hmeets haccount
  · intro s t hs hdb hpem hcrl
    refine hs.frame (congrArg Db.caIndex hdb) (congrArg Db.purposes hdb) ?_
    refine ⟨congrArg Db.root hdb, ?_, ?_, ?_⟩
    · rw [hdb]
      exact fun _ h => h
    · rw [hpem]
      exact fun _ h => h
    · rw [hcrl]
      exact fun _ h => h

variable {w w' : World Store (Request × Command)}

theorem ranked_of_reachable
    (hw : (ycaCalls.system Founded).Reachable (Rules.free.calls Request.Loads) w) :
    Ranked w.shared := by
  have hreach : (ycaCalls.system Founded).Reachable
      (machine.callPolicy start (fun _ => Request.Loads)
        (Rules.free.together Request.Loads (fun _ _ => True) Ranked).allow) w := by
    refine hw.mono ?_
    intro v a hG
    cases a with
    | act p k => exact fun c hc e he => ⟨hG c hc e he, trivial⟩
    | _ => exact hG
  exact Conduct.inv_of_reachable ranked_sound (fun _ hs => hs.furnished.ranked)
    (fun req p s hreq _ => together_start hreq (Rules.free_admits req) p s) hreach

theorem furnished_of_reachable
    (hw : (ycaCalls.system Founded).Reachable complete w) :
    Furnished w.shared :=
  Conduct.inv_of_reachable (C := Rules.free.together Request.Loads NoBackfill Furnished)
    furnished_sound (fun _ hs => hs.furnished)
    (fun req p s hreq _ => together_start hreq (Rules.free_admits req) p s) hw

theorem furnished_emitted
    (hw : (ycaCalls.system Founded).Reachable complete w)
    {p : Pid}
    {req : Request}
    {e : Event}
    (he : machine.Emits start complete w p req e w') :
    NoBackfill req e ∧ req.Loads ∧ Meets Rules.free p w.shared e ∧
      Account (Fading Rules.free) p Furnished req w.shared e := by
  obtain ⟨⟨_, honly⟩, hreq, hmeets, haccount⟩ :=
    Conduct.emitted (C := Rules.free.together Request.Loads NoBackfill Furnished)
      furnished_sound (fun _ hs => hs.furnished)
      (fun req p s hreq _ => together_start hreq (Rules.free_admits req) p s) hw he
  exact ⟨honly, hreq, hmeets, haccount⟩

end Runs

section Calls

/-- Nothing starts, and of the processes only `p` acts. -/
def OnlyActs (p : Pid) : Action Choice Request Outside → Prop
  | .spawn .. => False
  | .act q _ => q = p
  | _ => True

instance (p : Pid) (a : Action Choice Request Outside) : Decidable (OnlyActs p a) := by
  unfold OnlyActs
  split <;> infer_instance

/-- The rows of `ca_cert_index`, the purposes and `cert_index` are as they
were. -/
structure Untouched (s t : Store) : Prop where
  caIndex : t.db.caIndex = s.db.caIndex
  purposes : t.db.purposes = s.db.purposes
  certIndex : t.db.certIndex = s.db.certIndex

/-- What an ended addition did since `s`.  It reported success exactly if its
transaction went through. -/
def Settled (file : Config) (purpose : String) (s t : Store) : Prop :=
  ∃ new, t.log = new ++ s.log ∧
    (((∀ tx, Event.commit tx ∉ new) ∧ Untouched s t) ∨
      ((∃ tx, Event.commit tx ∈ new) ∧ Gained file purpose s t))

variable {s t u : Store} {file : Config} {purpose : String}

theorem Untouched.trans
    (h₁ : Untouched s t)
    (h₂ : Untouched t u) :
    Untouched s u :=
  ⟨h₂.caIndex.trans h₁.caIndex, h₂.purposes.trans h₁.purposes, h₂.certIndex.trans h₁.certIndex⟩

theorem Untouched.of_db
    (h : t.db = s.db) :
    Untouched s t :=
  ⟨congrArg Db.caIndex h, congrArg Db.purposes h, congrArg Db.certIndex h⟩

theorem Gained.after
    (hsame : Untouched s t)
    (h : Gained file purpose t u) :
    Gained file purpose s u := by
  obtain ⟨hca, hpurposes, hindex⟩ := hsame
  obtain ⟨hunlocked, hfresh, hrows⟩ := h
  rw [hpurposes] at hunlocked
  rw [hca] at hfresh
  rw [hca, hpurposes, hindex] at hrows
  exact ⟨hunlocked, hfresh, hrows⟩

theorem Gained.before
    (h : Gained file purpose s t)
    (hsame : Untouched t u) :
    Gained file purpose s u := by
  obtain ⟨hca, hpurposes, hindex⟩ := hsame
  obtain ⟨hunlocked, hfresh, hrows⟩ := h
  rw [← hca, ← hpurposes, ← hindex] at hrows
  exact ⟨hunlocked, hfresh, hrows⟩

/-- Where an addition stands: it has touched nothing, or it has committed and
ended. -/
def Underway
    (p : Pid)
    (file : Config)
    (purpose : String)
    (s : Store)
    (w : World Store (Request × Command)) : Prop :=
  ∃ new, w.shared.log = new ++ s.log ∧
    (((∀ tx, Event.commit tx ∉ new) ∧ Untouched s w.shared ∧
        ∀ c ∈ w.procs p, c.1 = .addSigningCa file purpose) ∨
      ((∃ tx, Event.commit tx ∈ new) ∧ Gained file purpose s w.shared ∧ w.procs p = none))

/-- What changes neither the tables nor the log, nor starts a process. -/
theorem Underway.still
    {p : Pid}
    {w w' : World Store (Request × Command)}
    (h : Underway p file purpose s w)
    (hlog : w'.shared.log = w.shared.log)
    (hdb : w'.shared.db = w.shared.db)
    (hprocs : w'.procs p = none ∨ w'.procs p = w.procs p) :
    Underway p file purpose s w' := by
  obtain ⟨new, hnew, ⟨hcommit, hsame, hrunning⟩ | ⟨hcommit, hgained, hended⟩⟩ := h
  · refine ⟨new, hlog.trans hnew, Or.inl ⟨hcommit, hsame.trans (Untouched.of_db hdb), ?_⟩⟩
    rcases hprocs with hnone | hkept
    · rw [hnone]
      simp
    · rw [hkept]
      exact hrunning
  · refine ⟨new, hlog.trans hnew, Or.inr ⟨hcommit, hgained.before (Untouched.of_db hdb), ?_⟩⟩
    rcases hprocs with hnone | hkept
    · exact hnone
    · exact hkept.trans hended

/-- An event that neither commits nor backfills touches nothing. -/
theorem apply_untouched
    {p : Pid}
    {e : Event}
    (hcommit : ∀ tx, e ≠ .commit tx)
    (hback : ∀ row, e ≠ .backfill row) :
    (s.apply p e).db = s.db ∧ ∃ new, (s.apply p e).log = new ++ s.log ∧
      ∀ tx, Event.commit tx ∉ new := by
  cases e with
  | quiet => exact ⟨rfl, [], rfl, by simp⟩
  | key use => exact ⟨(apply_key_db p use s).1, [.key use], rfl, by simp⟩
  | publish slug issuer file =>
      refine ⟨?_, [.publish slug issuer file], rfl, by simp⟩
      cases file <;> rfl
  | commit tx => exact absurd rfl (hcommit tx)
  | backfill row => exact absurd rfl (hback row)
  | begin => exact ⟨rfl, [.begin], rfl, by simp⟩
  | rollback => exact ⟨rfl, [.rollback], rfl, by simp⟩
  | rewrite w => exact ⟨rfl, [.rewrite w], rfl, by simp⟩

/-- The next step of an addition. -/
theorem Underway.act
    {p : Pid}
    {k : Choice}
    {w w' : World Store (Request × Command)}
    (h : Underway p file purpose s w)
    (hw : (ycaCalls.system Founded).Reachable complete w)
    (hG : complete w (.act p k))
    (hx : ycaCalls.exec w (.act p k) = some w') :
    Underway p file purpose s w' := by
  obtain ⟨new, hnew, ⟨hcommit, hsame, hrunning⟩ | ⟨_, _, hended⟩⟩ := h
  · obtain ⟨⟨req, l⟩, _, _, hl, _, _⟩ := Program.exec_act hx
    obtain rfl : req = .addSigningCa file purpose := hrunning _ hl
    obtain ⟨e, he⟩ := Machine.Emits.of_exec (by rw [hl]; rfl) hG hx
    obtain ⟨honly, hfile, hmeets, haccount⟩ := furnished_emitted hw he
    have hshared : w'.shared = w.shared.apply p e := he.shared
    by_cases hcommits : ∃ tx, e = .commit tx
    · obtain ⟨tx, rfl⟩ := hcommits
      obtain ⟨db, hdb⟩ := Option.isSome_iff_exists.mp hmeets.2.1
      have hadd : ∃ read, AddAccount (Fading Rules.free) p file purpose read w.shared
          (.commit tx) := by
        rcases haccount with hplain | ⟨read, hback | hadd⟩
        · simp [Event.plain] at hplain
        · exact absurd hback BackfillAccount.not_commit
        · exact ⟨read, hadd⟩
      obtain ⟨read, hadd⟩ := hadd
      have hgained := ((furnished_of_reachable hw).gained hfile hdb hadd).1
      refine ⟨.commit tx :: new, ?_, Or.inr ⟨⟨tx, List.mem_cons_self⟩, ?_, ?_⟩⟩
      · rw [hshared, List.cons_append, ← hnew]
        rfl
      · rw [hshared]
        exact hgained.after hsame
      · exact Machine.ended_of_emits ends_start hw he rfl
    · have hback : ∀ row, e ≠ .backfill row := by
        rintro row rfl
        exact honly
      obtain ⟨hdb, one, hone, hnone⟩ := apply_untouched (s := w.shared) (p := p)
        (fun tx htx => hcommits ⟨tx, htx⟩) hback
      refine ⟨one ++ new, ?_, Or.inl ⟨?_, ?_, ?_⟩⟩
      · rw [hshared, hone, hnew, List.append_assoc]
      · intro tx htx
        rcases List.mem_append.mp htx with htx | htx
        · exact hnone tx htx
        · exact hcommit tx htx
      · rw [hshared]
        exact hsame.trans (Untouched.of_db hdb)
      · obtain ⟨r', ready, emit, next, hl', _, rfl⟩ := Machine.act_calls hx
        obtain ⟨rfl, rfl⟩ := Prod.mk.inj (Option.some.inj (hl.symm.trans hl'))
        intro c hc
        rw [World.put_procs_self] at hc
        obtain ⟨m, _, rfl⟩ := Option.map_eq_some_iff.mp hc
        rfl
  · obtain ⟨_, _, _, hl, _⟩ := Program.exec_act hx
    rw [hended] at hl
    simp at hl

/-- An addition that nobody works beside. -/
theorem settled_of_run
    {p : Pid}
    {w₀ w₁ w₂ : World Store (Request × Command)}
    {as : List (Action Choice Request Outside)}
    (hw : (ycaCalls.system Founded).Reachable complete w₀)
    (hfile : file.Loaded)
    (hspawn : ycaCalls.exec w₀ (.spawn p (.addSigningCa file purpose)) = some w₁)
    (hrun : (ycaCalls.system Founded).Run (fun w a => complete w a ∧ OnlyActs p a) w₁ as w₂)
    (hended : w₂.procs p = none) :
    Settled file purpose w₀.shared w₂.shared := by
  have hadmits : complete w₀ (.spawn p (.addSigningCa file purpose)) := hfile
  have hstart : (ycaCalls.system Founded).Reachable complete w₁ := hw.step hadmits hspawn
  have hunderway : Underway p file purpose w₀.shared w₁ := by
    obtain ⟨_, rfl⟩ := Program.exec_spawn hspawn
    refine ⟨[], rfl, Or.inl ⟨by simp, Untouched.of_db rfl, ?_⟩⟩
    intro c hc
    rw [World.put_procs_self] at hc
    obtain rfl := Option.some.inj hc
    rfl
  have hend : (ycaCalls.system Founded).Reachable complete w₂ ∧
      Underway p file purpose w₀.shared w₂ := by
    refine hrun.invariant (I := fun w => (ycaCalls.system Founded).Reachable complete w ∧
      Underway p file purpose w₀.shared w) ?_ ⟨hstart, hunderway⟩
    rintro w a w' ⟨hw, hunderway⟩ ⟨hG, honly⟩ hx
    refine ⟨hw.step hG hx, ?_⟩
    cases a with
    | spawn q req => exact honly.elim
    | act q k =>
        obtain rfl : q = p := honly
        exact hunderway.act hw hG hx
    | crash q =>
        obtain ⟨c, _, rfl⟩ := Program.exec_crash hx
        have hdie : (w.shared.die q).log = w.shared.log ∧
            (w.shared.die q).db = w.shared.db := by
          unfold Store.die
          split <;> exact ⟨rfl, rfl⟩
        refine hunderway.still hdie.1 hdie.2 ?_
        by_cases hqp : p = q
        · subst hqp
          exact Or.inl (World.put_procs_self w _ _ _)
        · exact Or.inr (World.put_procs_of_ne w _ hqp _)
    | env o =>
        obtain ⟨s', hs', rfl⟩ := Program.exec_env hx
        have halone : Alone w.shared s' := alone_outside hs'
        exact hunderway.still halone.log halone.db (Or.inr rfl)
  obtain ⟨_, new, hnew, ⟨hcommit, hsame, _⟩ | ⟨hcommit, hgained, _⟩⟩ := hend
  · exact ⟨new, hnew, Or.inl ⟨hcommit, hsame⟩⟩
  · exact ⟨new, hnew, Or.inr ⟨hcommit, hgained⟩⟩

/-- A generation recorded for a purpose that is not locked cannot be
refreshed. -/
theorem not_live_of_backfill
    {w w' : World Store (Request × Command)}
    {p : Pid}
    {req : Request}
    {row : CaRow}
    (hw : (ycaCalls.system Founded).Reachable complete w)
    (he : machine.Emits start (Rules.free.calls Request.Loads) w p req (.backfill row) w') :
    ¬ LiveFurnished w'.shared := by
  have hfree : (ycaCalls.system Founded).Reachable (Rules.free.calls Request.Loads) w := by
    refine hw.mono ?_
    intro v a hG
    cases a with
    | spawn q req => exact hG
    | act q k =>
        intro c hc e he
        exact (hG c hc e he).1
    | _ => trivial
  obtain ⟨_, ⟨_, hnew⟩, haccount⟩ := call_emitted (fun req _ => Rules.free_admits req) hfree he
  obtain ⟨read, _, _, purpose, _, _, _, _, _, _, _, hrow⟩ := backfill_cases haccount
  obtain rfl := Event.backfill.inj hrow
  have hfurnished := furnished_of_reachable hw
  have hunowned : ¬ w.shared.db.Owns purpose := by
    intro howns
    obtain ⟨n, hn⟩ := hfurnished.numbered purpose howns
    have hone : 1 ∈ (w.shared.db.caIndex.filter fun r => r.purpose == purpose).map
        fun r => r.gen := by
      rw [hn.gens, List.mem_range'_1]
      have hpos := hn.pos
      omega
    obtain ⟨r, hr, hgen⟩ := List.mem_map.mp hone
    obtain ⟨hr, hpurpose⟩ := List.mem_filter.mp hr
    simp only [Db.hasGen, List.any_eq_false, Bool.and_eq_true, beq_iff_eq, not_and,
      configGen_purpose, configGen_gen] at hnew
    exact hnew r hr (by simpa using hpurpose) hgen
  have hkind : kindOf purpose = .signing := by
    unfold kindOf
    split
    · rename_i hroot
      exact absurd (Or.inl hroot) hunowned
    · rfl
  intro hlive
  have hmem : configGen (req.config read) purpose ∈
      liveCas w'.shared.db w'.shared.db.loadConfig .signing := by
    have hin : configGen (req.config read) purpose ∈ (w'.shared.db.caIndex.filter fun r =>
        r.kind == .signing && (r.status == .active || r.status == .retiring)).map
          CaRow.toCaGen := by
      refine List.mem_map.mpr ⟨⟨configGen (req.config read) purpose, kindOf purpose, .active⟩,
        List.mem_filter.mpr ⟨?_, ?_⟩, rfl⟩
      · rw [he.shared]
        exact List.mem_append_right _ List.mem_cons_self
      · simp [hkind]
    unfold liveCas
    split
    · rename_i hnil
      rw [hnil] at hin
      simp at hin
    · exact hin
  have hdescribed := hlive.described .signing _ hmem
  rw [configGen_purpose] at hdescribed
  obtain ⟨ca, hca, hpurpose⟩ := List.find?_isSome.mp hdescribed
  rw [he.shared] at hca
  exact hunowned (Or.inr ⟨ca, hca, by simpa using hpurpose⟩)

/-- As long as `ensure_ca_index` finds nothing to record for an addition, every
live generation can be refreshed, and an addition that nobody works beside
records one first generation or, when it fails, nothing; and the first thing it
does find leaves a live generation that cannot be refreshed. -/
theorem additions_settled (w : World Store (Request × Command)) :
    ((ycaCalls.system Founded).Reachable complete w → LiveFurnished w.shared) ∧
    (∀ w₁ w₂ p file purpose as,
      (ycaCalls.system Founded).Reachable complete w →
      file.Loaded →
      ycaCalls.exec w (.spawn p (.addSigningCa file purpose)) = some w₁ →
      (ycaCalls.system Founded).Run (fun w a => complete w a ∧ OnlyActs p a) w₁ as w₂ →
      w₂.procs p = none →
      Settled file purpose w.shared w₂.shared) ∧
    ∀ w' p req e,
      (ycaCalls.system Founded).Reachable complete w →
      machine.Emits start (Rules.free.calls Request.Loads) w p req e w' →
      (LiveFurnished w'.shared ↔ NoBackfill req e) := by
  refine ⟨fun hw => (furnished_of_reachable hw).liveFurnished, ?_, ?_⟩
  · intro w₁ w₂ p file purpose as hw hfile hspawn hrun hended
    exact settled_of_run hw hfile hspawn hrun hended
  · intro w' p req e hw he
    constructor
    · intro hlive
      unfold NoBackfill
      split
      · exact not_live_of_backfill hw he hlive
      · trivial
    · intro honly
      have hstep : ∃ k, complete w (.act p k) ∧ ycaCalls.exec w (.act p k) = some w' := by
        obtain ⟨k, l, hl, hevent, _, hx⟩ := he
        refine ⟨k, ?_, hx⟩
        intro c hc e' he'
        obtain rfl := Option.some.inj (hl.symm.trans hc)
        obtain rfl := Option.some.inj (hevent.symm.trans he')
        exact ⟨Rules.free_allow p w.shared e, honly⟩
      obtain ⟨k, hG, hx⟩ := hstep
      exact (furnished_of_reachable (hw.step hG hx)).liveFurnished

/-- `[ca.vpn]` joins the sample. -/
theorem additions_settled_sample :
    ∃ w : World Store (Request × Command),
      w.shared.db.purposes.map SigningCa.purpose = ["tls", "vpn"] ∧
        Settled { sampleConfig with cas := [tlsSection [.server], vpnSection [.client]] } "vpn"
          tlsStore w.shared ∧
        LiveFurnished w.shared := by
  let file : Config := { sampleConfig with cas := [tlsSection [.server], vpnSection [.client]] }
  let request : Request := .addSigningCa file "vpn"
  let begun : World Store (Request × Command) :=
    (World.idle tlsStore).put tlsStore 1 (some (request, start request))
  have h :
      ((ycaCalls.system Founded).follow (fun w a => complete w a ∧ OnlyActs 1 a) begun
        (acts 1 19 (sampleChoice 34))).any
        (fun w => (w.procs 1).isNone &&
          w.shared.db.purposes.map SigningCa.purpose == ["tls", "vpn"]) = true := by
    decide
  obtain ⟨w, hrun, hcheck⟩ := Automaton.Run.exists_of_follow h
  rw [Bool.and_eq_true, Option.isNone_iff_eq_none, beq_iff_eq] at hcheck
  have hstart : (ycaCalls.system Founded).Reachable complete (World.idle tlsStore) :=
    Automaton.Reachable.of_init ⟨tlsStore_founded, World.idle_quiet _⟩
  have hfile : file.Loaded := by decide
  have hbegun : (ycaCalls.system Founded).Reachable complete begun := by
    refine Automaton.Reachable.step (k := .spawn 1 request) hstart ?_ rfl
    exact hfile
  refine ⟨w, hcheck.2, ?_, ?_⟩
  · exact (additions_settled (World.idle tlsStore)).2.1 begun w 1 file "vpn" _ hstart hfile rfl
      hrun hcheck.1
  · exact (additions_settled w).1 (hbegun.run (hrun.mono fun _ _ hG => hG.1))

/-- The file renames `tls`, as it is locked, and gives its name to the section
it adds: that section's generation is recorded, and then its name is taken. -/
theorem additions_unsettled :
    ¬ ∀ w₀ w₁ w₂ p file purpose as,
      (ycaCalls.system Founded).Reachable (Rules.free.calls Request.Loads) w₀ →
      file.Loaded →
      ycaCalls.exec w₀ (.spawn p (.addSigningCa file purpose)) = some w₁ →
      (ycaCalls.system Founded).Run
        (fun w a => Rules.free.calls Request.Loads w a ∧ OnlyActs p a) w₁ as w₂ →
      w₂.procs p = none →
      Settled file purpose w₀.shared w₂.shared ∧ LiveFurnished w₂.shared := by
  intro hall
  let renamed : SigningCa := { tlsSection [.server] with cn := "CA E9" }
  let added : SigningCa := { vpnSection [.client] with cn := "CA E1" }
  let file : Config := { sampleConfig with cas := [renamed, added] }
  let request : Request := .addSigningCa file "vpn"
  let begun : World Store (Request × Command) :=
    (World.idle tlsStore).put tlsStore 1 (some (request, start request))
  have h :
      ((ycaCalls.system Founded).follow
        (fun w a => Rules.free.calls Request.Loads w a ∧ OnlyActs 1 a) begun
        (acts 1 9 (sampleChoice 34))).any
        (fun w => (w.procs 1).isNone && w.shared.db.purposes.length == 1 &&
          w.shared.db.caIndex.length == 3) = true := by
    decide
  obtain ⟨w, hrun, hcheck⟩ := Automaton.Run.exists_of_follow h
  simp only [Bool.and_eq_true, Option.isNone_iff_eq_none, beq_iff_eq] at hcheck
  have hstart : (ycaCalls.system Founded).Reachable (Rules.free.calls Request.Loads)
      (World.idle tlsStore) :=
    Automaton.Reachable.of_init ⟨tlsStore_founded, World.idle_quiet _⟩
  obtain ⟨⟨_, _, ⟨_, hsame⟩ | ⟨_, hgained⟩⟩, _⟩ :=
    hall (World.idle tlsStore) begun w 1 file "vpn" _ hstart (by decide) rfl hrun hcheck.1.1
  · have hrows : w.shared.db.caIndex.length = 2 := by
      rw [hsame.caIndex]
      decide
    omega
  · obtain ⟨_, _, ca, _, _, _, _, hpurposes, _⟩ := hgained
    have hlength : w.shared.db.purposes.length = 1 + 1 := by
      rw [hpurposes, List.length_append]
      rfl
    omega

end Calls

end Ca
end Yca
