import Yca.Cfg.Reload
import Yca.Cfg.Validity

/-!
# What prints as a file that loads

The configuration of the store is one that was loaded, with its texts cut at their
first NUL.  `Reprints` says what such a configuration needs for the file that
`get config` prints to load as the same configuration, `printed_config_loads_iff`.
-/

namespace Yca
namespace Cfg

open Yca.Core
open Yca.Core.Toml
open Acme (byteLen isDigit)
open Ca (isAlnum)

section Cut

variable {oidText : String → Option String} {c : Config}

/-- The fields of every CA, the root first. -/
def Config.fields (c : Config) : List CaFields :=
  c.root :: c.cas.values.map SigningCa.toCaFields

/-- Texts that are cut at a NUL are still texts, and still tell the CAs apart. -/
structure Intact (c : Config) : Prop where
  orgName : c.pki.orgName ≠ ""
  module : c.anyToken = true → c.pkcs11.module ≠ ""
  cns : ∀ ca ∈ c.fields, ca.cn ≠ ""
  labels : ∀ ca ∈ c.fields, ca.onToken = true → ca.tokenLabel ≠ ""
  apart : (c.fields.map fun ca => ca.cn).Nodup

theorem dbText_empty :
    dbText "" = "" := by
  decide

theorem byteLen_dbText (s : String) :
    byteLen (dbText s).toList ≤ byteLen s.toList := by
  rw [dbText, String.toList_ofList]
  induction s.toList with
  | nil => exact Nat.le_refl _
  | cons a rest ih =>
      rw [List.takeWhile_cons]
      split
      · simpa [byteLen] using ih
      · exact Nat.zero_le _

theorem CaFields.Labelled.stored
    {ca : CaFields}
    (h : ca.Labelled)
    (hlabel : ca.onToken = true → dbText ca.tokenLabel ≠ "") :
    ca.stored.Labelled := by
  have htoken : ca.stored.onToken = ca.onToken := rfl
  unfold CaFields.Labelled at h ⊢
  rw [htoken]
  split_ifs at h ⊢ with hon
  · exact ⟨hlabel hon, (byteLen_dbText ca.tokenLabel).trans h.2⟩
  · rw [CaFields.stored, h, dbText_empty]

/-- Claims that differ kind by kind do not clash. -/
theorem claimErrors_of_nodup
    {l : List Claim}
    (h : ∀ what, ((l.filter fun a => a.what == what).map Claim.value).Nodup) :
    claimErrors [] l = [] := by
  rw [claimErrors_eq_nil]
  refine ⟨by simp, ?_⟩
  induction l with
  | nil => exact List.Pairwise.nil
  | cons a rest ih =>
      refine List.pairwise_cons.mpr ⟨fun b hb => ?_, ih fun what => ?_⟩
      · by_contra hclash
        rw [Bool.not_eq_false] at hclash
        simp only [Claim.clashes, Bool.and_eq_true, beq_iff_eq] at hclash
        obtain ⟨⟨hwhat, hvalue⟩, _⟩ := hclash
        have hnodup := h a.what
        rw [List.filter_cons_of_pos (by simp), List.map_cons, List.nodup_cons] at hnodup
        refine hnodup.1 ?_
        rw [hvalue]
        exact List.mem_map_of_mem (List.mem_filter.mpr ⟨hb, by simp [hwhat]⟩)
      · have hwhole := h what
        rw [List.filter_cons] at hwhole
        split at hwhole
        · exact (List.nodup_cons.mp hwhole).2
        · exact hwhole

@[simp] theorem Config.stored_values (c : Config) :
    c.stored.cas.values = c.cas.values.map SigningCa.stored := by
  simp [Config.stored, OrderedMap.values, OrderedMap.mapValues]

@[simp] theorem Config.stored_anyToken (c : Config) :
    c.stored.anyToken = c.anyToken := by
  unfold Config.anyToken
  simp only [Config.stored, OrderedMap.mapValues, List.any_map]
  rfl

theorem Config.stored_digits (c : Config) :
    digitErrors c.stored = digitErrors c := by
  have hslugs : c.stored.slugs = c.slugs := by
    unfold Config.slugs
    refine congrArg OrderedMap.ofEntries ?_
    simp only [Config.claims, Config.stored, OrderedMap.mapValues, SigningCa.claims,
      List.flatMap_map, List.filter_cons, List.filter_flatMap]
    rfl
  unfold digitErrors
  rw [hslugs]

/-- What the sections claim, names apart, is not cut. -/
theorem Config.Accepted.stored_claims
    (h : c.Accepted oidText)
    (hapart : (c.stored.fields.map fun ca => ca.cn).Nodup)
    (what : What) :
    (c.stored.claimed what).Nodup := by
  rw [Config.claimed_eq, Config.stored_values]
  cases what with
  | slugPrefix =>
      rw [List.map_map]
      exact h.prefixes_nodup
  | cn =>
      simpa [Config.fields, Function.comp_def] using hapart
  | profile =>
      rw [List.flatMap_map]
      have hprofiles : (c.claimed .profile).Nodup := Config.claimed_nodup h.claims (Or.inl rfl)
      rw [Config.claimed_eq] at hprofiles
      exact hprofiles

theorem Config.Accepted.stored_backends
    (h : c.Accepted oidText)
    (hmodule : c.anyToken = true → c.stored.pkcs11.module ≠ "") :
    backendErrors c.stored = [] := by
  have hbackends := h.backends
  have hsettings := h.token_settings
  simp only [backendErrors, List.append_eq_nil_iff, List.flatMap_eq_nil_iff, require_eq_nil,
    Config.stored_anyToken] at hbackends ⊢
  refine ⟨⟨?_, fun hset => hmodule hset.1 hset.2⟩, ?_⟩
  · intro e he
    obtain ⟨e₀, he₀, rfl⟩ := List.mem_map.mp he
    exact hbackends.1.1 e₀ he₀
  · rintro ⟨htoken, hset⟩
    rw [htoken] at hsettings
    simp [Config.stored, show c.pkcs11 = ⟨"", ""⟩ from hsettings, dbText_empty] at hset

/-- A configuration whose texts survive the store is still one that loads. -/
theorem Config.Accepted.stored
    (h : c.Accepted oidText)
    (hintact : Intact c.stored) :
    c.stored.Accepted oidText := by
  have hfield {ca : SigningCa} (hca : ca ∈ c.cas.values) :
      ca.stored.toCaFields ∈ c.stored.fields := by
    refine List.mem_cons_of_mem _ (List.mem_map_of_mem ?_)
    rw [Config.stored_values]
    exact List.mem_map_of_mem hca
  have hroot : c.root.stored ∈ c.stored.fields := List.mem_cons_self
  have hfind {purpose : String} {ca : SigningCa} (hca : c.stored.cas.find? purpose = some ca) :
      ∃ ca₀, c.cas.find? purpose = some ca₀ ∧ ca₀ ∈ c.cas.values ∧ ca₀.stored = ca := by
    rw [Config.stored, OrderedMap.find?_mapValues, Option.map_eq_some_iff] at hca
    obtain ⟨ca₀, hca₀, rfl⟩ := hca
    exact ⟨ca₀, hca₀, List.mem_map_of_mem (OrderedMap.mem_entries_iff.mpr hca₀), rfl⟩
  constructor
  · exact hintact.orgName
  · exact h.countryCode
  · exact h.repositoryHost
  · exact { h.root with cn := hintact.cns _ hroot }
  · intro purpose ca hca
    obtain ⟨ca₀, hca₀, hmem, rfl⟩ := hfind hca
    obtain ⟨hpurpose, hvalid⟩ := h.cas purpose ca₀ hca₀
    exact ⟨hpurpose, { hvalid with cn := hintact.cns _ (hfield hmem) }⟩
  · exact claimErrors_of_nodup (h.stored_claims hintact.apart)
  · rw [Config.stored_digits]
    exact h.digits
  · refine h.stored_backends fun htoken => hintact.module ?_
    rw [Config.stored_anyToken, htoken]
  · exact h.rootLabel.stored fun hon => hintact.labels _ hroot hon
  · intro purpose ca hca
    obtain ⟨ca₀, hca₀, hmem, rfl⟩ := hfind hca
    exact (h.labels purpose ca₀ hca₀).stored fun hon => hintact.labels _ (hfield hmem) hon

end Cut

section PlainEntries

variable {oidText : String → Option String} {rootDays : Int}

theorem plain_iff {s : String} :
    Plain s ↔ ∀ c ∈ s.toList, plainChar c = true := by
  rw [Plain, List.all_eq_true]

theorem oneLine_of_plain
    {s : String}
    (h : Plain s) :
    OneLine s := by
  rw [OneLine, List.all_eq_true]
  intro c hc
  have hchar := plain_iff.mp h c hc
  simp only [plainChar, Bool.and_eq_true] at hchar
  exact hchar.2

theorem plain_text
    {key s : String}
    (hkey : BareKey key)
    (hs : Plain s) :
    (Entry.mk key (.text s) none).Plain :=
  ⟨hkey, hs, by simp⟩

theorem plain_number
    {key : String}
    (hkey : BareKey key)
    {n : Int}
    (hpos : 0 < n)
    (hlt : n < 2 ^ 31) :
    (Entry.mk key (.number n) none).Plain := by
  refine ⟨hkey, ⟨?_, ?_⟩, by simp⟩
  · omega
  · omega

theorem plain_texts
    {key : String}
    (hkey : BareKey key)
    {l : List String}
    (hl : ∀ s ∈ l, Word s ∧ s ≠ "") :
    (Entry.mk key (.texts l) none).Plain :=
  ⟨hkey, fun s hs => (hl s hs).1.plain, by simp⟩

/-- All that is printed of a CA is plain, its free texts apart. -/
theorem caEntries_cases
    {ca : CaFields}
    (h : ca.Valid)
    {e : Entry}
    (he : e ∈ caEntries ca.stored) :
    e.Plain ∨ e = ⟨"cn", .text ca.stored.cn, none⟩ ∨
      (ca.stored.onToken = true ∧ e = ⟨"token_label", .text ca.stored.tokenLabel, none⟩) := by
  have hslug : Plain ("slug: " ++ ca.slug) := by
    rw [plain_iff]
    intro c hc
    rw [String.toList_append] at hc
    rcases List.mem_append.mp hc with hc | hc
    · exact plain_iff.mp (show Plain "slug: " by decide) c hc
    · exact plain_iff.mp (slug_word h).plain c hc
  simp only [caEntries, List.mem_append, List.mem_cons, List.not_mem_nil, or_false,
    List.mem_ite_nil_right] at he
  rcases he with (rfl | rfl | rfl | rfl | rfl | rfl) | ⟨htoken, rfl⟩
  · exact Or.inr (Or.inl rfl)
  · exact Or.inl (plain_text (by decide) (word_of_mem_curves h.curve).plain)
  · exact Or.inl (plain_text (by decide) (word_of_mem_digests h.digest).plain)
  · exact Or.inl (plain_number (by decide) h.validDays.1 h.validDays.2)
  · refine Or.inl ⟨show BareKey "slug_prefix" by decide, (word_of_slug h.slugPrefix.2).plain, ?_⟩
    rintro _ ⟨⟩
    exact oneLine_of_plain hslug
  · exact Or.inl (plain_text (by decide) (backend_word h).plain)
  · exact Or.inr (Or.inr ⟨htoken, rfl⟩)

theorem plain_caEntries
    {ca : CaFields}
    (h : ca.Valid)
    (hfree : ∀ s ∈ ca.stored.freeTexts, Plain s) :
    ∀ e ∈ caEntries ca.stored, e.Plain := by
  intro e he
  rcases caEntries_cases h he with hplain | rfl | ⟨_, rfl⟩
  · exact hplain
  · exact plain_text (by decide) (hfree _ List.mem_cons_self)
  · exact plain_text (by decide) (hfree _ (List.mem_cons_of_mem _ List.mem_cons_self))

theorem pkiEntries_cases
    {c : Config}
    (h : c.Accepted oidText)
    {e : Entry}
    (he : e ∈ (pkiSection c.stored).entries) :
    e.Plain ∨ e = ⟨"org_name", .text c.stored.pki.orgName, none⟩ := by
  simp only [pkiSection, List.mem_cons, List.not_mem_nil, or_false] at he
  rcases he with rfl | rfl | rfl
  · exact Or.inr rfl
  · exact Or.inl (plain_text (by decide) (word_of_countryCode h.countryCode.2).plain)
  · exact Or.inl (plain_text (by decide) (word_of_hostPort h.repositoryHost.2).plain)

theorem pkcs11Entries_cases
    {c : Config}
    {e : Entry}
    (he : e ∈ (pkcs11Section c).entries) :
    e = ⟨"module", .text c.pkcs11.module, none⟩ ∨
      e = ⟨"token_label", .text c.pkcs11.tokenLabel, none⟩ := by
  simp only [pkcs11Section, List.mem_cons, List.mem_ite_nil_left, List.not_mem_nil, or_false] at he
  exact he.imp_right fun h => h.2

theorem bareKey_of_profile
    {s : String}
    (h : (findProfile s).isSome = true) :
    BareKey s := by
  have hmem : s ∈ profileDefs.map Prod.fst := lookup_isSome_iff.mp h
  simp only [profileDefs, List.map_cons, List.map_nil, List.mem_cons, List.not_mem_nil,
    or_false] at hmem
  rcases hmem with rfl | rfl | rfl
  · decide
  · decide
  · decide

theorem plain_issuingEntries
    (hoid : DottedDecimal oidText)
    {ca : SigningCa}
    (h : ca.Valid oidText rootDays) :
    ∀ e ∈ issuingEntries ca, e.Plain := by
  obtain ⟨hprofiles, hdns, hemail, hpolicies⟩ := h.words hoid
  have hdays : ca.eeValidDays < 2 ^ 31 := h.outlived.trans h.validDays.2
  intro e he
  simp only [issuingEntries, subtreeEntries, policyEntries, List.mem_append, List.mem_cons,
    List.not_mem_nil, or_false, List.mem_ite_nil_left, List.mem_ite_nil_right] at he
  rcases he with ((((rfl | rfl | rfl | rfl) | ⟨_, rfl⟩) | ⟨_, rfl⟩) | ⟨_, rfl⟩) | ⟨_, rfl⟩
  · exact plain_texts (by decide) hprofiles
  · exact plain_text (by decide) (word_of_mem_curves h.eeCurve).plain
  · exact plain_text (by decide) (word_of_mem_digests h.eeDigest).plain
  · exact plain_number (by decide) h.eeValidDays hdays
  · exact ⟨by decide, trivial, by simp⟩
  · exact plain_texts (by decide) hdns
  · exact plain_texts (by decide) hemail
  · refine ⟨show BareKey "policies" by decide, fun e he => ?_, by simp⟩
    obtain ⟨hprof, hfind⟩ := mem_declaredPolicies.mp he
    exact ⟨bareKey_of_profile (h.known e.1 hprof),
      fun oid hmem => ((hpolicies e.1 e.2 hfind).2 oid hmem).1.plain⟩

end PlainEntries

section PlainDocument

variable {oidText : String → Option String} {c : Config}

theorem headers_apart
    {a b : String × SigningCa}
    (h : a.1 < b.1) :
    ¬ (caSection b).path <+: (caSection a).path := by
  intro hpath
  have hheader := Section.header_prefix hpath
  simp only [caSection, String.toList_append] at hheader
  obtain ⟨rest, hrest⟩ := (List.prefix_append_right_inj _).mp hheader
  rw [String.lt_iff, ← hrest] at h
  exact List.le_append_left h

theorem topSections_order (c : Config) :
    (topSections c).Pairwise fun sec sec' => ¬ sec'.path <+: sec.path := by
  have hheaders : ((topSections c).map Section.header).Pairwise fun a b =>
      ¬ b.toList <+: a.toList :=
    List.Pairwise.sublist (headers_topSections c) (by decide)
  exact (List.pairwise_map.mp hheaders).imp fun h hpath => h (Section.header_prefix hpath)

/-- No header comes back to an earlier one. -/
theorem document_order (c : Config) :
    (document c).sections.Pairwise fun sec sec' => ¬ sec'.path <+: sec.path := by
  rw [document_sections, List.pairwise_append]
  refine ⟨topSections_order c, List.pairwise_map.mpr (c.cas.sorted.imp headers_apart), ?_⟩
  intro sec hsec sec' hsec' hpath
  obtain ⟨e, _, rfl⟩ := List.mem_map.mp hsec'
  have hheader := Section.header_prefix hpath
  rcases mem_topSections hsec with rfl | rfl | rfl <;>
    simp [caSection, pkiSection, pkcs11Section, rootSection, List.cons_prefix_cons] at hheader

theorem header_of_slug
    {purpose : String}
    (h : validSlug purpose = true) :
    ("ca." ++ purpose).toList.all (fun c => bareChar c || c == '.') = true := by
  rw [String.toList_append, List.all_append, Bool.and_eq_true]
  refine ⟨by decide, ?_⟩
  rw [List.all_eq_true]
  intro c hc
  have hchar := List.all_eq_true.mp h c hc
  simp only [bareChar, Bool.or_eq_true, decide_eq_true_eq, beq_iff_eq] at hchar ⊢
  tauto

/-- An issuing CA of the store, with the one it comes from. -/
theorem stored_entry
    (h : c.Accepted oidText)
    {e : String × SigningCa}
    (he : e ∈ c.stored.cas.entries) :
    ∃ ca : SigningCa, e.2 = ca.stored ∧ ca.purpose = e.1 ∧ ca.Valid oidText c.root.validDays := by
  obtain ⟨e₀, he₀, rfl⟩ := List.mem_map.mp he
  obtain ⟨hpurpose, hvalid⟩ := h.cas e₀.1 e₀.2 (OrderedMap.mem_entries_iff.mp he₀)
  exact ⟨e₀.2, rfl, hpurpose, hvalid⟩

/-- Every header of a stored configuration needs no quotes. -/
theorem header_document
    (h : c.Accepted oidText)
    {sec : Section}
    (hsec : sec ∈ (document c.stored).sections) :
    sec.header.toList.all (fun c => bareChar c || c == '.') = true := by
  have hheader : ∀ header ∈ ["pki", "pkcs11", "root"],
      header.toList.all (fun c => bareChar c || c == '.') = true := by
    decide
  rw [document_sections] at hsec
  rcases List.mem_append.mp hsec with hsec | hsec
  · exact hheader _ ((headers_topSections _).subset (List.mem_map_of_mem hsec))
  · obtain ⟨e, he, rfl⟩ := List.mem_map.mp hsec
    obtain ⟨_, _, hpurpose, hvalid⟩ := stored_entry h he
    exact header_of_slug (hpurpose ▸ hvalid.purpose)

/-- A stored configuration prints as a plain file when its free texts are plain. -/
theorem document_plain
    (hoid : DottedDecimal oidText)
    (h : c.Accepted oidText)
    (hfree : ∀ s ∈ c.stored.freeTexts, Plain s) :
    (document c.stored).Plain := by
  have hheading : OneLine "showing configuration stored in database" := by decide
  refine ⟨hheading, fun sec hsec => ⟨header_document h hsec, fun e he => ?_⟩, document_order _⟩
  rw [document_sections] at hsec
  rcases List.mem_append.mp hsec with hsec | hsec
  · rcases mem_topSections hsec with rfl | rfl | rfl
    · rcases pkiEntries_cases h he with hplain | rfl
      · exact hplain
      · exact plain_text (by decide) (hfree _ (by simp [Config.freeTexts]))
    · rcases pkcs11Entries_cases he with rfl | rfl
      · exact plain_text (by decide) (hfree _ (by simp [Config.freeTexts]))
      · exact plain_text (by decide) (hfree _ (by simp [Config.freeTexts]))
    · refine plain_caEntries h.root (fun s hs => hfree s ?_) e he
      have hroot : s ∈ c.stored.root.freeTexts := hs
      simp [Config.freeTexts, hroot]
  · obtain ⟨e', hentry, rfl⟩ := List.mem_map.mp hsec
    obtain ⟨ca, hca, _, hvalid⟩ := stored_entry h hentry
    rw [caSection, hca] at he
    rcases List.mem_append.mp he with he | he
    · refine plain_caEntries hvalid.toValid (fun s hs => hfree s ?_) e he
      have hissuer : s ∈ e'.2.freeTexts := hca ▸ hs
      exact List.mem_append_right _
        (List.mem_flatMap.mpr ⟨e'.2, List.mem_map_of_mem hentry, hissuer⟩)
    · exact plain_issuingEntries hoid hvalid e he

end PlainDocument

section Reloading

variable {oidText : String → Option String} {parse : String → Except ParseError Table}
  {path : String} {c : Config}

/-- The printed configuration loads, as the same one on every locked field. -/
def Reloads
    (oidText : String → Option String)
    (parse : String → Except ParseError Table)
    (path : String)
    (c : Config) : Prop :=
  ∃ c', load oidText parse path (some (getConfig c)) = .ok c' ∧ reconcile c' c = []

/-- What a stored configuration needs to print as a file that loads. -/
structure Reprints (c : Config) : Prop extends Intact c where
  plain : ∀ s ∈ c.freeTexts, Plain s
  default : c.pkcs11.tokenLabel = ""
  purposes : ∀ ca ∈ c.cas.values, OneKey ca.purpose

theorem load_printed
    (hparse : Faithful parse (document c))
    (hplain : (document c).Plain)
    {t : Table}
    (ht : (document c).table = some t) :
    load oidText parse path (some (getConfig c)) = loadTable oidText t := by
  have hsays := hparse.plain hplain
  rw [ht] at hsays
  rw [load, getConfig_eq_render]
  cases hread : parse (document c).render with
  | error e => simp [hread, Except.toOption] at hsays
  | ok t' =>
      rw [hread] at hsays
      rw [show t' = t from Option.some.inj hsays]

/-- What reprints loads. -/
theorem Reprints.reloads
    (hoid : DottedDecimal oidText)
    (h : c.Accepted oidText)
    (hcas : c.stored.cas.entries ≠ [])
    (hparse : Faithful parse (document c.stored))
    (hprints : Reprints c.stored) :
    Reloads oidText parse path c.stored := by
  have hstored := h.stored hprints.toIntact
  obtain ⟨t, ht, htables⟩ := document_table hstored hcas hprints.purposes
  refine ⟨{ c.stored with unknown := unknownOf t }, ?_, ?_⟩
  · rw [load_printed hparse (document_plain hoid h hprints.plain) ht]
    exact loadTable_of hstored htables hprints.default
  · rw [reconcile_eq_nil]
    exact ⟨rfl, fun _ => rfl⟩

/-- What a comparison of two configurations shows of a CA. -/
def shown (ca : CaFields) : String × String × String :=
  (ca.cn, ca.keyBackend, ca.tokenLabel)

/-- The free texts outside the issuing CAs are among what is compared. -/
theorem SameLocked.texts
    {file eff : Config}
    (h : SameLocked file eff) :
    file.pki.orgName = eff.pki.orgName ∧ file.pkcs11 = eff.pkcs11 ∧
      shown file.root = shown eff.root := by
  have hlookup (key : String) := congrArg (List.lookup key) h.1
  have horg := hlookup "pki.org_name"
  have hmodule := hlookup "pkcs11.module"
  have hdefault := hlookup "pkcs11.token_label"
  have hcn := hlookup "root.cn"
  have hbackend := hlookup "root.key_backend"
  have hlabel := hlookup "root.token_label"
  simp only [lockedGlobal, List.lookup_cons, String.reduceBEq, Option.some.injEq]
    at horg hmodule hdefault hcn hbackend hlabel
  exact ⟨horg, congrArg₂ Pkcs11.mk hmodule hdefault,
    congrArg₂ Prod.mk hcn (congrArg₂ Prod.mk hbackend hlabel)⟩

theorem SameLocked.fields
    {file eff : Config}
    (h : SameLocked file eff) :
    file.fields.map shown = eff.fields.map shown := by
  obtain ⟨_, _, hroot⟩ := h.texts
  have hmaps : file.cas.mapValues lockedPurpose = eff.cas.mapValues lockedPurpose := by
    refine OrderedMap.ext_find? fun purpose => ?_
    rw [OrderedMap.find?_mapValues, OrderedMap.find?_mapValues]
    exact h.2 purpose
  have hvalues : file.cas.values.map lockedPurpose = eff.cas.values.map lockedPurpose := by
    have hentries := congrArg (fun m => m.entries.map Prod.snd) hmaps
    simpa [OrderedMap.mapValues, OrderedMap.values, Function.comp_def] using hentries
  have hshown (ca : SigningCa) : shown ca.toCaFields =
      (((lockedPurpose ca).lookup "cn").getD "", ((lockedPurpose ca).lookup "key_backend").getD "",
        ((lockedPurpose ca).lookup "token_label").getD "") := by
    rfl
  have hissuers := congrArg (List.map fun l : List (String × String) =>
    ((l.lookup "cn").getD "", (l.lookup "key_backend").getD "",
      (l.lookup "token_label").getD "")) hvalues
  simp only [List.map_map, Function.comp_def, ← hshown] at hissuers
  simp [Config.fields, hroot, hissuers, Function.comp_def]

theorem anyToken_eq (c : Config) :
    c.anyToken = (c.fields.map shown).any fun x => x.2.1 == "pkcs11" := by
  simp [Config.anyToken, Config.fields, OrderedMap.values, shown, CaFields.onToken,
    Function.comp_def]

theorem of_shown
    {p : String × String × String → Prop}
    {as bs : List CaFields}
    (hsame : as.map shown = bs.map shown)
    (h : ∀ ca ∈ as, p (shown ca)) :
    ∀ ca ∈ bs, p (shown ca) := by
  intro ca hca
  obtain ⟨ca', hca', hshown⟩ := List.mem_map.mp (hsame ▸ List.mem_map_of_mem hca)
  rw [← hshown]
  exact h ca' hca'

/-- A configuration that was loaded is intact. -/
theorem Config.Accepted.intact (h : c.Accepted oidText) :
    Intact c := by
  have hfields : ∀ ca ∈ c.fields, ca.cn ≠ "" ∧ ca.Labelled := by
    intro ca hca
    rcases List.mem_cons.mp hca with rfl | hca
    · exact ⟨h.root.cn, h.rootLabel⟩
    · obtain ⟨ca', hca', rfl⟩ := List.mem_map.mp hca
      obtain ⟨hfind, hvalid⟩ := h.of_mem hca'
      exact ⟨hvalid.cn, h.labels _ ca' hfind⟩
  constructor
  · exact h.orgName
  · intro htoken
    have hsettings := h.token_settings
    rwa [if_pos htoken] at hsettings
  · exact fun ca hca => (hfields ca hca).1
  · intro ca hca htoken
    have hlabel := (hfields ca hca).2
    rw [CaFields.Labelled, if_pos htoken] at hlabel
    exact hlabel.1
  · simpa [Config.fields, Function.comp_def] using h.cns_nodup

/-- So is one with the same locked fields. -/
theorem Intact.congr
    {file eff : Config}
    (h : Intact file)
    (hsame : SameLocked file eff) :
    Intact eff := by
  have hfields := hsame.fields
  obtain ⟨horg, hpkcs11, _⟩ := hsame.texts
  constructor
  · exact horg ▸ h.orgName
  · intro htoken
    rw [anyToken_eq, ← hfields, ← anyToken_eq] at htoken
    exact hpkcs11 ▸ h.module htoken
  · exact of_shown (p := fun x => x.1 ≠ "") hfields h.cns
  · exact of_shown (p := fun x => (x.2.1 == "pkcs11") = true → x.2.2 ≠ "") hfields h.labels
  · have hcns := congrArg (List.map Prod.fst) hfields
    simp only [List.map_map] at hcns
    have hapart : (file.fields.map (Prod.fst ∘ shown)).Nodup := h.apart
    rwa [hcns] at hapart

/-- Where a purpose that was read comes from. -/
theorem mem_keysUnder_of_loadTable
    {t : Table}
    {c' : Config}
    (h : loadTable oidText t = .ok c')
    {purpose : String}
    (hfind : (c'.cas.find? purpose).isSome = true) :
    purpose ∈ keysUnder t "ca" := by
  unfold loadTable at h
  split_ifs at h with herrs
  obtain rfl := Except.ok.inj h
  simp only [loadErrors, List.append_eq_nil_iff] at herrs
  have hread := (find?_readCas herrs.1.1.1.1.2 purpose).1
  rw [Config.resolved, OrderedMap.find?_mapValues, Option.isSome_map, declared, hread,
    Option.isSome_map, Lifetime.section?] at hfind
  obtain ⟨sub, hsub⟩ := Option.isSome_iff_exists.mp hfind
  obtain ⟨cas, hcas, hentry⟩ := Option.bind_eq_some_iff.mp hsub
  obtain ⟨node, hnode, _⟩ := Option.bind_eq_some_iff.mp hentry
  rw [keysUnder, hcas]
  exact List.mem_map_of_mem (mem_of_lookup hnode)

theorem path_ne_ca
    {sec : Section}
    (hsec : sec ∈ (document c).sections) :
    sec.path ≠ ["ca"] := by
  intro hpath
  have hheader := sec.header_eq
  rw [hpath] at hheader
  rw [document_sections] at hsec
  rcases List.mem_append.mp hsec with hsec | hsec
  · rcases mem_topSections hsec with rfl | rfl | rfl <;>
      simp [pkiSection, pkcs11Section, rootSection] at hheader
  · obtain ⟨e, _, rfl⟩ := List.mem_map.mp hsec
    simp [caSection] at hheader

/-- In a file that says something, a purpose that is read back is one key. -/
theorem oneKey_of_keysUnder
    {t : Table}
    (ht : (document c).table = some t)
    {purpose : String}
    {ca : SigningCa}
    (he : (purpose, ca) ∈ c.cas.entries)
    (hread : purpose ∈ keysUnder t "ca") :
    OneKey purpose := by
  have hdotless := Document.keysUnder_dotless ht (fun sec hsec => path_ne_ca hsec) hread
  refine ⟨?_, hdotless⟩
  have hsec : caSection (purpose, ca) ∈ (document c).sections := by
    rw [document_sections]
    exact List.mem_append_right _ (List.mem_map_of_mem he)
  refine Document.path_keys ht hsec purpose ?_
  rw [path_caSection hdotless]
  simp

/-- What loads, and has plain texts, reprints. -/
theorem Reloads.reprints
    (h : c.Accepted oidText)
    (hcas : c.stored.cas.entries ≠ [])
    (hparse : Faithful parse (document c.stored))
    (hplain : (document c.stored).Plain)
    (hfree : ∀ s ∈ c.stored.freeTexts, Plain s)
    (hreloads : Reloads oidText parse path c.stored) :
    Reprints c.stored := by
  obtain ⟨c', hload, hreconcile⟩ := hreloads
  have hsame := reconcile_eq_nil.mp hreconcile
  have hintact := (load_accepted hload).intact.congr hsame
  have hstored := h.stored hintact
  obtain ⟨t, ht, hloadTable⟩ : ∃ t,
      (document c.stored).table = some t ∧ loadTable oidText t = .ok c' := by
    have hsays := hparse.plain hplain
    rw [load, getConfig_eq_render] at hload
    cases hread : parse (document c.stored).render with
    | error e => simp [hread] at hload
    | ok t =>
        rw [hread] at hload hsays
        exact ⟨t, hsays.symm, hload⟩
  have hpurposes : ∀ ca ∈ c.stored.cas.values, OneKey ca.purpose := by
    intro ca hca
    obtain ⟨⟨purpose, ca⟩, he, rfl⟩ := List.mem_map.mp hca
    have hfind := OrderedMap.mem_entries_iff.mp he
    have hpurpose := (hstored.cas purpose ca hfind).1
    have hread : (c'.cas.find? purpose).isSome = true := by
      rw [← Option.isSome_map (f := lockedPurpose), hsame.2, hfind]
      rfl
    have hkey := oneKey_of_keysUnder ht he (mem_keysUnder_of_loadTable hloadTable hread)
    rwa [← hpurpose] at hkey
  obtain ⟨t', ht', htables⟩ := document_table hstored hcas hpurposes
  obtain rfl : t = t' := Option.some.inj (ht.symm.trans ht')
  refine { hintact with plain := hfree, default := ?_, purposes := hpurposes }
  refine (loadErrors_of hstored htables).mp ?_
  unfold loadTable at hloadTable
  split_ifs at hloadTable with herrs
  exact herrs

end Reloading

end Cfg
end Yca
