import Yca.Cfg.Locked
import Yca.Cfg.Print

/-!
# Loading what was printed

`get config` prints the configuration of the store as a file.  The tables of that
file are read section by section, `document_table`, and every reader of the loader
gives back what was printed.  An accepted configuration whose purposes are one key
each loads as itself, unless it has a default label, `loadTable_of`.
-/

namespace Yca
namespace Cfg

open Yca.Core
open Yca.Core.Toml
open Acme (byteLen)

section Entries

/-- The table of a section. -/
def sectionTable (sec : Section) : Table :=
  sec.table.getD []

/-- A section with different keys, each of which has a value. -/
structure Sound (sec : Section) : Prop where
  values : ∀ e ∈ sec.entries, e.value.value.isSome = true
  keys : (sec.entries.map Entry.key).Nodup
  named : ∀ e ∈ sec.entries, e.key ≠ ""

variable {sec : Section}

theorem Sound.table_spec (h : Sound sec) :
    sec.table = some (sectionTable sec) ∧
      ∀ k, (sectionTable sec).lookup k =
        (sec.entries.find? fun e => e.key == k).bind fun e => e.value.value := by
  obtain ⟨t, ht, hlookup⟩ := Section.table_of h.values h.keys h.named
  have heq : sectionTable sec = t := by simp [sectionTable, ht]
  rw [heq]
  exact ⟨ht, hlookup⟩

/-- The table finds every entry. -/
theorem Sound.lookup
    (h : Sound sec)
    {e : Entry}
    (he : e ∈ sec.entries) :
    (sectionTable sec).lookup e.key = e.value.value := by
  have hkeys : UniqueKey Entry.key sec.entries := h.keys
  rw [h.table_spec.2, hkeys.find?_eq he]
  rfl

/-- It finds nothing else. -/
theorem Sound.lookup_none
    (h : Sound sec)
    {k : String}
    (hk : k ∉ sec.entries.map Entry.key) :
    (sectionTable sec).lookup k = none := by
  have hfind : (sec.entries.find? fun e => e.key == k) = none := by
    refine List.find?_eq_none.mpr fun e he heq => hk ?_
    exact List.mem_map.mpr ⟨e, he, by simpa using heq⟩
  rw [h.table_spec.2, hfind]
  rfl

/-- Known keys, each printed once. -/
theorem sound_of_keys
    (known : List String)
    (hknown : known.Nodup ∧ "" ∉ known)
    (hkeys : (sec.entries.map Entry.key).Sublist known)
    (hvalues : ∀ e ∈ sec.entries, e.value.value.isSome = true) :
    Sound sec where
  values := hvalues
  keys := hkeys.nodup hknown.1
  named := by
    intro e he hempty
    exact hknown.2 (hempty ▸ hkeys.subset (List.mem_map_of_mem he))

end Entries

section Keys

theorem keys_caEntries (ca : CaFields) :
    ((caEntries ca).map Entry.key).Sublist caKeys := by
  unfold caEntries
  cases ca.onToken
  · exact (List.prefix_append _ ["token_label"]).sublist
  · exact List.Sublist.refl _

theorem keys_subtreeEntries
    (key : String)
    (v : List String) :
    ((subtreeEntries key v).map Entry.key).Sublist [key] := by
  unfold subtreeEntries
  split_ifs
  · exact List.nil_sublist _
  · exact List.Sublist.refl _

theorem keys_issuingEntries (ca : SigningCa) :
    ((issuingEntries ca).map Entry.key).Sublist signingCaKeys := by
  have hsimple : ((if ca.simpleDn then [Entry.mk "simple_dn" .yes none] else []).map
      Entry.key).Sublist ["simple_dn"] := by
    cases ca.simpleDn
    · exact List.nil_sublist _
    · exact List.Sublist.refl _
  have hpolicies : ((policyEntries ca).map Entry.key).Sublist ["policies"] := by
    unfold policyEntries
    split_ifs
    · exact List.nil_sublist _
    · exact List.Sublist.refl _
  simp only [issuingEntries, List.map_append]
  exact ((((List.Sublist.refl ["profiles", "ee_curve", "ee_digest", "ee_valid_days"]).append
    hsimple).append (keys_subtreeEntries _ _)).append (keys_subtreeEntries _ _)).append hpolicies

theorem isSome_value
    {v : Printed}
    (h : ∀ l, v ≠ .inline l) :
    v.value.isSome = true := by
  cases v with
  | inline l => exact absurd rfl (h l)
  | text s => rfl
  | number n => rfl
  | yes => rfl
  | texts l => rfl

theorem values_caEntries
    {ca : CaFields}
    {e : Entry}
    (he : e ∈ caEntries ca) :
    e.value.value.isSome = true := by
  refine isSome_value fun l hl => ?_
  simp only [caEntries, List.mem_append, List.mem_cons, List.not_mem_nil, or_false,
    List.mem_ite_nil_right] at he
  rcases he with (rfl | rfl | rfl | rfl | rfl | rfl) | ⟨_, rfl⟩ <;> simp at hl

end Keys

section Tables

theorem sound_pki (c : Config) :
    Sound (pkiSection c) := by
  refine sound_of_keys pkiKeys (by decide) (List.Sublist.refl _) ?_
  simp [pkiSection, Printed.value]

theorem sound_pkcs11 (c : Config) :
    Sound (pkcs11Section c) := by
  have hlabel : ((if c.pkcs11.tokenLabel = "" then []
      else [Entry.mk "token_label" (.text c.pkcs11.tokenLabel) none]).map
        Entry.key).Sublist ["token_label"] := by
    split_ifs
    · exact List.nil_sublist _
    · exact List.Sublist.refl _
  refine sound_of_keys pkcs11Keys (by decide) (hlabel.cons_cons "module") ?_
  intro e he
  simp only [pkcs11Section, List.mem_cons, List.mem_ite_nil_left, List.not_mem_nil, or_false] at he
  rcases he with rfl | ⟨_, rfl⟩
  · rfl
  · rfl

theorem sound_root (c : Config) :
    Sound (rootSection c) :=
  sound_of_keys caKeys (by decide) (keys_caEntries c.root) fun _ => values_caEntries

theorem mem_declaredPolicies
    {ca : SigningCa}
    {e : String × List String} :
    e ∈ ca.declaredPolicies ↔ e.1 ∈ ca.profiles ∧ ca.policies.find? e.1 = some e.2 := by
  simp only [SigningCa.declaredPolicies, List.mem_filterMap, Option.map_eq_some_iff]
  constructor
  · rintro ⟨prof, hprof, oids, hfind, rfl⟩
    exact ⟨hprof, hfind⟩
  · rintro ⟨hprof, hfind⟩
    exact ⟨e.1, hprof, e.2, hfind, rfl⟩

theorem declaredPolicies_nodup
    {ca : SigningCa}
    (h : ca.profiles.Nodup) :
    (ca.declaredPolicies.map Prod.fst).Nodup := by
  refine List.pairwise_map.mpr (List.Pairwise.filterMap _ ?_ h)
  intro prof prof' hne e he e' he'
  obtain ⟨_, _, rfl⟩ := Option.map_eq_some_iff.mp he
  obtain ⟨_, _, rfl⟩ := Option.map_eq_some_iff.mp he'
  exact hne

/-- The lists of object identifiers as a parser gives them. -/
def policyTable (ca : SigningCa) : Table :=
  ca.policies.entries.map fun e => (e.1, .array (e.2.map Value.string))

/-- The policies stand in profile order and are read in key order. -/
theorem policies_value
    {ca : SigningCa}
    (hnodup : ca.profiles.Nodup)
    (hnamed : ∀ p ∈ ca.profiles, p ≠ "")
    (hknown : ∀ prof oids, ca.policies.find? prof = some oids → prof ∈ ca.profiles) :
    (Printed.inline ca.declaredPolicies).value = some (.table (policyTable ca) true) := by
  have hkeys : (ca.declaredPolicies.map fun e =>
      (e.1, Value.array (e.2.map Value.string))).map Prod.fst =
        ca.declaredPolicies.map Prod.fst := by
    simp
  have hdeclared := hkeys ▸ declaredPolicies_nodup hnodup
  obtain ⟨t, ht, hsorted, hlookup⟩ := tableOf_of_nodup hdeclared (by
    rw [hkeys]
    intro k hk
    obtain ⟨e, he, rfl⟩ := List.mem_map.mp hk
    exact hnamed _ (mem_declaredPolicies.mp he).1)
  have hpolicies : KeySorted (policyTable ca) :=
    ca.policies.sorted.map_snd fun oids => Value.array (oids.map Value.string)
  have heq : t = policyTable ca := by
    refine hsorted.ext hpolicies fun k => Option.ext fun v => ?_
    rw [hlookup, lookup_eq_some_iff hdeclared, lookup_eq_some_iff hpolicies.nodup, policyTable,
      List.mem_map, List.mem_map]
    refine exists_congr fun e => and_congr_left fun _ => ?_
    rw [mem_declaredPolicies, ← OrderedMap.mem_entries_iff]
    exact ⟨fun h => h.2, fun h => ⟨hknown e.1 e.2 (OrderedMap.mem_entries_iff.mp h), h⟩⟩
  rw [Printed.value, ht, heq]
  rfl

variable {oidText : String → Option String} {rootDays : Int} {ca : SigningCa}

theorem SigningCa.Valid.policies_value
    (h : ca.Valid oidText rootDays)
    (hnodup : ca.profiles.Nodup) :
    (Printed.inline ca.declaredPolicies).value = some (.table (policyTable ca) true) :=
  Cfg.policies_value hnodup (fun p hp => (word_of_profile (h.known p hp)).2)
    fun prof oids hfind => (h.policies prof oids hfind).1

theorem sound_ca
    (h : ca.Valid oidText rootDays)
    (hnodup : ca.profiles.Nodup)
    (purpose : String) :
    Sound (caSection (purpose, ca)) := by
  refine sound_of_keys (caKeys ++ signingCaKeys) (by decide) ?_ fun e he => ?_
  · rw [caSection, List.map_append]
    exact (keys_caEntries ca.toCaFields).append (keys_issuingEntries ca)
  · rcases List.mem_append.mp he with he | he
    · exact values_caEntries he
    · by_cases hpolicies : e ∈ policyEntries ca
      · unfold policyEntries at hpolicies
        split_ifs at hpolicies
        · simp at hpolicies
        · rw [List.mem_singleton.mp hpolicies, h.policies_value hnodup]
          rfl
      · refine isSome_value fun l hl => ?_
        simp only [issuingEntries, subtreeEntries, List.mem_append, List.mem_cons, List.not_mem_nil,
          or_false, List.mem_ite_nil_left, List.mem_ite_nil_right, hpolicies] at he
        rcases he with (((rfl | rfl | rfl | rfl) | ⟨_, rfl⟩) | ⟨_, rfl⟩) | ⟨_, rfl⟩ <;> simp at hl

end Tables

section Readers

/-- What the table of a CA finds. -/
structure Holds (t : Table) (ca : CaFields) : Prop where
  cn : t.lookup "cn" = some (.string ca.cn)
  curve : t.lookup "curve" = some (.string ca.curve)
  digest : t.lookup "digest" = some (.string ca.digest)
  validDays : t.lookup "valid_days" = some (.integer ca.validDays)
  slugPrefix : t.lookup "slug_prefix" = some (.string ca.slugPrefix)
  keyBackend : t.lookup "key_backend" = some (.string ca.keyBackend)
  tokenLabel : t.lookup "token_label" = if ca.onToken then some (.string ca.tokenLabel) else none

theorem Sound.holds
    {sec : Section}
    (h : Sound sec)
    {ca : CaFields}
    (more : List Entry)
    (hentries : sec.entries = caEntries ca ++ more)
    (hmore : "token_label" ∉ more.map Entry.key) :
    Holds (sectionTable sec) ca := by
  have hfind (e : Entry) (he : e ∈ caEntries ca) :
      (sectionTable sec).lookup e.key = e.value.value :=
    h.lookup (hentries ▸ List.mem_append_left more he)
  constructor
  · exact hfind ⟨"cn", .text ca.cn, none⟩ (by simp [caEntries])
  · exact hfind ⟨"curve", .text ca.curve, none⟩ (by simp [caEntries])
  · exact hfind ⟨"digest", .text ca.digest, none⟩ (by simp [caEntries])
  · exact hfind ⟨"valid_days", .number ca.validDays, none⟩ (by simp [caEntries])
  · exact hfind ⟨"slug_prefix", .text ca.slugPrefix, some ("slug: " ++ ca.slug)⟩
      (by simp [caEntries])
  · exact hfind ⟨"key_backend", .text ca.keyBackend, none⟩ (by simp [caEntries])
  · cases htoken : ca.onToken with
    | true => exact hfind ⟨"token_label", .text ca.tokenLabel, none⟩ (by simp [caEntries, htoken])
    | false =>
        refine h.lookup_none ?_
        rw [hentries, List.map_append, List.mem_append, not_or]
        exact ⟨by simp [caEntries, htoken], hmore⟩

theorem Holds.root (c : Config) :
    Holds (sectionTable (rootSection c)) c.root :=
  (sound_root c).holds [] (by simp [rootSection]) (by simp)

/-- `read_ca` reads a CA back. -/
theorem readCa_of
    {t : Table}
    {ca : CaFields}
    (h : Holds t ca)
    (hca : ca.Valid)
    (hlabel : ca.Labelled)
    (sec : String) :
    readCa t sec = ⟨ca, []⟩ := by
  have hbackendNe : ca.keyBackend ≠ "" := by
    rcases hca.keyBackend with heq | heq <;> simp [heq]
  have htext {key v : String} (hlookup : t.lookup key = some (.string v)) (hv : v ≠ "")
      (old : String) : getStr t sec key old = ⟨v, []⟩ :=
    getStr_of_lookup hlookup hv sec old
  have hcurveNe : ca.curve ≠ "" := ne_of_mem_of_not_mem hca.curve (by decide)
  have hdigestNe : ca.digest ≠ "" := ne_of_mem_of_not_mem hca.digest (by decide)
  have hdays := getInt_of_lookup h.validDays hca.validDays.1 hca.validDays.2 sec
  have htoken : optional t "token_label" "" (getStr t sec "token_label" "") =
      ⟨ca.tokenLabel, []⟩ := by
    have hlookup := h.tokenLabel
    unfold CaFields.Labelled at hlabel
    split_ifs at hlookup hlabel
    · rw [optional_of_some hlookup, htext hlookup hlabel.1]
    · rw [optional_of_none hlookup, hlabel]
  have hslug : ca.slugPrefix ++ "1" = ca.slug := hca.slug.symm
  simp only [readCa, htext h.cn hca.cn, htext h.curve hcurveNe, htext h.digest hdigestNe, hdays,
    htext h.slugPrefix hca.slugPrefix.1, optional_of_some h.keyBackend,
    htext h.keyBackend hbackendNe, htoken, Checked.check, checkCurve, checkDigest, checkSlug,
    checkBackend, require, hca.curve, hca.digest, hca.validDays.1, hca.slugPrefix.2, hca.keyBackend,
    hslug, if_true, List.append_nil]

variable {oidText : String → Option String} {rootDays : Int} {ca : SigningCa}

/-- What the table of an issuing CA finds beside that. -/
structure HoldsIssuing (t : Table) (ca : SigningCa) : Prop extends Holds t ca.toCaFields where
  profiles : t.lookup "profiles" = some (.array (ca.profiles.map Value.string))
  eeCurve : t.lookup "ee_curve" = some (.string ca.eeCurve)
  eeDigest : t.lookup "ee_digest" = some (.string ca.eeDigest)
  eeValidDays : t.lookup "ee_valid_days" = some (.integer ca.eeValidDays)
  simpleDn : t.lookup "simple_dn" = if ca.simpleDn then some (.boolean true) else none
  permittedDns : t.lookup "permitted_dns" =
    if ca.permittedDns = [] then none else some (.array (ca.permittedDns.map Value.string))
  permittedEmail : t.lookup "permitted_email" =
    if ca.permittedEmail = [] then none else some (.array (ca.permittedEmail.map Value.string))
  policies : t.lookup "policies" =
    if ca.policies.entries = [] then none else some (.table (policyTable ca) true)

theorem HoldsIssuing.of_valid
    (h : ca.Valid oidText rootDays)
    (hnodup : ca.profiles.Nodup)
    (purpose : String) :
    HoldsIssuing (sectionTable (caSection (purpose, ca))) ca := by
  have hsound := sound_ca h hnodup purpose
  have hfind (e : Entry) (he : e ∈ issuingEntries ca) :
      (sectionTable (caSection (purpose, ca))).lookup e.key = e.value.value :=
    hsound.lookup (List.mem_append_right _ he)
  have hnone {k : String} (hk : k ∉ caKeys ++ (issuingEntries ca).map Entry.key) :
      (sectionTable (caSection (purpose, ca))).lookup k = none := by
    refine hsound.lookup_none fun hmem => hk ?_
    rw [caSection, List.map_append, List.mem_append] at hmem
    rw [List.mem_append]
    exact hmem.imp_left fun hmem => (keys_caEntries _).subset hmem
  have hlabel : "token_label" ∉ (issuingEntries ca).map Entry.key := by
    intro hmem
    have hknown := (keys_issuingEntries ca).subset hmem
    revert hknown
    decide
  refine ⟨hsound.holds _ rfl hlabel, ?_, ?_, ?_, ?_, ?_, ?_, ?_, ?_⟩
  · exact hfind ⟨"profiles", .texts ca.profiles, none⟩ (by simp [issuingEntries])
  · exact hfind ⟨"ee_curve", .text ca.eeCurve, none⟩ (by simp [issuingEntries])
  · exact hfind ⟨"ee_digest", .text ca.eeDigest, none⟩ (by simp [issuingEntries])
  · exact hfind ⟨"ee_valid_days", .number ca.eeValidDays, none⟩ (by simp [issuingEntries])
  · split_ifs with hsimple
    · exact hfind ⟨"simple_dn", .yes, none⟩ (by simp [issuingEntries, hsimple])
    · exact hnone (by simp [caKeys, issuingEntries, subtreeEntries, policyEntries, hsimple])
  · split_ifs with hdns
    · exact hnone (by simp [caKeys, issuingEntries, subtreeEntries, policyEntries, hdns])
    · exact hfind ⟨"permitted_dns", .texts ca.permittedDns, none⟩
        (by simp [issuingEntries, subtreeEntries, hdns])
  · split_ifs with hemail
    · exact hnone (by simp [caKeys, issuingEntries, subtreeEntries, policyEntries, hemail])
    · exact hfind ⟨"permitted_email", .texts ca.permittedEmail, none⟩
        (by simp [issuingEntries, subtreeEntries, hemail])
  · split_ifs with hpolicies
    · exact hnone (by simp [caKeys, issuingEntries, subtreeEntries, policyEntries, hpolicies])
    · rw [← h.policies_value hnodup]
      exact hfind ⟨"policies", .inline ca.declaredPolicies, none⟩
        (by simp [issuingEntries, policyEntries, hpolicies])

theorem readProfileList_of
    {t : Table}
    (h : HoldsIssuing t ca)
    (hca : ca.Valid oidText rootDays)
    (sec : String) :
    readProfileList t sec = ⟨ca.profiles, []⟩ := by
  simp [readProfileList, h.profiles, Value.asArray, readProfiles_of hca.known, hca.profiles]

theorem readSimpleDn_of
    {t : Table}
    (h : HoldsIssuing t ca)
    (hca : ca.Valid oidText rootDays)
    (sec : String) :
    readSimpleDn t sec ca.profiles = ⟨ca.simpleDn, []⟩ := by
  have hlookup := h.simpleDn
  split_ifs at hlookup with hsimple
  · have hread : getBool t sec "simple_dn" = ⟨true, []⟩ := by
      simp [getBool, hlookup, Value.asBoolean]
    rw [readSimpleDn, optional_of_some hlookup, hread, hsimple]
    exact Checked.check_of (checkSimpleDn_eq_nil.mpr fun _ => hca.simpleDn hsimple)
  · rw [readSimpleDn, optional_of_none hlookup, Bool.eq_false_iff.mpr hsimple]

theorem readPolicies_of
    {t : Table}
    (h : HoldsIssuing t ca)
    (hca : ca.Valid oidText rootDays)
    (sec : String) :
    readPolicies oidText t sec ca.profiles = ⟨ca.policies, []⟩ := by
  have hlookup := h.policies
  split_ifs at hlookup with hempty
  · have hpolicies : ca.policies = .empty := OrderedMap.ext_find? fun k => by
      simp [OrderedMap.find?, hempty, OrderedMap.empty]
    simp [readPolicies, hlookup, hpolicies]
  · have hread : readPolicyEntries oidText sec ca.profiles .empty (policyTable ca) =
        ⟨ca.policies, []⟩ := by
      have hentries := readPolicyEntries_of ca.policies.sorted.nodup
        (fun prof _ => OrderedMap.find?_empty prof)
        (fun prof oids he => hca.policies prof oids (OrderedMap.mem_entries_iff.mp he)) sec
      rw [OrderedMap.foldl_insert_entries] at hentries
      exact hentries
    simp [readPolicies, hlookup, Value.asTable, hread]

/-- `[ca.<purpose>]` reads an issuing CA back. -/
theorem readSigningCa_of
    {t : Table}
    (h : HoldsIssuing t ca)
    (hca : ca.Valid oidText rootDays)
    (hlabel : ca.Labelled) :
    readSigningCa oidText rootDays ca.purpose t = ⟨ca, []⟩ := by
  have hcurveNe : ca.eeCurve ≠ "" := ne_of_mem_of_not_mem hca.eeCurve (by decide)
  have hdigestNe : ca.eeDigest ≠ "" := ne_of_mem_of_not_mem hca.eeDigest (by decide)
  have hdays : ca.eeValidDays < 2 ^ 31 := hca.outlived.trans hca.validDays.2
  have hcheck : checkEeValidDays ("ca." ++ ca.purpose) ca.profiles ca.validDays
      ca.eeValidDays = [] :=
    (checkEeValidDays_eq_nil hca.validDays.1).mpr ⟨hca.eeValidDays, hca.ceiling, hca.outlived⟩
  have hbelow : ¬ (0 < rootDays ∧ 0 < ca.validDays ∧ rootDays ≤ ca.validDays) :=
    fun h => not_lt.mpr h.2.2 hca.belowRoot
  simp only [readSigningCa, readCa_of h.toHolds hca.toValid hlabel, readProfileList_of h hca,
    readSimpleDn_of h hca, readSubtrees_of h.permittedDns hca.permittedDns,
    readSubtrees_of h.permittedEmail hca.permittedEmail, readPolicies_of h hca,
    getStr_of_lookup h.eeCurve hcurveNe, getStr_of_lookup h.eeDigest hdigestNe,
    getInt_of_lookup h.eeValidDays hca.eeValidDays hdays, Checked.check, hcheck, checkPurpose,
    checkCurve, checkDigest, require, hca.purpose, hca.notRoot, hca.eeCurve, hca.eeDigest, hbelow,
    if_true, ne_eq, not_false_eq_true, List.append_nil]

end Readers

section Document

/-- A purpose that is one key. -/
def OneKey (purpose : String) : Prop :=
  purpose ≠ "" ∧ '.' ∉ purpose.toList

instance (purpose : String) : Decidable (OneKey purpose) :=
  inferInstanceAs (Decidable (_ ∧ _))

theorem path_caSection
    {purpose : String}
    (h : '.' ∉ purpose.toList)
    (ca : SigningCa) :
    (caSection (purpose, ca)).path = ["ca", purpose] := by
  have hheader : (caSection (purpose, ca)).header.toList =
      "ca".toList ++ '.' :: purpose.toList := by
    simp [caSection]
  simp [Section.path_two (by simp) h hheader]

variable {oidText : String → Option String} {c : Config}

/-- The profiles of a CA are listed once. -/
theorem Config.Accepted.profiles_nodup
    (h : c.Accepted oidText)
    {ca : SigningCa}
    (hca : ca ∈ c.cas.values) :
    ca.profiles.Nodup := by
  have hprofiles : (c.claimed .profile).Nodup := Config.claimed_nodup h.claims (Or.inl rfl)
  rw [Config.claimed_eq c .profile] at hprofiles
  exact (List.nodup_flatMap.mp hprofiles).1 ca hca

/-- What is printed before the issuing CAs. -/
def topSections (c : Config) : List Section :=
  pkiSection c :: (if c.anyToken then [pkcs11Section c] else []) ++ [rootSection c]

theorem document_sections (c : Config) :
    (document c).sections = topSections c ++ c.cas.entries.map caSection := by
  simp [document, topSections]

theorem mem_topSections
    {sec : Section}
    (h : sec ∈ topSections c) :
    sec = pkiSection c ∨ sec = pkcs11Section c ∨ sec = rootSection c := by
  simp only [topSections, List.mem_append, List.mem_cons, List.not_mem_nil, or_false,
    List.mem_ite_nil_right] at h
  rcases h with (h | ⟨_, h⟩) | h
  · exact Or.inl h
  · exact Or.inr (Or.inl h)
  · exact Or.inr (Or.inr h)

theorem path_topSections
    {sec : Section}
    (h : sec ∈ topSections c) :
    sec.path = [sec.header] := by
  refine Section.path_one ?_
  rcases mem_topSections h with rfl | rfl | rfl <;> simp [pkiSection, pkcs11Section, rootSection]

theorem headers_topSections (c : Config) :
    ((topSections c).map Section.header).Sublist ["pki", "pkcs11", "root"] := by
  unfold topSections
  cases c.anyToken
  · exact (List.Sublist.refl ["root"]).cons "pkcs11" |>.cons_cons "pki"
  · exact List.Sublist.refl _

/-- The sections of the issuing CAs. -/
def issuersTable (c : Config) : Table :=
  c.cas.entries.map fun e => (e.1, .table (sectionTable (caSection e)) false)

/-- What the printed file says, section by section. -/
structure Tables (c : Config) (t : Table) : Prop where
  pki : t.lookup "pki" = some (.table (sectionTable (pkiSection c)) false)
  pkcs11 : t.lookup "pkcs11" =
    if c.anyToken then some (.table (sectionTable (pkcs11Section c)) false) else none
  root : t.lookup "root" = some (.table (sectionTable (rootSection c)) false)
  cas : t.lookup "ca" = some (.table (issuersTable c) false)

/-- The file of an accepted configuration, when every purpose is one key. -/
theorem document_table
    (h : c.Accepted oidText)
    (hcas : c.cas.entries ≠ [])
    (hpurposes : ∀ ca ∈ c.cas.values, OneKey ca.purpose) :
    ∃ t, (document c).table = some t ∧ Tables c t := by
  have hsound : ∀ sec ∈ topSections c, Sound sec := by
    intro sec hsec
    rcases mem_topSections hsec with rfl | rfl | rfl
    · exact sound_pki c
    · exact sound_pkcs11 c
    · exact sound_root c
  have htop := foldlM_sections id [] (fun sec hsec => path_topSections hsec)
    (fun sec hsec => (hsound sec hsec).table_spec.1) []
  have hheaders : ((topSections c).map fun sec =>
      (sec.header, Value.table (sectionTable sec) false)).map Prod.fst =
        (topSections c).map Section.header := by
    simp
  have hnodup := (headers_topSections c).nodup (by decide)
  obtain ⟨t₀, ht₀, _, hlookup₀⟩ := tableOf_of_nodup (hheaders ▸ hnodup) (by
    rw [hheaders]
    rintro _ hmem rfl
    have hempty := (headers_topSections c).subset hmem
    revert hempty
    decide)
  have hentry : ∀ e ∈ c.cas.entries, Sound (caSection e) ∧ OneKey e.1 := by
    rintro ⟨purpose, ca⟩ he
    obtain ⟨rfl, hvalid⟩ := h.cas purpose ca (OrderedMap.mem_entries_iff.mp he)
    have hca : ca ∈ c.cas.values := List.mem_map_of_mem he
    exact ⟨sound_ca hvalid (h.profiles_nodup hca) ca.purpose, hpurposes ca hca⟩
  have hissuers := foldlM_sections (l := c.cas.entries) caSection ["ca"]
    (fun e he => path_caSection (hentry e he).2.2 e.2) (fun e he => (hentry e he).1.table_spec.1) t₀
  have hsub : tableOf (issuersTable c) = some (issuersTable c) := by
    refine tableOf_of_sorted (List.pairwise_map.mpr c.cas.sorted) ?_
    intro k hk
    obtain ⟨e', he', rfl⟩ := List.mem_map.mp hk
    obtain ⟨e, he, rfl⟩ := List.mem_map.mp he'
    exact (hentry e he).2.1
  have hfresh : t₀.lookup "ca" = none := by
    rw [hlookup₀, ← Option.not_isSome_iff_eq_none, lookup_isSome_iff, hheaders]
    intro hmem
    have hca := (headers_topSections c).subset hmem
    revert hca
    decide
  obtain ⟨t, ht, hcaTable, hothers⟩ :=
    foldlM_define_fresh (k := "ca") (by decide) (by simpa [issuersTable] using hcas) hfresh hsub
  refine ⟨t, ?_, ?_⟩
  · rw [Document.table, document_sections, List.foldlM_append]
    have htop' : (topSections c).foldlM (fun t sec => sec.table.bind fun sub =>
        define sec.path (.table sub false) t) [] = some t₀ := by
      rw [List.map_id] at htop
      exact htop.trans ht₀
    rw [htop']
    exact hissuers.trans ht
  · constructor
    · rw [hothers _ (by decide), hlookup₀]
      simp [topSections, pkiSection]
    · rw [hothers _ (by decide), hlookup₀]
      cases htoken : c.anyToken <;>
        simp [topSections, pkiSection, pkcs11Section, rootSection, htoken, List.lookup_cons]
    · rw [hothers _ (by decide), hlookup₀]
      cases htoken : c.anyToken <;>
        simp [topSections, pkiSection, pkcs11Section, rootSection, htoken, List.lookup_cons]
    · exact hcaTable

end Document

section Loaded

variable {oidText : String → Option String} {c : Config} {t : Table}

/-- What the token settings of an accepted configuration are. -/
theorem Config.Accepted.token_settings (h : c.Accepted oidText) :
    if c.anyToken then c.pkcs11.module ≠ "" else c.pkcs11 = ⟨"", ""⟩ := by
  have hbackends := h.backends
  simp only [backendErrors, List.append_eq_nil_iff, require_eq_nil] at hbackends
  obtain ⟨⟨_, hmodule⟩, hunused⟩ := hbackends
  split_ifs with htoken
  · exact fun hempty => hmodule ⟨htoken, hempty⟩
  · have hset : ¬ (c.pkcs11.module ≠ "" ∨ c.pkcs11.tokenLabel ≠ "") :=
      fun hset => hunused ⟨by simpa using htoken, hset⟩
    rw [not_or, not_not, not_not] at hset
    exact congrArg₂ Pkcs11.mk hset.1 hset.2

theorem readPki_of
    (h : c.Accepted oidText)
    (ht : Tables c t) :
    readPki t = ⟨c.pki, []⟩ := by
  have hfind (e : Entry) (he : e ∈ (pkiSection c).entries) := (sound_pki c).lookup he
  have horg := hfind ⟨"org_name", .text c.pki.orgName, none⟩ (by simp [pkiSection])
  have hcountry := hfind ⟨"country_code", .text c.pki.countryCode, none⟩ (by simp [pkiSection])
  have hhost := hfind ⟨"repository_host", .text c.pki.repositoryHost, none⟩ (by simp [pkiSection])
  have hsection : requireTable t "pki" = ⟨some (sectionTable (pkiSection c)), []⟩ := by
    simp [requireTable, ht.pki, Value.asTable]
  simp only [readPki, hsection, getStr_of_lookup horg h.orgName,
    getStr_of_lookup hcountry h.countryCode.1, getStr_of_lookup hhost h.repositoryHost.1,
    Checked.check, require, h.countryCode.2, h.repositoryHost.2, if_true, List.append_nil]

theorem readPkcs11_of
    (h : c.Accepted oidText)
    (ht : Tables c t) :
    readPkcs11 t = ⟨c.pkcs11, []⟩ := by
  have hsettings := h.token_settings
  have hlookup := ht.pkcs11
  split_ifs at hsettings hlookup with htoken
  · have hmodule := (sound_pkcs11 c).lookup (e := ⟨"module", .text c.pkcs11.module, none⟩)
      (by simp [pkcs11Section])
    have hlabel : optional (sectionTable (pkcs11Section c)) "token_label" ""
        (getStr (sectionTable (pkcs11Section c)) "pkcs11" "token_label" "") =
          ⟨c.pkcs11.tokenLabel, []⟩ := by
      by_cases hempty : c.pkcs11.tokenLabel = ""
      · have hnone := (sound_pkcs11 c).lookup_none (k := "token_label")
          (by simp [pkcs11Section, hempty])
        rw [optional_of_none hnone, hempty]
      · have hsome := (sound_pkcs11 c).lookup
          (e := ⟨"token_label", .text c.pkcs11.tokenLabel, none⟩) (by simp [pkcs11Section, hempty])
        rw [optional_of_some hsome, getStr_of_lookup hsome hempty]
    simp only [readPkcs11, hlookup, Value.asTable, hlabel, optional_of_some hmodule,
      getStr_of_lookup hmodule hsettings, List.append_nil]
  · simp only [readPkcs11, hlookup, hsettings]

theorem readRoot_of
    (h : c.Accepted oidText)
    (ht : Tables c t) :
    readRoot t = ⟨c.root, []⟩ := by
  have hsection : requireTable t "root" = ⟨some (sectionTable (rootSection c)), []⟩ := by
    simp [requireTable, ht.root, Value.asTable]
  simp only [readRoot, hsection, readCa_of (Holds.root c) h.root h.rootLabel]

theorem readIssuers_of
    {rootDays : Int}
    {l : List (String × SigningCa)}
    (h : ∀ e ∈ l, e.2.purpose = e.1 ∧ e.2.Valid oidText rootDays ∧ e.2.Labelled ∧
      e.2.profiles.Nodup) :
    readIssuers oidText rootDays
      (l.map fun e => (e.1, .table (sectionTable (caSection e)) false)) = ⟨l, []⟩ := by
  induction l with
  | nil => rfl
  | cons e rest ih =>
      obtain ⟨purpose, ca⟩ := e
      obtain ⟨hpurpose, hvalid, hlabel, hnodup⟩ := h _ List.mem_cons_self
      obtain rfl : ca.purpose = purpose := hpurpose
      have hca := readSigningCa_of (.of_valid hvalid hnodup ca.purpose) hvalid hlabel
      have hrest := ih fun e he => h e (List.mem_cons_of_mem _ he)
      simp only [List.map_cons, readIssuers, Value.asTable, hca, hrest, List.append_nil]

theorem readCas_of
    (h : c.Accepted oidText)
    (ht : Tables c t) :
    readCas oidText c.root.validDays t = ⟨c.cas, []⟩ := by
  have hissuers : readIssuers oidText c.root.validDays (issuersTable c) =
      ⟨c.cas.entries, []⟩ := by
    refine readIssuers_of fun e he => ?_
    have hfind := OrderedMap.mem_entries_iff.mp he
    obtain ⟨hpurpose, hvalid⟩ := h.cas e.1 e.2 hfind
    exact ⟨hpurpose, hvalid, h.labels e.1 e.2 hfind, h.profiles_nodup (List.mem_map_of_mem he)⟩
  simp only [readCas, ht.cas, Option.bind_some, Value.asTable, hissuers,
    OrderedMap.ofEntries_entries]

/-- No CA of an accepted configuration falls back on a default label. -/
theorem Config.Accepted.defaultUsed (h : c.Accepted oidText) :
    c.defaultUsed = false := by
  have hgen {ca : CaFields} (hlabel : ca.Labelled) : ca.takesDefault = false := by
    unfold CaFields.Labelled at hlabel
    unfold CaFields.takesDefault
    split_ifs at hlabel with htoken
    · simp [hlabel.1]
    · simp [htoken]
  rw [Config.defaultUsed, hgen h.rootLabel, Bool.false_or, List.any_eq_false]
  intro e he
  simp [hgen (h.labels e.1 e.2 (OrderedMap.mem_entries_iff.mp he))]

theorem resolvedLabel_of
    {ca : CaFields}
    (h : ca.Labelled)
    (default : String) :
    resolvedLabel default ca = ca.tokenLabel := by
  unfold CaFields.Labelled at h
  unfold resolvedLabel
  split_ifs at h ⊢ with htoken hempty
  · exact absurd hempty h.1
  · rfl
  · exact h.symm

/-- What the printed file declares is the configuration. -/
theorem declared_of
    (h : c.Accepted oidText)
    (ht : Tables c t) :
    declared oidText t = { c with unknown := unknownOf t } := by
  simp only [declared, readPki_of h ht, readPkcs11_of h ht, readRoot_of h ht, readCas_of h ht]

theorem labelErrors_of
    {ca : CaFields}
    (h : ca.Labelled)
    (default sec : String) :
    labelErrors default ca sec = [] := by
  rw [labelErrors_eq_nil, resolvedLabel_of h]
  exact h

/-- Labels that are resolved stay as they are. -/
theorem Config.Accepted.resolved (h : c.Accepted oidText) :
    c.resolved = c := by
  have hcas : c.cas.mapValues (fun ca =>
      { ca with tokenLabel := resolvedLabel c.pkcs11.tokenLabel ca.toCaFields }) = c.cas := by
    rw [OrderedMap.mapValues_eq_self_iff]
    intro ca hca
    obtain ⟨e, he, rfl⟩ := List.mem_map.mp hca
    rw [resolvedLabel_of (h.labels e.1 e.2 (OrderedMap.mem_entries_iff.mp he))]
  rw [Config.resolved, hcas, resolvedLabel_of h.rootLabel]

/-- A default label is all that the loader has against the printed file. -/
theorem loadErrors_of
    (h : c.Accepted oidText)
    (ht : Tables c t) :
    loadErrors oidText t = [] ↔ c.pkcs11.tokenLabel = "" := by
  have hlabels : (c.cas.entries.flatMap fun e =>
      labelErrors c.pkcs11.tokenLabel e.2.toCaFields ("ca." ++ e.1)) = [] := by
    rw [List.flatMap_eq_nil_iff]
    intro e he
    exact labelErrors_of (h.labels e.1 e.2 (OrderedMap.mem_entries_iff.mp he)) _ _
  have htokens : tokenErrors { c with unknown := unknownOf t } = [] ↔ c.pkcs11.tokenLabel = "" := by
    have hused : Config.defaultUsed { c with unknown := unknownOf t } = false := h.defaultUsed
    simp only [tokenErrors, List.append_eq_nil_iff, require_eq_nil, hused]
    constructor
    · rintro ⟨_, hdefault⟩
      by_contra hne
      exact hdefault ⟨hne, trivial⟩
    · intro hempty
      exact ⟨⟨labelErrors_of h.rootLabel _ _, hlabels⟩, fun hset => hset.1 hempty⟩
  have hclaims : claimErrors [] (Config.claims { c with unknown := unknownOf t }) = [] := h.claims
  have hdigits : digitErrors { c with unknown := unknownOf t } = [] := h.digits
  have hbackends : backendErrors { c with unknown := unknownOf t } = [] := h.backends
  simp only [loadErrors, declared_of h ht, readPki_of h ht, readPkcs11_of h ht, readRoot_of h ht,
    readCas_of h ht, hclaims, hdigits, hbackends, htokens, List.append_nil, List.nil_append]

/-- Without one the printed file loads as the configuration. -/
theorem loadTable_of
    (h : c.Accepted oidText)
    (ht : Tables c t)
    (hdefault : c.pkcs11.tokenLabel = "") :
    loadTable oidText t = .ok { c with unknown := unknownOf t } := by
  have hresolved : Config.resolved { c with unknown := unknownOf t } =
      { c with unknown := unknownOf t } := by
    conv_rhs => rw [← h.resolved]
    rfl
  rw [loadTable, if_pos ((loadErrors_of h ht).mpr hdefault), declared_of h ht, hresolved]

end Loaded

end Cfg
end Yca
