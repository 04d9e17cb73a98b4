import Yca.Cfg.Columns
import Mathlib.Data.List.TakeWhile

/-!
# The configuration in the store

What `init` locks of a configuration (`locked_global`, `lock_purpose`), what
`load_config` reads back, and what `reconcile` reports of a file against it.

Texts come back from the database up to their first NUL.  For an accepted
configuration nothing else changes on the way: `loadConfig_lock`.
-/

namespace Yca
namespace Cfg

open Yca.Core
open Yca.Core.Toml
open Acme (byteLen isDigit)
open Ca (validHostname)

section Numbers

/-- `std::isspace` in the C locale. -/
def isSpace (c : Char) : Bool :=
  c == ' ' || (decide ('\t' ≤ c) && decide (c ≤ '\r'))

/-- `std::stoi`; `none` where it throws. -/
def stoi (s : String) : Option Int :=
  let cs := s.toList.dropWhile isSpace
  let negative := cs.head? == some '-'
  let cs := if negative || cs.head? == some '+' then cs.drop 1 else cs
  let digits := cs.takeWhile isDigit
  let n : Int := Nat.ofDigitChars 10 digits 0
  let v := if negative then -n else n
  if digits = [] ∨ v < -2 ^ 31 ∨ 2 ^ 31 ≤ v then none else some v

end Numbers

section Rows

/-- `Statement::get_str` on what was bound: a text up to its first NUL. -/
def dbText (s : String) : String :=
  String.ofList (s.toList.takeWhile fun c => c != '\x00')

/-- A row of `ca_purpose`. -/
structure PurposeRow where
  purpose : String
  profiles : String
  cn : String
  curve : String
  digest : String
  validDays : Int
  slugPrefix : String
  slug : String
  keyBackend : String
  tokenLabel : String
  eeCurve : String
  eeDigest : String
  eeValidDays : Int
  simpleDn : Int
  permittedDns : String
  permittedEmail : String
  policies : String
  deriving DecidableEq

/-- The tables `ca_config` and `ca_purpose`. -/
structure Locked where
  config : List (String × String)
  purposes : List PurposeRow
  deriving DecidableEq

/-- `locked_global`. -/
def lockedGlobal (c : Config) : List (String × String) :=
  [ ("pki.org_name", c.pki.orgName),
    ("pki.country_code", c.pki.countryCode),
    ("pki.repository_host", c.pki.repositoryHost),
    ("pkcs11.module", c.pkcs11.module),
    ("pkcs11.token_label", c.pkcs11.tokenLabel),
    ("root.cn", c.root.cn),
    ("root.curve", c.root.curve),
    ("root.digest", c.root.digest),
    ("root.valid_days", toString c.root.validDays),
    ("root.slug_prefix", c.root.slugPrefix),
    ("root.slug", c.root.slug),
    ("root.key_backend", c.root.keyBackend),
    ("root.token_label", c.root.tokenLabel) ]

/-- `locked_purpose`. -/
def lockedPurpose (ca : SigningCa) : List (String × String) :=
  [ ("profiles", joinProfiles ca.profiles),
    ("cn", ca.cn),
    ("curve", ca.curve),
    ("digest", ca.digest),
    ("valid_days", toString ca.validDays),
    ("slug_prefix", ca.slugPrefix),
    ("slug", ca.slug),
    ("key_backend", ca.keyBackend),
    ("token_label", ca.tokenLabel),
    ("ee_curve", ca.eeCurve),
    ("ee_digest", ca.eeDigest),
    ("ee_valid_days", toString ca.eeValidDays),
    ("simple_dn", if ca.simpleDn then "1" else "0"),
    ("permitted_dns", joinProfiles ca.permittedDns),
    ("permitted_email", joinProfiles ca.permittedEmail),
    ("policies", joinPolicies ca.policies) ]

/-- `lock_purpose`: the row of one issuing CA. -/
def lockPurpose (ca : SigningCa) : PurposeRow where
  purpose := ca.purpose
  profiles := joinProfiles ca.profiles
  cn := ca.cn
  curve := ca.curve
  digest := ca.digest
  validDays := ca.validDays
  slugPrefix := ca.slugPrefix
  slug := ca.slug
  keyBackend := ca.keyBackend
  tokenLabel := ca.tokenLabel
  eeCurve := ca.eeCurve
  eeDigest := ca.eeDigest
  eeValidDays := ca.eeValidDays
  simpleDn := if ca.simpleDn then 1 else 0
  permittedDns := joinProfiles ca.permittedDns
  permittedEmail := joinProfiles ca.permittedEmail
  policies := joinPolicies ca.policies

/-- What `create` locks of a configuration. -/
def lock (c : Config) : Locked where
  config := lockedGlobal c
  purposes := c.cas.values.map lockPurpose

/-- One row of `ca_purpose` as `load_config` reads it. -/
def loadPurpose (row : PurposeRow) : SigningCa where
  purpose := dbText row.purpose
  profiles := splitProfiles (dbText row.profiles)
  cn := dbText row.cn
  curve := dbText row.curve
  digest := dbText row.digest
  validDays := toInt row.validDays
  slugPrefix := dbText row.slugPrefix
  slug := dbText row.slug
  keyBackend := dbText row.keyBackend
  tokenLabel := dbText row.tokenLabel
  eeCurve := dbText row.eeCurve
  eeDigest := dbText row.eeDigest
  eeValidDays := toInt row.eeValidDays
  simpleDn := row.simpleDn != 0
  permittedDns := splitProfiles (dbText row.permittedDns)
  permittedEmail := splitProfiles (dbText row.permittedEmail)
  policies := splitPolicies (dbText row.policies)

/-- `load_config`; `none` also where a number does not parse. -/
def loadConfig (l : Locked) : Option Config :=
  let m : OrderedMap String String := .ofEntries (l.config.map fun e => (dbText e.1, dbText e.2))
  let text := fun k => (m.find? k).getD ""
  let number := fun k =>
    match m.find? k with
    | none => some 0
    | some v => stoi v
  let cas : OrderedMap String SigningCa :=
    .ofEntries (l.purposes.map fun row => ((loadPurpose row).purpose, loadPurpose row))
  match number "root.valid_days" with
  | none => none
  | some validDays =>
      if l.config = [] ∨ cas.entries = [] then none
      else
        some
          { pki := ⟨text "pki.org_name", text "pki.country_code", text "pki.repository_host"⟩
            pkcs11 := ⟨text "pkcs11.module", text "pkcs11.token_label"⟩
            root :=
              { cn := text "root.cn"
                curve := text "root.curve"
                digest := text "root.digest"
                validDays := validDays
                slugPrefix := text "root.slug_prefix"
                slug := text "root.slug"
                keyBackend := text "root.key_backend"
                tokenLabel := text "root.token_label" }
            cas := cas
            unknown := [] }

/-- The `compare` of `reconcile`: the fields that differ. -/
def compareLocked (sec : String) (file eff : List (String × String)) : List String :=
  (file.zip eff).flatMap fun e =>
    let key := e.1.1
    require (e.1.2 = e.2.2)
      (s!"ignoring readonly params changed in yca.toml ([{sec}] {key}), " ++
        "check against 'get config'")

/-- `reconcile`: what a file has differently from the store. -/
def reconcile (file eff : Config) : List String :=
  compareLocked "pki/pkcs11/root" (lockedGlobal file) (lockedGlobal eff) ++
    (file.cas.entries.flatMap fun (purpose, ca) =>
      match eff.cas.find? purpose with
      | none => [s!"[ca.{purpose}] is declared but not created in the store"]
      | some held => compareLocked ("ca." ++ purpose) (lockedPurpose ca) (lockedPurpose held)) ++
    eff.cas.entries.flatMap fun (purpose, _) =>
      require ((file.cas.find? purpose).isSome = true)
        (s!"[ca.{purpose}] exists in the store but is missing from yca.toml; " ++
          "check against 'get config'")

end Rows

section Reconcile

/-- Two configurations agree on every locked field. -/
def SameLocked (file eff : Config) : Prop :=
  lockedGlobal file = lockedGlobal eff ∧
    ∀ purpose, (file.cas.find? purpose).map lockedPurpose = (eff.cas.find? purpose).map lockedPurpose

theorem compareLocked_eq_nil
    {sec : String}
    {file eff : List (String × String)}
    (hkeys : file.map Prod.fst = eff.map Prod.fst) :
    compareLocked sec file eff = [] ↔ file = eff := by
  induction file generalizing eff with
  | nil =>
      cases eff with
      | nil => simp [compareLocked]
      | cons e rest => simp at hkeys
  | cons f fs ih =>
      cases eff with
      | nil => simp at hkeys
      | cons e es =>
          simp only [List.map_cons, List.cons.injEq] at hkeys
          have hrest := ih hkeys.2
          simp only [compareLocked] at hrest ⊢
          rw [List.zip_cons_cons, List.flatMap_cons, List.append_eq_nil_iff, hrest,
            require_eq_nil, List.cons.injEq]
          constructor
          · rintro ⟨hv, hes⟩
            exact ⟨Prod.ext hkeys.1 hv, hes⟩
          · rintro ⟨rfl, hes⟩
            exact ⟨rfl, hes⟩

theorem compareLocked_purpose
    {sec : String}
    {ca held : SigningCa} :
    compareLocked sec (lockedPurpose ca) (lockedPurpose held) = [] ↔
      lockedPurpose ca = lockedPurpose held :=
  compareLocked_eq_nil rfl

/-- Nothing is reported exactly when every locked field is the same. -/
theorem reconcile_eq_nil
    {file eff : Config} :
    reconcile file eff = [] ↔ SameLocked file eff := by
  have hkeys : (lockedGlobal file).map Prod.fst = (lockedGlobal eff).map Prod.fst := rfl
  simp only [reconcile, List.append_eq_nil_iff, List.flatMap_eq_nil_iff, require_eq_nil,
    compareLocked_eq_nil hkeys]
  constructor
  · rintro ⟨⟨hglobal, hfile⟩, heff⟩
    refine ⟨hglobal, fun purpose => ?_⟩
    cases hf : file.cas.find? purpose with
    | none =>
        cases he : eff.cas.find? purpose with
        | none => rfl
        | some held =>
            have hmem := heff (purpose, held) (OrderedMap.mem_entries_iff.mpr he)
            rw [hf] at hmem
            simp at hmem
    | some ca =>
        have hcompare := hfile (purpose, ca) (OrderedMap.mem_entries_iff.mpr hf)
        cases he : eff.cas.find? purpose with
        | none =>
            rw [he] at hcompare
            simp at hcompare
        | some held =>
            rw [he] at hcompare
            exact congrArg some (compareLocked_purpose.mp hcompare)
  · rintro ⟨hglobal, hcas⟩
    refine ⟨⟨hglobal, ?_⟩, ?_⟩
    · rintro ⟨purpose, ca⟩ hmem
      have hf := OrderedMap.mem_entries_iff.mp hmem
      have hsame := hcas purpose
      rw [hf] at hsame
      cases he : eff.cas.find? purpose with
      | none =>
          rw [he] at hsame
          simp at hsame
      | some held =>
          rw [he] at hsame
          exact compareLocked_purpose.mpr (Option.some.inj hsame)
    · rintro ⟨purpose, held⟩ hmem
      have he := OrderedMap.mem_entries_iff.mp hmem
      have hsame := hcas purpose
      rw [he] at hsame
      cases hf : file.cas.find? purpose with
      | none =>
          rw [hf] at hsame
          simp at hsame
      | some ca => rfl

end Reconcile

section RoundTrip

/-- A text comes back unless a NUL cuts it short. -/
theorem dbText_eq_self_iff {s : String} :
    dbText s = s ↔ '\x00' ∉ s.toList := by
  unfold dbText
  rw [← String.toList_inj, String.toList_ofList]
  constructor
  · intro h hmem
    simpa using List.takeWhile_eq_self_iff.mp h _ hmem
  · exact takeWhile_of_not_mem

theorem Word.dbText
    {s : String}
    (h : Word s) :
    dbText s = s :=
  dbText_eq_self_iff.mpr (h.not_mem (by decide))

/-- A digit is no blank and no sign. -/
theorem isDigit_bounds
    {c : Char}
    (h : isDigit c = true) :
    48 ≤ c.toNat ∧ c.toNat ≤ 57 := by
  simp only [isDigit, Bool.and_eq_true, decide_eq_true_eq] at h
  exact ⟨h.1, h.2⟩

theorem stoi_digits
    {d : Char}
    {ds : List Char}
    (h : ∀ c ∈ d :: ds, isDigit c = true)
    (hlt : (Nat.ofDigitChars 10 (d :: ds) 0 : Int) < 2 ^ 31)
    {s : String}
    (hs : s.toList = d :: ds) :
    stoi s = some (Nat.ofDigitChars 10 (d :: ds) 0 : Int) := by
  obtain ⟨hlo, hhi⟩ := isDigit_bounds (h d List.mem_cons_self)
  have hblank : isSpace d = false := by
    simp only [isSpace, Bool.or_eq_false_iff, beq_eq_false_iff_ne, ne_eq, Bool.and_eq_false_iff,
      decide_eq_false_iff_not]
    constructor
    · rintro rfl
      revert hlo
      decide
    · right
      intro hcr
      have hle : d.toNat ≤ 13 := hcr
      omega
  have hminus : d ≠ '-' := by
    rintro rfl
    revert hlo
    decide
  have hplus : d ≠ '+' := by
    rintro rfl
    revert hlo
    decide
  have hdrop : (d :: ds).dropWhile isSpace = d :: ds :=
    List.dropWhile_cons_of_neg (by simp [hblank])
  have htake : (d :: ds).takeWhile isDigit = d :: ds :=
    List.takeWhile_eq_self_iff.mpr h
  have hrange : ¬ ((Nat.ofDigitChars 10 (d :: ds) 0 : Int) < -2 ^ 31 ∨
      2 ^ 31 ≤ (Nat.ofDigitChars 10 (d :: ds) 0 : Int)) := by
    omega
  simp [stoi, hs, hdrop, htake, hminus, hplus]
  omega

/-- A positive number is read back from its text. -/
theorem stoi_toString
    {n : Int}
    (hpos : 0 < n)
    (hlt : n < 2 ^ 31) :
    stoi (toString n) = some n := by
  obtain ⟨m, rfl⟩ : ∃ m : Nat, n = m := ⟨n.toNat, by omega⟩
  have hlist : (toString (m : Int)).toList = Nat.toDigits 10 m := by
    show (toString m).toList = _
    rw [Nat.toString_eq_ofList_toDigits, String.toList_ofList]
  have hvalue : Nat.ofDigitChars 10 (Nat.toDigits 10 m) 0 = m := Nat.ofDigitChars_ten_toDigits
  have hdigits : ∀ c ∈ Nat.toDigits 10 m, isDigit c = true := by
    intro c hc
    refine Ca.decimal_toString (n := m) ?_
    rw [Nat.toString_eq_ofList_toDigits, String.toList_ofList]
    exact hc
  cases hcons : Nat.toDigits 10 m with
  | nil => exact absurd hcons Nat.toDigits_ne_nil
  | cons d ds =>
      rw [hcons] at hlist hvalue hdigits
      have hread := stoi_digits hdigits (by rw [hvalue]; exact hlt) hlist
      rw [hvalue] at hread
      exact hread

/-- The texts of a configuration that `load` takes as they are. -/
def CaFields.freeTexts (ca : CaFields) : List String :=
  [ca.cn, ca.tokenLabel]

def Config.freeTexts (c : Config) : List String :=
  [c.pki.orgName, c.pkcs11.module, c.pkcs11.tokenLabel] ++ c.root.freeTexts ++
    c.cas.values.flatMap fun ca => ca.freeTexts

/-- The fields of a CA as they come back. -/
def CaFields.stored (ca : CaFields) : CaFields :=
  { ca with
    cn := dbText ca.cn
    tokenLabel := dbText ca.tokenLabel }

def SigningCa.stored (ca : SigningCa) : SigningCa :=
  { ca with toCaFields := ca.toCaFields.stored }

/-- A configuration as it comes back from the store. -/
def Config.stored (c : Config) : Config where
  pki := { c.pki with orgName := dbText c.pki.orgName }
  pkcs11 := ⟨dbText c.pkcs11.module, dbText c.pkcs11.tokenLabel⟩
  root := c.root.stored
  cas := c.cas.mapValues SigningCa.stored
  unknown := []

/-- Lists of words come back. -/
theorem splitProfiles_dbText
    {l : List String}
    (h : ∀ p ∈ l, Word p ∧ p ≠ "") :
    splitProfiles (dbText (joinProfiles l)) = l := by
  have hnul : '\x00' ∉ (joinProfiles l).toList := by
    intro hmem
    rcases mem_joinSep (fun p hp => (h p hp).2) hmem with heq | ⟨p, hp, hmem⟩
    · revert heq
      decide
    · exact (h p hp).1.not_mem (by decide) hmem
  rw [dbText_eq_self_iff.mpr hnul, splitProfiles_joinProfiles (separable_of_words h)]

/-- Policy maps come back. -/
theorem splitPolicies_dbText
    {policies : OrderedMap String (List String)}
    (h : ∀ prof oids, policies.find? prof = some oids →
      Word prof ∧ ∀ oid ∈ oids, Word oid ∧ oid ≠ "") :
    splitPolicies (dbText (joinPolicies policies)) = policies := by
  have hne : ∀ p ∈ policies.entries.map joinPolicy, p ≠ "" := by
    intro p hp
    obtain ⟨e, _, rfl⟩ := List.mem_map.mp hp
    exact joinPolicy_ne_empty e
  have hnul : '\x00' ∉ (joinPolicies policies).toList := by
    intro hmem
    rcases mem_joinSep hne hmem with heq | ⟨p, hp, hmem⟩
    · revert heq
      decide
    · obtain ⟨e, he, rfl⟩ := List.mem_map.mp hp
      obtain ⟨hprof, hoids⟩ := h e.1 e.2 (OrderedMap.mem_entries_iff.mp he)
      rcases mem_joinPolicy (fun oid hoid => (hoids oid hoid).2) hmem with hmem | hmem | hmem | hmem
      · exact hprof.not_mem (by decide) hmem
      · revert hmem
        decide
      · revert hmem
        decide
      · obtain ⟨oid, hoid, hmem⟩ := hmem
        exact (hoids oid hoid).1.not_mem (by decide) hmem
  rw [dbText_eq_self_iff.mpr hnul, splitPolicies_joinPolicies (separablePolicies_of_words h)]

end RoundTrip

section Snapshot

variable {oidText : String → Option String}

theorem slug_word
    {ca : CaFields}
    (h : ca.Valid) :
    Word ca.slug := by
  rw [h.slug]
  intro c hc
  rw [String.toList_append] at hc
  rcases List.mem_append.mp hc with hc | hc
  · exact word_of_slug h.slugPrefix.2 c hc
  · have heq : c = '1' := by simpa using hc
    rw [heq]
    decide

theorem backend_word
    {ca : CaFields}
    (h : ca.Valid) :
    Word ca.keyBackend := by
  rcases h.keyBackend with heq | heq
  · rw [heq]
    decide
  · rw [heq]
    decide

/-- One CA comes back from its row up to the NULs in its free texts. -/
theorem loadPurpose_lockPurpose
    (hoid : DottedDecimal oidText)
    {ca : SigningCa}
    {rootDays : Int}
    (h : ca.Valid oidText rootDays) :
    loadPurpose (lockPurpose ca) = ca.stored := by
  obtain ⟨hprofileWords, hdnsWords, hemailWords, hpolicyWords⟩ := h.words hoid
  have hprofiles := splitProfiles_dbText hprofileWords
  have hdns := splitProfiles_dbText hdnsWords
  have hemail := splitProfiles_dbText hemailWords
  have hpolicies := splitPolicies_dbText hpolicyWords
  have hdays := toInt_of_lt h.validDays.1 h.validDays.2
  have hee : toInt ca.eeValidDays = ca.eeValidDays := by
    have hlt := h.validDays.2
    have houtlived := h.outlived
    exact toInt_of_lt h.eeValidDays (by omega)
  have hsimple : ((if ca.simpleDn then 1 else 0 : Int) != 0) = ca.simpleDn := by
    cases ca.simpleDn
    · rfl
    · rfl
  simp only [loadPurpose, lockPurpose, SigningCa.stored, CaFields.stored, hprofiles, hdns, hemail,
    hpolicies, hdays, hee, hsimple, (word_of_slug h.purpose).dbText,
    (word_of_mem_curves h.curve).dbText, (word_of_mem_digests h.digest).dbText,
    (word_of_slug h.slugPrefix.2).dbText, (slug_word h.toValid).dbText,
    (backend_word h.toValid).dbText, (word_of_mem_curves h.eeCurve).dbText,
    (word_of_mem_digests h.eeDigest).dbText]

/-- The purposes that come back are those that were locked. -/
theorem loadPurposes_lock
    (hoid : DottedDecimal oidText)
    {c : Config}
    (h : c.Accepted oidText) :
    OrderedMap.ofEntries ((lock c).purposes.map fun row => ((loadPurpose row).purpose, loadPurpose row)) =
      c.cas.mapValues SigningCa.stored := by
  have hentries : (lock c).purposes.map (fun row => ((loadPurpose row).purpose, loadPurpose row)) =
      (c.cas.mapValues SigningCa.stored).entries := by
    simp only [lock, OrderedMap.values, OrderedMap.mapValues, List.map_map]
    refine List.map_congr_left fun e he => ?_
    obtain ⟨hpurpose, hvalid⟩ := h.cas e.1 e.2 (OrderedMap.mem_entries_iff.mp he)
    simp only [Function.comp_apply, loadPurpose_lockPurpose hoid hvalid]
    exact Prod.ext hpurpose rfl
  rw [hentries]
  exact OrderedMap.ofEntries_entries _

/-- Keys are plain texts, values may be cut short. -/
theorem lockedGlobal_read (c : Config) :
    (lockedGlobal c).map (fun e => (dbText e.1, dbText e.2)) =
      (lockedGlobal c).map fun e => (e.1, dbText e.2) := by
  have hkeys : (lockedGlobal c).map Prod.fst =
      ["pki.org_name", "pki.country_code", "pki.repository_host", "pkcs11.module",
        "pkcs11.token_label", "root.cn", "root.curve", "root.digest", "root.valid_days",
        "root.slug_prefix", "root.slug", "root.key_backend", "root.token_label"] := rfl
  have hword : ∀ k ∈ (lockedGlobal c).map Prod.fst, dbText k = k := by
    rw [hkeys]
    decide
  refine List.map_congr_left fun e he => ?_
  rw [hword e.1 (List.mem_map_of_mem he)]

theorem dbText_toString
    {n : Int}
    (hpos : 0 < n) :
    dbText (toString n) = toString n := by
  obtain ⟨m, rfl⟩ : ∃ m : Nat, n = m := ⟨n.toNat, by omega⟩
  refine dbText_eq_self_iff.mpr fun hmem => ?_
  have hdigit : Ca.decimal '\x00' = true := Ca.decimal_toString (n := m) hmem
  revert hdigit
  decide

/-- What `load_config` makes of what `create` locked. -/
theorem loadConfig_lock
    (hoid : DottedDecimal oidText)
    {c : Config}
    (h : c.Accepted oidText) :
    loadConfig (lock c) = if c.cas.entries = [] then none else some c.stored := by
  have hdays := stoi_toString h.root.validDays.1 h.root.validDays.2
  have hcas : (c.cas.mapValues SigningCa.stored).entries = [] ↔ c.cas.entries = [] := by
    simp [OrderedMap.mapValues]
  have htable : (lock c).config = lockedGlobal c := rfl
  unfold loadConfig
  simp only [loadPurposes_lock hoid h, hcas, htable, lockedGlobal_read, OrderedMap.find?_ofEntries]
  simp only [lockedGlobal, List.map_cons, List.map_nil, List.lookup_cons, String.reduceBEq,
    dbText_toString h.root.validDays.1, hdays]
  simp only [List.cons_ne_nil, false_or, Option.getD_some,
    (word_of_countryCode h.countryCode.2).dbText, (word_of_hostPort h.repositoryHost.2).dbText,
    (word_of_mem_curves h.root.curve).dbText, (word_of_mem_digests h.root.digest).dbText,
    (word_of_slug h.root.slugPrefix.2).dbText, (slug_word h.root).dbText,
    (backend_word h.root).dbText]
  rfl

theorem CaFields.stored_eq_self_iff {ca : CaFields} :
    ca.stored = ca ↔ ∀ s ∈ ca.freeTexts, '\x00' ∉ s.toList := by
  simp only [freeTexts, List.mem_cons, List.not_mem_nil, or_false, forall_eq_or_imp, forall_eq,
    ← dbText_eq_self_iff]
  constructor
  · intro h
    exact ⟨congrArg CaFields.cn h, congrArg CaFields.tokenLabel h⟩
  · rintro ⟨hcn, hlabel⟩
    simp only [stored, hcn, hlabel]

theorem SigningCa.stored_eq_self_iff {ca : SigningCa} :
    ca.stored = ca ↔ ca.toCaFields.stored = ca.toCaFields := by
  constructor
  · intro h
    exact congrArg SigningCa.toCaFields h
  · intro h
    simp only [stored, h]

/-- A configuration comes back as it was exactly when no free text holds a NUL. -/
theorem Config.stored_eq_iff {c : Config} :
    c.stored = { c with unknown := [] } ↔ ∀ s ∈ c.freeTexts, '\x00' ∉ s.toList := by
  have hfields : c.stored = { c with unknown := [] } ↔
      dbText c.pki.orgName = c.pki.orgName ∧ dbText c.pkcs11.module = c.pkcs11.module ∧
        dbText c.pkcs11.tokenLabel = c.pkcs11.tokenLabel ∧ c.root.stored = c.root ∧
          c.cas.mapValues SigningCa.stored = c.cas := by
    constructor
    · intro h
      exact ⟨congrArg (fun c => c.pki.orgName) h, congrArg (fun c => c.pkcs11.module) h,
        congrArg (fun c => c.pkcs11.tokenLabel) h, congrArg Config.root h, congrArg Config.cas h⟩
    · rintro ⟨horg, hmodule, hlabel, hroot, hcas⟩
      simp only [stored, horg, hmodule, hlabel, hroot, hcas]
  rw [hfields, OrderedMap.mapValues_eq_self_iff]
  simp only [freeTexts, List.mem_append, List.mem_cons, List.not_mem_nil, or_false, or_imp,
    forall_and, forall_eq, List.mem_flatMap, forall_exists_index, and_imp, and_assoc,
    dbText_eq_self_iff, CaFields.stored_eq_self_iff, SigningCa.stored_eq_self_iff]
  constructor
  · rintro ⟨horg, hmodule, hlabel, hroot, hcas⟩
    exact ⟨horg, hmodule, hlabel, hroot, fun s ca hca hs => hcas ca hca s hs⟩
  · rintro ⟨horg, hmodule, hlabel, hroot, hcas⟩
    exact ⟨horg, hmodule, hlabel, hroot, fun ca hca s hs => hcas s ca hca hs⟩

/-- **The locked configuration.**  What `init` locks of a loaded configuration
is read back as it was exactly when there is a CA to read back and no free text
holds a NUL. -/
theorem locked_read_back_iff
    (hoid : DottedDecimal oidText)
    {parse : String → Except ParseError Table}
    {path : String}
    {file : Option String}
    {c : Config}
    (h : load oidText parse path file = .ok c) :
    loadConfig (lock c) = some { c with unknown := [] } ↔
      c.cas.entries ≠ [] ∧ ∀ s ∈ c.freeTexts, '\x00' ∉ s.toList := by
  rw [loadConfig_lock hoid (load_accepted h), ← Config.stored_eq_iff]
  split_ifs with hempty
  · simp [hempty]
  · simp [hempty]

theorem locked_read_back_sample :
    loadConfig (lock (sampleConfig "Example Ltd")) =
        some { sampleConfig "Example Ltd" with unknown := [] } ↔
      (sampleConfig "Example Ltd").cas.entries ≠ [] ∧
        ∀ s ∈ (sampleConfig "Example Ltd").freeTexts, '\x00' ∉ s.toList :=
  locked_read_back_iff sampleOid_dotted (sample_load "Example Ltd" sample_errors)

/-- A NUL that TOML spells `\u0000` cuts the organization short. -/
theorem locked_cut_short :
    load sampleOid (sampleParse "Example\\u0000Ltd" "Example\x00Ltd") "yca.toml"
        (some (sampleText "Example\\u0000Ltd")) = .ok (sampleConfig "Example\x00Ltd") ∧
      (loadConfig (lock (sampleConfig "Example\x00Ltd"))).map (fun c => c.pki.orgName) =
        some "Example" ∧
      (sampleConfig "Example\x00Ltd").pki.orgName ≠ "Example" := by
  refine ⟨sample_load _ (by decide), ?_, ?_⟩
  · decide
  · decide

end Snapshot

end Cfg
end Yca
