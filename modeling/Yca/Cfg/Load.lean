import Yca.Ca.Founding
import Yca.Ca.Names
import Yca.Cfg.Config
import Yca.Core.Toml

/-!
# Loading a configuration

`cfg::load` on a parsed file: the reads of every section with their messages,
the laws that span the sections, and the token labels a configuration resolves
to.  The text of a file becomes a table by a parser that is a parameter, and so
is the text Botan makes of an object identifier.

A configuration that was loaded is `Accepted`: the checks hold of its values.
-/

namespace Yca
namespace Cfg

open Yca.Core
open Yca.Core.Toml
open Acme (byteLen isDigit)
open Ca (validHostname digitsApart)

section Checks

/-- `kCurves`. -/
def curves : List String :=
  ["secp256r1", "secp384r1", "secp521r1"]

/-- `kDigests`. -/
def digests : List String :=
  ["SHA-256", "SHA-384", "SHA-512"]

/-- `kSections`. -/
def sections : List String :=
  ["pki", "pkcs11", "root", "ca"]

/-- `kPkiKeys`. -/
def pkiKeys : List String :=
  ["org_name", "country_code", "repository_host"]

/-- `kPkcs11Keys`. -/
def pkcs11Keys : List String :=
  ["module", "token_label"]

/-- `kCaKeys`. -/
def caKeys : List String :=
  ["cn", "curve", "digest", "valid_days", "slug_prefix", "key_backend", "token_label"]

/-- `kSigningCaKeys`. -/
def signingCaKeys : List String :=
  ["profiles", "ee_curve", "ee_digest", "ee_valid_days", "simple_dn", "permitted_dns",
    "permitted_email", "policies"]

/-- `app::p11_token_label_max`. -/
def p11TokenLabelMax : Nat := 32

def joined (l : List String) : String :=
  ", ".intercalate l

/-- `two_letters`. -/
def twoLetters (s : String) : Bool :=
  s.toList.length == 2 &&
    s.toList.all fun c => decide ('A' ≤ c ∧ c ≤ 'Z') || decide ('a' ≤ c ∧ c ≤ 'z')

/-- `valid_slug`. -/
def validSlug (s : String) : Bool :=
  s.toList.all fun c =>
    decide ('a' ≤ c ∧ c ≤ 'z') || decide ('0' ≤ c ∧ c ≤ '9') || c == '.' || c == '-'

/-- The number in front of nothing: what `valid_host_port` makes of a port. -/
def portNumber (port : List Char) : Nat :=
  port.foldl (fun v c => v * 10 + (c.toNat - 48)) 0

/-- `valid_host_port`. -/
def validHostPort (s : String) : Bool :=
  let host := s.toList.takeWhile fun c => c != ':'
  let port := s.toList.drop (host.length + 1)
  if s.toList.contains ':' then
    if port.isEmpty || decide (byteLen port > 5) || !port.all isDigit then false
    else if portNumber port < 1 ∨ portNumber port > 65535 then false
    else validHostname host
  else validHostname host

/-- One message, unless a condition holds. -/
def require (p : Prop) [Decidable p] (msg : String) : List String :=
  if p then [] else [msg]

@[simp] theorem require_eq_nil
    (p : Prop)
    [Decidable p]
    (msg : String) :
    require p msg = [] ↔ p := by
  unfold require
  split_ifs with h
  · simp [h]
  · simp [h]

end Checks

section Readers

/-- What was read, and the messages it gave. -/
structure Checked (α : Type) where
  value : α
  errs : List String

/-- Check a value that was read without complaint. -/
def Checked.check {α : Type} (r : Checked α) (f : α → List String) : Checked α :=
  ⟨r.value, if r.errs = [] then f r.value else r.errs⟩

@[simp] theorem Checked.check_value
    {α : Type}
    (r : Checked α)
    (f : α → List String) :
    (r.check f).value = r.value := by
  rfl

@[simp] theorem Checked.check_errs
    {α : Type}
    (r : Checked α)
    (f : α → List String) :
    (r.check f).errs = [] ↔ r.errs = [] ∧ f r.value = [] := by
  unfold Checked.check
  by_cases h : r.errs = []
  · simp [h]
  · simp [h]

/-- `get_str`; `old` is what the field holds before. -/
def getStr (t : Table) (sec key old : String) : Checked String :=
  match (t.lookup key).bind Value.asString with
  | some v => ⟨v, require (v ≠ "") s!"[{sec}] {key}: empty value"⟩
  | none => ⟨old, [s!"[{sec}] {key}: missing or not a string"]⟩

/-- `static_cast<int>` of a 64-bit integer. -/
def toInt (n : Int) : Int :=
  n.bmod (2 ^ 32)

/-- `get_int`. -/
def getInt (t : Table) (sec key : String) : Checked Int :=
  match (t.lookup key).bind Value.asInteger with
  | some v => ⟨toInt v, []⟩
  | none => ⟨0, [s!"[{sec}] {key}: missing or not an integer"]⟩

/-- `get_bool`. -/
def getBool (t : Table) (sec key : String) : Checked Bool :=
  match (t.lookup key).bind Value.asBoolean with
  | some v => ⟨v, []⟩
  | none => ⟨false, [s!"[{sec}] {key}: must be a boolean"]⟩

/-- `check_curve`. -/
def checkCurve (sec key v : String) : List String :=
  let allowed := joined curves
  require (v ∈ curves) s!"[{sec}] {key}: invalid curve '{v}' (allowed: {allowed})"

/-- `check_digest`. -/
def checkDigest (sec key v : String) : List String :=
  let allowed := joined digests
  require (v ∈ digests) s!"[{sec}] {key}: invalid digest '{v}' (allowed: {allowed})"

/-- `check_slug`. -/
def checkSlug (sec key v : String) : List String :=
  require (validSlug v = true)
    (s!"[{sec}] {key}: only lowercase ASCII [a-z0-9.-] allowed (used verbatim " ++
      s!"in URLs and file names), got '{v}'")

/-- `check_backend`. -/
def checkBackend (sec v : String) : List String :=
  require (v = "internal" ∨ v = "pkcs11")
    s!"[{sec}] key_backend: must be \"internal\" or \"pkcs11\", got '{v}'"

/-- `require_table`. -/
def requireTable (tbl : Table) (name : String) : Checked (Option Table) :=
  match tbl.lookup name with
  | none => ⟨none, [s!"missing section [{name}]"]⟩
  | some node =>
      match node.asTable with
      | none => ⟨none, [s!"[{name}] must be a section"]⟩
      | some t => ⟨some t, []⟩

/-- A field that may be absent. -/
def optional {α : Type} (t : Table) (key : String) (absent : α) (r : Checked α) : Checked α :=
  if (t.lookup key).isSome then r else ⟨absent, []⟩

/-- `read_ca`. -/
def readCa (t : Table) (sec : String) : Checked CaFields :=
  let cn := getStr t sec "cn" ""
  let curve := (getStr t sec "curve" "").check (checkCurve sec "curve")
  let digest := (getStr t sec "digest" "").check (checkDigest sec "digest")
  let validDays :=
    (getInt t sec "valid_days").check fun v => require (0 < v) s!"[{sec}] valid_days: must be > 0"
  let slugPrefix := (getStr t sec "slug_prefix" "").check (checkSlug sec "slug_prefix")
  let keyBackend :=
    optional t "key_backend" "internal"
      ((getStr t sec "key_backend" "internal").check (checkBackend sec))
  let tokenLabel := optional t "token_label" "" (getStr t sec "token_label" "")
  { value :=
      { cn := cn.value
        curve := curve.value
        digest := digest.value
        validDays := validDays.value
        slugPrefix := slugPrefix.value
        slug := slugPrefix.value ++ "1"
        keyBackend := keyBackend.value
        tokenLabel := tokenLabel.value }
    errs :=
      cn.errs ++ curve.errs ++ digest.errs ++ validDays.errs ++ slugPrefix.errs ++
        keyBackend.errs ++ tokenLabel.errs }

/-- `[pki]`. -/
def readPki (tbl : Table) : Checked Pki :=
  let section? := requireTable tbl "pki"
  match section?.value with
  | none => ⟨⟨"", "", ""⟩, section?.errs⟩
  | some t =>
      let orgName := getStr t "pki" "org_name" ""
      let countryCode :=
        (getStr t "pki" "country_code" "").check fun v =>
          require (twoLetters v = true) s!"[pki] country_code: must be 2 letters, got '{v}'"
      let repositoryHost :=
        (getStr t "pki" "repository_host" "").check fun v =>
          require (validHostPort v = true)
            ("[pki] repository_host: must be a DNS host name, optionally with :port " ++
              s!"(no underscores, scheme, or path), got '{v}'")
      ⟨⟨orgName.value, countryCode.value, repositoryHost.value⟩,
        orgName.errs ++ countryCode.errs ++ repositoryHost.errs⟩

/-- `[pkcs11]`, which may be absent. -/
def readPkcs11 (tbl : Table) : Checked Pkcs11 :=
  match tbl.lookup "pkcs11" with
  | none => ⟨⟨"", ""⟩, []⟩
  | some node =>
      match node.asTable with
      | none => ⟨⟨"", ""⟩, ["[pkcs11] must be a section"]⟩
      | some t =>
          let module := optional t "module" "" (getStr t "pkcs11" "module" "")
          let tokenLabel := optional t "token_label" "" (getStr t "pkcs11" "token_label" "")
          ⟨⟨module.value, tokenLabel.value⟩, module.errs ++ tokenLabel.errs⟩

/-- `[root]`. -/
def readRoot (tbl : Table) : Checked CaFields :=
  let section? := requireTable tbl "root"
  match section?.value with
  | none => ⟨⟨"", "", "", 0, "", "", "internal", ""⟩, section?.errs⟩
  | some t => readCa t "root"

end Readers

section Issuers

-- The text Botan makes of an object identifier, `none` where it throws.
variable (oidText : String → Option String)

/-- The entries of `profiles`. -/
def readProfiles (sec : String) : List Value → Checked (List String)
  | [] => ⟨[], []⟩
  | p :: rest =>
      let more := readProfiles sec rest
      match p.asString with
      | none => ⟨more.value, s!"[{sec}] profiles: entries must be strings" :: more.errs⟩
      | some name =>
          let known := joined (profileDefs.map Prod.fst)
          ⟨name :: more.value,
            require ((findProfile name).isSome = true)
                s!"[{sec}] profiles: unknown profile '{name}' (known: {known})" ++
              more.errs⟩

/-- `profiles`. -/
def readProfileList (t : Table) (sec : String) : Checked (List String) :=
  match (t.lookup "profiles").bind Value.asArray with
  | none => ⟨[], [s!"[{sec}] profiles: missing or not an array"]⟩
  | some arr =>
      let profiles := readProfiles sec arr
      ⟨profiles.value,
        profiles.errs ++
          require (profiles.value ≠ [])
            (s!"[{sec}] profiles: must list at least one profile; a CA that issues nothing has " ++
              "no reason to exist")⟩

/-- The profiles that refuse `simple_dn`. -/
def checkSimpleDn (sec : String) (profiles : List String) (simple : Bool) : List String :=
  if simple then
    profiles.flatMap fun name =>
      match findProfile name with
      | none => []
      | some d =>
          require (fullDn d = false)
            (s!"[{sec}] simple_dn: the '{name}' profile requires an organizational " ++
              "subject (C and O beside the CN)")
  else []

/-- `simple_dn`. -/
def readSimpleDn (t : Table) (sec : String) (profiles : List String) : Checked Bool :=
  optional t "simple_dn" false
    ((getBool t sec "simple_dn").check (checkSimpleDn sec profiles))

/-- The host of a subtree: an e-mail constraint may start with a full stop. -/
def subtreeHost (email : Bool) (name : String) : List Char :=
  if email && ['.'].isPrefixOf name.toList then name.toList.drop 1 else name.toList

/-- What is wrong with a subtree, if anything. -/
def checkSubtree (sec field : String) (email : Bool) (name : String) : List String :=
  if email && name.toList.contains '@' then
    [s!"[{sec}] {field}: '{name}' is a mailbox; a constraint is a domain, " ++
      "optionally preceded by a full stop"]
  else
    require (validHostname (subtreeHost email name) = true)
      s!"[{sec}] {field}: '{name}' is not a DNS host name"

/-- The entries of a list of subtrees. -/
def readSubtreeEntries (sec field : String) (email : Bool) : List Value → Checked (List String)
  | [] => ⟨[], []⟩
  | v :: rest =>
      let more := readSubtreeEntries sec field email rest
      match v.asString with
      | none => ⟨more.value, s!"[{sec}] {field}: entries must be strings" :: more.errs⟩
      | some name =>
          match checkSubtree sec field email name with
          | [] => ⟨name :: more.value, more.errs⟩
          | errs => ⟨more.value, errs ++ more.errs⟩

/-- `read_subtrees`. -/
def readSubtrees (t : Table) (sec field : String) (email : Bool) : Checked (List String) :=
  match (t.lookup field).bind Value.asArray with
  | none =>
      ⟨[], require ((t.lookup field).isSome = false) s!"[{sec}] {field}: must be an array"⟩
  | some arr =>
      let subtrees := readSubtreeEntries sec field email arr
      ⟨subtrees.value,
        subtrees.errs ++
          require (subtrees.value ≠ [])
            s!"[{sec}] {field}: must list at least one subtree when present"⟩

/-- An object identifier in the form Botan prints it. -/
def ValidOid (oid : String) : Prop :=
  oid ≠ "" ∧ oidText oid = some oid

instance (oid : String) : Decidable (ValidOid oidText oid) :=
  inferInstanceAs (Decidable (_ ∧ _))

/-- What is wrong with a policy after the ones before it, if anything. -/
def checkOid (sec prof : String) (oids : List String) (oid : String) : List String :=
  if ¬ ValidOid oidText oid then [s!"[{sec}] policies.{prof}: invalid OID '{oid}'"]
  else if oid = "2.5.29.32.0" then
    [s!"[{sec}] policies.{prof}: anyPolicy is not a certificate policy"]
  else require (oid ∉ oids) s!"[{sec}] policies.{prof}: duplicate OID '{oid}'"

/-- The policies of one profile, behind those it has. -/
def readOids (sec prof : String) : List String → List Value → Checked (List String)
  | oids, [] => ⟨oids, []⟩
  | oids, v :: rest =>
      match v.asString with
      | none =>
          let more := readOids sec prof oids rest
          ⟨more.value, s!"[{sec}] policies.{prof}: entries must be strings" :: more.errs⟩
      | some oid =>
          match checkOid oidText sec prof oids oid with
          | [] => readOids sec prof (oids ++ [oid]) rest
          | errs =>
              let more := readOids sec prof oids rest
              ⟨more.value, errs ++ more.errs⟩

/-- The entries of `policies`. -/
def readPolicyEntries (sec : String) (profiles : List String) :
    OrderedMap String (List String) → Table → Checked (OrderedMap String (List String))
  | policies, [] => ⟨policies, []⟩
  | policies, (prof, pv) :: rest =>
      if prof ∉ profiles then
        let more := readPolicyEntries sec profiles policies rest
        ⟨more.value, s!"[{sec}] policies.{prof}: not a profile this CA lists" :: more.errs⟩
      else
        match pv.asArray with
        | none =>
            let more := readPolicyEntries sec profiles policies rest
            ⟨more.value, s!"[{sec}] policies.{prof}: must be an array" :: more.errs⟩
        | some arr =>
            let oids := readOids oidText sec prof ((policies.find? prof).getD []) arr
            let more := readPolicyEntries sec profiles (policies.insert prof oids.value) rest
            ⟨more.value, oids.errs ++ more.errs⟩

/-- `policies`. -/
def readPolicies (t : Table) (sec : String) (profiles : List String) :
    Checked (OrderedMap String (List String)) :=
  match (t.lookup "policies").bind Value.asTable with
  | none =>
      ⟨.empty, require ((t.lookup "policies").isSome = false) s!"[{sec}] policies: must be a table"⟩
  | some pol => readPolicyEntries oidText sec profiles .empty pol

/-- The strictest ceiling of the profiles and the profile it belongs to; no
ceiling is 0. -/
def validityCap (profiles : List String) : Int × String :=
  profiles.foldl
    (fun cap name =>
      match findProfile name with
      | none => cap
      | some d => if cap.1 = 0 ∨ (d.maxValidDays : Int) < cap.1 then (d.maxValidDays, name) else cap)
    (0, "")

/-- The checks of `ee_valid_days`. -/
def checkEeValidDays (sec : String) (profiles : List String) (validDays v : Int) : List String :=
  let cap := (validityCap profiles).1
  let cappedBy := (validityCap profiles).2
  require (0 < v) s!"[{sec}] ee_valid_days: must be > 0" ++
    require (¬ (0 < cap ∧ cap < v))
      s!"[{sec}] ee_valid_days: cannot exceed {cap}, the ceiling of the '{cappedBy}' profile" ++
    require (¬ (0 < validDays ∧ validDays ≤ v))
      s!"[{sec}] ee_valid_days: must be < valid_days ({validDays})"

/-- The checks on the key of `[ca.<purpose>]`. -/
def checkPurpose (purpose : String) : List String :=
  require (validSlug purpose = true)
      (s!"[ca.{purpose}]: the purpose is used verbatim in messages and selectors; " ++
        "only lowercase ASCII [a-z0-9.-] allowed") ++
    require (purpose ≠ "root")
      ("[ca.root]: 'root' names the trust anchor, which is declared in [root]; " ++
        "pick another purpose")

/-- `[ca.<purpose>]`, below a root that lives `rootDays`. -/
def readSigningCa (rootDays : Int) (purpose : String) (t : Table) : Checked SigningCa :=
  let sec := "ca." ++ purpose
  let fields := readCa t sec
  let profiles := readProfileList t sec
  let simpleDn := readSimpleDn t sec profiles.value
  let permittedDns := readSubtrees t sec "permitted_dns" false
  let permittedEmail := readSubtrees t sec "permitted_email" true
  let policies := readPolicies oidText t sec profiles.value
  let eeCurve := (getStr t sec "ee_curve" "").check (checkCurve sec "ee_curve")
  let eeDigest := (getStr t sec "ee_digest" "").check (checkDigest sec "ee_digest")
  let validDays := fields.value.validDays
  let eeValidDays :=
    (getInt t sec "ee_valid_days").check (checkEeValidDays sec profiles.value validDays)
  { value :=
      { fields.value with
        purpose := purpose
        profiles := profiles.value
        eeCurve := eeCurve.value
        eeDigest := eeDigest.value
        eeValidDays := eeValidDays.value
        simpleDn := simpleDn.value
        permittedDns := permittedDns.value
        permittedEmail := permittedEmail.value
        policies := policies.value }
    errs :=
      checkPurpose purpose ++ fields.errs ++ profiles.errs ++ simpleDn.errs ++
        permittedDns.errs ++ permittedEmail.errs ++ policies.errs ++ eeCurve.errs ++
        eeDigest.errs ++ eeValidDays.errs ++
        require (¬ (0 < rootDays ∧ 0 < validDays ∧ rootDays ≤ validDays))
          s!"[{sec}] valid_days: must be < [root] valid_days ({rootDays})" }

/-- The loop over `[ca]`. -/
def readIssuers (rootDays : Int) : Table → Checked (List (String × SigningCa))
  | [] => ⟨[], []⟩
  | (purpose, node) :: rest =>
      let more := readIssuers rootDays rest
      match node.asTable with
      | none => ⟨more.value, s!"[ca.{purpose}] must be a section" :: more.errs⟩
      | some t =>
          let ca := readSigningCa oidText rootDays purpose t
          ⟨(purpose, ca.value) :: more.value, ca.errs ++ more.errs⟩

/-- `[ca]`. -/
def readCas (rootDays : Int) (tbl : Table) : Checked (OrderedMap String SigningCa) :=
  match (tbl.lookup "ca").bind Value.asTable with
  | none =>
      ⟨.empty,
        [if (tbl.lookup "ca").isSome then "[ca] must hold [ca.<purpose>] sections"
          else "no issuing CA: declare a [ca.<purpose>] section"]⟩
  | some cas =>
      let issuers := readIssuers oidText rootDays cas
      ⟨.ofEntries issuers.value, issuers.errs⟩

end Issuers

section Shared

/-- What a section claims for itself. -/
inductive What
  | slugPrefix
  | cn
  | profile
  deriving DecidableEq

/-- A claim of a section on a value. -/
structure Claim where
  what : What
  value : String
  sec : String

/-- Two sections cannot have this both; an empty slug prefix or name claims
nothing. -/
def Claim.clashes (a b : Claim) : Bool :=
  a.what == b.what && a.value == b.value && (a.what == .profile || a.value != "")

/-- The message about a claim that came second. -/
def Claim.message (first second : Claim) : String :=
  let a := first.sec
  let b := second.sec
  let v := second.value
  match second.what with
  | .slugPrefix => s!"[{a}] and [{b}] share the same slug_prefix '{v}'"
  | .cn => s!"[{a}] and [{b}] share the same cn '{v}'"
  | .profile =>
      s!"profile '{v}' is claimed by both [{a}] and [{b}]; each profile belongs to exactly one CA"

/-- What `[ca.<purpose>]` claims. -/
def SigningCa.claims (purpose : String) (ca : SigningCa) : List Claim :=
  ⟨.slugPrefix, ca.slugPrefix, "ca." ++ purpose⟩ :: ⟨.cn, ca.cn, "ca." ++ purpose⟩ ::
    ca.profiles.map fun p => ⟨.profile, p, "ca." ++ purpose⟩

/-- The claims of a configuration, in the order they are made. -/
def Config.claims (c : Config) : List Claim :=
  ⟨.slugPrefix, c.root.slugPrefix, "root"⟩ :: ⟨.cn, c.root.cn, "root"⟩ ::
    c.cas.entries.flatMap fun e => e.2.claims e.1

/-- `claim`, and the loop over the profiles: a value belongs to the section that
claimed it first. -/
def claimError (seen : List Claim) (b : Claim) : List String :=
  match seen.find? fun a => a.clashes b with
  | none => []
  | some a => [a.message b]

def claimErrors : List Claim → List Claim → List String
  | _, [] => []
  | seen, b :: rest => claimError seen b ++ claimErrors (seen ++ [b]) rest

/-- The slug prefixes claimed, with the section that has each. -/
def Config.slugs (c : Config) : OrderedMap String String :=
  .ofEntries
    ((c.claims.filter fun a => a.what == .slugPrefix && a.value != "").map fun a => (a.value, a.sec))

/-- Slug prefixes that differ by digits only. -/
def digitErrors (c : Config) : List String :=
  c.slugs.entries.flatMap fun (a, secA) =>
    c.slugs.entries.flatMap fun (b, secB) =>
      require (¬ (a ≠ b ∧ digitsApart a b = true))
        (s!"[{secA}] slug_prefix '{a}' and [{secB}] slug_prefix '{b}' differ only by " ++
          "digits: their generation-numbered files share pki/ca/")

/-- The key backends and the sections they call for. -/
def backendErrors (c : Config) : List String :=
  (c.cas.entries.flatMap fun (purpose, ca) =>
      require (¬ (ca.onToken = true ∧ c.root.onToken = false))
        (s!"[ca.{purpose}] key_backend = \"pkcs11\" with [root] key_backend = " ++
          "\"internal\" is rejected (misplaced trust)")) ++
    require (¬ (c.anyToken = true ∧ c.pkcs11.module = ""))
      "[pkcs11] module: required when any CA key is on a token" ++
    require (¬ (c.anyToken = false ∧ (c.pkcs11.module ≠ "" ∨ c.pkcs11.tokenLabel ≠ "")))
      "[pkcs11] is set but no CA key uses the pkcs11 backend"

/-- The label a CA comes to in `resolve_label`. -/
def resolvedLabel (default : String) (ca : CaFields) : String :=
  if ca.onToken then (if ca.tokenLabel = "" then default else ca.tokenLabel) else ""

/-- The messages of `resolve_label`. -/
def labelErrors (default : String) (ca : CaFields) (sec : String) : List String :=
  let label := resolvedLabel default ca
  if ca.onToken then
    if label = "" then
      [s!"[{sec}] token_label: required, and [pkcs11] token_label sets no " ++
        "default to fall back on"]
    else
      require (byteLen label.toList ≤ p11TokenLabelMax)
        s!"[{sec}] token_label: at most {p11TokenLabelMax} bytes (PKCS#11 limit)"
  else
    require (ca.tokenLabel = "") s!"[{sec}] token_label: set but key_backend is not \"pkcs11\""

/-- A CA that falls back on the default label. -/
def CaFields.takesDefault (ca : CaFields) : Bool :=
  ca.onToken && ca.tokenLabel == ""

/-- Some CA falls back on the default label. -/
def Config.defaultUsed (c : Config) : Bool :=
  c.root.takesDefault || c.cas.entries.any fun e => e.2.takesDefault

/-- The messages about token labels. -/
def tokenErrors (c : Config) : List String :=
  labelErrors c.pkcs11.tokenLabel c.root "root" ++
    (c.cas.entries.flatMap fun (purpose, ca) =>
      labelErrors c.pkcs11.tokenLabel ca.toCaFields ("ca." ++ purpose)) ++
    require (¬ (c.pkcs11.tokenLabel ≠ "" ∧ c.defaultUsed = false))
      "[pkcs11] token_label: set but every token-held CA declares a label of its own"

/-- The configuration with every label resolved. -/
def Config.resolved (c : Config) : Config :=
  { c with
    root := { c.root with tokenLabel := resolvedLabel c.pkcs11.tokenLabel c.root }
    cas := c.cas.mapValues fun ca =>
      { ca with tokenLabel := resolvedLabel c.pkcs11.tokenLabel ca.toCaFields } }

/-- `check_keys`. -/
def unknownKeys (t : Table) (sec : String) (known : List String) : List String :=
  t.flatMap fun (k, _) => require (k ∈ known) s!"[{sec}] {k}: unknown key"

/-- The same in a section that may be missing or no section. -/
def unknownIn (tbl : Table) (name : String) (known : List String) : List String :=
  match (tbl.lookup name).bind Value.asTable with
  | none => []
  | some t => unknownKeys t name known

/-- The keys and sections the loader does not know. -/
def unknownOf (tbl : Table) : List String :=
  (tbl.flatMap fun (k, v) =>
      require (k ∈ sections)
        (if v.asTable.isSome then s!"[{k}]: unknown section"
          else s!"{k}: unknown key outside any section")) ++
    unknownIn tbl "pki" pkiKeys ++
    unknownIn tbl "pkcs11" pkcs11Keys ++
    unknownIn tbl "root" caKeys ++
    match (tbl.lookup "ca").bind Value.asTable with
    | none => []
    | some cas =>
        cas.flatMap fun (purpose, node) =>
          match node.asTable with
          | none => []
          | some t => unknownKeys t ("ca." ++ purpose) (caKeys ++ signingCaKeys)

end Shared

section Load

variable (oidText : String → Option String)

/-- The sections of the file, before the labels are resolved. -/
def declared (tbl : Table) : Config where
  pki := (readPki tbl).value
  pkcs11 := (readPkcs11 tbl).value
  root := (readRoot tbl).value
  cas := (readCas oidText (readRoot tbl).value.validDays tbl).value
  unknown := unknownOf tbl

/-- The messages of `load`, unknown keys apart. -/
def loadErrors (tbl : Table) : List String :=
  let c := declared oidText tbl
  (readPki tbl).errs ++ (readPkcs11 tbl).errs ++ (readRoot tbl).errs ++
    (readCas oidText (readRoot tbl).value.validDays tbl).errs ++
    claimErrors [] c.claims ++ digitErrors c ++ backendErrors c ++ tokenErrors c

/-- `load` of a parsed file. -/
def loadTable (tbl : Table) : Except (List String) Config :=
  if loadErrors oidText tbl = [] then .ok (declared oidText tbl).resolved
  else .error (loadErrors oidText tbl ++ unknownOf tbl)

/-- Where and why a parser gave up. -/
structure ParseError where
  line : Nat
  column : Nat
  description : String

/-- `load`: the file at `path` holds `file`, if there is one. -/
def load
    (parse : String → Except ParseError Table)
    (path : String)
    (file : Option String) : Except (List String) Config :=
  match file with
  | none => .error [s!"config not found: {path}"]
  | some text =>
      match parse text with
      | .error e =>
          let line := e.line
          let column := e.column
          let description := e.description
          .error [s!"{path}:{line}:{column}: parse error: {description}"]
      | .ok tbl => loadTable oidText tbl

end Load

section Sample

/-- A small file, as it is written; `orgName` is the organization between its
quotes. -/
def sampleText (orgName : String) : String :=
  "[pki]\norg_name = \"" ++ orgName ++ "\"\ncountry_code = \"CA\"\n" ++
    "repository_host = \"pki.example.ca:8080\"\n\n" ++
    "[root]\ncn = \"Example Root\"\ncurve = \"secp384r1\"\ndigest = \"SHA-384\"\n" ++
    "valid_days = 7300\nslug_prefix = \"root-r\"\n\n" ++
    "[ca.tls]\ncn = \"Example TLS\"\ncurve = \"secp256r1\"\ndigest = \"SHA-256\"\n" ++
    "valid_days = 1825\nslug_prefix = \"tls-e\"\nprofiles = [\"server\", \"client\"]\n" ++
    "ee_curve = \"secp256r1\"\nee_digest = \"SHA-256\"\nee_valid_days = 90\n" ++
    "permitted_dns = [\"example.ca\"]\npolicies = \x7b server = [\"1.3.6.1\"] \x7d\n"

/-- What the file says of an organization `orgName`. -/
def sampleTable (orgName : String) : Table :=
  [ ("ca",
      .table
        [ ("tls",
            .table
              [ ("cn", .string "Example TLS"),
                ("curve", .string "secp256r1"),
                ("digest", .string "SHA-256"),
                ("ee_curve", .string "secp256r1"),
                ("ee_digest", .string "SHA-256"),
                ("ee_valid_days", .integer 90),
                ("permitted_dns", .array [.string "example.ca"]),
                ("policies", .table [("server", .array [.string "1.3.6.1"])] true),
                ("profiles", .array [.string "server", .string "client"]),
                ("slug_prefix", .string "tls-e"),
                ("valid_days", .integer 1825) ] false) ] false),
    ("pki",
      .table
        [ ("country_code", .string "CA"),
          ("org_name", .string orgName),
          ("repository_host", .string "pki.example.ca:8080") ] false),
    ("root",
      .table
        [ ("cn", .string "Example Root"),
          ("curve", .string "secp384r1"),
          ("digest", .string "SHA-384"),
          ("slug_prefix", .string "root-r"),
          ("valid_days", .integer 7300) ] false) ]

/-- A parser that knows the file with one organization. -/
def sampleParse (written orgName : String) (text : String) : Except ParseError Table :=
  if text = sampleText written then .ok (sampleTable orgName)
  else .error ⟨1, 1, "unknown file"⟩

/-- The object identifiers of the file. -/
def sampleOid (s : String) : Option String :=
  if s = "1.3.6.1" then some s else none

/-- The configuration of the file. -/
def sampleConfig (orgName : String) : Config :=
  (declared sampleOid (sampleTable orgName)).resolved

theorem sample_load
    (written : String)
    {orgName : String}
    (h : loadErrors sampleOid (sampleTable orgName) = []) :
    load sampleOid (sampleParse written orgName) "yca.toml" (some (sampleText written)) =
      .ok (sampleConfig orgName) := by
  simp only [load, sampleParse, if_true, loadTable, h, sampleConfig]

theorem sample_errors :
    loadErrors sampleOid (sampleTable "Example Ltd") = [] := by
  decide

end Sample

end Cfg
end Yca
