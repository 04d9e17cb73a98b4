import Yca.Cfg.Load

/-!
# What a loaded configuration is

`Config.Accepted` collects the checks of `load` as facts about the values of a
configuration, one structure for each kind of section and one for the laws that
span them.  Loading gives no other configuration.
-/

namespace Yca
namespace Cfg

open Yca.Core
open Yca.Core.Toml
open Acme (byteLen isDigit)
open Ca (validHostname digitsApart isAlnum)

/-- The checks of `read_ca`. -/
structure CaFields.Valid (ca : CaFields) : Prop where
  cn : ca.cn ≠ ""
  curve : ca.curve ∈ curves
  digest : ca.digest ∈ digests
  validDays : 0 < ca.validDays ∧ ca.validDays < 2 ^ 31
  slugPrefix : ca.slugPrefix ≠ "" ∧ validSlug ca.slugPrefix = true
  slug : ca.slug = ca.slugPrefix ++ "1"
  keyBackend : ca.keyBackend = "internal" ∨ ca.keyBackend = "pkcs11"

/-- A subtree as a name constraint may list it. -/
def ValidSubtree (email : Bool) (name : String) : Prop :=
  ¬ (email = true ∧ '@' ∈ name.toList) ∧ validHostname (subtreeHost email name) = true

/-- A policy as `policies` may list it. -/
def Policy (oidText : String → Option String) (oid : String) : Prop :=
  ValidOid oidText oid ∧ oid ≠ "2.5.29.32.0"

/-- The checks of one `[ca.<purpose>]`. -/
structure SigningCa.Valid
    (oidText : String → Option String)
    (rootDays : Int)
    (ca : SigningCa) : Prop extends ca.toCaFields.Valid where
  purpose : validSlug ca.purpose = true
  notRoot : ca.purpose ≠ "root"
  profiles : ca.profiles ≠ []
  known : ∀ p ∈ ca.profiles, (findProfile p).isSome = true
  simpleDn : ca.simpleDn = true → ∀ p ∈ ca.profiles, ∀ d, findProfile p = some d → fullDn d = false
  permittedDns : ∀ name ∈ ca.permittedDns, ValidSubtree false name
  permittedEmail : ∀ name ∈ ca.permittedEmail, ValidSubtree true name
  policies : ∀ prof oids, ca.policies.find? prof = some oids →
    prof ∈ ca.profiles ∧ oids.Nodup ∧ ∀ oid ∈ oids, Policy oidText oid
  eeCurve : ca.eeCurve ∈ curves
  eeDigest : ca.eeDigest ∈ digests
  eeValidDays : 0 < ca.eeValidDays
  ceiling : 0 < (validityCap ca.profiles).1 → ca.eeValidDays ≤ (validityCap ca.profiles).1
  outlived : ca.eeValidDays < ca.validDays
  belowRoot : ca.validDays < rootDays

/-- The label a CA ends up with. -/
def CaFields.Labelled (ca : CaFields) : Prop :=
  if ca.onToken then ca.tokenLabel ≠ "" ∧ byteLen ca.tokenLabel.toList ≤ p11TokenLabelMax
  else ca.tokenLabel = ""

/-- The checks of `load`, on the values of a configuration. -/
structure Config.Accepted (oidText : String → Option String) (c : Config) : Prop where
  orgName : c.pki.orgName ≠ ""
  countryCode : c.pki.countryCode ≠ "" ∧ twoLetters c.pki.countryCode = true
  repositoryHost : c.pki.repositoryHost ≠ "" ∧ validHostPort c.pki.repositoryHost = true
  root : c.root.Valid
  cas : ∀ purpose ca, c.cas.find? purpose = some ca →
    ca.purpose = purpose ∧ ca.Valid oidText c.root.validDays
  claims : claimErrors [] c.claims = []
  digits : digitErrors c = []
  backends : backendErrors c = []
  rootLabel : c.root.Labelled
  labels : ∀ purpose ca, c.cas.find? purpose = some ca → ca.Labelled

section Reads

theorem asString_eq_some
    {v : Value}
    {s : String}
    (h : v.asString = some s) :
    v = .string s := by
  cases v <;> simp [Value.asString] at h
  rw [h]

theorem getStr_errs
    {t : Table}
    {sec key old : String}
    (h : (getStr t sec key old).errs = []) :
    (getStr t sec key old).value ≠ "" ∧
      t.lookup key = some (.string (getStr t sec key old).value) := by
  unfold getStr at h ⊢
  split at h
  · rename_i v hv
    obtain ⟨node, hnode, hstr⟩ := Option.bind_eq_some_iff.mp hv
    exact ⟨by simpa using h, by rw [hnode, asString_eq_some hstr]⟩
  · simp at h

/-- A text that is there is read as it is. -/
theorem getStr_of_lookup
    {t : Table}
    {key v : String}
    (hlookup : t.lookup key = some (.string v))
    (hv : v ≠ "")
    (sec old : String) :
    getStr t sec key old = ⟨v, []⟩ := by
  simp [getStr, hlookup, Value.asString, hv]

theorem toInt_lt (n : Int) :
    toInt n < 2 ^ 31 := by
  have h := Int.bmod_lt (x := n) (m := 2 ^ 32) (by decide)
  unfold toInt
  omega

theorem toInt_of_lt
    {n : Int}
    (hpos : 0 < n)
    (hlt : n < 2 ^ 31) :
    toInt n = n := by
  unfold toInt
  rw [Int.bmod_eq_of_le]
  · omega
  · omega

theorem getInt_lt
    (t : Table)
    (sec key : String) :
    (getInt t sec key).value < 2 ^ 31 := by
  unfold getInt
  split
  · exact toInt_lt _
  · show (0 : Int) < 2 ^ 31
    decide

theorem getInt_of_lookup
    {t : Table}
    {key : String}
    {n : Int}
    (hlookup : t.lookup key = some (.integer n))
    (hpos : 0 < n)
    (hlt : n < 2 ^ 31)
    (sec : String) :
    getInt t sec key = ⟨n, []⟩ := by
  simp [getInt, hlookup, Value.asInteger, toInt_of_lt hpos hlt]

theorem Checked.check_of
    {α : Type}
    {v : α}
    {f : α → List String}
    (hf : f v = []) :
    (Checked.mk v []).check f = ⟨v, []⟩ := by
  simp [Checked.check, hf]

theorem optional_errs
    {α : Type}
    {t : Table}
    {key : String}
    {absent : α}
    {r : Checked α}
    (h : (optional t key absent r).errs = []) :
    (optional t key absent r).value = absent ∨
      (r.errs = [] ∧ (optional t key absent r).value = r.value) := by
  unfold optional at h ⊢
  split_ifs at h ⊢
  · exact Or.inr ⟨h, rfl⟩
  · exact Or.inl rfl

theorem optional_of_some
    {α : Type}
    {t : Table}
    {key : String}
    {v : Value}
    (h : t.lookup key = some v)
    (absent : α)
    (r : Checked α) :
    optional t key absent r = r := by
  simp [optional, h]

theorem optional_of_none
    {α : Type}
    {t : Table}
    {key : String}
    (h : t.lookup key = none)
    (absent : α)
    (r : Checked α) :
    optional t key absent r = ⟨absent, []⟩ := by
  simp [optional, h]

/-- The checks of `read_ca` hold of what it read without complaint. -/
theorem readCa_valid
    {t : Table}
    {sec : String}
    (h : (readCa t sec).errs = []) :
    (readCa t sec).value.Valid := by
  simp only [readCa, List.append_eq_nil_iff, Checked.check_errs, checkCurve, checkDigest,
    checkSlug, require_eq_nil] at h
  obtain ⟨⟨⟨⟨⟨⟨hcn, _, hcurve⟩, _, hdigest⟩, _, hdays⟩, hprefix, hslug⟩, hbackend⟩, _⟩ := h
  constructor
  · exact (getStr_errs hcn).1
  · exact hcurve
  · exact hdigest
  · exact ⟨hdays, getInt_lt t sec "valid_days"⟩
  · exact ⟨(getStr_errs hprefix).1, hslug⟩
  · rfl
  · rcases optional_errs hbackend with habsent | ⟨hread, hvalue⟩
    · exact Or.inl habsent
    · have hcheck := ((Checked.check_errs _ _).mp hread).2
      simp only [checkBackend, require_eq_nil] at hcheck
      simp only [readCa, hvalue, Checked.check_value]
      exact hcheck

end Reads

section Lists

theorem checkSubtree_eq_nil
    {sec field name : String}
    {email : Bool} :
    checkSubtree sec field email name = [] ↔ ValidSubtree email name := by
  unfold checkSubtree ValidSubtree
  by_cases hmail : email = true ∧ '@' ∈ name.toList
  · simp [hmail]
  · have hcond : ¬ (email && name.toList.contains '@') = true := by simpa using hmail
    rw [if_neg hcond, require_eq_nil]
    exact ⟨fun h => ⟨hmail, h⟩, fun h => h.2⟩

/-- Profiles that were read without complaint are profiles. -/
theorem readProfiles_errs
    {sec : String}
    {arr : List Value}
    (h : (readProfiles sec arr).errs = []) :
    ∀ p ∈ (readProfiles sec arr).value, (findProfile p).isSome = true := by
  induction arr with
  | nil => simp [readProfiles]
  | cons v rest ih =>
      simp only [readProfiles] at h ⊢
      split at h
      · simp at h
      · rename_i name hname
        simp only [List.append_eq_nil_iff, require_eq_nil] at h
        intro p hp
        rcases List.mem_cons.mp hp with rfl | hp
        · exact h.1
        · exact ih h.2 p hp

theorem readProfiles_of
    {l : List String}
    (h : ∀ p ∈ l, (findProfile p).isSome = true)
    (sec : String) :
    readProfiles sec (l.map Value.string) = ⟨l, []⟩ := by
  induction l with
  | nil => rfl
  | cons p rest ih =>
      have hp := h p List.mem_cons_self
      have hrest := ih fun q hq => h q (List.mem_cons_of_mem _ hq)
      simp [readProfiles, Value.asString, hrest, hp]

/-- Whatever is listed, only valid subtrees are taken over. -/
theorem readSubtreeEntries_valid
    (sec field : String)
    (email : Bool)
    (arr : List Value) :
    ∀ name ∈ (readSubtreeEntries sec field email arr).value, ValidSubtree email name := by
  induction arr with
  | nil => simp [readSubtreeEntries]
  | cons v rest ih =>
      simp only [readSubtreeEntries]
      split
      · exact ih
      · split
        · rename_i name _ hok
          intro name' hname'
          rcases List.mem_cons.mp hname' with rfl | hname'
          · exact checkSubtree_eq_nil.mp hok
          · exact ih name' hname'
        · exact ih

theorem readSubtreeEntries_of
    {email : Bool}
    {l : List String}
    (h : ∀ name ∈ l, ValidSubtree email name)
    (sec field : String) :
    readSubtreeEntries sec field email (l.map Value.string) = ⟨l, []⟩ := by
  induction l with
  | nil => rfl
  | cons name rest ih =>
      have hname : checkSubtree sec field email name = [] :=
        checkSubtree_eq_nil.mpr (h name List.mem_cons_self)
      have hrest := ih fun q hq => h q (List.mem_cons_of_mem _ hq)
      simp [readSubtreeEntries, Value.asString, hrest, hname]

theorem readSubtrees_valid
    (t : Table)
    (sec field : String)
    (email : Bool) :
    ∀ name ∈ (readSubtrees t sec field email).value, ValidSubtree email name := by
  unfold readSubtrees
  split
  · simp
  · exact readSubtreeEntries_valid sec field email _

theorem readSubtrees_of
    {email : Bool}
    {l : List String}
    {t : Table}
    {field : String}
    (hlookup : t.lookup field = if l = [] then none else some (.array (l.map Value.string)))
    (h : ∀ name ∈ l, ValidSubtree email name)
    (sec : String) :
    readSubtrees t sec field email = ⟨l, []⟩ := by
  by_cases hl : l = []
  · simp [readSubtrees, hlookup, hl]
  · simp [readSubtrees, hlookup, hl, Value.asArray, readSubtreeEntries_of h]

variable {oidText : String → Option String}

theorem checkOid_eq_nil
    {sec prof oid : String}
    {oids : List String} :
    checkOid oidText sec prof oids oid = [] ↔ Policy oidText oid ∧ oid ∉ oids := by
  unfold checkOid Policy
  by_cases hvalid : ValidOid oidText oid
  · by_cases hany : oid = "2.5.29.32.0"
    · rw [if_neg (not_not.mpr hvalid), if_pos hany]
      simp [hany]
    · rw [if_neg (not_not.mpr hvalid), if_neg hany, require_eq_nil]
      exact ⟨fun h => ⟨⟨hvalid, hany⟩, h⟩, fun h => h.2⟩
  · simp [hvalid]

/-- The policies of a profile are valid and stand there once. -/
theorem readOids_valid
    {sec prof : String}
    {oids : List String}
    (hnodup : oids.Nodup)
    (hpolicy : ∀ oid ∈ oids, Policy oidText oid)
    (arr : List Value) :
    (readOids oidText sec prof oids arr).value.Nodup ∧
      ∀ oid ∈ (readOids oidText sec prof oids arr).value, Policy oidText oid := by
  induction arr generalizing oids with
  | nil => exact ⟨hnodup, hpolicy⟩
  | cons v rest ih =>
      simp only [readOids]
      split
      · exact ih hnodup hpolicy
      · split
        · rename_i oid _ hok
          obtain ⟨hoid, hnew⟩ := checkOid_eq_nil.mp hok
          refine ih ?_ ?_
          · rw [List.nodup_append]
            refine ⟨hnodup, List.nodup_singleton _, ?_⟩
            rintro a ha b hb rfl
            exact hnew (List.mem_singleton.mp hb ▸ ha)
          · intro o ho
            rcases List.mem_append.mp ho with ho | ho
            · exact hpolicy o ho
            · exact List.mem_singleton.mp ho ▸ hoid
        · exact ih hnodup hpolicy

theorem readOids_of
    {oids l : List String}
    (hnodup : (oids ++ l).Nodup)
    (hpolicy : ∀ oid ∈ l, Policy oidText oid)
    (sec prof : String) :
    readOids oidText sec prof oids (l.map Value.string) = ⟨oids ++ l, []⟩ := by
  induction l generalizing oids with
  | nil => simp [readOids]
  | cons oid rest ih =>
      have hnew : oid ∉ oids := by
        intro hmem
        exact (List.nodup_append.mp hnodup).2.2 oid hmem oid List.mem_cons_self rfl
      have hok : checkOid oidText sec prof oids oid = [] :=
        checkOid_eq_nil.mpr ⟨hpolicy oid List.mem_cons_self, hnew⟩
      have hnodup' : ((oids ++ [oid]) ++ rest).Nodup := by simpa using hnodup
      have hrest := ih hnodup' fun o ho => hpolicy o (List.mem_cons_of_mem _ ho)
      simp [readOids, Value.asString, hok, hrest]

/-- The policies of a section are those of its profiles. -/
theorem readPolicyEntries_valid
    {sec : String}
    {profiles : List String}
    {policies : OrderedMap String (List String)}
    (hpolicies : ∀ prof oids, policies.find? prof = some oids →
      prof ∈ profiles ∧ oids.Nodup ∧ ∀ oid ∈ oids, Policy oidText oid)
    (pol : Table) :
    ∀ prof oids, (readPolicyEntries oidText sec profiles policies pol).value.find? prof = some oids →
      prof ∈ profiles ∧ oids.Nodup ∧ ∀ oid ∈ oids, Policy oidText oid := by
  induction pol generalizing policies with
  | nil => exact hpolicies
  | cons e rest ih =>
      obtain ⟨prof₀, pv⟩ := e
      simp only [readPolicyEntries]
      by_cases hmem : prof₀ ∈ profiles
      swap
      · rw [if_pos hmem]
        exact ih hpolicies
      · rw [if_neg (not_not.mpr hmem)]
        split
        · exact ih hpolicies
        · rename_i arr _
          have hold : ((policies.find? prof₀).getD []).Nodup ∧
              ∀ oid ∈ (policies.find? prof₀).getD [], Policy oidText oid := by
            cases hfind : policies.find? prof₀ with
            | none => simp
            | some oids => exact (hpolicies prof₀ oids hfind).2
          refine ih ?_
          intro prof oids hfind
          by_cases heq : prof = prof₀
          · subst heq
            rw [OrderedMap.find?_insert_self] at hfind
            rw [← Option.some.inj hfind]
            exact ⟨hmem, readOids_valid hold.1 hold.2 arr⟩
          · rw [OrderedMap.find?_insert_of_ne _ _ heq] at hfind
            exact hpolicies prof oids hfind

/-- Policies that are valid are read as they are. -/
theorem readPolicyEntries_of
    {profiles : List String}
    {l : List (String × List String)}
    {policies : OrderedMap String (List String)}
    (hnodup : (l.map Prod.fst).Nodup)
    (hnew : ∀ prof ∈ l.map Prod.fst, policies.find? prof = none)
    (hvalid : ∀ prof oids, (prof, oids) ∈ l →
      prof ∈ profiles ∧ oids.Nodup ∧ ∀ oid ∈ oids, Policy oidText oid)
    (sec : String) :
    readPolicyEntries oidText sec profiles policies
        (l.map fun e => (e.1, Value.array (e.2.map Value.string))) =
      ⟨l.foldl (fun m e => m.insert e.1 e.2) policies, []⟩ := by
  induction l generalizing policies with
  | nil => rfl
  | cons e rest ih =>
      obtain ⟨prof₀, oids₀⟩ := e
      simp only [List.map_cons, List.nodup_cons] at hnodup
      obtain ⟨hmem, hoids, hpolicy⟩ := hvalid prof₀ oids₀ List.mem_cons_self
      have hnone := hnew prof₀ (by simp)
      have hoids' : ([] ++ oids₀).Nodup := hoids
      have hread := readOids_of hoids' hpolicy sec prof₀
      have hfresh : ∀ prof ∈ rest.map Prod.fst, (policies.insert prof₀ oids₀).find? prof = none := by
        intro prof hprof
        have hne : prof ≠ prof₀ := by
          rintro rfl
          exact hnodup.1 hprof
        rw [OrderedMap.find?_insert_of_ne _ _ hne]
        exact hnew prof (List.mem_cons_of_mem _ hprof)
      have hrest := ih hnodup.2 hfresh fun prof oids h => hvalid prof oids (List.mem_cons_of_mem _ h)
      simp [readPolicyEntries, hmem, Value.asArray, hnone, hread, hrest]

end Lists

section Issuers

variable {oidText : String → Option String}

/-- What the checks of `ee_valid_days` come to. -/
theorem checkEeValidDays_eq_nil
    {sec : String}
    {profiles : List String}
    {validDays v : Int}
    (hdays : 0 < validDays) :
    checkEeValidDays sec profiles validDays v = [] ↔
      0 < v ∧ (0 < (validityCap profiles).1 → v ≤ (validityCap profiles).1) ∧ v < validDays := by
  simp only [checkEeValidDays, List.append_eq_nil_iff, require_eq_nil]
  constructor
  · rintro ⟨⟨hpos, hcap⟩, hbelow⟩
    refine ⟨hpos, fun h => ?_, ?_⟩
    · by_contra hlt
      exact hcap ⟨h, by omega⟩
    · by_contra hle
      exact hbelow ⟨hdays, by omega⟩
  · rintro ⟨hpos, hcap, hbelow⟩
    refine ⟨⟨hpos, fun h => ?_⟩, fun h => ?_⟩
    · have hle := hcap h.1
      omega
    · omega

theorem checkSimpleDn_eq_nil
    {sec : String}
    {profiles : List String}
    {simple : Bool} :
    checkSimpleDn sec profiles simple = [] ↔
      (simple = true → ∀ p ∈ profiles, ∀ d, findProfile p = some d → fullDn d = false) := by
  unfold checkSimpleDn
  cases simple with
  | false => simp
  | true =>
      simp only [if_true, List.flatMap_eq_nil_iff, true_implies]
      constructor
      · intro h p hp d hd
        have hcheck := h p hp
        rw [hd] at hcheck
        exact (require_eq_nil _ _).mp hcheck
      · intro h p hp
        split
        · rfl
        · rename_i d hd
          exact (require_eq_nil _ _).mpr (h p hp d hd)

/-- A section that was read without complaint is valid. -/
theorem readSigningCa_valid
    {rootDays : Int}
    {purpose : String}
    {t : Table}
    (hroot : 0 < rootDays)
    (h : (readSigningCa oidText rootDays purpose t).errs = []) :
    (readSigningCa oidText rootDays purpose t).value.Valid oidText rootDays := by
  simp only [readSigningCa, List.append_eq_nil_iff, Checked.check_errs, require_eq_nil,
    checkPurpose, checkCurve, checkDigest] at h
  obtain ⟨⟨⟨⟨⟨⟨⟨⟨⟨⟨⟨hslug, hnotRoot⟩, hfields⟩, hprofiles⟩, hsimple⟩, _⟩, _⟩, _⟩, _, hcurve⟩, _,
    hdigest⟩, _, hdays⟩, hbelow⟩ := h
  have hvalid := readCa_valid hfields
  have hcap := (checkEeValidDays_eq_nil hvalid.validDays.1).mp hdays
  have hlist : ∀ p ∈ (readProfileList t ("ca." ++ purpose)).value, (findProfile p).isSome = true := by
    unfold readProfileList at hprofiles ⊢
    split at hprofiles
    · simp at hprofiles
    · simp only [List.append_eq_nil_iff] at hprofiles
      exact readProfiles_errs hprofiles.1
  refine ⟨hvalid, hslug, hnotRoot, ?_, hlist, ?_, readSubtrees_valid t _ _ false,
    readSubtrees_valid t _ _ true, ?_, hcurve, hdigest, hcap.1, hcap.2.1, hcap.2.2, ?_⟩
  · show (readProfileList t ("ca." ++ purpose)).value ≠ []
    unfold readProfileList at hprofiles ⊢
    split at hprofiles
    · simp at hprofiles
    · simp only [List.append_eq_nil_iff, require_eq_nil] at hprofiles
      exact hprofiles.2
  · rcases optional_errs hsimple with habsent | ⟨hread, hvalue⟩
    · intro hsimpleDn
      have : (readSimpleDn t ("ca." ++ purpose)
          (readProfileList t ("ca." ++ purpose)).value).value = true := hsimpleDn
      rw [readSimpleDn, habsent] at this
      simp at this
    · intro hsimpleDn
      have hcheck := checkSimpleDn_eq_nil.mp ((Checked.check_errs _ _).mp hread).2
      refine hcheck ?_
      rw [← Checked.check_value, ← hvalue]
      exact hsimpleDn
  · show ∀ prof oids, (readPolicies oidText t _ _).value.find? prof = some oids → _
    unfold readPolicies
    split
    · intro prof oids hfind
      simp at hfind
    · refine readPolicyEntries_valid ?_ _
      intro prof oids hfind
      simp at hfind
  · by_contra hle
    exact hbelow ⟨hroot, hvalid.validDays.1, not_lt.mp hle⟩

theorem readIssuers_valid
    {rootDays : Int}
    (hroot : 0 < rootDays)
    {cas : Table}
    (h : (readIssuers oidText rootDays cas).errs = []) :
    ∀ purpose ca, (purpose, ca) ∈ (readIssuers oidText rootDays cas).value →
      ca.purpose = purpose ∧ ca.Valid oidText rootDays := by
  induction cas with
  | nil => simp [readIssuers]
  | cons e rest ih =>
      obtain ⟨purpose₀, node⟩ := e
      simp only [readIssuers] at h ⊢
      split at h
      · simp at h
      · simp only [List.append_eq_nil_iff] at h
        intro purpose ca hmem
        rcases List.mem_cons.mp hmem with heq | hmem
        · obtain ⟨rfl, rfl⟩ := Prod.mk.inj heq
          exact ⟨rfl, readSigningCa_valid hroot h.1⟩
        · exact ih h.2 purpose ca hmem

end Issuers

section Claims

theorem claimError_eq_nil
    {seen : List Claim}
    {b : Claim} :
    claimError seen b = [] ↔ ∀ a ∈ seen, a.clashes b = false := by
  unfold claimError
  cases hfind : seen.find? fun a => a.clashes b with
  | none => simpa using hfind
  | some a =>
      have hclash := List.find?_some hfind
      have hmem := List.mem_of_find?_eq_some hfind
      simp only [List.cons_ne_nil, false_iff, not_forall]
      exact ⟨a, hmem, by simpa using hclash⟩

/-- No message means that nothing was claimed twice. -/
theorem claimErrors_eq_nil
    {seen l : List Claim} :
    claimErrors seen l = [] ↔
      (∀ a ∈ seen, ∀ b ∈ l, a.clashes b = false) ∧
        l.Pairwise fun a b => a.clashes b = false := by
  induction l generalizing seen with
  | nil => simp [claimErrors]
  | cons b rest ih =>
      rw [claimErrors, List.append_eq_nil_iff, claimError_eq_nil, ih, List.pairwise_cons]
      constructor
      · rintro ⟨hb, hseen, hrest⟩
        refine ⟨?_, fun a ha => hseen b (by simp) a ha, hrest⟩
        intro a ha b' hb'
        rcases List.mem_cons.mp hb' with rfl | hb'
        · exact hb a ha
        · exact hseen a (List.mem_append_left _ ha) b' hb'
      · rintro ⟨hseen, hb, hrest⟩
        refine ⟨fun a ha => hseen a ha b List.mem_cons_self, ?_, hrest⟩
        intro a ha b' hb'
        rcases List.mem_append.mp ha with ha | ha
        · exact hseen a ha b' (List.mem_cons_of_mem _ hb')
        · rw [List.mem_singleton.mp ha]
          exact hb b' hb'

/-- What the sections claim of one kind. -/
def Config.claimed (c : Config) (what : What) : List String :=
  (c.claims.filter fun a => a.what == what).map Claim.value

theorem Config.claimed_nodup
    {c : Config}
    (h : claimErrors [] c.claims = [])
    {what : What}
    (hvalues : what = .profile ∨ ∀ v ∈ c.claimed what, v ≠ "") :
    (c.claimed what).Nodup := by
  obtain ⟨_, hpair⟩ := claimErrors_eq_nil.mp h
  have hkind := hpair.filter fun a => a.what == what
  unfold claimed at hvalues ⊢
  refine List.pairwise_map.mpr (hkind.imp_of_mem ?_)
  intro a b ha hb hclash heq
  have hwhat : a.what = what := by simpa using (List.mem_filter.mp ha).2
  have hwhat' : b.what = what := by simpa using (List.mem_filter.mp hb).2
  have hcond : (a.what == .profile || a.value != "") = true := by
    rcases hvalues with hprofile | hne
    · simp [hwhat, hprofile]
    · simp [hne a.value (List.mem_map_of_mem ha)]
  simp [Claim.clashes, hwhat, hwhat', heq] at hclash hcond
  simp [hclash] at hcond

theorem SigningCa.claims_filter
    (purpose : String)
    (ca : SigningCa)
    (what : What) :
    ((ca.claims purpose).filter fun a => a.what == what).map Claim.value =
      match what with
      | .slugPrefix => [ca.slugPrefix]
      | .cn => [ca.cn]
      | .profile => ca.profiles := by
  cases what <;> simp [claims, List.filter_map, Function.comp_def]

theorem Config.claimed_eq
    (c : Config)
    (what : What) :
    c.claimed what =
      match what with
      | .slugPrefix => c.root.slugPrefix :: c.cas.values.map fun ca => ca.slugPrefix
      | .cn => c.root.cn :: c.cas.values.map fun ca => ca.cn
      | .profile => c.cas.values.flatMap fun ca => ca.profiles := by
  have hissuers : ((c.cas.entries.flatMap fun e => e.2.claims e.1).filter fun a =>
      a.what == what).map Claim.value =
        c.cas.values.flatMap fun ca =>
          match what with
          | .slugPrefix => [ca.slugPrefix]
          | .cn => [ca.cn]
          | .profile => ca.profiles := by
    rw [List.filter_flatMap, List.map_flatMap, OrderedMap.values, List.flatMap_map]
    refine List.flatMap_congr fun e _ => ?_
    exact SigningCa.claims_filter e.1 e.2 what
  cases what with
  | slugPrefix =>
      simp only [claimed, claims, List.filter_cons, List.map_eq_flatMap]
      simpa [List.map_eq_flatMap] using hissuers
  | cn =>
      simp only [claimed, claims, List.filter_cons, List.map_eq_flatMap]
      simpa [List.map_eq_flatMap] using hissuers
  | profile =>
      simp only [claimed, claims, List.filter_cons]
      simpa using hissuers

end Claims

section Members

variable {oidText : String → Option String} {c : Config}

theorem Config.Accepted.of_mem
    (h : c.Accepted oidText)
    {ca : SigningCa}
    (hca : ca ∈ c.cas.values) :
    c.cas.find? ca.purpose = some ca ∧ ca.Valid oidText c.root.validDays := by
  obtain ⟨e, he, rfl⟩ := List.mem_map.mp hca
  have hfound := OrderedMap.mem_entries_iff.mp he
  obtain ⟨hpurpose, hvalid⟩ := h.cas e.1 e.2 hfound
  exact ⟨hpurpose ▸ hfound, hvalid⟩

/-- The names of the CAs are theirs alone. -/
theorem Config.Accepted.cns_nodup (h : c.Accepted oidText) :
    (c.root.cn :: c.cas.values.map fun ca => ca.cn).Nodup := by
  have hnames := Config.claimed_eq c .cn
  simp only at hnames
  rw [← hnames]
  refine Config.claimed_nodup h.claims (Or.inr ?_)
  rw [hnames]
  intro v hv
  rcases List.mem_cons.mp hv with rfl | hv
  · exact h.root.cn
  · obtain ⟨ca, hca, rfl⟩ := List.mem_map.mp hv
    exact (h.of_mem hca).2.cn

/-- So are their slug prefixes. -/
theorem Config.Accepted.prefixes_nodup (h : c.Accepted oidText) :
    (c.root.slugPrefix :: c.cas.values.map fun ca => ca.slugPrefix).Nodup := by
  have hprefixes := Config.claimed_eq c .slugPrefix
  simp only at hprefixes
  rw [← hprefixes]
  refine Config.claimed_nodup h.claims (Or.inr ?_)
  rw [hprefixes]
  intro v hv
  rcases List.mem_cons.mp hv with rfl | hv
  · exact h.root.slugPrefix.1
  · obtain ⟨ca, hca, rfl⟩ := List.mem_map.mp hv
    exact (h.of_mem hca).2.slugPrefix.1

end Members

section Labels

/-- Labels are not claimed. -/
theorem Config.resolved_claims (c : Config) :
    c.resolved.claims = c.claims := by
  simp [claims, resolved, OrderedMap.mapValues, List.flatMap_map, SigningCa.claims]

theorem Config.resolved_digits (c : Config) :
    digitErrors c.resolved = digitErrors c := by
  simp [digitErrors, slugs, resolved_claims]

theorem Config.resolved_anyToken (c : Config) :
    c.resolved.anyToken = c.anyToken := by
  unfold anyToken resolved OrderedMap.mapValues
  rw [List.any_map]
  rfl

theorem Config.resolved_backends (c : Config) :
    backendErrors c.resolved = backendErrors c := by
  unfold backendErrors
  rw [resolved_anyToken]
  simp [resolved, OrderedMap.mapValues, List.flatMap_map, CaFields.onToken]

theorem labelErrors_eq_nil
    {default : String}
    {ca : CaFields}
    {sec : String} :
    labelErrors default ca sec = [] ↔
      if ca.onToken then
        resolvedLabel default ca ≠ "" ∧
          byteLen (resolvedLabel default ca).toList ≤ p11TokenLabelMax
      else ca.tokenLabel = "" := by
  unfold labelErrors
  by_cases htoken : ca.onToken = true
  · by_cases hempty : resolvedLabel default ca = ""
    · simp [htoken, hempty]
    · simp [htoken, hempty]
  · simp [htoken]

theorem labelled_of_labelErrors
    {default : String}
    {ca : CaFields}
    {sec : String}
    (h : labelErrors default ca sec = []) :
    ({ ca with tokenLabel := resolvedLabel default ca } : CaFields).Labelled := by
  rw [labelErrors_eq_nil] at h
  unfold CaFields.Labelled
  show if ca.onToken then _ else _
  split_ifs at h ⊢ with htoken
  · exact h
  · simp [resolvedLabel, htoken]

end Labels

section Load

variable {oidText : String → Option String}

/-- A required section is there, or a message says what is wrong with it. -/
theorem requireTable_cases (tbl : Table) (name : String) :
    (∃ t, (tbl.lookup name).bind Value.asTable = some t ∧ requireTable tbl name = ⟨some t, []⟩) ∨
      ∃ errs, errs ≠ [] ∧ requireTable tbl name = ⟨none, errs⟩ := by
  unfold requireTable
  cases hnode : tbl.lookup name with
  | none => exact Or.inr ⟨_, List.cons_ne_nil _ _, rfl⟩
  | some node =>
      cases htable : node.asTable with
      | none => exact Or.inr ⟨_, List.cons_ne_nil _ _, by simp only [htable]; rfl⟩
      | some t => exact Or.inl ⟨t, htable, by simp only [htable]⟩

theorem readPki_errs
    {tbl : Table}
    (h : (readPki tbl).errs = []) :
    (readPki tbl).value.orgName ≠ "" ∧
      ((readPki tbl).value.countryCode ≠ "" ∧ twoLetters (readPki tbl).value.countryCode = true) ∧
      (readPki tbl).value.repositoryHost ≠ "" ∧
        validHostPort (readPki tbl).value.repositoryHost = true := by
  rcases requireTable_cases tbl "pki" with ⟨t, _, hrequire⟩ | ⟨errs, hne, hrequire⟩
  · simp only [readPki, hrequire, List.append_eq_nil_iff, Checked.check_errs, require_eq_nil] at h ⊢
    obtain ⟨⟨horg, hcountry, htwo⟩, hhost, hport⟩ := h
    exact ⟨(getStr_errs horg).1, ⟨(getStr_errs hcountry).1, htwo⟩, (getStr_errs hhost).1, hport⟩
  · simp only [readPki, hrequire] at h
    exact absurd h hne

/-- `[root]` without complaint is a section, read as one of a CA. -/
theorem readRoot_eq
    {tbl : Table}
    (h : (readRoot tbl).errs = []) :
    ∃ t, (tbl.lookup "root").bind Value.asTable = some t ∧ readRoot tbl = readCa t "root" := by
  rcases requireTable_cases tbl "root" with ⟨t, hlookup, hrequire⟩ | ⟨errs, hne, hrequire⟩
  · exact ⟨t, hlookup, by simp only [readRoot, hrequire]⟩
  · simp only [readRoot, hrequire] at h
    exact absurd h hne

theorem readRoot_valid
    {tbl : Table}
    (h : (readRoot tbl).errs = []) :
    (readRoot tbl).value.Valid := by
  obtain ⟨t, _, hread⟩ := readRoot_eq h
  rw [hread] at h ⊢
  exact readCa_valid h

theorem readCas_valid
    {rootDays : Int}
    (hroot : 0 < rootDays)
    {tbl : Table}
    (h : (readCas oidText rootDays tbl).errs = []) :
    ∀ purpose ca, (readCas oidText rootDays tbl).value.find? purpose = some ca →
      ca.purpose = purpose ∧ ca.Valid oidText rootDays := by
  unfold readCas at h ⊢
  split at h
  · simp at h
  · intro purpose ca hfind
    rw [OrderedMap.find?_ofEntries] at hfind
    exact readIssuers_valid hroot h purpose ca (mem_of_lookup hfind)

/-- A loaded configuration meets every check. -/
theorem loadTable_accepted
    {tbl : Table}
    {c : Config}
    (h : loadTable oidText tbl = .ok c) :
    c.Accepted oidText := by
  unfold loadTable at h
  split_ifs at h with herrs
  obtain rfl := Except.ok.inj h
  simp only [loadErrors, List.append_eq_nil_iff] at herrs
  obtain ⟨⟨⟨⟨⟨⟨⟨hpki, _⟩, hroot⟩, hcas⟩, hclaims⟩, hdigits⟩, hbackends⟩, htokens⟩ := herrs
  simp only [tokenErrors, List.append_eq_nil_iff, List.flatMap_eq_nil_iff] at htokens
  obtain ⟨horg, hcountry, hhost⟩ := readPki_errs hpki
  have hvalid := readRoot_valid hroot
  have hissuers := readCas_valid hvalid.validDays.1 hcas
  refine ⟨horg, hcountry, hhost, ⟨hvalid.cn, hvalid.curve, hvalid.digest, hvalid.validDays,
    hvalid.slugPrefix, hvalid.slug, hvalid.keyBackend⟩, ?_, ?_, ?_, ?_,
    labelled_of_labelErrors htokens.1.1, ?_⟩
  · intro purpose ca hfind
    rw [Config.resolved, OrderedMap.find?_mapValues, Option.map_eq_some_iff] at hfind
    obtain ⟨ca', hfind', rfl⟩ := hfind
    obtain ⟨hpurpose, hca⟩ := hissuers purpose ca' hfind'
    exact ⟨hpurpose, { hca with }⟩
  · rw [Config.resolved_claims]
    exact hclaims
  · rw [Config.resolved_digits]
    exact hdigits
  · rw [Config.resolved_backends]
    exact hbackends
  · intro purpose ca hfind
    rw [Config.resolved, OrderedMap.find?_mapValues, Option.map_eq_some_iff] at hfind
    obtain ⟨ca', hfind', rfl⟩ := hfind
    exact labelled_of_labelErrors (htokens.1.2 (purpose, ca') (OrderedMap.mem_entries_iff.mpr hfind'))

theorem load_accepted
    {parse : String → Except ParseError Table}
    {path : String}
    {file : Option String}
    {c : Config}
    (h : load oidText parse path file = .ok c) :
    c.Accepted oidText := by
  unfold load at h
  split at h
  · simp at h
  · split at h
    · simp at h
    · exact loadTable_accepted h

end Load

section Words

/-- The characters that every check but the one on free texts keeps to. -/
def wordChar (c : Char) : Bool :=
  isAlnum c || c == '-' || c == '.' || c == ':'

/-- A text of such characters. -/
def Word (s : String) : Prop :=
  ∀ c ∈ s.toList, wordChar c = true

instance (s : String) : Decidable (Word s) :=
  decidable_of_iff (s.toList.all wordChar = true) List.all_eq_true

theorem wordChar_bounds
    {c : Char}
    (h : wordChar c = true) :
    45 ≤ c.toNat ∧ c.toNat ≤ 122 := by
  simp only [wordChar, isAlnum, isDigit, Bool.or_eq_true, Bool.and_eq_true, decide_eq_true_eq,
    beq_iff_eq] at h
  rcases h with ((((⟨hlo, hhi⟩ | ⟨hlo, hhi⟩) | ⟨hlo, hhi⟩) | rfl) | rfl) | rfl
  · have h₁ : 65 ≤ c.toNat := hlo
    have h₂ : c.toNat ≤ 90 := hhi
    omega
  · have h₁ : 97 ≤ c.toNat := hlo
    have h₂ : c.toNat ≤ 122 := hhi
    omega
  · have h₁ : 48 ≤ c.toNat := hlo
    have h₂ : c.toNat ≤ 57 := hhi
    omega
  · decide
  · decide
  · decide

theorem wordChar_plain
    {c : Char}
    (h : wordChar c = true) :
    plainChar c = true := by
  obtain ⟨hlo, hhi⟩ := wordChar_bounds h
  have hquote : c ≠ '"' := by
    rintro rfl
    simp [wordChar, isAlnum, isDigit] at h
  have hback : c ≠ '\\' := by
    rintro rfl
    simp [wordChar, isAlnum, isDigit] at h
  have hcontrol : isNontabControl c = false := by
    simp only [isNontabControl, Bool.or_eq_false_iff, Bool.and_eq_false_iff, decide_eq_false_iff_not,
      beq_eq_false_iff_ne, ne_eq]
    omega
  simp [plainChar, hquote, hback, hcontrol]

theorem Word.plain
    {s : String}
    (h : Word s) :
    Plain s := by
  rw [Plain, List.all_eq_true]
  exact fun c hc => wordChar_plain (h c hc)

theorem Word.not_mem
    {s : String}
    (h : Word s)
    {c : Char}
    (hc : wordChar c = false) :
    c ∉ s.toList := by
  intro hmem
  rw [h c hmem] at hc
  simp at hc

theorem word_of_mem_curves
    {s : String}
    (h : s ∈ curves) :
    Word s := by
  simp only [curves, List.mem_cons, List.not_mem_nil, or_false] at h
  rcases h with rfl | rfl | rfl
  · decide
  · decide
  · decide

theorem word_of_mem_digests
    {s : String}
    (h : s ∈ digests) :
    Word s := by
  simp only [digests, List.mem_cons, List.not_mem_nil, or_false] at h
  rcases h with rfl | rfl | rfl
  · decide
  · decide
  · decide

theorem word_of_profile
    {s : String}
    (h : (findProfile s).isSome = true) :
    Word s ∧ s ≠ "" := by
  have hmem : s ∈ profileDefs.map Prod.fst := lookup_isSome_iff.mp h
  simp only [profileDefs, List.map_cons, List.map_nil, List.mem_cons, List.not_mem_nil,
    or_false] at hmem
  rcases hmem with rfl | rfl | rfl
  · decide
  · decide
  · decide

theorem word_of_slug
    {s : String}
    (h : validSlug s = true) :
    Word s := by
  intro c hc
  have hchar := List.all_eq_true.mp h c hc
  simp only [Bool.or_eq_true, decide_eq_true_eq, beq_iff_eq] at hchar
  rcases hchar with ((hlow | hdigit) | rfl) | rfl
  · simp [wordChar, isAlnum, hlow]
  · simp [wordChar, isAlnum, isDigit, hdigit]
  · decide
  · decide

theorem wordChar_of_hostname
    {s : List Char}
    (h : validHostname s = true) :
    ∀ c ∈ s, wordChar c = true := by
  intro c hc
  rcases Ca.validHostname_chars h c hc with halnum | rfl | rfl
  · simp [wordChar, halnum]
  · decide
  · decide

theorem word_of_countryCode
    {s : String}
    (h : twoLetters s = true) :
    Word s := by
  simp only [twoLetters, Bool.and_eq_true, List.all_eq_true, Bool.or_eq_true,
    decide_eq_true_eq] at h
  intro c hc
  rcases h.2 c hc with hup | hlow
  · simp [wordChar, isAlnum, hup]
  · simp [wordChar, isAlnum, hlow]

theorem word_of_hostPort
    {s : String}
    (h : validHostPort s = true) :
    Word s := by
  have hsplit := List.takeWhile_append_dropWhile (p := fun c => c != ':') (l := s.toList)
  cases hrest : s.toList.dropWhile fun c => c != ':' with
  | nil =>
      rw [hrest, List.append_nil] at hsplit
      have hnone : ¬ (s.toList.contains ':') = true := by
        rw [List.contains_iff_mem, ← hsplit]
        intro hmem
        have hcolon := List.all_eq_true.mp (List.all_takeWhile (p := fun c => c != ':')) _ hmem
        simp at hcolon
      rw [validHostPort, if_neg hnone, hsplit] at h
      exact wordChar_of_hostname h
  | cons d port =>
      have hd : d = ':' := by
        have hhead := List.head?_dropWhile_not (fun c => c != ':') s.toList
        rw [hrest] at hhead
        simpa using hhead
      rw [hrest, hd] at hsplit
      have hmem : s.toList.contains ':' = true := by
        rw [List.contains_iff_mem, ← hsplit]
        simp
      have hdrop : s.toList.drop ((s.toList.takeWhile fun c => c != ':').length + 1) = port := by
        have hgen : ∀ l host : List Char, host ++ ':' :: port = l → l.drop (host.length + 1) = port := by
          rintro l host rfl
          simp
        exact hgen _ _ hsplit
      rw [validHostPort, if_pos hmem, hdrop] at h
      split_ifs at h with hdigits
      simp only [Bool.or_eq_true, not_or, Bool.not_eq_true', Bool.not_eq_false,
        List.all_eq_true] at hdigits
      intro c hc
      rw [← hsplit] at hc
      rcases List.mem_append.mp hc with hc | hc
      · exact wordChar_of_hostname h c hc
      · rcases List.mem_cons.mp hc with rfl | hc
        · decide
        · simp [wordChar, isAlnum, hdigits.2 c hc]

theorem word_of_subtree
    {email : Bool}
    {s : String}
    (h : ValidSubtree email s) :
    Word s ∧ s ≠ "" := by
  have hhost := wordChar_of_hostname h.2
  have hne := Ca.validHostname_ne_nil h.2
  unfold subtreeHost at hhost hne
  split_ifs at hhost hne with hdot
  · obtain ⟨rest, hrest⟩ := List.isPrefixOf_iff_prefix.mp (Bool.and_eq_true _ _ ▸ hdot).2
    constructor
    · intro c hc
      rw [← hrest] at hc hhost
      simp only [List.cons_append, List.nil_append, List.mem_cons] at hc
      rcases hc with rfl | hc
      · decide
      · exact hhost c (by simpa using hc)
    · rintro rfl
      simp at hrest
  · refine ⟨hhost, ?_⟩
    rintro rfl
    exact hne rfl

/-- Botan prints object identifiers in digits and dots. -/
def DottedDecimal (oidText : String → Option String) : Prop :=
  ∀ s t, oidText s = some t → ∀ c ∈ t.toList, isDigit c = true ∨ c = '.'

theorem word_of_policy
    {oidText : String → Option String}
    (hoid : DottedDecimal oidText)
    {s : String}
    (h : Policy oidText s) :
    Word s ∧ s ≠ "" := by
  refine ⟨?_, h.1.1⟩
  intro c hc
  rcases hoid s s h.1.2 c hc with hdigit | rfl
  · simp [wordChar, isAlnum, hdigit]
  · decide

theorem sampleOid_dotted :
    DottedDecimal sampleOid := by
  intro s t h
  unfold sampleOid at h
  split_ifs at h with hs
  rw [← Option.some.inj h, hs]
  have hall : ("1.3.6.1".toList.all fun c => isDigit c || c == '.') = true := by
    decide
  intro c hc
  have hchar := List.all_eq_true.mp hall c hc
  simpa using hchar

end Words

end Cfg
end Yca
