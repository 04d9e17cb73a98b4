import Yca.Cfg.Config
import Yca.Core.Toml

/-!
# The configuration in print

What `get config` prints: the locked configuration, in the sections it was declared
in.  The text is a printed TOML file, `getConfig_eq_render`: the lines as the source
prints them on one side, sections of keys and values on the other.
-/

namespace Yca
namespace Cfg

open Yca.Core
open Yca.Core.Toml

section Printer

/-- The loop over an array of strings. -/
def printList (v : List String) : String :=
  ", ".intercalate (v.map fun s => "\"" ++ s ++ "\"")

/-- `print_ca`, line by line. -/
def printCa (ca : CaFields) : List String :=
  [ "cn = \"" ++ ca.cn ++ "\"\n",
    "curve = \"" ++ ca.curve ++ "\"\n",
    "digest = \"" ++ ca.digest ++ "\"\n",
    "valid_days = " ++ toString ca.validDays ++ "\n",
    "slug_prefix = \"" ++ ca.slugPrefix ++ "\"  # slug: " ++ ca.slug ++ "\n",
    "key_backend = \"" ++ ca.keyBackend ++ "\"\n" ] ++
    if ca.onToken then ["token_label = \"" ++ ca.tokenLabel ++ "\"\n"] else []

/-- `print_subtrees`. -/
def printSubtrees (key : String) (v : List String) : List String :=
  if v = [] then [] else [key ++ " = [" ++ printList v ++ "]\n"]

/-- The policies in profile order. -/
def SigningCa.declaredPolicies (ca : SigningCa) : List (String × List String) :=
  ca.profiles.filterMap fun prof => (ca.policies.find? prof).map fun oids => (prof, oids)

def printPolicies (ca : SigningCa) : List String :=
  if ca.policies.entries = [] then []
  else
    [ "policies = \x7b " ++
        ", ".intercalate (ca.declaredPolicies.map fun e => e.1 ++ " = [" ++ printList e.2 ++ "]") ++
        " \x7d\n" ]

/-- The lines of a `[ca.<purpose>]` that `[root]` does not have. -/
def printIssuing (ca : SigningCa) : List String :=
  [ "profiles = [" ++ printList ca.profiles ++ "]\n",
    "ee_curve = \"" ++ ca.eeCurve ++ "\"\n",
    "ee_digest = \"" ++ ca.eeDigest ++ "\"\n",
    "ee_valid_days = " ++ toString ca.eeValidDays ++ "\n" ] ++
    (if ca.simpleDn then ["simple_dn = true\n"] else []) ++
    printSubtrees "permitted_dns" ca.permittedDns ++
    printSubtrees "permitted_email" ca.permittedEmail ++
    printPolicies ca

/-- `get config`. -/
def getConfig (c : Config) : String :=
  String.join
    ([ "# showing configuration stored in database\n",
        "\n[pki]\n",
        "org_name = \"" ++ c.pki.orgName ++ "\"\n",
        "country_code = \"" ++ c.pki.countryCode ++ "\"\n",
        "repository_host = \"" ++ c.pki.repositoryHost ++ "\"\n" ] ++
      (if c.anyToken then
        [ "\n[pkcs11]\n",
          "module = \"" ++ c.pkcs11.module ++ "\"\n" ] ++
          if c.pkcs11.tokenLabel = "" then []
          else ["token_label = \"" ++ c.pkcs11.tokenLabel ++ "\"\n"]
      else []) ++
      "\n[root]\n" :: printCa c.root ++
      c.cas.entries.flatMap fun e =>
        ("\n[" ++ ("ca." ++ e.1) ++ "]\n") :: printCa e.2.toCaFields ++ printIssuing e.2)

end Printer

section Documents

/-- The entries of a CA section. -/
def caEntries (ca : CaFields) : List Entry :=
  [ ⟨"cn", .text ca.cn, none⟩,
    ⟨"curve", .text ca.curve, none⟩,
    ⟨"digest", .text ca.digest, none⟩,
    ⟨"valid_days", .number ca.validDays, none⟩,
    ⟨"slug_prefix", .text ca.slugPrefix, some ("slug: " ++ ca.slug)⟩,
    ⟨"key_backend", .text ca.keyBackend, none⟩ ] ++
    if ca.onToken then [⟨"token_label", .text ca.tokenLabel, none⟩] else []

def subtreeEntries (key : String) (v : List String) : List Entry :=
  if v = [] then [] else [⟨key, .texts v, none⟩]

def policyEntries (ca : SigningCa) : List Entry :=
  if ca.policies.entries = [] then [] else [⟨"policies", .inline ca.declaredPolicies, none⟩]

def issuingEntries (ca : SigningCa) : List Entry :=
  [ ⟨"profiles", .texts ca.profiles, none⟩,
    ⟨"ee_curve", .text ca.eeCurve, none⟩,
    ⟨"ee_digest", .text ca.eeDigest, none⟩,
    ⟨"ee_valid_days", .number ca.eeValidDays, none⟩ ] ++
    (if ca.simpleDn then [⟨"simple_dn", .yes, none⟩] else []) ++
    subtreeEntries "permitted_dns" ca.permittedDns ++
    subtreeEntries "permitted_email" ca.permittedEmail ++
    policyEntries ca

def pkiSection (c : Config) : Section :=
  ⟨"pki",
    [ ⟨"org_name", .text c.pki.orgName, none⟩,
      ⟨"country_code", .text c.pki.countryCode, none⟩,
      ⟨"repository_host", .text c.pki.repositoryHost, none⟩ ]⟩

def pkcs11Section (c : Config) : Section :=
  ⟨"pkcs11",
    ⟨"module", .text c.pkcs11.module, none⟩ ::
      if c.pkcs11.tokenLabel = "" then []
      else [⟨"token_label", .text c.pkcs11.tokenLabel, none⟩]⟩

def rootSection (c : Config) : Section :=
  ⟨"root", caEntries c.root⟩

def caSection (e : String × SigningCa) : Section :=
  ⟨"ca." ++ e.1, caEntries e.2.toCaFields ++ issuingEntries e.2⟩

/-- The printed file. -/
def document (c : Config) : Document :=
  ⟨"showing configuration stored in database",
    pkiSection c :: (if c.anyToken then [pkcs11Section c] else []) ++
      rootSection c :: c.cas.entries.map caSection⟩

theorem render_text
    {key line : String}
    (hline : key ++ " = \"" = line)
    (value : String) :
    (Entry.mk key (.text value) none).render = line ++ value ++ "\"\n" := by
  subst hline
  simp only [Entry.render, Printed.render, quoted, String.append_assoc]
  rfl

theorem render_number
    {key line : String}
    (hline : key ++ " = " = line)
    (n : Int) :
    (Entry.mk key (.number n) none).render = line ++ toString n ++ "\n" := by
  subst hline
  simp only [Entry.render, Printed.render, String.append_assoc]
  rfl

theorem render_texts
    {key line : String}
    (hline : key ++ " = [" = line)
    (v : List String) :
    (Entry.mk key (.texts v) none).render = line ++ printList v ++ "]\n" := by
  subst hline
  simp only [Entry.render, Printed.render, renderTexts, printList, String.append_assoc]
  rfl

theorem render_caEntries (ca : CaFields) : (caEntries ca).map Entry.render = printCa ca := by
  have hslug : (Entry.mk "slug_prefix" (.text ca.slugPrefix) (some ("slug: " ++ ca.slug))).render =
      "slug_prefix = \"" ++ ca.slugPrefix ++ "\"  # slug: " ++ ca.slug ++ "\n" := by
    simp only [Entry.render, Printed.render, quoted, String.append_assoc]
    rfl
  have hlabel : (if ca.onToken then [Entry.mk "token_label" (.text ca.tokenLabel) none] else []).map
      Entry.render =
        if ca.onToken then ["token_label = \"" ++ ca.tokenLabel ++ "\"\n"] else [] := by
    cases ca.onToken with
    | false => rfl
    | true => exact congrArg₂ List.cons (render_text rfl _) rfl
  rw [caEntries, printCa, List.map_append, hlabel]
  simp only [List.map_cons, List.map_nil, hslug, List.append_cancel_right_eq, List.cons.injEq,
    and_true, true_and]
  exact ⟨render_text rfl _, render_text rfl _, render_text rfl _, render_number rfl _,
    render_text rfl _⟩

theorem render_subtreeEntries
    {key : String}
    (v : List String) :
    (subtreeEntries key v).map Entry.render = printSubtrees key v := by
  unfold subtreeEntries printSubtrees
  split
  · rfl
  · exact congrArg₂ List.cons (render_texts rfl v) rfl

theorem render_policyEntries (ca : SigningCa) :
    (policyEntries ca).map Entry.render = printPolicies ca := by
  unfold policyEntries printPolicies
  split
  · rfl
  · refine congrArg₂ List.cons ?_ rfl
    simp only [Entry.render, Printed.render, renderTexts, printList, String.append_assoc]
    rfl

theorem render_issuingEntries (ca : SigningCa) :
    (issuingEntries ca).map Entry.render = printIssuing ca := by
  have hsimple : (if ca.simpleDn then [Entry.mk "simple_dn" .yes none] else []).map Entry.render =
      if ca.simpleDn then ["simple_dn = true\n"] else [] := by
    cases ca.simpleDn <;> rfl
  simp only [issuingEntries, printIssuing, List.map_append, hsimple, render_subtreeEntries,
    render_policyEntries, List.append_cancel_right_eq]
  simp only [List.map_cons, List.map_nil, List.cons.injEq, and_true]
  exact ⟨render_texts rfl _, render_text rfl _, render_text rfl _, render_number rfl _⟩

theorem render_section
    {sec : Section}
    {lines : List String}
    (h : sec.entries.map Entry.render = lines) :
    sec.render = String.join (("\n[" ++ sec.header ++ "]\n") :: lines) := by
  rw [Section.render, h, String.join_cons]

theorem render_pkiSection (c : Config) :
    (pkiSection c).render =
      String.join
        [ "\n[pki]\n",
          "org_name = \"" ++ c.pki.orgName ++ "\"\n",
          "country_code = \"" ++ c.pki.countryCode ++ "\"\n",
          "repository_host = \"" ++ c.pki.repositoryHost ++ "\"\n" ] := by
  refine render_section ?_
  simp only [pkiSection, List.map_cons, List.map_nil, List.cons.injEq, and_true]
  exact ⟨render_text rfl _, render_text rfl _, render_text rfl _⟩

theorem render_pkcs11Section (c : Config) :
    (pkcs11Section c).render =
      String.join
        ([ "\n[pkcs11]\n",
            "module = \"" ++ c.pkcs11.module ++ "\"\n" ] ++
          if c.pkcs11.tokenLabel = "" then []
          else ["token_label = \"" ++ c.pkcs11.tokenLabel ++ "\"\n"]) := by
  refine render_section (congrArg₂ List.cons (render_text rfl _) ?_)
  split
  · rfl
  · exact congrArg₂ List.cons (render_text rfl _) rfl

theorem render_caSection (e : String × SigningCa) :
    (caSection e).render =
      String.join
        (("\n[" ++ ("ca." ++ e.1) ++ "]\n") :: printCa e.2.toCaFields ++ printIssuing e.2) := by
  refine render_section ?_
  rw [caSection, List.map_append, render_caEntries, render_issuingEntries]
  rfl

/-- What is printed is a file. -/
theorem getConfig_eq_render (c : Config) : getConfig c = (document c).render := by
  have hroot : (rootSection c).render = String.join ("\n[root]\n" :: printCa c.root) :=
    render_section (render_caEntries c.root)
  have hcas : String.join ((c.cas.entries.map caSection).map Section.render) =
      String.join (c.cas.entries.flatMap fun e =>
        ("\n[" ++ ("ca." ++ e.1) ++ "]\n") :: printCa e.2.toCaFields ++ printIssuing e.2) := by
    induction c.cas.entries with
    | nil => rfl
    | cons e rest ih =>
        rw [List.map_cons, List.map_cons, List.flatMap_cons, String.join_cons, String.join_append,
          ih, render_caSection]
  have hpkcs11 : String.join ((if c.anyToken then [pkcs11Section c] else []).map Section.render) =
      String.join
        (if c.anyToken then
          [ "\n[pkcs11]\n",
            "module = \"" ++ c.pkcs11.module ++ "\"\n" ] ++
            if c.pkcs11.tokenLabel = "" then []
            else ["token_label = \"" ++ c.pkcs11.tokenLabel ++ "\"\n"]
        else []) := by
    cases c.anyToken with
    | false => rfl
    | true =>
        simp only [if_true, List.map_cons, List.map_nil, String.join_cons, String.join_nil,
          String.append_empty]
        exact render_pkcs11Section c
  rw [getConfig, Document.render, document]
  simp only [List.cons_append, List.nil_append, List.map_cons, List.map_append, String.join_cons,
    String.join_append, hroot, hcas, hpkcs11, render_pkiSection, String.join_nil,
    String.append_assoc, String.append_empty]
  rfl

end Documents

end Cfg
end Yca
