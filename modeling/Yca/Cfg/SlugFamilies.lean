import Yca.Cfg.Accepted

/-!
# The slugs of a CA's generations

The files of a generation are named by the slug prefix of its CA and the number of the
generation.  The loader compares the prefixes: they differ, and no two of them differ by
digits only.  That keeps the slugs of two CAs apart for every two generations.
-/

namespace Yca
namespace Cfg

open Yca.Core
open Yca.Core.Toml
open Ca (digitsApart)

section Families

/-- Which CA of a configuration. -/
inductive Issuer
  | root
  | signing (purpose : String)
  deriving DecidableEq

def Config.ca? (c : Config) : Issuer → Option CaFields
  | .root => some c.root
  | .signing purpose => (c.cas.find? purpose).map SigningCa.toCaFields

/-- The slug of a generation, as `renew_signing_ca` makes it. -/
def CaFields.generationSlug (ca : CaFields) (gen : Nat) : String :=
  ca.slugPrefix ++ toString gen

/-- The files `write_ca_artifacts` writes under a slug. -/
def artifacts (slug : String) : List String :=
  [slug ++ ".pem", slug ++ ".crt", slug ++ ".crl"]

/-- Files of different slugs have different names. -/
theorem artifacts_disjoint
    {a b : String}
    (h : a ≠ b) :
    (artifacts a).Disjoint (artifacts b) := by
  have hstem {s t : String} (hs : s.toList.length = 4) (ht : t.toList.length = 4) :
      a ++ s ≠ b ++ t := by
    intro hsame
    have hlist := congrArg String.toList hsame
    rw [String.toList_append, String.toList_append] at hlist
    exact h (String.toList_injective (List.append_inj' hlist (hs.trans ht.symm)).1)
  intro name ha hb
  simp only [artifacts, List.mem_cons, List.not_mem_nil, or_false] at ha hb
  rcases ha with rfl | rfl | rfl <;> rcases hb with hb | hb | hb <;>
    exact hstem (by decide) (by decide) hb

end Families

section Accepted

variable {oidText : String → Option String} {c : Config} {a b : Issuer} {ca cb : CaFields}

/-- A slug prefix belongs to one CA. -/
theorem issuer_eq_of_slugPrefix
    (h : c.Accepted oidText)
    (ha : c.ca? a = some ca)
    (hb : c.ca? b = some cb)
    (hsame : ca.slugPrefix = cb.slugPrefix) :
    a = b := by
  have hnodup := List.nodup_cons.mp h.prefixes_nodup
  have hmem {purpose : String} {x : SigningCa} (hfind : c.cas.find? purpose = some x) :
      x ∈ c.cas.values :=
    List.mem_map.mpr ⟨(purpose, x), OrderedMap.mem_entries_iff.mpr hfind, rfl⟩
  cases a with
  | root =>
      cases b with
      | root => rfl
      | signing q =>
          obtain ⟨y, hy, rfl⟩ := Option.map_eq_some_iff.mp hb
          obtain rfl := Option.some.inj ha
          exact absurd (List.mem_map.mpr ⟨y, hmem hy, hsame.symm⟩) hnodup.1
  | signing p =>
      obtain ⟨x, hx, rfl⟩ := Option.map_eq_some_iff.mp ha
      cases b with
      | root =>
          obtain rfl := Option.some.inj hb
          exact absurd (List.mem_map.mpr ⟨x, hmem hx, hsame⟩) hnodup.1
      | signing q =>
          obtain ⟨y, hy, rfl⟩ := Option.map_eq_some_iff.mp hb
          have hxy := List.inj_on_of_nodup_map hnodup.2 (hmem hx) (hmem hy) hsame
          have hp := (h.cas p x hx).1
          have hq := (h.cas q y hy).1
          rw [← hp, ← hq, hxy]

/-- The prefix of every CA is among those compared. -/
theorem slugPrefix_mem_slugs
    (h : c.Accepted oidText)
    (ha : c.ca? a = some ca) :
    ∃ sec, (ca.slugPrefix, sec) ∈ c.slugs.entries := by
  have hclaim : ∃ sec, ⟨.slugPrefix, ca.slugPrefix, sec⟩ ∈ c.claims ∧ ca.slugPrefix ≠ "" := by
    cases a with
    | root =>
        obtain rfl := Option.some.inj ha
        exact ⟨"root", List.mem_cons_self, h.root.slugPrefix.1⟩
    | signing p =>
        obtain ⟨x, hx, rfl⟩ := Option.map_eq_some_iff.mp ha
        refine ⟨"ca." ++ p, ?_, (h.cas p x hx).2.slugPrefix.1⟩
        refine List.mem_cons_of_mem _ (List.mem_cons_of_mem _ (List.mem_flatMap.mpr ?_))
        exact ⟨(p, x), OrderedMap.mem_entries_iff.mpr hx, List.mem_cons_self⟩
  obtain ⟨sec, hmem, hne⟩ := hclaim
  have hfound : (c.slugs.find? ca.slugPrefix).isSome = true := by
    rw [Config.slugs, OrderedMap.find?_ofEntries, lookup_isSome_iff]
    refine List.mem_map.mpr ⟨(ca.slugPrefix, sec), ?_, rfl⟩
    exact List.mem_map.mpr ⟨_, List.mem_filter.mpr ⟨hmem, by simp [hne]⟩, rfl⟩
  obtain ⟨sec', hsec⟩ := Option.isSome_iff_exists.mp hfound
  exact ⟨sec', OrderedMap.mem_entries_iff.mpr hsec⟩

/-- No two prefixes differ by digits only. -/
theorem digitsApart_eq_false
    (h : c.Accepted oidText)
    (ha : c.ca? a = some ca)
    (hb : c.ca? b = some cb)
    (hne : ca.slugPrefix ≠ cb.slugPrefix) :
    digitsApart ca.slugPrefix cb.slugPrefix = false := by
  obtain ⟨sa, hsa⟩ := slugPrefix_mem_slugs h ha
  obtain ⟨sb, hsb⟩ := slugPrefix_mem_slugs h hb
  have hdigits := h.digits
  simp only [digitErrors, List.flatMap_eq_nil_iff, require_eq_nil] at hdigits
  have hpair := hdigits _ hsa _ hsb
  simpa [hne] using hpair

/-- Two CAs of a loaded configuration have different slugs, whatever their generations,
and so their files have different names. -/
theorem generations_apart
    {parse : String → Except ParseError Table}
    {path : String}
    {file : Option String}
    (hload : load oidText parse path file = .ok c)
    (hne : a ≠ b)
    (ha : c.ca? a = some ca)
    (hb : c.ca? b = some cb)
    (g h : Nat) :
    ca.generationSlug g ≠ cb.generationSlug h ∧
      (artifacts (ca.generationSlug g)).Disjoint (artifacts (cb.generationSlug h)) := by
  have haccepted := load_accepted hload
  have hslugs : ca.generationSlug g ≠ cb.generationSlug h := by
    intro hsame
    have happart : ca.slugPrefix ≠ cb.slugPrefix →
        digitsApart ca.slugPrefix cb.slugPrefix = false ∧
          digitsApart cb.slugPrefix ca.slugPrefix = false := fun hsame =>
      ⟨digitsApart_eq_false haccepted ha hb hsame,
        digitsApart_eq_false haccepted hb ha hsame.symm⟩
    exact hne (issuer_eq_of_slugPrefix haccepted ha hb (Ca.slug_inj happart hsame).1)
  exact ⟨hslugs, artifacts_disjoint hslugs⟩

/-- The prefixes of the sample file, at their tenth and first generations. -/
theorem generations_apart_sample :
    (sampleConfig "Example Ltd").root.generationSlug 10 ≠ "tls-e1" ∧
      (artifacts ((sampleConfig "Example Ltd").root.generationSlug 10)).Disjoint
        (artifacts "tls-e1") := by
  have hload := sample_load "Example Ltd" sample_errors
  have htls : ((sampleConfig "Example Ltd").ca? (.signing "tls")).map
      (fun ca => ca.generationSlug 1) = some "tls-e1" := by
    decide
  obtain ⟨ca, hca, hsame⟩ := Option.map_eq_some_iff.mp htls
  have hapart := generations_apart (a := .root) (b := .signing "tls") hload (by decide) rfl hca 10 1
  rw [hsame] at hapart
  exact hapart

end Accepted

end Cfg
end Yca
