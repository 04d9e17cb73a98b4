import Yca.Cfg.Reprint

/-!
# Texts that are not read as they are printed

`get config` prints the free texts of a configuration between quotes, as they are.
The first one that is not plain is read as another text, and the configuration that
loads is another one, `plain_of_reloads`.  So a stored configuration prints as a file
that loads exactly when it `Reprints`, `printed_config_loads_iff`.
-/

namespace Yca
namespace Cfg

open Yca.Core
open Yca.Core.Toml

section Texts

variable {oidText : String → Option String} {c : Config}

/-- A free text with the section and the key it is printed under. -/
inductive Bare (c : Config) : List String → String → String → Prop
  | orgName : Bare c ["pki"] "org_name" c.pki.orgName
  | module : Bare c ["pkcs11"] "module" c.pkcs11.module
  | defaultLabel : Bare c ["pkcs11"] "token_label" c.pkcs11.tokenLabel
  | rootCn : Bare c ["root"] "cn" c.root.cn
  | rootLabel (htoken : c.root.onToken = true) : Bare c ["root"] "token_label" c.root.tokenLabel
  | cn {purpose : String} {ca : SigningCa} (h : (purpose, ca) ∈ c.cas.entries) :
      Bare c ["ca", purpose] "cn" ca.cn
  | label {purpose : String} {ca : SigningCa} (h : (purpose, ca) ∈ c.cas.entries)
      (htoken : ca.onToken = true) : Bare c ["ca", purpose] "token_label" ca.tokenLabel

theorem Bare.mem_freeTexts
    {section? : List String}
    {key s : String}
    (h : Bare c section? key s) :
    s ∈ c.freeTexts := by
  have hissuer {purpose : String} {ca : SigningCa} (he : (purpose, ca) ∈ c.cas.entries)
      (hs : s ∈ ca.freeTexts) : s ∈ c.freeTexts :=
    List.mem_append_right _ (List.mem_flatMap.mpr ⟨ca, List.mem_map_of_mem he, hs⟩)
  cases h with
  | orgName => simp [Config.freeTexts]
  | module => simp [Config.freeTexts]
  | defaultLabel => simp [Config.freeTexts]
  | rootCn => simp [Config.freeTexts, CaFields.freeTexts]
  | rootLabel htoken => simp [Config.freeTexts, CaFields.freeTexts]
  | cn he => exact hissuer he (by simp [CaFields.freeTexts])
  | label he htoken => exact hissuer he (by simp [CaFields.freeTexts])

/-- What is printed and not plain is a free text. -/
theorem bare_of_entry
    (hoid : DottedDecimal oidText)
    (h : c.Accepted oidText)
    (hpurposes : ∀ e ∈ c.stored.cas.entries, OneKey e.1)
    {sec : Section}
    (hsec : sec ∈ (document c.stored).sections)
    {e : Entry}
    (he : e ∈ sec.entries)
    (hplain : ¬ e.Plain) :
    ∃ key s, e = ⟨key, .text s, none⟩ ∧ BareKey key ∧ Bare c.stored sec.path key s := by
  rw [document_sections] at hsec
  rcases List.mem_append.mp hsec with hsec | hsec
  · have hpath := path_topSections hsec
    rcases mem_topSections hsec with rfl | rfl | rfl
    · rcases pkiEntries_cases h he with hok | rfl
      · exact absurd hok hplain
      · exact ⟨_, _, rfl, by decide, hpath ▸ .orgName⟩
    · rcases pkcs11Entries_cases he with rfl | rfl
      · exact ⟨_, _, rfl, by decide, hpath ▸ .module⟩
      · exact ⟨_, _, rfl, by decide, hpath ▸ .defaultLabel⟩
    · rcases caEntries_cases h.root he with hok | rfl | ⟨htoken, rfl⟩
      · exact absurd hok hplain
      · exact ⟨_, _, rfl, by decide, hpath ▸ .rootCn⟩
      · exact ⟨_, _, rfl, by decide, hpath ▸ .rootLabel htoken⟩
  · obtain ⟨⟨purpose, ca⟩, hentry, rfl⟩ := List.mem_map.mp hsec
    have hpath := path_caSection (hpurposes _ hentry).2 ca
    obtain ⟨ca₀, rfl, _, hvalid⟩ := stored_entry h hentry
    rcases List.mem_append.mp he with he | he
    · rcases caEntries_cases hvalid.toValid he with hok | rfl | ⟨htoken, rfl⟩
      · exact absurd hok hplain
      · exact ⟨_, _, rfl, by decide, hpath ▸ .cn hentry⟩
      · exact ⟨_, _, rfl, by decide, hpath ▸ .label hentry htoken⟩
    · exact absurd (plain_issuingEntries hoid hvalid e he) hplain

theorem plain_of_entries
    {ca : CaFields}
    (hlabel : ca.Labelled)
    (h : ∀ e ∈ caEntries ca.stored, e.Plain) :
    ∀ s ∈ ca.stored.freeTexts, Plain s := by
  have hcn : Plain ca.stored.cn := (h ⟨"cn", .text ca.stored.cn, none⟩ (by simp [caEntries])).value
  have htoken : Plain ca.stored.tokenLabel := by
    cases htoken : ca.stored.onToken with
    | true =>
        exact (h ⟨"token_label", .text ca.stored.tokenLabel, none⟩
          (by simp [caEntries, htoken])).value
    | false =>
        have hsame : ca.onToken = false := htoken
        have hempty : ca.tokenLabel = "" := by simpa [CaFields.Labelled, hsame] using hlabel
        rw [CaFields.stored, hempty, dbText_empty]
        show Plain ""
        decide
  simp only [CaFields.freeTexts, List.mem_cons, List.not_mem_nil, or_false, forall_eq_or_imp,
    forall_eq]
  exact ⟨hcn, htoken⟩

/-- A file that is plain was printed from plain texts. -/
theorem freeTexts_of_plain
    (h : c.Accepted oidText)
    (hplain : ∀ sec ∈ (document c.stored).sections, ∀ e ∈ sec.entries, e.Plain) :
    ∀ s ∈ c.stored.freeTexts, Plain s := by
  have htop (sec : Section) (hsec : sec ∈ topSections c.stored) : ∀ e ∈ sec.entries, e.Plain :=
    hplain sec (by rw [document_sections]; exact List.mem_append_left _ hsec)
  have horg : Plain c.stored.pki.orgName :=
    (htop (pkiSection c.stored) (by simp [topSections])
      ⟨"org_name", .text c.stored.pki.orgName, none⟩ (by simp [pkiSection])).value
  have hpkcs11 : Plain c.stored.pkcs11.module ∧ Plain c.stored.pkcs11.tokenLabel := by
    have hsettings := h.token_settings
    split_ifs at hsettings with htoken
    · have hsec : pkcs11Section c.stored ∈ topSections c.stored := by simp [topSections, htoken]
      refine ⟨(htop _ hsec ⟨"module", .text c.stored.pkcs11.module, none⟩
        (by simp [pkcs11Section])).value, ?_⟩
      by_cases hempty : c.stored.pkcs11.tokenLabel = ""
      · rw [hempty]
        decide
      · exact (htop _ hsec ⟨"token_label", .text c.stored.pkcs11.tokenLabel, none⟩
          (by simp [pkcs11Section, hempty])).value
    · rw [Config.stored, hsettings, dbText_empty]
      show Plain "" ∧ Plain ""
      decide
  have hroot := plain_of_entries h.rootLabel (htop (rootSection c.stored) (by simp [topSections]))
  intro s hs
  simp only [Config.freeTexts, List.mem_append, List.mem_cons, List.not_mem_nil, or_false,
    List.mem_flatMap] at hs
  rcases hs with ((rfl | rfl | rfl) | hs) | ⟨ca, hca, hs⟩
  · exact horg
  · exact hpkcs11.1
  · exact hpkcs11.2
  · exact hroot s hs
  · obtain ⟨e, he, rfl⟩ := List.mem_map.mp hca
    obtain ⟨e₀, he₀, rfl⟩ := List.mem_map.mp he
    have hlabel := h.labels e₀.1 e₀.2 (OrderedMap.mem_entries_iff.mp he₀)
    refine plain_of_entries hlabel (fun e' he' => ?_) s hs
    refine hplain (caSection (e₀.1, e₀.2.stored)) ?_ e' (List.mem_append_left _ he')
    rw [document_sections]
    exact List.mem_append_right _ (List.mem_map_of_mem he)

end Texts

section Read

variable {oidText : String → Option String} {t : Table} {c c' : Config}

theorem getStr_of_text
    {sec key old v : String}
    (h : (getStr t sec key old).errs = [])
    (hlookup : t.lookup key = some (.string v)) :
    (getStr t sec key old).value = v ∧ v ≠ "" := by
  obtain ⟨hne, hread⟩ := getStr_errs h
  rw [hlookup] at hread
  have hvalue := Value.string.inj (Option.some.inj hread)
  exact ⟨hvalue.symm, hvalue ▸ hne⟩

theorem optional_of_text
    {sec key old absent v : String}
    (h : (optional t key absent (getStr t sec key old)).errs = [])
    (hlookup : t.lookup key = some (.string v)) :
    (optional t key absent (getStr t sec key old)).value = v ∧ v ≠ "" := by
  rw [optional_of_some hlookup] at h ⊢
  exact getStr_of_text h hlookup

/-- The texts of a CA are those of its table. -/
theorem readCa_texts
    {sec : String}
    (h : (readCa t sec).errs = []) :
    (∀ v, t.lookup "cn" = some (.string v) → (readCa t sec).value.cn = v) ∧
      ∀ v, t.lookup "token_label" = some (.string v) →
        (readCa t sec).value.tokenLabel = v ∧ v ≠ "" := by
  simp only [readCa, List.append_eq_nil_iff] at h
  exact ⟨fun v hv => (getStr_of_text h.1.1.1.1.1.1 hv).1, fun v hv => optional_of_text h.2 hv⟩

theorem readPki_text
    (h : (readPki t).errs = [])
    {v : String}
    (hread : at? t ["pki", "org_name"] = some (.string v)) :
    (readPki t).value.orgName = v := by
  obtain ⟨sub, hsub, hlookup⟩ := at?_cons hread
  rcases requireTable_cases t "pki" with ⟨sub', hsub', hrequire⟩ | ⟨errs, hne, hrequire⟩
  · obtain rfl : sub = sub' := Option.some.inj (hsub.symm.trans hsub')
    simp only [readPki, hrequire, List.append_eq_nil_iff] at h ⊢
    exact (getStr_of_text h.1.1 hlookup).1
  · simp only [readPki, hrequire] at h
    exact absurd h hne

theorem readPkcs11_texts (h : (readPkcs11 t).errs = []) :
    (∀ v, at? t ["pkcs11", "module"] = some (.string v) → (readPkcs11 t).value.module = v) ∧
      ∀ v, at? t ["pkcs11", "token_label"] = some (.string v) →
        (readPkcs11 t).value.tokenLabel = v := by
  have hgen {key : String} {v : String} (hread : at? t ["pkcs11", key] = some (.string v)) :
      ∃ node sub, t.lookup "pkcs11" = some node ∧ node.asTable = some sub ∧
        sub.lookup key = some (.string v) := by
    obtain ⟨sub, hsub, hlookup⟩ := at?_cons hread
    obtain ⟨node, hnode, htable⟩ := Option.bind_eq_some_iff.mp hsub
    exact ⟨node, sub, hnode, htable, hlookup⟩
  constructor
  · intro v hread
    obtain ⟨node, sub, hnode, htable, hlookup⟩ := hgen hread
    simp only [readPkcs11, hnode, htable, List.append_eq_nil_iff] at h ⊢
    exact (optional_of_text h.1 hlookup).1
  · intro v hread
    obtain ⟨node, sub, hnode, htable, hlookup⟩ := hgen hread
    simp only [readPkcs11, hnode, htable, List.append_eq_nil_iff] at h ⊢
    exact (optional_of_text h.2 hlookup).1

theorem readRoot_texts (h : (readRoot t).errs = []) :
    (∀ v, at? t ["root", "cn"] = some (.string v) → (readRoot t).value.cn = v) ∧
      ∀ v, at? t ["root", "token_label"] = some (.string v) →
        (readRoot t).value.tokenLabel = v ∧ v ≠ "" := by
  obtain ⟨sub, hsub, hroot⟩ := readRoot_eq h
  rw [hroot] at h ⊢
  have hgen {key : String} {v : String} (hread : at? t ["root", key] = some (.string v)) :
      sub.lookup key = some (.string v) := by
    obtain ⟨sub', hsub', hlookup⟩ := at?_cons hread
    rwa [show sub = sub' from Option.some.inj (hsub.symm.trans hsub')]
  obtain ⟨hcn, hlabel⟩ := readCa_texts h
  exact ⟨fun v hv => hcn v (hgen hv), fun v hv => hlabel v (hgen hv)⟩

theorem lookup_of_at?
    {purpose key : String}
    {sub : Table}
    {v : Value}
    (hsub : (Lifetime.ca purpose).section? t = some sub)
    (hread : at? t (["ca", purpose] ++ [key]) = some v) :
    sub.lookup key = some v := by
  have hpath : at? t ("ca" :: purpose :: [key]) = some v := hread
  obtain ⟨cas, hcas, hrest⟩ := at?_cons hpath
  obtain ⟨sub', hsub', hlookup⟩ := at?_cons hrest
  rw [Lifetime.section?, hcas, Option.bind_some, hsub'] at hsub
  rwa [show sub = sub' from (Option.some.inj hsub).symm]

theorem resolvedLabel_own
    {ca : CaFields}
    (htoken : ca.onToken = true)
    (hlabel : ca.tokenLabel ≠ "")
    (default : String) :
    resolvedLabel default ca = ca.tokenLabel := by
  simp [resolvedLabel, htoken, hlabel]

/-- The table a purpose of a loaded configuration was read from. -/
theorem issuer_read
    (hload : loadTable oidText t = .ok c')
    (hsame : SameLocked c' c)
    {purpose : String}
    {ca : SigningCa}
    (he : (purpose, ca) ∈ c.cas.entries) :
    ∃ sub default, (Lifetime.ca purpose).section? t = some sub ∧
      (readCa sub ("ca." ++ purpose)).errs = [] ∧
      (readCa sub ("ca." ++ purpose)).value.cn = ca.cn ∧
      (readCa sub ("ca." ++ purpose)).value.onToken = ca.onToken ∧
      resolvedLabel default (readCa sub ("ca." ++ purpose)).value = ca.tokenLabel := by
  unfold loadTable at hload
  split_ifs at hload with herrs
  obtain rfl := Except.ok.inj hload
  simp only [loadErrors, List.append_eq_nil_iff] at herrs
  obtain ⟨hread, hclean⟩ := find?_readCas herrs.1.1.1.1.2 purpose
  have hpurpose := hsame.2 purpose
  rw [OrderedMap.mem_entries_iff.mp he, Config.resolved, OrderedMap.find?_mapValues, declared,
    hread] at hpurpose
  cases hsub : (Lifetime.ca purpose).section? t with
  | none => simp [hsub] at hpurpose
  | some sub =>
      have herrs := hclean sub hsub
      rw [hsub] at hpurpose
      have hlocked := Option.some.inj hpurpose
      have hlookup (key : String) := congrArg (List.lookup key) hlocked
      have hcn := hlookup "cn"
      have hbackend := hlookup "key_backend"
      have hlabel := hlookup "token_label"
      simp only [lockedPurpose, List.lookup_cons, String.reduceBEq, Option.some.injEq,
        readSigningCa] at hcn hbackend hlabel
      simp only [readSigningCa, List.append_eq_nil_iff] at herrs
      refine ⟨sub, _, rfl, herrs.1.1.1.1.1.1.1.1.1.2, hcn, ?_, hlabel⟩
      rw [CaFields.onToken, hbackend]
      rfl

/-- A text that was read from where it was printed is the one that was printed. -/
theorem Bare.read
    (hload : loadTable oidText t = .ok c')
    (hsame : SameLocked c' c)
    {section? : List String}
    {key s v : String}
    (h : Bare c section? key s)
    (hread : at? t (section? ++ [key]) = some (.string v)) :
    v = s := by
  have hload' := hload
  unfold loadTable at hload
  split_ifs at hload with herrs
  obtain rfl := Except.ok.inj hload
  simp only [loadErrors, List.append_eq_nil_iff] at herrs
  obtain ⟨⟨⟨⟨⟨⟨⟨hpki, hpkcs11⟩, hroot⟩, hcas⟩, _⟩, _⟩, _⟩, _⟩ := herrs
  obtain ⟨horg, htoken11, hshown⟩ := hsame.texts
  obtain ⟨hcn, hshown⟩ := Prod.mk.inj hshown
  obtain ⟨hbackend, hlabel⟩ := Prod.mk.inj hshown
  cases h with
  | orgName => exact (readPki_text hpki hread).symm.trans horg
  | module =>
      exact ((readPkcs11_texts hpkcs11).1 v hread).symm.trans (congrArg Pkcs11.module htoken11)
  | defaultLabel =>
      exact ((readPkcs11_texts hpkcs11).2 v hread).symm.trans (congrArg Pkcs11.tokenLabel htoken11)
  | rootCn => exact ((readRoot_texts hroot).1 v hread).symm.trans hcn
  | rootLabel htoken =>
      obtain ⟨hvalue, hne⟩ := (readRoot_texts hroot).2 v hread
      have htoken' : (readRoot t).value.onToken = true := by
        rw [← htoken, CaFields.onToken, CaFields.onToken, ← hbackend]
        rfl
      have hresolved := resolvedLabel_own htoken' (hvalue ▸ hne) (readPkcs11 t).value.tokenLabel
      exact hvalue.symm.trans (hresolved.symm.trans hlabel)
  | cn he =>
      obtain ⟨sub, _, hsub, hclean, hcn, _, _⟩ := issuer_read hload' hsame he
      exact ((readCa_texts hclean).1 v (lookup_of_at? hsub hread)).symm.trans hcn
  | label he htoken =>
      obtain ⟨sub, default, hsub, hclean, _, hbackend, hlabel⟩ := issuer_read hload' hsame he
      obtain ⟨hvalue, hne⟩ := (readCa_texts hclean).2 v (lookup_of_at? hsub hread)
      have hresolved := resolvedLabel_own (hbackend.trans htoken) (hvalue ▸ hne) default
      exact hvalue.symm.trans (hresolved.symm.trans hlabel)

end Read

section Misread

variable {oidText : String → Option String} {parse : String → Except ParseError Table}
  {path : String} {c : Config}

theorem path_bare
    (h : c.Accepted oidText)
    (hpurposes : ∀ e ∈ c.stored.cas.entries, OneKey e.1)
    {sec : Section}
    (hsec : sec ∈ (document c.stored).sections) :
    ∀ k ∈ sec.path, BareKey k := by
  intro k hk
  refine Section.path_bare (header_document h hsec) hk ?_
  rintro rfl
  rw [document_sections] at hsec
  rcases List.mem_append.mp hsec with hsec | hsec
  · rw [path_topSections hsec] at hk
    rcases mem_topSections hsec with rfl | rfl | rfl <;>
      simp [pkiSection, pkcs11Section, rootSection] at hk
  · obtain ⟨e, he, rfl⟩ := List.mem_map.mp hsec
    rw [path_caSection (hpurposes e he).2] at hk
    exact (hpurposes e he).1 (by simpa using hk)

/-- The first text that is not plain is read as another one. -/
theorem plain_of_reloads
    (hoid : DottedDecimal oidText)
    (h : c.Accepted oidText)
    (hpurposes : ∀ e ∈ c.stored.cas.entries, OneKey e.1)
    (hparse : Faithful parse (document c.stored))
    (hline : ∀ s ∈ c.stored.freeTexts, ¬ OpensMultiline s)
    (hreloads : Reloads oidText parse path c.stored) :
    ∀ s ∈ c.stored.freeTexts, Plain s := by
  refine freeTexts_of_plain h ?_
  by_contra hnot
  push Not at hnot
  obtain ⟨c', hload, hreconcile⟩ := hreloads
  have hsame := reconcile_eq_nil.mp hreconcile
  obtain ⟨before, sec, after, hsections, hbefore, hsec⟩ :=
    exists_first (p := fun sec : Section => ∀ e ∈ sec.entries, e.Plain) (by simpa using hnot)
  push Not at hsec
  obtain ⟨es, e, es', hentries, hes, he⟩ := exists_first hsec
  have hmem : sec ∈ (document c.stored).sections := by simp [hsections]
  obtain ⟨key, s, rfl, hkey, hbare⟩ :=
    bare_of_entry hoid h hpurposes hmem (by simp [hentries]) he
  have hs : ¬ Plain s := fun hs => he (plain_text hkey hs)
  have hheading : OneLine "showing configuration stored in database" := by decide
  have hkeys : ∀ k ∈ (Section.mk sec.header []).path, BareKey k := by
    intro k hk
    exact path_bare h hpurposes hmem k hk
  have hbefore' : ∀ sec' ∈ before, sec'.Plain := fun sec' hsec' =>
    ⟨header_document h (by simp [hsections, hsec']), hbefore sec' hsec'⟩
  rw [load, getConfig_eq_render] at hload
  cases hread : parse (document c.stored).render with
  | error e => simp [hread] at hload
  | ok t =>
      rw [hread] at hload
      obtain ⟨v, hv, hat⟩ := hparse.basic before sec.header es key s es' after hheading
        (by rw [hsections, ← hentries]) hbefore' hkeys hes hkey hs
        (hline s hbare.mem_freeTexts) t hread
      have hsv := hbare.read hload hsame hat
      exact hs ((readBasic_eq_self_iff s).mp (hsv ▸ hv))

end Misread

section Results

variable {oidText : String → Option String} {parse : String → Except ParseError Table}
  {path : String} {file : Option String} {c held : Config}

/-- It is plain where a text ends: every text is, or none opens a multi-line string and
every header names the section it is meant to. -/
def Legible (c : Config) : Prop :=
  (∀ s ∈ c.freeTexts, Plain s) ∨
    ((∀ s ∈ c.freeTexts, ¬ OpensMultiline s) ∧ ∀ ca ∈ c.cas.values, OneKey ca.purpose)

/-- **The printed configuration.**  The file that `get config` prints of a stored
configuration loads as that configuration when it `Reprints`, and, unless its texts hide
where they end, only then. -/
theorem printed_config_loads_iff
    (hoid : DottedDecimal oidText)
    (hload : load oidText parse path file = .ok c)
    (hheld : loadConfig (lock c) = some held)
    (hparse : Faithful parse (document held)) :
    (Reprints held → Reloads oidText parse path held) ∧
      (Legible held → Reloads oidText parse path held → Reprints held) := by
  have hc := load_accepted hload
  rw [loadConfig_lock hoid hc] at hheld
  split_ifs at hheld with hempty
  obtain rfl := Option.some.inj hheld
  have hcas : c.stored.cas.entries ≠ [] := by
    simpa [Config.stored, OrderedMap.mapValues] using hempty
  have hreprints (hfree : ∀ s ∈ c.stored.freeTexts, Plain s)
      (hreloads : Reloads oidText parse path c.stored) : Reprints c.stored :=
    hreloads.reprints hc hcas hparse (document_plain hoid hc hfree) hfree
  refine ⟨fun h => h.reloads hoid hc hcas hparse, fun hlegible hreloads => ?_⟩
  rcases hlegible with hfree | ⟨hline, hpurposes⟩
  · exact hreprints hfree hreloads
  · refine hreprints ?_ hreloads
    refine plain_of_reloads hoid hc (fun e he => ?_) hparse hline hreloads
    obtain ⟨ca, hca, hpurpose, _⟩ := stored_entry hc he
    have hkey := hpurposes e.2 (List.mem_map_of_mem he)
    rw [hca] at hkey
    exact hpurpose ▸ hkey

theorem head?_append
    {a : String}
    {x : Char}
    (h : a.toList.head? = some x)
    (b : String) :
    (a ++ b).toList.head? = some x := by
  rw [String.toList_append, List.head?_append, h]
  rfl

/-- A printed file starts with a comment, the sample does not. -/
theorem render_ne_sampleText
    (d : Document)
    (written : String) :
    d.render ≠ sampleText written := by
  have hcomment : d.render.toList.head? = some '#' := by
    rw [Document.render, String.append_assoc, String.append_assoc]
    exact head?_append (by decide) _
  have hsection : (sampleText written).toList.head? = some '[' := by
    unfold sampleText
    simp only [String.append_assoc]
    exact head?_append (by decide) _
  intro h
  rw [h, hsection] at hcomment
  simp at hcomment

/-- A parser may be taken at its word on a plain file. -/
theorem faithful_of_plain
    {d : Document}
    (hplain : d.Plain)
    (hparse : (parse d.render).toOption = d.table) :
    Faithful parse d := by
  refine ⟨fun _ => hparse, ?_⟩
  intro before header es key s es' after _ hsections _ _ _ _ hs
  have hsec : (Section.mk header (es ++ ⟨key, .text s, none⟩ :: es')).Plain :=
    hplain.sections _ (by simp [hsections])
  exact absurd (hsec.entries ⟨key, .text s, none⟩ (by simp)).value hs

/-- A parser that knows a small file and what is printed of it. -/
def printedParse (text : String) : Except ParseError Table :=
  if text = sampleText "Example Ltd" then .ok (sampleTable "Example Ltd")
  else
    match (document (sampleConfig "Example Ltd").stored).table with
    | some t => .ok t
    | none => .error ⟨1, 1, "unknown file"⟩

theorem sample_accepted :
    (sampleConfig "Example Ltd").Accepted sampleOid :=
  load_accepted (sample_load "Example Ltd" sample_errors)

theorem sample_held
    {orgName : String}
    (h : loadErrors sampleOid (sampleTable orgName) = [])
    (hcas : (sampleConfig orgName).cas.entries ≠ []) :
    loadConfig (lock (sampleConfig orgName)) = some (sampleConfig orgName).stored := by
  have haccepted := load_accepted (sample_load orgName h)
  rw [loadConfig_lock sampleOid_dotted haccepted, if_neg hcas]

theorem sample_reprints :
    Reprints (sampleConfig "Example Ltd").stored where
  orgName := by decide
  module := by decide
  cns := by decide
  labels := by decide
  apart := by decide
  plain := by decide
  default := by decide
  purposes := by decide

theorem sample_hcas :
    (sampleConfig "Example Ltd").cas.entries ≠ [] := by
  decide

theorem printed_config_loads_sample :
    Reprints (sampleConfig "Example Ltd").stored ∧
      Reloads sampleOid printedParse "yca.toml" (sampleConfig "Example Ltd").stored := by
  have hload : load sampleOid printedParse "yca.toml" (some (sampleText "Example Ltd")) =
      .ok (sampleConfig "Example Ltd") := by
    have herrors := sample_errors
    simp only [load, printedParse, if_true, loadTable, herrors, sampleConfig]
  have hparse : Faithful printedParse (document (sampleConfig "Example Ltd").stored) := by
    have hplain := document_plain sampleOid_dotted sample_accepted sample_reprints.plain
    refine faithful_of_plain hplain ?_
    rw [printedParse, if_neg (render_ne_sampleText _ _)]
    cases (document (sampleConfig "Example Ltd").stored).table <;> rfl
  exact ⟨sample_reprints, (printed_config_loads_iff sampleOid_dotted hload
    (sample_held sample_errors sample_hcas) hparse).1 sample_reprints⟩

/-- An organization with quotes in its name, as a file spells it and as it is. -/
def quotedSpelling : String :=
  "Example \\\"A\\\""

def quotedName : String :=
  "Example \"A\""

/-- A parser that knows the file, and finds nothing in what is printed of it. -/
def quotedParse : String → Except ParseError Table :=
  sampleParse quotedSpelling quotedName

/-- A quote in a text ends the string it is printed in. -/
theorem quoted_config_lost :
    load sampleOid quotedParse "yca.toml" (some (sampleText quotedSpelling)) =
        .ok (sampleConfig quotedName) ∧
      loadConfig (lock (sampleConfig quotedName)) = some (sampleConfig quotedName).stored ∧
      Faithful quotedParse (document (sampleConfig quotedName).stored) ∧
      ¬ Reloads sampleOid quotedParse "yca.toml" (sampleConfig quotedName).stored := by
  have herrors : loadErrors sampleOid (sampleTable quotedName) = [] := by decide
  have hread : quotedParse (document (sampleConfig quotedName).stored).render =
      .error ⟨1, 1, "unknown file"⟩ := by
    rw [quotedParse, sampleParse, if_neg (render_ne_sampleText _ _)]
  refine ⟨sample_load quotedSpelling herrors, sample_held herrors (by decide), ⟨?_, ?_⟩, ?_⟩
  · intro hplain
    have hsection := hplain.sections (pkiSection (sampleConfig quotedName).stored)
      (by simp [document])
    have hentry := hsection.entries
      ⟨"org_name", .text (sampleConfig quotedName).stored.pki.orgName, none⟩ (by simp [pkiSection])
    have hquoted : ¬ Plain (sampleConfig quotedName).stored.pki.orgName := by decide
    exact absurd hentry.value hquoted
  · intro before header es key s es' after _ _ _ _ _ _ _ _ t ht
    rw [hread] at ht
    simp at ht
  · rintro ⟨c', hload, _⟩
    rw [load, getConfig_eq_render, hread] at hload
    simp at hload

end Results

end Cfg
end Yca
