import Yca.Ca.Initial

/-!
# Stores from a loaded configuration

`Config.Loaded` has the laws of `cfg::load` that span the sections of one file,
those the lineages rest on and the others: a profile belongs to one CA, slug
prefixes stay apart once generations are appended, and no CA is declared to live
as long as the root.  `Founded` stores are made by `init` from such a file.
-/

namespace Yca
namespace Ca

open Yca.Core

/-- A character is a decimal digit. -/
def decimal (c : Char) : Bool :=
  decide ('0' ≤ c) && decide (c ≤ '9')

/-- `digits_apart`: the second prefix is the first with digits after it. -/
def digitsApart (a b : String) : Bool :=
  a.toList.isPrefixOf b.toList && (b.toList.drop a.toList.length).all decimal

/-- The slug prefixes of a configuration. -/
def Config.slugPrefixes (config : Config) : List String :=
  config.root.slugPrefix :: config.cas.map fun ca => ca.slugPrefix

/-- The laws of `cfg::load` that span the sections of one file. -/
structure Config.Loaded (config : Config) : Prop extends config.Accepted where
  profiles : (config.cas.flatMap SigningCa.profiles).Nodup
  apart : ∀ a ∈ config.slugPrefixes, ∀ b ∈ config.slugPrefixes, a ≠ b →
    digitsApart a b = false
  validDays : ∀ ca ∈ config.cas, ca.validDays < config.root.validDays

instance (config : Config) : Decidable config.Loaded :=
  decidable_of_iff
    (((config.cas.map SigningCa.purpose).Nodup ∧
        (∀ ca ∈ config.cas, ca.purpose ≠ "root") ∧
        (config.root.cn :: config.cas.map fun ca => ca.cn).Nodup ∧
        (config.root.slugPrefix :: config.cas.map fun ca => ca.slugPrefix).Nodup ∧
        config.root.slug = config.root.slugPrefix ++ toString 1 ∧
        ∀ ca ∈ config.cas, ca.slug = ca.slugPrefix ++ toString 1) ∧
      (config.cas.flatMap SigningCa.profiles).Nodup ∧
      (∀ a ∈ config.slugPrefixes, ∀ b ∈ config.slugPrefixes, a ≠ b → digitsApart a b = false) ∧
      ∀ ca ∈ config.cas, ca.validDays < config.root.validDays)
    ⟨fun ⟨⟨h₁, h₂, h₃, h₄, h₅, h₆⟩, h₇, h₈, h₉⟩ => ⟨⟨h₁, h₂, h₃, h₄, h₅, h₆⟩, h₇, h₈, h₉⟩,
      fun h => ⟨⟨h.purposes, h.notRoot, h.cns, h.slugPrefixes, h.rootSlug, h.slugs⟩,
        h.profiles, h.apart, h.validDays⟩⟩

/-- A store that `init` made from a loaded configuration. -/
def Founded (s : Store) : Prop :=
  ∃ config root draws tokens now,
    config.Loaded ∧
    draws.length = config.cas.length ∧
    (root.serial :: draws.map Draw.serial).Nodup ∧
    create config root draws tokens now = some s

theorem Founded.initialised
    {s : Store}
    (h : Founded s) :
    Initialised s := by
  obtain ⟨config, root, draws, tokens, now, hconfig, hrest⟩ := h
  exact ⟨config, root, draws, tokens, now, hconfig.toAccepted, hrest⟩

theorem writeAll_db (rootCert : Cert) (minted : List Minted) (s : Store) :
    (writeAll rootCert minted s).db = s.db := by
  induction minted generalizing s with
  | nil => rfl
  | cons m rest ih => exact ih _

theorem writeAll_now (rootCert : Cert) (minted : List Minted) (s : Store) :
    (writeAll rootCert minted s).now = s.now := by
  induction minted generalizing s with
  | nil => rfl
  | cons m rest ih => exact ih _

/-- The ceremony locks the configuration it was given. -/
theorem create_loadConfig
    {config : Config}
    {root : Draw}
    {draws : List Draw}
    {tokens : String → List TokenObject}
    {now : Nat}
    {s : Store}
    (h : create config root draws tokens now = some s) :
    s.db.loadConfig = config := by
  obtain ⟨_, _, _, _, _, _, rfl⟩ := create_eq_some h
  rw [writeAll_db]
  rfl

theorem Founded.ceremony
    {s : Store}
    (h : Founded s) :
    ∃ config rootCert rootKey minted,
      config.Loaded ∧ Ceremony config rootCert rootKey minted s := by
  obtain ⟨config, rootCert, rootKey, minted, hs⟩ := h.initialised.ceremony
  obtain ⟨config', _, _, _, _, hconfig, _, _, hcreate⟩ := h
  have hsame : config = config' := by
    rw [← create_loadConfig hcreate, hs.db]
    rfl
  exact ⟨config, rootCert, rootKey, minted, hsame ▸ hconfig, hs⟩

/-- Every certificate file of the ceremony is signed under the root's name. -/
theorem Founded.files
    {s : Store}
    (h : Founded s)
    {slug : String}
    {cert : Cert}
    (hpem : s.pem slug = some cert) :
    cert.issuerCn = s.db.root.cn := by
  obtain ⟨config, rootCert, rootKey, minted, _, hs⟩ := h.ceremony
  have hroot : s.db.root = config.root := by
    rw [hs.db]
    rfl
  obtain ⟨_, _, hrootCert⟩ := hs.root
  rw [hroot]
  rcases hs.files slug cert hpem with rfl | ⟨m, hm, rfl⟩
  · rw [hrootCert]
    rfl
  · obtain ⟨_, _, hcert⟩ := hs.certs m hm
    rw [hcert, hrootCert]
    rfl

theorem sampleConfig_loaded :
    sampleConfig.Loaded := by
  decide

theorem sampleStore_founded :
    Founded sampleStore :=
  ⟨sampleConfig, ⟨1, [0x41]⟩, [⟨2, [0x42]⟩, ⟨3, [0x43]⟩], fun _ => [], 1000,
    sampleConfig_loaded, rfl, by decide, rfl⟩

section Slugs

theorem decimal_toString
    {n : Nat}
    {c : Char}
    (hc : c ∈ (toString n).toList) :
    decimal c = true := by
  rw [Nat.toString_eq_ofList_toDigits, String.toList_ofList] at hc
  have hdigit := Nat.isDigit_of_mem_toDigits (by omega) (Nat.le_refl _) hc
  simp only [Char.isDigit, Bool.and_eq_true, decide_eq_true_eq, ge_iff_le] at hdigit
  simp only [decimal, Bool.and_eq_true, decide_eq_true_eq]
  exact hdigit

/-- Of two equal slugs, the number of the one with the shorter prefix starts with
the rest of the longer prefix. -/
theorem slug_rest
    {a b : String}
    {m n : Nat}
    (hle : a.toList.length ≤ b.toList.length)
    (h : a ++ toString m = b ++ toString n) :
    ∃ rest, b.toList = a.toList ++ rest ∧ (toString m).toList = rest ++ (toString n).toList := by
  have hlist : a.toList ++ (toString m).toList = b.toList ++ (toString n).toList := by
    simpa using congrArg String.toList h
  obtain ⟨rest, hrest⟩ : a.toList <+: b.toList := by
    refine List.prefix_of_prefix_length_le ⟨_, hlist⟩ ?_ hle
    exact List.prefix_append _ _
  rw [← hrest, List.append_assoc, List.append_cancel_left_eq] at hlist
  exact ⟨rest, hrest.symm, hlist⟩

/-- A slug tells its prefix when the prefixes are apart. -/
theorem slugPrefix_eq
    {a b : String}
    {m n : Nat}
    (hab : a ≠ b → digitsApart a b = false)
    (hle : a.toList.length ≤ b.toList.length)
    (h : a ++ toString m = b ++ toString n) :
    a = b := by
  by_contra hne
  obtain ⟨rest, hrest, hlist⟩ := slug_rest hle h
  have hdigits : ∀ c ∈ rest, decimal c = true := by
    intro c hc
    refine decimal_toString (n := m) ?_
    rw [hlist]
    exact List.mem_append_left _ hc
  have happart : digitsApart a b = true := by
    simp only [digitsApart, hrest, List.drop_left, Bool.and_eq_true, List.all_eq_true,
      List.isPrefixOf_iff_prefix]
    exact ⟨List.prefix_append _ _, hdigits⟩
  rw [hab hne] at happart
  simp at happart

theorem toString_inj
    {m n : Nat}
    (h : toString m = toString n) :
    m = n := by
  have hdigits : Nat.toDigits 10 m = Nat.toDigits 10 n := by
    simpa [Nat.toString_eq_ofList_toDigits] using congrArg String.toList h
  rw [← Nat.ofDigitChars_ten_toDigits (n := m), hdigits, Nat.ofDigitChars_ten_toDigits]

/-- A slug tells the prefix and the generation. -/
theorem slug_inj
    {a b : String}
    {m n : Nat}
    (hab : a ≠ b → digitsApart a b = false ∧ digitsApart b a = false)
    (h : a ++ toString m = b ++ toString n) :
    a = b ∧ m = n := by
  have heq : a = b := by
    rcases Nat.le_total a.toList.length b.toList.length with hle | hle
    · exact slugPrefix_eq (fun hne => (hab hne).1) hle h
    · exact (slugPrefix_eq (fun hne => (hab (Ne.symm hne)).2) hle h.symm).symm
  subst heq
  refine ⟨rfl, toString_inj (String.toList_injective ?_)⟩
  simpa using congrArg String.toList h

end Slugs

section Issued

/-- The certificate an event issues, and the one it is issued under. -/
def Event.issued : Event → Option (Cert × Cert)
  | .commit (.issue cert issuer _ _ _) => some (cert, issuer)
  | .publish _ issuer (.pem cert) => some (cert, issuer)
  | _ => none

/-- The ceremony publishes the certificates it made under the root's. -/
theorem writeAll_issued
    {rootCert : Cert}
    {minted : List Minted}
    {s : Store}
    {e : Event}
    {cert issuer : Cert}
    (he : e ∈ (writeAll rootCert minted s).log)
    (hissued : e.issued = some (cert, issuer)) :
    e ∈ s.log ∨ (issuer = rootCert ∧ ∃ m ∈ minted, cert = m.cert) := by
  induction minted generalizing s with
  | nil => exact Or.inl he
  | cons m rest ih =>
      rcases ih he with hold | ⟨hissuer, m', hm', hcert⟩
      · obtain ⟨_, _, _, _, crl, _, _, _, hlog⟩ :=
          writeCaArtifacts_spec s m.ca.slug m.cert rootCert m.key.priv crlNextUpdateDays
        rw [hlog] at hold
        simp only [List.mem_cons] at hold
        rcases hold with rfl | rfl | rfl | hold
        · simp [Event.issued] at hissued
        · simp [Event.issued] at hissued
        · right
          obtain ⟨rfl, rfl⟩ := Prod.mk.inj (Option.some.inj hissued)
          exact ⟨rfl, m, List.mem_cons_self, rfl⟩
        · exact Or.inl hold
      · exact Or.inr ⟨hissuer, m', List.mem_cons_of_mem _ hm', hcert⟩

/-- When the root of a store ends that was made now. -/
def Store.rootEnd (s : Store) : Nat :=
  s.now + s.db.root.validDays * day

/-- What the ceremony issues does not outlive the root: everything is dated by
one reading of the clock. -/
theorem Founded.issued_within
    {s : Store}
    (h : Founded s)
    {e : Event}
    {cert issuer : Cert}
    (he : e ∈ s.log)
    (hissued : e.issued = some (cert, issuer)) :
    cert.notAfter ≤ issuer.notAfter ∧ issuer.notAfter = s.rootEnd := by
  obtain ⟨config, root, draws, tokens, now, hconfig, hlength, _, hcreate⟩ := h
  obtain ⟨rootKey, s₁, minted, s₂, hroot, hminted, hstore⟩ := create_eq_some hcreate
  obtain ⟨hsame₁, _, _⟩ := obtainKey_spec hroot
  obtain ⟨hsame₂, hcas, _, hall⟩ := mintAll_spec hminted
  have hnow : s₁.now = now := hsame₁.now
  have hend : s.rootEnd = now + config.root.validDays * day := by
    have hclock : s.now = s₂.now := by
      rw [← hstore, writeAll_now]
      rfl
    have hroot : s.db.root = config.root := by
      rw [← hstore, writeAll_db]
      rfl
    rw [Store.rootEnd, hclock, hroot, hsame₂.now, hnow]
  rw [hend]
  rw [← hstore] at he
  rcases writeAll_issued he hissued with hold | ⟨rfl, m, hm, rfl⟩
  · obtain ⟨_, _, _, _, crl, _, _, _, hlog⟩ :=
      writeCaArtifacts_spec
        { s₂ with db := ceremonyDb config (anchor config rootKey root.serial now) rootKey minted }
        config.root.slug (anchor config rootKey root.serial now)
        (anchor config rootKey root.serial now) rootKey.priv rootCrlNextUpdateDays
    rw [hlog] at hold
    simp only [List.mem_cons] at hold
    rcases hold with rfl | rfl | rfl | hold
    · simp [Event.issued] at hissued
    · simp [Event.issued] at hissued
    · obtain ⟨rfl, rfl⟩ := Prod.mk.inj (Option.some.inj hissued)
      exact ⟨Nat.le_refl _, rfl⟩
    · rcases (hsame₁.trans hsame₂).new e hold with hblank | ⟨use, rfl, _⟩
      · simp [blank] at hblank
      · simp [Event.issued] at hissued
  · obtain ⟨⟨serial, hcert⟩, _⟩ := hall m hm
    have hca : m.ca ∈ config.cas := by
      have hmem : m.ca ∈ minted.map Minted.ca := List.mem_map_of_mem hm
      rw [hcas, List.map_fst_zip (by omega)] at hmem
      exact hmem
    have hdays := hconfig.validDays m.ca hca
    refine ⟨?_, rfl⟩
    rw [hcert]
    show s₁.now + m.ca.validDays * day ≤ now + config.root.validDays * day
    have hle : m.ca.validDays * day ≤ config.root.validDays * day :=
      Nat.mul_le_mul_right _ (Nat.le_of_lt hdays)
    omega

/-- Nor does what its certificate files hold. -/
theorem Founded.files_within
    {s : Store}
    (h : Founded s)
    {slug : String}
    {cert : Cert}
    (hpem : s.pem slug = some cert) :
    cert.notAfter ≤ s.rootEnd := by
  obtain ⟨config, rootCert, rootKey, minted, hconfig, hs⟩ := h.ceremony
  have hroot : s.db.root = config.root := by
    rw [hs.db]
    rfl
  rw [Store.rootEnd, hroot]
  rcases hs.files slug cert hpem with rfl | ⟨m, hm, rfl⟩
  · exact Nat.le_of_eq hs.rootEnd
  · have hca : m.ca ∈ config.cas := by
      rw [← hs.cas]
      exact List.mem_map_of_mem hm
    have hdays := hconfig.validDays m.ca hca
    have hle : m.ca.validDays * day ≤ config.root.validDays * day :=
      Nat.mul_le_mul_right _ (Nat.le_of_lt hdays)
    rw [hs.ends m hm]
    omega

end Issued

section Clock

/-- The clock of the source, nanoseconds in 64 bits, holds all of this second. -/
def OnClock (t : Nat) : Prop :=
  (t + 1) * 1000000000 ≤ 2 ^ 63

instance (t : Nat) : Decidable (OnClock t) :=
  inferInstanceAs (Decidable (_ ≤ _))

theorem OnClock.mono
    {t u : Nat}
    (h : OnClock u)
    (hle : t ≤ u) :
    OnClock t :=
  Nat.le_trans (Nat.mul_le_mul_right _ (Nat.succ_le_succ hle)) h

/-- A store that `init` made from a loaded configuration, the root of which ends on the
clock. -/
def FoundedOnClock (s : Store) : Prop :=
  Founded s ∧ OnClock s.rootEnd

theorem sampleStore_onClock :
    FoundedOnClock sampleStore :=
  ⟨sampleStore_founded, by decide⟩

end Clock

end Ca
end Yca
