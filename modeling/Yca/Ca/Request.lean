import Yca.Acme.Csr
import Yca.Ca.Names

/-!
# One signing request, read twice

A signing request reaches the frontend through Go's
`x509.ParseCertificateRequest` and the CA through Botan's `PKCS10_Request`.
`Csr` is what both decode; `goView` and `botanView` are what each reports of
it, and `signNames` is the name part of `sign_csr`: the common name and the
subjectAltName of the certificate, or nothing when the request is refused.

The two decoders differ in the string types of a common name they report and
in the PKCS#9 `emailAddress` attribute, which only Botan turns into a mailbox
of the subjectAltName.  How Botan parses mailboxes and URIs is an argument: no
result depends on it.  IPv6 addresses and the other entry types are not
implemented by `sign_csr` and dropped.
-/

namespace Yca
namespace Ca

open Acme (GoCsr asciiLower)

/-- The ASN.1 string types a common name can have. -/
inductive StringType
  | numeric
  | printable
  | ia5
  | t61
  | utf8
  | bmp
  | visible
  | universal
  deriving DecidableEq

/-- Whether `encoding/asn1` decodes the type into a Go string. -/
def StringType.goDecodes : StringType → Bool
  | visible => false
  | universal => false
  | _ => true

/-- A decoded request. -/
structure Csr where
  /-- The common names of the subject, in order. -/
  commonNames : List (StringType × String)
  dns : List String
  email : List String
  ip : List (List UInt8)
  uri : List String
  /-- The values of PKCS#9 emailAddress attributes of the request. -/
  emailAttributes : List String
  deriving DecidableEq

/-- What Go reports: the last common name of a type it decodes, and the
subjectAltName entries. -/
def goView (r : Csr) : GoCsr where
  commonName := ((r.commonNames.filter fun v => v.1.goDecodes).getLast?.map Prod.snd).getD ""
  dnsNames := r.dns
  emailAddresses := r.email
  ipAddresses := r.ip
  uris := r.uri

/-- The names of a certificate. -/
structure Names where
  commonName : String
  dns : List String
  email : List String
  ip : List (List UInt8)
  uri : List String
  deriving DecidableEq

/-- Parse every entry of a list; an empty text is skipped, a bad one fails. -/
def parseAll (parse : String → Option String) (l : List String) : Option (List String) :=
  (l.filter fun s => s != "").mapM parse

/-- Botan's parsers of the other entry types: the canonical mailbox of an
rfc822Name, and whether a text is a URI. -/
structure Parsers where
  mailbox : String → Option String
  uri : String → Option String

/-- What Botan reports: every common name, and the subjectAltName entries in
canonical form together with the mailboxes of the emailAddress attributes.
An address is 4 or 16 bytes long. -/
def botanView (lib : Parsers) (r : Csr) : Option (List String × Names) :=
  match parseAll sanDns r.dns, parseAll lib.mailbox (r.email ++ r.emailAttributes),
      parseAll lib.uri r.uri with
  | some dns, some email, some uri =>
      if r.ip.all fun a => a.length == 4 || a.length == 16 then
        some (r.commonNames.map Prod.snd,
          ⟨"", dns.dedup, email.dedup, (r.ip.filter fun a => a.length == 4).dedup, uri.dedup⟩)
      else none
  | _, _, _ => none

/-- Whether a text comes before another in byte order. -/
def before : List Char → List Char → Bool
  | [], [] => false
  | [], _ :: _ => true
  | _ :: _, [] => false
  | a :: as, b :: bs => decide (a.toNat < b.toNat) || (a == b && before as bs)

/-- The first element of a sorted set. -/
def first : List String → Option String
  | [] => none
  | a :: l =>
      match first l with
      | none => some a
      | some b => if before b.toList a.toList then some b else some a

/-- The subject rules of a profile. -/
inductive Subject
  | dnsCn
  | requireSan
  | emailMatchingCn
  deriving DecidableEq

/-- The certificate profiles. -/
inductive Profile
  | server
  | client
  | email
  deriving DecidableEq

/-- The subject rules a profile imposes. -/
def Profile.subject : Profile → Subject
  | server => .dnsCn
  | client => .requireSan
  | email => .emailMatchingCn

/-- The common name `sign_csr` works with: the only one, or the first dNSName. -/
def requestCn (cns : List String) (dns : List String) : Option String :=
  match cns with
  | [] => first dns
  | [cn] => some cn
  | _ => none

/-- The name rules of `sign_csr`. -/
def signNames (lib : Parsers) (profile : Profile) (r : Csr) : Option Names :=
  match botanView lib r with
  | none => none
  | some (cns, san) =>
      match requestCn cns san.dns with
      | none => none
      | some cn =>
          if !san.dns.all dnsSafe || !san.email.all asciiGraphic ||
              decide (san.uri.length > 1) || !san.uri.all validUriSan then none
          else
            match profile.subject with
            | .dnsCn =>
                if !dnsSafe cn then none
                else
                  match sanDns cn with
                  | none => none
                  | some d => some { san with commonName := cn, dns := (d :: san.dns).dedup }
            | .requireSan =>
                if san.dns.length + san.email.length + san.ip.length + san.uri.length = 0 then
                  none
                else some { san with commonName := cn }
            | .emailMatchingCn =>
                if san.email.contains cn then some { san with commonName := cn } else none

section Ascii

theorem isAlnum_ascii {c : Char} (h : isAlnum c = true) : c.toNat < 128 := by
  simp only [isAlnum, Acme.isDigit, Bool.or_eq_true, Bool.and_eq_true, decide_eq_true_eq] at h
  rcases h with (⟨_, h⟩ | ⟨_, h⟩) | ⟨_, h⟩
  · exact Nat.lt_of_le_of_lt h (by decide)
  · exact Nat.lt_of_le_of_lt h (by decide)
  · exact Nat.lt_of_le_of_lt h (by decide)

theorem hostnameLoop_chars
    {label : Nat}
    {prev : Option Char}
    {s : List Char}
    (h : hostnameLoop label prev s = true) :
    ∀ c ∈ s, isAlnum c = true ∨ c = '-' ∨ c = '.' := by
  induction s generalizing label prev with
  | nil => simp
  | cons a s ih =>
      rw [hostnameLoop] at h
      intro c hc
      split at h
      · rename_i hdot
        split at h
        · simp at h
        · rcases List.mem_cons.mp hc with rfl | hc
          · exact Or.inr (Or.inr hdot)
          · exact ih h c hc
      · split at h
        · simp at h
        · rename_i hchar
          split at h
          · simp at h
          · split at h
            · simp at h
            · rcases List.mem_cons.mp hc with rfl | hc
              · simp only [Bool.and_eq_true, Bool.not_eq_true', bne_iff_ne, not_and,
                  ne_eq, Decidable.not_not] at hchar
                by_cases halnum : isAlnum c = true
                · exact Or.inl halnum
                · exact Or.inr (Or.inl (hchar (by simpa using halnum)))
              · exact ih h c hc

/-- The characters of an accepted host name. -/
theorem validHostname_chars {s : List Char} (h : validHostname s = true) :
    ∀ c ∈ s, isAlnum c = true ∨ c = '-' ∨ c = '.' := by
  rw [validHostname] at h
  split at h
  · simp at h
  · exact hostnameLoop_chars h

theorem validHostname_ne_nil {s : List Char} (h : validHostname s = true) :
    s ≠ [] := by
  rintro rfl
  simp [validHostname] at h

/-- The characters of an accepted DNS name. -/
theorem dnsSafe_chars {s : String} (h : dnsSafe s = true) :
    ∀ c ∈ s.toList, isAlnum c = true ∨ c = '-' ∨ c = '.' ∨ c = '*' := by
  simp only [dnsSafe, Bool.and_eq_true] at h
  have hhost := validHostname_chars h.1
  intro c hc
  by_cases hpre : ['*', '.'].isPrefixOf s.toList = true
  · rw [if_pos hpre] at hhost
    rcases List.isPrefixOf_iff_prefix.mp hpre with ⟨rest, hrest⟩
    rw [← hrest] at hc hhost
    simp only [List.cons_append, List.nil_append, List.drop_succ_cons, List.drop_zero] at hhost
    simp only [List.cons_append, List.nil_append, List.mem_cons] at hc
    rcases hc with hstar | hdot | hc
    · exact Or.inr (Or.inr (Or.inr hstar))
    · exact Or.inr (Or.inr (Or.inl hdot))
    · exact (hhost c hc).imp_right (Or.imp_right Or.inl)
  · rw [if_neg hpre] at hhost
    exact (hhost c hc).imp_right (Or.imp_right Or.inl)

theorem dnsSafe_ascii {s : String} (h : dnsSafe s = true) : ∀ c ∈ s.toList, c.toNat < 128 := by
  intro c hc
  rcases dnsSafe_chars h c hc with halnum | rfl | rfl | rfl
  · exact isAlnum_ascii halnum
  · decide
  · decide
  · decide

theorem dnsSafe_ne_empty {s : String} (h : dnsSafe s = true) : s ≠ "" := by
  rintro rfl
  revert h
  decide

theorem dnsChar_eq {c d : Char} (h : dnsChar c = some d) :
    d = asciiLower c ∧ c.toNat < 128 := by
  rw [dnsChar] at h
  split at h
  · rename_i halnum
    exact ⟨(Option.some.inj h).symm, isAlnum_ascii halnum⟩
  · split at h
    · rename_i hpunct
      rw [← Option.some.inj h]
      rcases hpunct with rfl | rfl | rfl <;> decide
    · simp at h

theorem mapM_dnsChar {s canon : List Char} (h : s.mapM dnsChar = some canon) :
    canon = s.map asciiLower ∧ ∀ c ∈ s, c.toNat < 128 := by
  induction s generalizing canon with
  | nil =>
      simp only [List.mapM_nil, Option.pure_def, Option.some.injEq] at h
      simp [← h]
  | cons a s ih =>
      simp only [List.mapM_cons, Option.pure_def, Option.bind_eq_bind, Option.bind_eq_some_iff,
        Option.some.injEq] at h
      rcases h with ⟨d, hd, rest, hrest, rfl⟩
      rcases ih hrest with ⟨hmap, hascii⟩
      rcases dnsChar_eq hd with ⟨hlow, ha⟩
      refine ⟨by simp [hmap, hlow], ?_⟩
      intro c hc
      rcases List.mem_cons.mp hc with rfl | hc
      · exact ha
      · exact hascii c hc

/-- What a dNSName becomes is its lower case, and it was ASCII. -/
theorem sanDns_eq
    {s d : String}
    (h : sanDns s = some d) :
    d = lowerAscii s ∧ ∀ c ∈ s.toList, c.toNat < 128 := by
  simp only [sanDns, canonicalDns] at h
  split at h
  · simp at h
  · rename_i canon hcanon
    split at h
    · rw [← Option.some.inj h]
      split at hcanon
      · simp at hcanon
      · split at hcanon
        · simp at hcanon
        · rename_i canon' hmap
          split at hcanon
          · simp at hcanon
          · rw [← Option.some.inj hcanon]
            rcases mapM_dnsChar hmap with ⟨rfl, hascii⟩
            exact ⟨rfl, hascii⟩
    · simp at h

end Ascii

section Entries

variable {parse : String → Option String} {l out : List String}

/-- Every parsed entry comes from one of the list. -/
theorem parseAll_mem
    (h : parseAll parse l = some out)
    {d : String}
    (hd : d ∈ out) :
    ∃ s ∈ l, s ≠ "" ∧ parse s = some d := by
  have hgen : ∀ (xs ys : List String), xs.mapM parse = some ys → d ∈ ys →
      ∃ s ∈ xs, parse s = some d := by
    intro xs
    induction xs with
    | nil =>
        intro ys hys hmem
        simp only [List.mapM_nil, Option.pure_def, Option.some.injEq] at hys
        simp [← hys] at hmem
    | cons a xs ih =>
        intro ys hys hmem
        simp only [List.mapM_cons, Option.pure_def, Option.bind_eq_bind,
          Option.bind_eq_some_iff, Option.some.injEq] at hys
        rcases hys with ⟨b, hb, rest, hrest, rfl⟩
        rcases List.mem_cons.mp hmem with rfl | hmem
        · exact ⟨a, by simp, hb⟩
        · rcases ih rest hrest hmem with ⟨s, hs, hp⟩
          exact ⟨s, by simp [hs], hp⟩
  rcases hgen _ _ h hd with ⟨s, hs, hp⟩
  rw [List.mem_filter] at hs
  exact ⟨s, hs.1, by simpa using hs.2, hp⟩

/-- Every entry that is not empty was parsed. -/
theorem parseAll_parsed
    (h : parseAll parse l = some out)
    {s : String}
    (hs : s ∈ l)
    (hne : s ≠ "") :
    ∃ d ∈ out, parse s = some d := by
  have hgen : ∀ (xs ys : List String), xs.mapM parse = some ys → s ∈ xs →
      ∃ d ∈ ys, parse s = some d := by
    intro xs
    induction xs with
    | nil =>
        intro ys _ hmem
        simp at hmem
    | cons a xs ih =>
        intro ys hys hmem
        simp only [List.mapM_cons, Option.pure_def, Option.bind_eq_bind,
          Option.bind_eq_some_iff, Option.some.injEq] at hys
        rcases hys with ⟨b, hb, rest, hrest, rfl⟩
        rcases List.mem_cons.mp hmem with rfl | hmem
        · exact ⟨b, by simp, hb⟩
        · rcases ih rest hrest hmem with ⟨d, hd, hp⟩
          exact ⟨d, by simp [hd], hp⟩
  exact hgen _ _ h (List.mem_filter.mpr ⟨hs, by simpa using hne⟩)

end Entries

end Ca
end Yca
