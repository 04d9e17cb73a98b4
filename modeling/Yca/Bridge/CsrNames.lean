import Yca.Acme.Authorizations
import Yca.Ca.Request
import Mathlib.Data.List.Dedup

/-!
# From the order's identifiers to the certificate's names

The finalize handler compares a request with the order on Go's view of it; the
CA builds the certificate from Botan's view.  The certificate names exactly the
order's identifiers precisely when the request uses neither of the two things
that only Botan sees: a PKCS#9 `emailAddress` attribute, and a common name of a
string type Go does not decode that is no identifier of the order.
-/

namespace Yca
namespace Bridge

open Acme Ca

/-- The certificate names the identifiers and nothing else. -/
structure NamesMatch (cert : Names) (identifiers : List String) : Prop where
  commonName : ∃ i ∈ identifiers, SameName cert.commonName i
  dns : ∀ d ∈ cert.dns, ∃ i ∈ identifiers, SameName d i
  email : cert.email = []
  ip : cert.ip = []
  uri : cert.uri = []
  all : ∀ i ∈ identifiers, ∃ d ∈ cert.dns, SameName d i

/-- The request uses nothing that only Botan reports, beyond the order's own
names. -/
structure SeenByBoth (r : Csr) (identifiers : List String) : Prop where
  emailAttributes : ∀ e ∈ r.emailAttributes, e = ""
  commonName : ∀ v ∈ r.commonNames, v.1.goDecodes = false →
    ∃ i ∈ identifiers, SameName v.2 i

theorem asciiLower_upper : ∀ n : Fin 26,
    asciiLower (Char.ofNat (65 + n.val + 32)) = Char.ofNat (65 + n.val + 32) := by
  decide

theorem asciiLower_idem (c : Char) :
    asciiLower (asciiLower c) = asciiLower c := by
  by_cases h : 'A' ≤ c ∧ c ≤ 'Z'
  · have hlow : 65 ≤ c.toNat := h.1
    have hhigh : c.toNat ≤ 90 := h.2
    have hn := asciiLower_upper ⟨c.toNat - 65, by omega⟩
    have hc : 65 + (c.toNat - 65) + 32 = c.toNat + 32 := by omega
    rw [hc] at hn
    simp only [asciiLower, h, and_self, if_true] at hn ⊢
    exact hn
  · simp [asciiLower, h]

/-- On ASCII the frontend's lower case is the CA's. -/
theorem toLower_ascii
    (rune : Char → Char)
    {s : String}
    (h : ∀ c ∈ s.toList, c.toNat < 128) :
    toLower rune s = lowerAscii s := by
  rw [toLower, lowerAscii]
  congr 1
  refine List.map_congr_left ?_
  intro c hc
  simp [h c hc]

theorem sameName_lower (s : String) :
    SameName s (lowerAscii s) := by
  simp [SameName, lowerAscii, List.map_map, Function.comp_def, asciiLower_idem]

/-- A name the CA lower-cases, and the frontend's lower case of it. -/
theorem sameName_of_sanDns
    {rune : Char → Char}
    {s d : String}
    (h : sanDns s = some d) :
    d = toLower rune s := by
  obtain ⟨hd, hascii⟩ := sanDns_eq h
  rw [hd, toLower_ascii rune hascii]

section Accepted

variable
  {lib : Parsers} {rune : Char → Char} {r : Csr} {identifiers : List String}
  {cert : Names}

/-- What acceptance by `sign_csr` under the server profile says of the names. -/
structure Signed (lib : Parsers) (r : Csr) (cert : Names) : Prop where
  atMostOne : r.commonNames.length ≤ 1
  cnSafe : dnsSafe cert.commonName = true
  cn : (∃ v ∈ r.commonNames, cert.commonName = v.2) ∨
    (r.commonNames = [] ∧ ∃ s ∈ r.dns, s ≠ "" ∧ sanDns s = some cert.commonName)
  cnDns : ∃ d ∈ cert.dns, sanDns cert.commonName = some d
  dnsFrom : ∀ d ∈ cert.dns,
    sanDns cert.commonName = some d ∨ ∃ s ∈ r.dns, s ≠ "" ∧ sanDns s = some d
  dnsTo : ∀ s ∈ r.dns, s ≠ "" → ∃ d ∈ cert.dns, sanDns s = some d
  emailFrom : ∀ m ∈ cert.email, ∃ e ∈ r.email ++ r.emailAttributes, e ≠ ""
  emailTo : ∀ e ∈ r.email ++ r.emailAttributes, e ≠ "" → cert.email ≠ []
  ip : r.ip = [] → cert.ip = []
  uri : r.uri = [] → cert.uri = []

theorem mem_of_first
    {l : List String}
    {a : String}
    (h : first l = some a) :
    a ∈ l := by
  induction l generalizing a with
  | nil => simp [first] at h
  | cons b l ih =>
      simp only [first] at h
      split at h
      · simp [Option.some.inj h]
      · rename_i c hc
        split at h
        · have := ih hc
          simp [← Option.some.inj h, this]
        · simp [Option.some.inj h]

/-- What Botan reports, entry by entry. -/
theorem botanView_cases
    {cns : List String} {san : Names}
    (h : botanView lib r = some (cns, san)) :
    ∃ dns email uri,
      parseAll sanDns r.dns = some dns ∧
      parseAll lib.mailbox (r.email ++ r.emailAttributes) = some email ∧
      parseAll lib.uri r.uri = some uri ∧
      cns = r.commonNames.map Prod.snd ∧
      san = ⟨"", dns.dedup, email.dedup, (r.ip.filter fun a => a.length == 4).dedup,
        uri.dedup⟩ := by
  simp only [botanView] at h
  split at h
  · rename_i dns email uri hdns hemail huri
    split at h
    · simp only [Option.some.injEq, Prod.mk.injEq] at h
      exact ⟨dns, email, uri, hdns, hemail, huri, h.1.symm, h.2.symm⟩
    · simp at h
  · simp at h

/-- What the server profile's rules leave. -/
theorem signNames_cases
    (h : signNames lib .server r = some cert) :
    ∃ cns san cn d,
      botanView lib r = some (cns, san) ∧
      requestCn cns san.dns = some cn ∧
      dnsSafe cn = true ∧
      sanDns cn = some d ∧
      cert = { san with commonName := cn, dns := (d :: san.dns).dedup } := by
  simp only [signNames, Profile.subject] at h
  split at h
  · simp at h
  · rename_i cns san hview
    split at h
    · simp at h
    · rename_i cn hcn
      split at h
      · simp at h
      · split at h
        · simp at h
        · rename_i hsafe
          split at h
          · simp at h
          · rename_i d hd
            exact ⟨cns, san, cn, d, hview, hcn, by simpa using hsafe, hd,
              (Option.some.inj h).symm⟩

theorem signed_of_signNames
    (h : signNames lib .server r = some cert) :
    Signed lib r cert := by
  obtain ⟨cns, san, cn, d, hview, hcn, hsafe, hd, rfl⟩ := signNames_cases h
  obtain ⟨dns, email, uri, hdns, hemail, huri, rfl, rfl⟩ := botanView_cases hview
  constructor
  · cases hlist : r.commonNames with
    | nil => simp
    | cons v l =>
        cases l with
        | nil => simp
        | cons v' l => simp [hlist, requestCn] at hcn
  · exact hsafe
  · cases hlist : r.commonNames with
    | nil =>
        right
        simp only [hlist, List.map_nil, requestCn] at hcn
        exact ⟨rfl, parseAll_mem hdns (List.mem_dedup.mp (mem_of_first hcn))⟩
    | cons v l =>
        cases l with
        | nil =>
            left
            simp only [hlist, List.map_cons, List.map_nil, requestCn, Option.some.injEq] at hcn
            exact ⟨v, by simp, hcn.symm⟩
        | cons v' l => simp [hlist, requestCn] at hcn
  · exact ⟨d, by simp, hd⟩
  · intro x hx
    rcases List.mem_cons.mp (List.mem_dedup.mp hx) with rfl | hx
    · exact Or.inl hd
    · exact Or.inr (parseAll_mem hdns (List.mem_dedup.mp hx))
  · intro x hx hne
    obtain ⟨y, hy, hparse⟩ := parseAll_parsed hdns hx hne
    exact ⟨y, by simp [hy], hparse⟩
  · intro m hm
    obtain ⟨e, he, hne, _⟩ := parseAll_mem hemail (List.mem_dedup.mp hm)
    exact ⟨e, he, hne⟩
  · intro e he hne
    obtain ⟨m, hm, _⟩ := parseAll_parsed hemail he hne
    intro hnil
    have hmem : m ∈ email.dedup := List.mem_dedup.mpr hm
    rw [show email.dedup = [] from hnil] at hmem
    simp at hmem
  · intro hip
    simp [hip]
  · intro hnil
    rw [hnil] at huri
    have : uri = [] := by simpa [parseAll] using huri.symm
    simp [this]

@[simp] theorem goView_dnsNames (r : Csr) :
    (goView r).dnsNames = r.dns := by
  rfl

/-- What acceptance by `handleFinalize` says of the request. -/
structure Checked (rune : Char → Char) (r : Csr) (identifiers : List String) : Prop where
  email : r.email = []
  ip : r.ip = []
  uri : r.uri = []
  names : ∀ n, (n ∈ identifiers ↔
    (∃ s ∈ r.dns, toLower rune s = n) ∨
      (n ≠ "" ∧ toLower rune (goView r).commonName = n))

theorem checked_of_csrProblem
    (hnodup : identifiers.Nodup)
    (h : csrProblem rune (goView r) identifiers = none) :
    Checked rune r identifiers := by
  simp only [csrProblem] at h
  split at h
  · simp at h
  · rename_i hkinds
    split at h
    · simp at h
    · split at h
      · simp at h
      · rename_i hset
        have hset' : sameSet (csrNames rune (goView r)) identifiers = true := by
          simpa using hset
        simp only [goView, gt_iff_lt, Bool.or_eq_true, decide_eq_true_eq, not_or,
          Nat.not_lt, Nat.le_zero_eq, List.length_eq_zero_iff] at hkinds
        refine ⟨hkinds.1.2, hkinds.1.1, hkinds.2, ?_⟩
        intro n
        rw [← mem_of_sameSet hnodup hset', csrNames, List.mem_dedup]
        by_cases hcn : toLower rune (goView r).commonName = ""
        · simp only [hcn, if_true, goView_dnsNames, List.mem_map]
          constructor
          · exact Or.inl
          · rintro (hdns | ⟨hne, hcn'⟩)
            · exact hdns
            · exact absurd hcn'.symm hne
        · simp only [hcn, if_false, goView_dnsNames, List.mem_append, List.mem_map,
            List.mem_singleton]
          constructor
          · rintro (hdns | rfl)
            · exact Or.inl hdns
            · exact Or.inr ⟨hcn, rfl⟩
          · rintro (hdns | ⟨_, hcn'⟩)
            · exact Or.inl hdns
            · exact Or.inr hcn'.symm

/-- Go reports the one common name, if it decodes it. -/
theorem goView_commonName
    {v : StringType × String}
    (h : r.commonNames = [v]) :
    (goView r).commonName = if v.1.goDecodes then v.2 else "" := by
  cases hdec : v.1.goDecodes <;> simp [goView, h, hdec]

theorem commonNames_single
    (h : r.commonNames.length ≤ 1)
    {v : StringType × String}
    (hv : v ∈ r.commonNames) :
    r.commonNames = [v] := by
  cases hlist : r.commonNames with
  | nil => simp [hlist] at hv
  | cons w l =>
      cases l with
      | nil =>
          rw [hlist, List.mem_singleton] at hv
          rw [hv]
      | cons w' l => simp [hlist] at h

/-- A dNSName of the request names an identifier of the order. -/
theorem sameName_of_dns
    (hchecked : Checked rune r identifiers)
    {s d : String}
    (hs : s ∈ r.dns)
    (hd : sanDns s = some d) :
    ∃ i ∈ identifiers, SameName d i := by
  refine ⟨toLower rune s, (hchecked.names _).mpr (Or.inl ⟨s, hs, rfl⟩), ?_⟩
  rw [sameName_of_sanDns hd]
  rfl

/-- The certificate's common name, when the request uses nothing only Botan
reports. -/
theorem commonName_matches
    (hchecked : Checked rune r identifiers)
    (hsigned : Signed lib r cert)
    (hseen : SeenByBoth r identifiers) :
    ∃ i ∈ identifiers, SameName cert.commonName i := by
  rcases hsigned.cn with ⟨v, hv, hcn⟩ | ⟨_, s, hs, _, hparse⟩
  · by_cases hdec : v.1.goDecodes = true
    · have hlist := commonNames_single hsigned.atMostOne hv
      have hgo : (goView r).commonName = cert.commonName := by
        rw [goView_commonName hlist, if_pos hdec, hcn]
      have hascii := dnsSafe_ascii hsigned.cnSafe
      have hlow := toLower_ascii rune hascii
      refine ⟨lowerAscii cert.commonName, ?_, sameName_lower _⟩
      rw [hchecked.names, hgo, hlow]
      refine Or.inr ⟨?_, rfl⟩
      intro hempty
      have hne := dnsSafe_ne_empty hsigned.cnSafe
      have hnil : cert.commonName.toList = [] := by
        have := congrArg String.toList hempty
        simpa [lowerAscii] using this
      exact hne (String.toList_inj.mp (by simpa using hnil))
    · rw [hcn]
      exact hseen.commonName v hv (by simpa using hdec)
  · exact sameName_of_dns hchecked hs hparse

/-- Of a request both accept: the certificate names exactly the identifiers if
and only if the request uses nothing that only Botan reports. -/
theorem namesMatch_iff
    (hempty : "" ∉ identifiers)
    (hchecked : Checked rune r identifiers)
    (hsigned : Signed lib r cert) :
    NamesMatch cert identifiers ↔ SeenByBoth r identifiers := by
  constructor
  · intro hmatch
    constructor
    · intro e he
      by_contra hne
      have hmem : e ∈ r.email ++ r.emailAttributes := List.mem_append_right _ he
      exact hsigned.emailTo e hmem hne hmatch.email
    · intro v hv hdec
      have hlist := commonNames_single hsigned.atMostOne hv
      rcases hsigned.cn with ⟨w, hw, hcn⟩ | ⟨hnil, _⟩
      · rw [hlist, List.mem_singleton] at hw
        rw [← hw, ← hcn]
        exact hmatch.commonName
      · simp [hnil] at hlist
  · intro hseen
    have hcn := commonName_matches hchecked hsigned hseen
    constructor
    · exact hcn
    · intro d hd
      rcases hsigned.dnsFrom d hd with hparse | ⟨s, hs, _, hparse⟩
      · obtain ⟨i, hi, hsame⟩ := hcn
        refine ⟨i, hi, ?_⟩
        rw [(sanDns_eq hparse).1]
        exact (sameName_lower cert.commonName).symm.trans hsame
      · exact sameName_of_dns hchecked hs hparse
    · refine List.eq_nil_iff_forall_not_mem.mpr ?_
      intro m hm
      obtain ⟨e, he, hne⟩ := hsigned.emailFrom m hm
      rw [hchecked.email, List.nil_append] at he
      exact hne (hseen.emailAttributes e he)
    · exact hsigned.ip hchecked.ip
    · exact hsigned.uri hchecked.uri
    · intro i hi
      rcases (hchecked.names i).mp hi with ⟨s, hs, rfl⟩ | ⟨hne, hgo⟩
      · have hs_ne : s ≠ "" := by
          rintro rfl
          exact hempty (by simpa [toLower] using hi)
        obtain ⟨d, hd, hparse⟩ := hsigned.dnsTo s hs hs_ne
        refine ⟨d, hd, ?_⟩
        rw [sameName_of_sanDns hparse]
        rfl
      · -- The identifier is the common name Go reports: the certificate's.
        rcases hsigned.cn with ⟨v, hv, hcn'⟩ | ⟨hnil, _⟩
        · rw [goView_commonName (commonNames_single hsigned.atMostOne hv)] at hgo
          split at hgo
          · obtain ⟨d, hd, hparse⟩ := hsigned.cnDns
            refine ⟨d, hd, ?_⟩
            rw [← hgo, ← hcn', sameName_of_sanDns hparse]
            rfl
          · exact absurd (by simpa [toLower] using hgo.symm) hne
        · exact absurd (by simpa [toLower, goView, hnil] using hgo.symm) hne

end Accepted

/-- For every order of every run, and every request that both the finalize
handler and `sign_csr` under the server profile accept for it: the certificate
names exactly the order's identifiers if and only if the request carries no
PKCS#9 emailAddress and no foreign common name of a type Go does not decode. -/
theorem certificate_names_iff
    {strict : Bool} {w : Core.World State Handler}
    (hw : server.Reachable (Presents strict) w)
    {o : Order}
    (ho : o ∈ w.shared.db.orders)
    {lib : Parsers} {rune : Char → Char} {r : Csr} {cert : Names}
    (haccept : csrProblem rune (goView r) o.identifiers = none)
    (hsign : signNames lib .server r = some cert) :
    NamesMatch cert o.identifiers ↔ SeenByBoth r o.identifiers := by
  obtain ⟨hnodup, hhost⟩ := identifiers_of_reachable hw ho
  have hempty : "" ∉ o.identifiers := by
    intro hmem
    have hsafe := hhost "" hmem
    revert hsafe
    decide
  exact namesMatch_iff hempty (checked_of_csrProblem hnodup haccept) (signed_of_signNames hsign)

/-- Mailboxes and URIs taken as they are. -/
def plainParsers : Parsers :=
  ⟨some, some⟩

/-- A request for `a.ca` with a mailbox in an emailAddress attribute. -/
def emailRequest : Csr :=
  ⟨[], ["a.ca"], [], [], [], ["root@b.ca"]⟩

/-- A request for `a.ca` with a VisibleString common name. -/
def visibleRequest : Csr :=
  ⟨[(.visible, "b.ca")], ["a.ca"], [], [], [], []⟩

/-- A run that creates order 1 for `a.ca`. -/
theorem sampleOrder_reached :
    ∃ w : Core.World State Handler,
      server.Reachable (Presents true) w ∧
      ∃ o ∈ w.shared.db.orders, o.identifiers = ["a.ca"] := by
  have hcheck :
      (server.follow (Presents true) (Core.World.idle sampleState) sampleOrder).any
        (fun w => decide (∃ o ∈ w.shared.db.orders, o.identifiers = ["a.ca"])) = true := by
    decide
  obtain ⟨w, hrun, hw⟩ := Core.Automaton.Run.exists_of_follow hcheck
  exact ⟨w, Core.Automaton.Reachable.of_run sampleState_init hrun, of_decide_eq_true hw⟩

/-- The plain request for `a.ca` is certified for exactly `a.ca`. -/
theorem certificate_names_iff_sample :
    ∃ (identifiers : List String) (cert : Names),
      signNames plainParsers .server ⟨[], ["a.ca"], [], [], [], []⟩ = some cert ∧
      (NamesMatch cert identifiers ↔ SeenByBoth ⟨[], ["a.ca"], [], [], [], []⟩ identifiers) := by
  obtain ⟨w, hw, o, ho, hids⟩ := sampleOrder_reached
  have haccept : csrProblem id (goView ⟨[], ["a.ca"], [], [], [], []⟩) o.identifiers = none := by
    rw [hids]
    decide
  have hsign : signNames plainParsers .server ⟨[], ["a.ca"], [], [], [], []⟩ =
      some ⟨"a.ca", ["a.ca"], [], [], []⟩ := by
    decide
  exact ⟨o.identifiers, _, hsign, certificate_names_iff hw ho haccept hsign⟩

/-- Both requests pass the finalize handler for the order of `a.ca` and are
signed: one certificate carries a mailbox, the other the common name `b.ca`. -/
theorem accepted_names_mismatch :
    ∃ (w : Core.World State Handler) (o : Order) (cert cert' : Names),
      server.Reachable (Presents true) w ∧ o ∈ w.shared.db.orders ∧
      csrProblem id (goView emailRequest) o.identifiers = none ∧
      signNames plainParsers .server emailRequest = some cert ∧
      ¬ NamesMatch cert o.identifiers ∧
      csrProblem id (goView visibleRequest) o.identifiers = none ∧
      signNames plainParsers .server visibleRequest = some cert' ∧
      ¬ NamesMatch cert' o.identifiers := by
  obtain ⟨w, hw, o, ho, hids⟩ := sampleOrder_reached
  refine ⟨w, o, ⟨"a.ca", ["a.ca"], ["root@b.ca"], [], []⟩, ⟨"b.ca", ["b.ca", "a.ca"], [], [], []⟩,
    hw, ho, ?_, by decide, ?_, ?_, by decide, ?_⟩
  · rw [hids]
    decide
  · intro h
    simpa using h.email
  · rw [hids]
    decide
  · intro h
    have hcn := h.commonName
    rw [hids] at hcn
    revert hcn
    decide

end Bridge
end Yca
