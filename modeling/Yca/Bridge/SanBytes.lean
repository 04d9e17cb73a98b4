import Yca.Core.Numerals
import Yca.Bridge.LeafContents
import Yca.Bridge.NameBytes

/-!
# Addresses and SPIFFE IDs, in bytes

`parse_ipv4` and `spiffe_id_safe` of `src/util.cpp` scan the bytes of a `--san` value
by hand.  Both decide a grammar: a text is taken for an address exactly when it is
the way the address is written, and for a SPIFFE ID exactly when it is the scheme, a
trust domain and segments.

The definitions on characters that the issuing commands use are the same functions,
seen through UTF-8.
-/

namespace Yca
namespace Bytes

open Yca.Core

section Octets

/-- One part of `parse_ipv4`. -/
def octet (part : List UInt8) : Option Nat :=
  if part.isEmpty || decide (part.length > 3) then none
  -- no leading zeros
  else if decide (part.length > 1) && part.head? == some 0x30 then none
  else if !part.all isDigit then none
  else
    let v := part.foldl (fun v c => v * 10 + (c.toNat - 0x30)) 0
    if v > 255 then none else some v

/-- `result = (result << 8) | v`. -/
def pushOctet (result : UInt32) (v : Nat) : UInt32 :=
  (result <<< 8) ||| UInt32.ofNat v

/-- The loop of `parse_ipv4`, with the parts that are left. -/
def ipv4Loop : Nat → UInt32 → List UInt8 → Option UInt32
  | 0, result, _ => some result
  | left + 1, result, s =>
      let part := s.takeWhile fun c => c != 0x2E
      -- the last part has no dot behind it, every other one has
      if (left == 0) != (!s.contains 0x2E) then none
      else
        match octet part with
        | none => none
        | some v => ipv4Loop left (pushOctet result v) (s.drop (part.length + 1))

/-- `parse_ipv4`. -/
def parseIpv4 (s : List UInt8) : Option UInt32 :=
  ipv4Loop 4 0 s

/-- A number in decimal. -/
def decimal (n : Nat) : List UInt8 :=
  (Nat.toDigits 10 n).map byte

/-- Four numbers with dots between them. -/
def dotted (octets : List Nat) : List UInt8 :=
  [0x2E].intercalate (octets.map decimal)

/-- The octets of an address, the highest first. -/
def octets (v : UInt32) : List Nat :=
  [v.toNat / 2 ^ 24, v.toNat / 2 ^ 16 % 256, v.toNat / 2 ^ 8 % 256, v.toNat % 256]

/-- The way an address is written. -/
def canonicalIpv4 (v : UInt32) : List UInt8 :=
  dotted (octets v)

/-- The byte of a decimal digit. -/
def digitByte (d : Nat) : UInt8 :=
  UInt8.ofNat (0x30 + d)

theorem toNat_digitByte {d : Nat} (h : d < 10) : (digitByte d).toNat = 0x30 + d := by
  rw [digitByte, UInt8.toNat_ofNat']
  omega

theorem isDigit_digitByte {d : Nat} (h : d < 10) : isDigit (digitByte d) = true := by
  rw [isDigit, inRange, toNat_digitByte h]
  simp
  omega

theorem byte_digitChar {d : Nat} (h : d < 10) : byte d.digitChar = digitByte d := by
  have hall : ∀ n : Fin 10, byte (n.val.digitChar) = digitByte n.val := by decide
  exact hall ⟨d, h⟩

/-- A text of digits is the digits' bytes. -/
theorem exists_digits
    {part : List UInt8}
    (h : part.all isDigit = true) :
    ∃ ds : List Nat, (∀ d ∈ ds, d < 10) ∧ part = ds.map digitByte := by
  have hdigit : ∀ b ∈ part, 0x30 ≤ b.toNat ∧ b.toNat ≤ 0x39 := by
    intro b hb
    have hb := List.all_eq_true.mp h b hb
    simpa [isDigit, inRange] using hb
  refine ⟨part.map fun b => b.toNat - 0x30, ?_, ?_⟩
  · intro d hd
    obtain ⟨b, hb, rfl⟩ := List.mem_map.mp hd
    have hb := hdigit b hb
    omega
  · rw [List.map_map]
    refine (List.map_id part).symm.trans (List.map_congr_left fun b hb => ?_)
    have hb := hdigit b hb
    refine UInt8.toNat_inj.mp ?_
    rw [id, Function.comp_apply, toNat_digitByte (by omega)]
    omega

theorem foldl_digitByte
    {ds : List Nat}
    (h : ∀ d ∈ ds, d < 10) :
    (ds.map digitByte).foldl (fun v c => v * 10 + (c.toNat - 0x30)) 0 = numeral 10 ds := by
  induction ds using List.reverseRecOn with
  | nil => rfl
  | append_singleton ds d ih =>
      have hd := h d (by simp)
      have hds := ih fun e he => h e (List.mem_append_left [d] he)
      rw [List.map_append, List.foldl_append, hds, numeral_concat, List.map_singleton,
        List.foldl_cons, List.foldl_nil, toNat_digitByte hd]
      omega

/-- What `parse_ipv4` asks of the digits of a part. -/
theorem octet_digits
    {ds : List Nat}
    (h : ∀ d ∈ ds, d < 10)
    (n : Nat) :
    octet (ds.map digitByte) = some n ↔
      ds ≠ [] ∧ ds.length ≤ 3 ∧ (1 < ds.length → ds.head? ≠ some 0) ∧ n ≤ 255 ∧ numeral 10 ds = n := by
  have hhead : (ds.map digitByte).head? = some 0x30 ↔ ds.head? = some 0 := by
    cases ds with
    | nil => simp
    | cons d ds =>
        have hd := h d List.mem_cons_self
        have hzero : digitByte d = 0x30 ↔ d = 0 := by
          rw [← UInt8.toNat_inj, toNat_digitByte hd]
          simp
        simpa using hzero
  have hall : (ds.map digitByte).all isDigit = true := by
    rw [List.all_map, List.all_eq_true]
    exact fun d hd => isDigit_digitByte (h d hd)
  rw [octet, foldl_digitByte h]
  simp only [hall, List.isEmpty_iff, List.map_eq_nil_iff, List.length_map, Bool.or_eq_true,
    decide_eq_true_eq, Bool.and_eq_true, beq_iff_eq, hhead, Bool.not_true, Bool.false_eq_true,
    if_false]
  split_ifs with hlen hzero hbig
  · simp only [false_iff]
    rintro ⟨hne, hle, _⟩
    rcases hlen with hnil | hlong
    · exact hne hnil
    · omega
  · simp only [false_iff]
    rintro ⟨_, _, hlead, _⟩
    exact hlead hzero.1 hzero.2
  · simp only [false_iff]
    rintro ⟨_, _, _, hle, rfl⟩
    omega
  · rw [Option.some.injEq]
    constructor
    · rintro rfl
      refine ⟨fun hnil => hlen (Or.inl hnil), ?_, fun hlong hhead => hzero ⟨hlong, hhead⟩, ?_, rfl⟩
      · omega
      · omega
    · rintro ⟨_, _, _, _, hn⟩
      exact hn

theorem decimal_of_toDigits
    {n : Nat}
    {ds : List Nat}
    (h : ∀ d ∈ ds, d < 10)
    (hdigits : Nat.toDigits 10 n = ds.map Nat.digitChar) :
    decimal n = ds.map digitByte := by
  rw [decimal, hdigits, List.map_map]
  exact List.map_congr_left fun d hd => byte_digitChar (h d hd)

/-- An octet has up to three digits, and no zero in front of another digit. -/
theorem toDigits_octet {n : Nat} (h : n ≤ 255) :
    ∃ ds : List Nat, (∀ d ∈ ds, d < 10) ∧ Nat.toDigits 10 n = ds.map Nat.digitChar ∧ ds ≠ [] ∧
      ds.length ≤ 3 ∧ (1 < ds.length → ds.head? ≠ some 0) ∧ numeral 10 ds = n := by
  by_cases hone : n < 10
  · refine ⟨[n], by simpa using hone, Nat.toDigits_of_lt_base hone, by simp, by simp, by simp, ?_⟩
    simp [numeral]
  · have hlast := Nat.toDigits_of_base_le (show 1 < 10 by decide) (Nat.not_lt.mp hone)
    by_cases htwo : n < 100
    · refine ⟨[n / 10, n % 10], ?_, ?_, by simp, by simp, ?_, ?_⟩
      · simp
        omega
      · rw [hlast, Nat.toDigits_of_lt_base (by omega)]
        rfl
      · simp
        omega
      · simp [numeral]
        omega
    · have hmiddle := Nat.toDigits_of_base_le (show 1 < 10 by decide) (show 10 ≤ n / 10 by omega)
      refine ⟨[n / 10 / 10, n / 10 % 10, n % 10], ?_, ?_, by simp, by simp, ?_, ?_⟩
      · simp
        omega
      · rw [hlast, hmiddle, Nat.toDigits_of_lt_base (by omega)]
        rfl
      · simp
        omega
      · simp [numeral]
        omega

/-- A part is taken exactly when it is the way an octet is written. -/
theorem octet_eq_some_iff {part : List UInt8} {n : Nat} :
    octet part = some n ↔ n ≤ 255 ∧ part = decimal n := by
  constructor
  · intro h
    have hdigit : part.all isDigit = true := by
      rw [octet] at h
      split_ifs at h with _ _ hall
      simpa using hall
    obtain ⟨ds, hds, rfl⟩ := exists_digits hdigit
    obtain ⟨hne, _, hlead, hle, rfl⟩ := (octet_digits hds n).mp h
    refine ⟨hle, (decimal_of_toDigits hds ?_).symm⟩
    cases ds with
    | nil => exact absurd rfl hne
    | cons d ds =>
        rcases Nat.eq_zero_or_pos d with rfl | hd
        · cases ds with
          | nil => rfl
          | cons e ds => exact absurd rfl (hlead (by simp))
        · exact toDigits_numeral (by decide) hd hds
  · rintro ⟨hle, rfl⟩
    obtain ⟨ds, hds, htext, hne, hlen, hlead, hvalue⟩ := toDigits_octet hle
    rw [decimal_of_toDigits hds htext, octet_digits hds]
    exact ⟨hne, hlen, hlead, hle, hvalue⟩

/-- No dot is written for an octet. -/
theorem dot_not_mem_decimal (n : Nat) : 0x2E ∉ decimal n := by
  obtain ⟨ds, _, hds, _, htext⟩ := exists_numeral (show 1 < 10 by decide) n
  rw [decimal_of_toDigits hds htext]
  intro hmem
  obtain ⟨d, hd, hdot⟩ := List.mem_map.mp hmem
  have hnat := congrArg UInt8.toNat hdot
  rw [toNat_digitByte (hds d hd)] at hnat
  simp at hnat
  omega

theorem dotted_singleton (n : Nat) : dotted [n] = decimal n :=
  List.intercalate_singleton

theorem dotted_cons (n : Nat) {ns : List Nat} (h : ns ≠ []) :
    dotted (n :: ns) = decimal n ++ 0x2E :: dotted ns := by
  cases ns with
  | nil => exact absurd rfl h
  | cons m ns =>
      rw [dotted, List.map_cons, List.map_cons, List.intercalate_cons_cons, List.append_assoc]
      rfl

/-- The loop reads the octets that are left, and nothing behind them. -/
theorem ipv4Loop_eq_some_iff
    (left : Nat)
    (result : UInt32)
    (s : List UInt8)
    (v : UInt32) :
    ipv4Loop (left + 1) result s = some v ↔
      ∃ ns, ns.length = left + 1 ∧ (∀ n ∈ ns, n ≤ 255) ∧ s = dotted ns ∧ ns.foldl pushOctet result = v := by
  induction left generalizing result s with
  | zero =>
      by_cases hdot : 0x2E ∈ s
      · have hloop : ipv4Loop 1 result s = none := by simp [ipv4Loop, hdot]
        rw [hloop]
        constructor
        · simp
        · rintro ⟨ns, hlen, _, rfl, _⟩
          obtain ⟨n, rfl⟩ := List.length_eq_one_iff.mp hlen
          rw [dotted_singleton] at hdot
          exact absurd hdot (dot_not_mem_decimal n)
      · have hpart : (s.takeWhile fun c => c != 0x2E) = s := takeWhile_of_not_mem hdot
        have hloop : ipv4Loop 1 result s = (octet s).map (pushOctet result) := by
          simp only [ipv4Loop, hpart]
          cases octet s <;> simp [hdot]
        rw [hloop, Option.map_eq_some_iff]
        constructor
        · rintro ⟨n, hn, rfl⟩
          obtain ⟨hle, rfl⟩ := octet_eq_some_iff.mp hn
          exact ⟨[n], rfl, by simpa using hle, (dotted_singleton n).symm, rfl⟩
        · rintro ⟨ns, hlen, hle, rfl, rfl⟩
          obtain ⟨n, rfl⟩ := List.length_eq_one_iff.mp hlen
          exact ⟨n, octet_eq_some_iff.mpr ⟨hle n List.mem_cons_self, dotted_singleton n⟩, rfl⟩
  | succ left ih =>
      by_cases hdot : 0x2E ∈ s
      · obtain ⟨part, rest, rfl, hpart⟩ := List.eq_append_cons_of_mem hdot
        have hrest : (part ++ 0x2E :: rest).drop (part.length + 1) = rest := by simp
        have hloop : ipv4Loop (left + 2) result (part ++ 0x2E :: rest) =
            (octet part).bind fun n => ipv4Loop (left + 1) (pushOctet result n) rest := by
          rw [ipv4Loop, takeWhile_before hpart, hrest]
          cases octet part <;> simp
        rw [hloop, Option.bind_eq_some_iff]
        constructor
        · rintro ⟨n, hn, hmore⟩
          obtain ⟨hle, rfl⟩ := octet_eq_some_iff.mp hn
          obtain ⟨ns, hlen, hall, rfl, rfl⟩ := (ih _ _).mp hmore
          have hns : ns ≠ [] := by
            rintro rfl
            simp at hlen
          refine ⟨n :: ns, by rw [List.length_cons, hlen], ?_, (dotted_cons n hns).symm, rfl⟩
          exact List.forall_mem_cons.mpr ⟨hle, hall⟩
        · rintro ⟨ns, hlen, hall, htext, rfl⟩
          cases ns with
          | nil => simp at hlen
          | cons n ns =>
              have hns : ns ≠ [] := by
                rintro rfl
                simp at hlen
              rw [dotted_cons n hns] at htext
              obtain ⟨hfirst, hmore⟩ := append_sep_inj hpart (dot_not_mem_decimal n) htext
              obtain ⟨hle, hall⟩ := List.forall_mem_cons.mp hall
              refine ⟨n, octet_eq_some_iff.mpr ⟨hle, hfirst⟩, (ih _ _).mpr ?_⟩
              exact ⟨ns, Nat.succ.inj hlen, hall, hmore, rfl⟩
      · have hloop : ipv4Loop (left + 2) result s = none := by simp [ipv4Loop, hdot]
        rw [hloop]
        constructor
        · simp
        · rintro ⟨ns, hlen, _, rfl, _⟩
          cases ns with
          | nil => simp at hlen
          | cons n ns =>
              have hns : ns ≠ [] := by
                rintro rfl
                simp at hlen
              rw [dotted_cons n hns] at hdot
              simp at hdot

theorem toNat_pushOctet
    {result : UInt32}
    (h : result.toNat < 2 ^ 24)
    {n : Nat}
    (hn : n ≤ 255) :
    (pushOctet result n).toNat = result.toNat * 256 + n := by
  have hshift : (result <<< (8 : UInt32)).toNat = result.toNat <<< 8 := by
    rw [UInt32.toNat_shiftLeft]
    show result.toNat <<< 8 % 2 ^ 32 = _
    rw [Nat.shiftLeft_eq]
    omega
  have hsmall : (UInt32.ofNat n).toNat = n := by
    rw [UInt32.toNat_ofNat']
    omega
  rw [pushOctet, UInt32.toNat_or, hshift, hsmall, ← Nat.shiftLeft_add_eq_or_of_lt (by omega),
    Nat.shiftLeft_eq]

theorem octets_le (v : UInt32) : ∀ n ∈ octets v, n ≤ 255 := by
  have hv := v.toNat_lt
  simp only [octets, List.mem_cons, List.not_mem_nil, or_false, forall_eq_or_imp, forall_eq]
  omega

/-- Four octets make the address they are the octets of. -/
theorem foldl_pushOctet_iff
    {ns : List Nat}
    (hlen : ns.length = 4)
    (hle : ∀ n ∈ ns, n ≤ 255)
    (v : UInt32) :
    ns.foldl pushOctet 0 = v ↔ ns = octets v := by
  obtain ⟨a, b, c, d, rfl⟩ := List.length_eq_four.mp hlen
  simp only [List.mem_cons, List.not_mem_nil, or_false, forall_eq_or_imp, forall_eq] at hle
  obtain ⟨ha, hb, hc, hd⟩ := hle
  have h₁ := toNat_pushOctet (show (0 : UInt32).toNat < 2 ^ 24 by decide) ha
  rw [UInt32.toNat_zero] at h₁
  have h₂ := toNat_pushOctet (show (pushOctet 0 a).toNat < 2 ^ 24 by omega) hb
  have h₃ := toNat_pushOctet (show (pushOctet (pushOctet 0 a) b).toNat < 2 ^ 24 by omega) hc
  have h₄ := toNat_pushOctet
    (show (pushOctet (pushOctet (pushOctet 0 a) b) c).toNat < 2 ^ 24 by omega) hd
  have hv := v.toNat_lt
  simp only [List.foldl_cons, List.foldl_nil, octets, List.cons.injEq, and_true,
    ← UInt32.toNat_inj, h₄, h₃, h₂, h₁]
  omega

/-- A byte string is taken for an address exactly when it is the way the address is
written; and it is the way some address is written when it is four octets in decimal
with dots between them. -/
theorem ipv4_canonical (s : List UInt8) :
    (∀ v, parseIpv4 s = some v ↔ s = canonicalIpv4 v) ∧
      ((parseIpv4 s).isSome = true ↔
        ∃ ns : List Nat, ns.length = 4 ∧ (∀ n ∈ ns, n ≤ 255) ∧ s = dotted ns) := by
  constructor
  · intro v
    rw [parseIpv4, ipv4Loop_eq_some_iff]
    constructor
    · rintro ⟨ns, hlen, hle, rfl, hv⟩
      rw [canonicalIpv4, ← (foldl_pushOctet_iff hlen hle v).mp hv]
    · rintro rfl
      exact ⟨octets v, rfl, octets_le v, rfl, (foldl_pushOctet_iff rfl (octets_le v) v).mpr rfl⟩
  · rw [Option.isSome_iff_exists]
    constructor
    · rintro ⟨v, hv⟩
      obtain ⟨ns, hlen, hle, htext, _⟩ := (ipv4Loop_eq_some_iff 3 0 s v).mp hv
      exact ⟨ns, hlen, hle, htext⟩
    · rintro ⟨ns, hlen, hle, htext⟩
      exact ⟨_, (ipv4Loop_eq_some_iff 3 0 s _).mpr ⟨ns, hlen, hle, htext, rfl⟩⟩

end Octets

section Spiffe

/-- `spiffe://`. -/
def spiffeScheme : List UInt8 :=
  "spiffe://".toList.map byte

/-- A byte of a trust domain. -/
def isDomainByte (b : UInt8) : Bool :=
  isLowerAlnum b || b == 0x2E || b == 0x2D || b == 0x5F

/-- A byte of a path segment. -/
def isSegmentByte (b : UInt8) : Bool :=
  isAlnum b || b == 0x2E || b == 0x2D || b == 0x5F

/-- The checks of one segment. -/
def segmentSafe (seg : List UInt8) : Bool :=
  !(seg.isEmpty || seg == [0x2E] || seg == [0x2E, 0x2E]) && seg.all isSegmentByte

/-- The loop over the path, from the slash at `pos` on. -/
def pathLoop : List UInt8 → Bool
  | [] => true
  | _ :: rest =>
      let seg := rest.takeWhile fun c => c != 0x2F
      if !segmentSafe seg then false
      -- without another slash this was the last segment
      else if !rest.contains 0x2F then true
      else pathLoop (rest.drop seg.length)
  termination_by s => s.length
  decreasing_by
    rw [List.length_drop, List.length_cons]
    omega

/-- `spiffe_id_safe`. -/
def spiffeIdSafe (s : List UInt8) : Bool :=
  if decide (s.length > 2048) || !spiffeScheme.isPrefixOf s then false
  else
    let rest := s.drop spiffeScheme.length
    let td := rest.takeWhile fun c => c != 0x2F
    if td.isEmpty || decide (td.length > 255) then false
    else if !td.all isDomainByte then false
    else if !rest.contains 0x2F then true
    else pathLoop (rest.drop td.length)

/-- What a trust domain is. -/
structure TrustDomain (td : List UInt8) : Prop where
  ne_nil : td ≠ []
  length_le : td.length ≤ 255
  chars : ∀ b ∈ td, isDomainByte b = true

/-- What a path segment is. -/
structure Segment (seg : List UInt8) : Prop where
  ne_nil : seg ≠ []
  chars : ∀ b ∈ seg, isSegmentByte b = true
  notDot : seg ≠ [0x2E]
  notDots : seg ≠ [0x2E, 0x2E]

/-- Segments, each behind a slash. -/
def slashed (segs : List (List UInt8)) : List UInt8 :=
  segs.flatMap fun seg => 0x2F :: seg

/-- The grammar of SPIFFE IDs: the scheme, a trust domain, and nothing or segments. -/
structure SpiffeId (s : List UInt8) : Prop where
  length_le : s.length ≤ 2048
  parts : ∃ td segs, TrustDomain td ∧ (∀ seg ∈ segs, Segment seg) ∧
    s = spiffeScheme ++ td ++ slashed segs

theorem segmentSafe_iff {seg : List UInt8} :
    segmentSafe seg = true ↔ Segment seg := by
  simp only [segmentSafe, Bool.and_eq_true, Bool.not_eq_true', Bool.or_eq_false_iff,
    List.isEmpty_eq_false_iff, beq_eq_false_iff_ne, List.all_eq_true]
  constructor
  · rintro ⟨⟨⟨hne, hdot⟩, hdots⟩, hall⟩
    exact ⟨hne, hall, hdot, hdots⟩
  · intro h
    exact ⟨⟨⟨h.ne_nil, h.notDot⟩, h.notDots⟩, h.chars⟩

theorem slash_not_mem_segment {seg : List UInt8} (h : Segment seg) : 0x2F ∉ seg := by
  intro hmem
  have hslash := h.chars 0x2F hmem
  revert hslash
  decide

theorem slash_not_mem_trustDomain {td : List UInt8} (h : TrustDomain td) : 0x2F ∉ td := by
  intro hmem
  have hslash := h.chars 0x2F hmem
  revert hslash
  decide

theorem slashed_nil : slashed [] = [] :=
  rfl

theorem slashed_cons (seg : List UInt8) (segs : List (List UInt8)) :
    slashed (seg :: segs) = 0x2F :: (seg ++ slashed segs) := by
  rw [slashed, List.flatMap_cons, List.cons_append]
  rfl

/-- Behind a slash there are segments, whatever they hold. -/
theorem exists_slashed (rest : List UInt8) :
    ∃ segs, (∀ seg ∈ segs, 0x2F ∉ seg) ∧ 0x2F :: rest = slashed segs := by
  induction rest with
  | nil => exact ⟨[[]], by simp, rfl⟩
  | cons c cs ih =>
      obtain ⟨segs, hfree, hcs⟩ := ih
      by_cases hslash : c = 0x2F
      · subst hslash
        refine ⟨[] :: segs, ?_, ?_⟩
        · exact List.forall_mem_cons.mpr ⟨List.not_mem_nil, hfree⟩
        · rw [slashed_cons, hcs, List.nil_append]
      · cases segs with
        | nil => simp [slashed_nil] at hcs
        | cons seg segs =>
            rw [slashed_cons, List.cons.injEq] at hcs
            obtain ⟨hseg, hsegs⟩ := List.forall_mem_cons.mp hfree
            refine ⟨(c :: seg) :: segs, ?_, ?_⟩
            · refine List.forall_mem_cons.mpr ⟨?_, hsegs⟩
              exact List.not_mem_cons_of_ne_of_not_mem (Ne.symm hslash) hseg
            · rw [slashed_cons, hcs.2, List.cons_append]

/-- What is behind a segment does not hide its end. -/
theorem takeWhile_slashed
    {seg : List UInt8}
    (h : 0x2F ∉ seg)
    (segs : List (List UInt8)) :
    ((seg ++ slashed segs).takeWhile fun c => c != 0x2F) = seg := by
  cases segs with
  | nil =>
      rw [slashed_nil, List.append_nil]
      exact takeWhile_of_not_mem h
  | cons seg' segs =>
      rw [slashed_cons]
      exact takeWhile_before h _

theorem contains_slashed
    {seg : List UInt8}
    (h : 0x2F ∉ seg)
    (segs : List (List UInt8)) :
    (seg ++ slashed segs).contains 0x2F = !segs.isEmpty := by
  cases segs with
  | nil => simpa [slashed_nil] using h
  | cons seg' segs => simp [slashed_cons]

/-- The loop checks one segment after another. -/
theorem pathLoop_slashed
    {segs : List (List UInt8)}
    (h : ∀ seg ∈ segs, 0x2F ∉ seg) :
    pathLoop (slashed segs) = segs.all segmentSafe := by
  induction segs with
  | nil => rw [slashed_nil, pathLoop, List.all_nil]
  | cons seg segs ih =>
      obtain ⟨hseg, hsegs⟩ := List.forall_mem_cons.mp h
      have hmore := ih hsegs
      rw [slashed_cons, pathLoop, takeWhile_slashed hseg, contains_slashed hseg, List.drop_left,
        hmore, List.all_cons]
      cases segs with
      | nil => cases segmentSafe seg <;> rfl
      | cons seg' segs => cases segmentSafe seg <;> rfl

theorem trustDomain_iff {td : List UInt8} :
    TrustDomain td ↔
      (td.isEmpty || decide (td.length > 255)) = false ∧ td.all isDomainByte = true := by
  simp only [Bool.or_eq_false_iff, List.isEmpty_eq_false_iff, decide_eq_false_iff_not, not_lt,
    List.all_eq_true]
  constructor
  · intro h
    exact ⟨⟨h.ne_nil, h.length_le⟩, h.chars⟩
  · rintro ⟨⟨hne, hlen⟩, hall⟩
    exact ⟨hne, hlen, hall⟩

/-- `spiffe_id_safe` of the scheme, some bytes without a slash, and segments. -/
theorem spiffeIdSafe_parts
    {td : List UInt8}
    (htd : 0x2F ∉ td)
    {segs : List (List UInt8)}
    (hsegs : ∀ seg ∈ segs, 0x2F ∉ seg) :
    spiffeIdSafe (spiffeScheme ++ td ++ slashed segs) = true ↔
      (spiffeScheme ++ td ++ slashed segs).length ≤ 2048 ∧ TrustDomain td ∧
        ∀ seg ∈ segs, Segment seg := by
  have hscheme : spiffeScheme.isPrefixOf (spiffeScheme ++ td ++ slashed segs) = true := by
    rw [List.isPrefixOf_iff_prefix, List.append_assoc]
    exact List.prefix_append _ _
  have hrest : (spiffeScheme ++ td ++ slashed segs).drop spiffeScheme.length = td ++ slashed segs := by
    rw [List.append_assoc, List.drop_left]
  have hpath : pathLoop (slashed segs) = true ↔ ∀ seg ∈ segs, Segment seg := by
    rw [pathLoop_slashed hsegs, List.all_eq_true]
    exact forall₂_congr fun seg _ => segmentSafe_iff
  simp only [spiffeIdSafe, hscheme, hrest, takeWhile_slashed htd, contains_slashed htd,
    List.drop_left]
  rw [trustDomain_iff, ← hpath]
  generalize (spiffeScheme ++ td ++ slashed segs).length = n
  cases hsize : td.isEmpty || decide (td.length > 255) with
  | true => simp
  | false =>
      cases hall : td.all isDomainByte with
      | false => simp
      | true =>
          cases segs with
          | nil => simp [slashed_nil, pathLoop]
          | cons seg segs => simp

/-- `spiffe_id_safe` is the grammar. -/
theorem spiffe_grammar (s : List UInt8) :
    spiffeIdSafe s = true ↔ SpiffeId s := by
  constructor
  · intro h
    have hscheme : spiffeScheme.isPrefixOf s = true := by
      rw [spiffeIdSafe] at h
      split_ifs at h with hbad
      · simp only [Bool.or_eq_true, not_or, Bool.not_eq_true', Bool.not_eq_false] at hbad
        exact hbad.2
    obtain ⟨rest, rfl⟩ := List.isPrefixOf_iff_prefix.mp hscheme
    -- up to the first slash, and segments from there on
    obtain ⟨td, segs, htd, hfree, rfl⟩ :
        ∃ td segs, 0x2F ∉ td ∧ (∀ seg ∈ segs, 0x2F ∉ seg) ∧ rest = td ++ slashed segs := by
      by_cases hslash : 0x2F ∈ rest
      · obtain ⟨td, path, rfl, htd⟩ := List.eq_append_cons_of_mem hslash
        obtain ⟨segs, hfree, hpath⟩ := exists_slashed path
        exact ⟨td, segs, htd, hfree, by rw [hpath]⟩
      · exact ⟨rest, [], hslash, by simp, by rw [slashed_nil, List.append_nil]⟩
    rw [← List.append_assoc] at h ⊢
    obtain ⟨hlen, hdomain, hsegs⟩ := (spiffeIdSafe_parts htd hfree).mp h
    exact ⟨hlen, td, segs, hdomain, hsegs, rfl⟩
  · rintro ⟨hlen, td, segs, htd, hsegs, rfl⟩
    have hfree : ∀ seg ∈ segs, 0x2F ∉ seg := fun seg hseg => slash_not_mem_segment (hsegs seg hseg)
    exact (spiffeIdSafe_parts (slash_not_mem_trustDomain htd) hfree).mpr ⟨hlen, htd, hsegs⟩

end Spiffe

section Characters

theorem utf8_append (s t : List Char) : utf8 (s ++ t) = utf8 s ++ utf8 t :=
  List.flatMap_append

/-- An ASCII character is found in the bytes where it is in the text. -/
theorem byte_mem_utf8
    {c : Char}
    (hc : c.toNat < 128)
    (s : List Char) :
    byte c ∈ utf8 s ↔ c ∈ s := by
  have hbyte := toNat_byte hc
  constructor
  · intro h
    obtain ⟨d, hd, hmem⟩ := List.mem_flatMap.mp h
    by_cases hascii : d.toNat < 128
    · have hone := utf8_ascii (s := [d]) (by simpa using hascii)
      rw [utf8, List.flatMap_singleton] at hone
      rw [hone, List.map_singleton, List.mem_singleton] at hmem
      exact byte_inj hc hascii hmem ▸ hd
    · obtain ⟨_, _, _, hhigh⟩ := utf8EncodeChar_high (Nat.not_lt.mp hascii)
      have hlow := hhigh _ hmem
      omega
  · intro h
    have hone := utf8_ascii (s := [c]) (by simpa using hc)
    rw [utf8, List.flatMap_singleton] at hone
    exact List.mem_flatMap.mpr ⟨c, h, by simp [hone]⟩

theorem length_utf8 (s : List Char) : (utf8 s).length = Acme.byteLen s := by
  induction s with
  | nil => rfl
  | cons c s ih =>
      rw [utf8, List.length_flatMap] at ih ⊢
      simp only [Acme.byteLen, List.map_cons, List.sum_cons] at ih ⊢
      rw [ih, String.length_utf8EncodeChar]

/-- What a text is checked for byte by byte is ASCII. -/
theorem all_utf8
    {p : UInt8 → Bool}
    {p' : Char → Bool}
    (hlow : ∀ b, p b = true → b.toNat < 128)
    (hlow' : ∀ c, p' c = true → c.toNat < 128)
    (hp : ∀ c, c.toNat < 128 → p (byte c) = p' c)
    (s : List Char) :
    (utf8 s).all p = s.all p' := by
  rw [Bool.eq_iff_iff, List.all_eq_true, List.all_eq_true]
  constructor
  · intro h c hc
    have hascii := ascii_of_utf8 (fun b hb => hlow b (h b hb)) c hc
    exact (hp c hascii).symm.trans (h _ ((byte_mem_utf8 hascii s).mpr hc))
  · intro h
    have hascii : ∀ c ∈ s, c.toNat < 128 := fun c hc => hlow' c (h c hc)
    rw [utf8_ascii hascii]
    intro b hb
    obtain ⟨c, hc, rfl⟩ := List.mem_map.mp hb
    exact (hp c (hascii c hc)).trans (h c hc)

theorem isDigit_lt {b : UInt8} (h : isDigit b = true) : b.toNat < 128 := by
  simp only [isDigit, inRange, Bool.and_eq_true, decide_eq_true_eq, UInt8.reduceToNat] at h
  omega

theorem isDigit_char_lt {c : Char} (h : Acme.isDigit c = true) : c.toNat < 128 :=
  Ca.isAlnum_ascii (by rw [Ca.isAlnum, h, Bool.or_true])

theorem octet_utf8 (part : List Char) :
    octet (utf8 part) = Bridge.octet part := by
  have hall := all_utf8 (fun b => isDigit_lt) (fun c => isDigit_char_lt)
    (fun c => isDigit_byte) part
  rw [octet, Bridge.octet, hall]
  by_cases hdigit : part.all Acme.isDigit = true
  · have hascii : ∀ c ∈ part, c.toNat < 128 := fun c hc =>
      isDigit_char_lt (List.all_eq_true.mp hdigit c hc)
    have hhead : ((part.map byte).head? == some 0x30) = (part.head? == some '0') := by
      cases part with
      | nil => rfl
      | cons c part =>
          have hc := hascii c List.mem_cons_self
          rw [Bool.eq_iff_iff, List.map_cons, List.head?_cons, List.head?_cons]
          simp only [beq_iff_eq, Option.some.injEq]
          exact ⟨byte_inj (d := '0') hc (by decide), fun h => congrArg byte h⟩
    have hvalue : (part.map byte).foldl (fun v c => v * 10 + (c.toNat - 0x30)) 0 =
        part.foldl (fun v c => v * 10 + (c.toNat - 48)) 0 := by
      rw [List.foldl_map]
      refine List.foldl_ext _ _ _ fun v c hc => ?_
      rw [toNat_byte (hascii c hc)]
    rw [utf8_ascii hascii, hhead, hvalue, List.isEmpty_map, List.length_map]
  · simp [hdigit]

theorem ipv4Loop_utf8 (left : Nat) (result : UInt32) (s : List Char) :
    ipv4Loop left result (utf8 s) = Bridge.ipv4Loop left result s := by
  induction left generalizing result s with
  | zero => rfl
  | succ left ih =>
      have hdot : (0x2E : UInt8) = byte '.' := by decide
      have hmem := byte_mem_utf8 (c := '.') (by decide) s
      by_cases hs : '.' ∈ s
      · obtain ⟨part, rest, rfl, hpart⟩ := List.eq_append_cons_of_mem hs
        have hbytes : utf8 (part ++ '.' :: rest) = utf8 part ++ 0x2E :: utf8 rest := utf8_append _ _
        have hpart' : (0x2E : UInt8) ∉ utf8 part := by
          rwa [hdot, byte_mem_utf8 (by decide)]
        have hlonger : (part.length == (part ++ '.' :: rest).length) = false := by simp
        have hrest : (part ++ '.' :: rest).drop (part.length + 1) = rest := by simp
        have hrest' : (utf8 part ++ 0x2E :: utf8 rest).drop ((utf8 part).length + 1) = utf8 rest := by
          simp
        have hfound : (utf8 part ++ 0x2E :: utf8 rest).contains 0x2E = true := by simp
        rw [hbytes, ipv4Loop, Bridge.ipv4Loop]
        simp only [takeWhile_before hpart, takeWhile_before hpart', hlonger, hrest, hrest', hfound,
          octet_utf8, ih, Bool.not_true]
        rfl
      · have hs' : (0x2E : UInt8) ∉ utf8 s := by
          rwa [hdot, hmem]
        have hdrop : (utf8 s).drop ((utf8 s).length + 1) = utf8 (s.drop (s.length + 1)) := by
          rw [List.drop_of_length_le (Nat.le_succ _), List.drop_of_length_le (Nat.le_succ _)]
          rfl
        have habsent : (utf8 s).contains 0x2E = false := by simpa using hs'
        rw [ipv4Loop, Bridge.ipv4Loop]
        simp only [takeWhile_of_not_mem hs, takeWhile_of_not_mem hs', hdrop, habsent, octet_utf8, ih,
          Bool.not_false, beq_self_eq_true]
        rfl

/-- `parse_ipv4` on the characters of a text is `parse_ipv4` on its bytes. -/
theorem parseIpv4_utf8 (s : String) : parseIpv4 (utf8 s.toList) = Bridge.parseIpv4 s :=
  ipv4Loop_utf8 4 0 s.toList

theorem isDomainByte_lt {b : UInt8} (h : isDomainByte b = true) : b.toNat < 128 := by
  simp only [isDomainByte, Bool.or_eq_true, beq_iff_eq] at h
  rcases h with ((h | rfl) | rfl) | rfl
  · exact isLowerAlnum_lt h
  · decide
  · decide
  · decide

theorem isSegmentByte_lt {b : UInt8} (h : isSegmentByte b = true) : b.toNat < 128 := by
  simp only [isSegmentByte, Bool.or_eq_true, beq_iff_eq] at h
  rcases h with ((h | rfl) | rfl) | rfl
  · exact isAlnum_lt h
  · decide
  · decide
  · decide

/-- A character of a trust domain. -/
def isDomainChar (c : Char) : Bool :=
  ('a' ≤ c && c ≤ 'z') || Acme.isDigit c || c == '.' || c == '-' || c == '_'

/-- A character of a path segment. -/
def isSegmentChar (c : Char) : Bool :=
  Ca.isAlnum c || c == '.' || c == '-' || c == '_'

theorem isDomainChar_lt {c : Char} (h : isDomainChar c = true) : c.toNat < 128 := by
  simp only [isDomainChar, Bool.or_eq_true, beq_iff_eq] at h
  rcases h with ((h | rfl) | rfl) | rfl
  · exact Ca.isAlnum_ascii (isLowerChar_alnum (by simpa [isLowerChar] using h))
  · decide
  · decide
  · decide

theorem isSegmentChar_lt {c : Char} (h : isSegmentChar c = true) : c.toNat < 128 := by
  simp only [isSegmentChar, Bool.or_eq_true, beq_iff_eq] at h
  rcases h with ((h | rfl) | rfl) | rfl
  · exact Ca.isAlnum_ascii h
  · decide
  · decide
  · decide

theorem byte_beq
    {c d : Char}
    (hc : c.toNat < 128)
    (hd : d.toNat < 128) :
    (byte c == byte d) = (c == d) := by
  rw [Bool.eq_iff_iff, beq_iff_eq, beq_iff_eq]
  exact ⟨byte_inj hc hd, fun h => congrArg byte h⟩

theorem isDomainByte_byte {c : Char} (h : c.toNat < 128) :
    isDomainByte (byte c) = isDomainChar c := by
  have hlower : isLowerAlnum (byte c) = (('a' ≤ c && c ≤ 'z') || Acme.isDigit c) :=
    isLowerAlnum_byte h
  rw [isDomainByte, isDomainChar, hlower, ← byte_beq (d := '.') h (by decide),
    ← byte_beq (d := '-') h (by decide), ← byte_beq (d := '_') h (by decide)]
  rfl

theorem isSegmentByte_byte {c : Char} (h : c.toNat < 128) :
    isSegmentByte (byte c) = isSegmentChar c := by
  rw [isSegmentByte, isSegmentChar, isAlnum_byte h, ← byte_beq (d := '.') h (by decide),
    ← byte_beq (d := '-') h (by decide), ← byte_beq (d := '_') h (by decide)]
  rfl

/-- The text some ASCII bytes are of. -/
def unbyte (s : List UInt8) : List Char :=
  s.map fun b => Char.ofNat b.toNat

theorem unbyte_byte
    {s : List Char}
    (h : ∀ c ∈ s, c.toNat < 128) :
    unbyte (s.map byte) = s := by
  rw [unbyte, List.map_map]
  refine (List.map_congr_left fun c hc => ?_).trans (List.map_id s)
  rw [Function.comp_apply, toNat_byte (h c hc), Char.ofNat_toNat, id]

theorem map_byte_beq
    {s t : List Char}
    (hs : ∀ c ∈ s, c.toNat < 128)
    (ht : ∀ c ∈ t, c.toNat < 128) :
    (s.map byte == t.map byte) = (s == t) := by
  rw [Bool.eq_iff_iff, beq_iff_eq, beq_iff_eq]
  constructor
  · intro h
    rw [← unbyte_byte hs, ← unbyte_byte ht, h]
  · intro h
    rw [h]

theorem segmentSafe_utf8 (seg : List Char) :
    segmentSafe (utf8 seg) = Ca.spiffeSegment seg := by
  have hall := all_utf8 (fun b => isSegmentByte_lt) (fun c => isSegmentChar_lt)
    (fun c => isSegmentByte_byte) seg
  rw [segmentSafe, hall]
  by_cases hseg : seg.all isSegmentChar = true
  · have hascii : ∀ c ∈ seg, c.toNat < 128 := fun c hc =>
      isSegmentChar_lt (List.all_eq_true.mp hseg c hc)
    have hdot := map_byte_beq (t := ['.']) hascii (by simp)
    have hdots := map_byte_beq (t := ['.', '.']) hascii (by simp)
    have hsegment : Ca.spiffeSegment seg =
        (!seg.isEmpty && seg != ['.'] && seg != ['.', '.'] && seg.all isSegmentChar) := rfl
    rw [hsegment, utf8_ascii hascii, List.isEmpty_map]
    rw [bne, bne, ← hdot, ← hdots, Bool.not_or, Bool.not_or]
    rfl
  · have hsegment : Ca.spiffeSegment seg =
        (!seg.isEmpty && seg != ['.'] && seg != ['.', '.'] && seg.all isSegmentChar) := rfl
    rw [hsegment, Bool.eq_false_of_not_eq_true hseg, Bool.and_false, Bool.and_false]

theorem trustDomain_utf8 (td : List Char) :
    TrustDomain (utf8 td) ↔
      (!td.isEmpty && decide (td.length ≤ 255) && td.all isDomainChar) = true := by
  have hall := all_utf8 (fun b => isDomainByte_lt) (fun c => isDomainChar_lt)
    (fun c => isDomainByte_byte) td
  rw [trustDomain_iff, hall]
  by_cases htd : td.all isDomainChar = true
  · have hascii : ∀ c ∈ td, c.toNat < 128 := fun c hc =>
      isDomainChar_lt (List.all_eq_true.mp htd c hc)
    rw [utf8_ascii hascii, List.isEmpty_map, List.length_map]
    simp [htd]
  · simp [htd]

/-- An ASCII text starts the bytes where it starts the text. -/
theorem map_byte_prefix_utf8
    {p : List Char}
    (hp : ∀ c ∈ p, c.toNat < 128)
    (s : List Char) :
    p.map byte <+: utf8 s ↔ p <+: s := by
  induction p generalizing s with
  | nil => simp
  | cons c p ih =>
      have hc := hp c List.mem_cons_self
      have hmore := ih fun d hd => hp d (List.mem_cons_of_mem c hd)
      cases s with
      | nil => simp [utf8]
      | cons d s =>
          have hsplit : utf8 (d :: s) = utf8 [d] ++ utf8 s := utf8_append [d] s
          by_cases hd : d.toNat < 128
          · have hone : utf8 [d] = [byte d] := utf8_ascii (by simpa using hd)
            rw [hsplit, hone, List.map_cons, List.singleton_append, List.cons_prefix_cons,
              List.cons_prefix_cons, hmore]
            refine and_congr_left fun _ => ⟨byte_inj hc hd, fun h => congrArg byte h⟩
          · constructor
            · intro hpre
              -- the first byte of the character is none of ASCII
              rw [hsplit, List.map_cons, utf8, List.flatMap_singleton] at hpre
              obtain ⟨b, bs, hbytes, hhigh⟩ := utf8EncodeChar_high (Nat.not_lt.mp hd)
              have hfirst := hhigh b (hbytes ▸ List.mem_cons_self)
              rw [hbytes, List.cons_append, List.cons_prefix_cons] at hpre
              rw [← hpre.1, toNat_byte hc] at hfirst
              omega
            · intro hpre
              rw [List.cons_prefix_cons] at hpre
              exact absurd (hpre.1 ▸ hc) hd

/-- Labels with slashes between them, in bytes. -/
theorem utf8_intercalate (td : List Char) (path : List (List Char)) :
    utf8 (['/'].intercalate (td :: path)) = utf8 td ++ slashed (path.map utf8) := by
  induction path generalizing td with
  | nil => rw [List.intercalate_singleton, List.map_nil, slashed_nil, List.append_nil]
  | cons seg path ih =>
      rw [List.intercalate_cons_cons, utf8_append, utf8_append, ih, List.map_cons, slashed_cons,
        List.append_assoc]
      rfl

/-- `spiffe_id_safe` on the characters of a text is `spiffe_id_safe` on its bytes. -/
theorem spiffeIdSafe_utf8 (s : String) : spiffeIdSafe (utf8 s.toList) = Ca.spiffeIdSafe s := by
  have hascii : ∀ c ∈ "spiffe://".toList, c.toNat < 128 := by simp
  have hprefix : spiffeScheme.isPrefixOf (utf8 s.toList) = "spiffe://".toList.isPrefixOf s.toList := by
    rw [Bool.eq_iff_iff, List.isPrefixOf_iff_prefix, List.isPrefixOf_iff_prefix]
    exact map_byte_prefix_utf8 hascii s.toList
  by_cases hscheme : "spiffe://".toList.isPrefixOf s.toList = true
  · obtain ⟨rest, hrest⟩ := List.isPrefixOf_iff_prefix.mp hscheme
    have hdrop : s.toList.drop 9 = rest := by rw [← hrest]; rfl
    have hscheme' : utf8 "spiffe://".toList = spiffeScheme := utf8_ascii hascii
    rw [Ca.spiffeIdSafe, hdrop, hscheme]
    cases hlabels : rest.splitOn '/' with
    | nil => exact absurd hlabels (List.splitOn_ne_nil _ _)
    | cons td path =>
        have hfree : ∀ seg ∈ td :: path, (0x2F : UInt8) ∉ utf8 seg := by
          intro seg hseg hmem
          rw [← hlabels] at hseg
          have hslash : (0x2F : UInt8) = byte '/' := by decide
          rw [hslash, byte_mem_utf8 (by decide)] at hmem
          exact not_mem_of_mem_splitOn hseg hmem
        have hbytes : utf8 s.toList = spiffeScheme ++ utf8 td ++ slashed (path.map utf8) := by
          rw [← hrest, utf8_append, hscheme', List.append_assoc, ← utf8_intercalate, ← hlabels,
            List.intercalate_splitOn]
        have hsegs : (∀ seg ∈ path.map utf8, Segment seg) ↔ path.all Ca.spiffeSegment = true := by
          rw [List.forall_mem_map, List.all_eq_true]
          refine forall₂_congr fun seg _ => ?_
          rw [← segmentSafe_iff, segmentSafe_utf8]
        have hpath : ∀ seg ∈ path.map utf8, (0x2F : UInt8) ∉ seg :=
          List.forall_mem_map.mpr fun seg hseg => hfree seg (List.mem_cons_of_mem td hseg)
        have hparts := spiffeIdSafe_parts (hfree td List.mem_cons_self) hpath
        rw [Bool.eq_iff_iff, hbytes, hparts, ← hbytes, length_utf8, trustDomain_utf8, hsegs]
        by_cases hlen : Acme.byteLen s.toList ≤ 2048
        · simp [hlen, isDomainChar, and_assoc]
        · simp [hlen]
  · rw [spiffeIdSafe, Ca.spiffeIdSafe, hprefix, Bool.eq_false_of_not_eq_true hscheme]
    simp

end Characters

end Bytes
end Yca
