import Yca.Core.Numerals
import Yca.Acme.RevokeCert
import Yca.Bridge.RenewalWindow

/-!
# The text of a serial number

A serial number is written three times: `index_cert` stores Botan's hexadecimal
encoding of its bytes, `certMeta` and `handleRevokeCert` the number in base 16,
and `normalize_serial` turns what a user typed into the text of the store.  All
three meet in one canonical text, the upper-case numeral without leading zeros.
-/

namespace Yca
namespace Bridge

open Yca.Core Ca

section Spelling

/-- The number a serial's bytes denote. -/
def serialNumber (serial : List UInt8) : Nat :=
  numeral 256 (serial.map UInt8.toNat)

/-- The value of a hexadecimal digit, in either case. -/
def hexVal (c : Char) : Option Nat :=
  if '0' ≤ c ∧ c ≤ '9' then some (c.toNat - 48)
  else if 'A' ≤ c ∧ c ≤ 'F' then some (c.toNat - 55)
  else if 'a' ≤ c ∧ c ≤ 'f' then some (c.toNat - 87)
  else none

/-- The number a text spells: hexadecimal digits in any case, with colons
anywhere and any number of leading zeros. -/
def spelled (t : String) : Option Nat :=
  match (t.toList.filter fun c => c != ':').mapM hexVal with
  | some (d :: ds) => some (numeral 16 (d :: ds))
  | _ => none

example : spelled "00:4a:Ff" = some 0x4aff := by decide
example : spelled "4a:xy" = none := by decide

theorem hexDigit_eq_ofNat {n : Nat} (h : 10 ≤ n) : hexDigit n = Char.ofNat (55 + n) := by
  rw [hexDigit, if_neg (by omega)]

/-- A digit in upper case is the one Botan writes. -/
theorem toUpper_of_hexVal
    {c : Char}
    {d : Nat}
    (h : hexVal c = some d) :
    toUpper c = hexDigit d ∧ d < 16 := by
  rw [hexVal] at h
  split at h
  · rename_i hdigit
    have hlow : 48 ≤ c.toNat := hdigit.1
    have hhigh : c.toNat ≤ 57 := hdigit.2
    have hd : d = c.toNat - 48 := (Option.some.inj h).symm
    have hcase : ¬ ('a' ≤ c ∧ c ≤ 'z') := by
      rintro ⟨ha, _⟩
      have : 97 ≤ c.toNat := ha
      omega
    refine ⟨?_, by omega⟩
    rw [toUpper, if_neg hcase, hexDigit, if_pos (by omega), hd,
      show 48 + (c.toNat - 48) = c.toNat by omega, Char.ofNat_toNat]
  · split at h
    · rename_i hletter
      have hlow : 65 ≤ c.toNat := hletter.1
      have hhigh : c.toNat ≤ 70 := hletter.2
      have hd : d = c.toNat - 55 := (Option.some.inj h).symm
      have hcase : ¬ ('a' ≤ c ∧ c ≤ 'z') := by
        rintro ⟨ha, _⟩
        have : 97 ≤ c.toNat := ha
        omega
      refine ⟨?_, by omega⟩
      rw [toUpper, if_neg hcase, hexDigit_eq_ofNat (by omega), hd,
        show 55 + (c.toNat - 55) = c.toNat by omega, Char.ofNat_toNat]
    · split at h
      · rename_i hletter
        have hlow : 97 ≤ c.toNat := hletter.1
        have hhigh : c.toNat ≤ 102 := hletter.2
        have hd : d = c.toNat - 87 := (Option.some.inj h).symm
        have hcase : 'a' ≤ c ∧ c ≤ 'z' := ⟨hletter.1, by
          show c.toNat ≤ 122
          omega⟩
        refine ⟨?_, by omega⟩
        rw [toUpper, if_pos hcase, hexDigit_eq_ofNat (by omega), hd,
          show 55 + (c.toNat - 87) = c.toNat - 32 by omega]
      · simp at h

/-- The digits of a spelling, in upper case. -/
theorem map_toUpper_of_mapM
    {cs : List Char}
    {ds : List Nat}
    (h : cs.mapM hexVal = some ds) :
    cs.map toUpper = ds.map hexDigit ∧ ∀ d ∈ ds, d < 16 := by
  induction cs generalizing ds with
  | nil =>
      simp only [List.mapM_nil, Option.pure_def, Option.some.injEq] at h
      simp [← h]
  | cons c cs ih =>
      simp only [List.mapM_cons, Option.pure_def, Option.bind_eq_bind, Option.bind_eq_some_iff,
        Option.some.injEq] at h
      obtain ⟨d, hd, rest, hrest, rfl⟩ := h
      obtain ⟨hc, hlt⟩ := toUpper_of_hexVal hd
      obtain ⟨hcs, hall⟩ := ih hrest
      refine ⟨by rw [List.map_cons, List.map_cons, hc, hcs], ?_⟩
      exact List.forall_mem_cons.mpr ⟨hlt, hall⟩

/-- A digit of `normalize_serial`'s result that is no leading zero. -/
theorem hexDigit_eq_zero {d : Nat} (h : d < 16) : (hexDigit d == '0') = (d == 0) := by
  have hall : ∀ n : Fin 16, (hexDigit n == '0') = (n.val == 0) := by decide
  exact hall ⟨d, h⟩

theorem dropWhile_hexDigit
    {ds : List Nat}
    (h : ∀ d ∈ ds, d < 16) :
    (ds.map hexDigit).dropWhile (fun c => c == '0') =
      (ds.dropWhile fun d => d == 0).map hexDigit := by
  induction ds with
  | nil => rfl
  | cons d ds ih =>
      have hd := hexDigit_eq_zero (h d List.mem_cons_self)
      have hds := ih fun e he => h e (List.mem_cons_of_mem d he)
      rw [List.map_cons, List.dropWhile_cons, List.dropWhile_cons, hd, hds]
      split <;> rfl

/-- `strings.ToUpper` of a digit Go writes is the digit Botan writes. -/
theorem toUpper_digitChar {d : Nat} (h : d < 16) : (Nat.digitChar d).toUpper = hexDigit d := by
  have hall : ∀ n : Fin 16, (Nat.digitChar n).toUpper = hexDigit n := by decide
  exact hall ⟨d, h⟩

theorem map_toUpper_digitChar
    {ds : List Nat}
    (h : ∀ d ∈ ds, d < 16) :
    (ds.map Nat.digitChar).map Char.toUpper = ds.map hexDigit := by
  rw [List.map_map]
  exact List.map_congr_left fun d hd => toUpper_digitChar (h d hd)

/-- Go's text of a number that is not negative. -/
theorem serialText_natCast (n : Nat) :
    Acme.Revoke.serialText n = String.ofList ((Nat.toDigits 16 n).map Char.toUpper) := by
  rw [Acme.Revoke.serialText, if_neg (by omega), Int.natAbs_natCast, String.empty_append]

/-- Go's text of the number a numeral without a leading zero denotes. -/
theorem serialText_numeral
    {d : Nat}
    {ds : List Nat}
    (hd : 0 < d)
    (hlt : ∀ e ∈ d :: ds, e < 16) :
    Acme.Revoke.serialText (numeral 16 (d :: ds) : Nat) = String.ofList ((d :: ds).map hexDigit) := by
  rw [serialText_natCast, toDigits_numeral (by decide) hd hlt, map_toUpper_digitChar hlt]

/-- Whatever the spelling, the normalised text is Go's text of the number. -/
theorem normalizeSerial_of_spelled
    {t : String}
    {n : Nat}
    (h : spelled t = some n) :
    normalizeSerial t = Acme.Revoke.serialText n := by
  rw [spelled] at h
  split at h
  · rename_i d ds hds
    obtain ⟨hup, hlt⟩ := map_toUpper_of_mapM hds
    rw [← Option.some.inj h, ← numeral_dropZeros, normalizeSerial]
    simp only [hup, dropWhile_hexDigit hlt]
    cases hdrop : (d :: ds).dropWhile fun d => d == 0 with
    | nil =>
        rw [numeral_nil]
        simp
        decide
    | cons e es =>
        have hmem : ∀ x ∈ e :: es, x < 16 := by
          intro x hx
          rw [← hdrop] at hx
          exact hlt x ((List.dropWhile_subset _) hx)
        have he : 0 < e := by
          have hhead := List.head?_dropWhile_not (fun d => d == 0) (d :: ds)
          rw [hdrop] at hhead
          exact Nat.pos_of_ne_zero (by simpa using hhead)
        rw [serialText_numeral he hmem]
        rfl
  · simp at h

/-- A digit Botan writes is a digit of a spelling. -/
theorem hexVal_hexDigit {d : Nat} (h : d < 16) :
    hexVal (hexDigit d) = some d ∧ (hexDigit d != ':') = true := by
  have hall : ∀ n : Fin 16, hexVal (hexDigit n) = some n.val ∧ (hexDigit n != ':') = true := by
    decide
  exact hall ⟨d, h⟩

theorem mapM_hexVal
    {ds : List Nat}
    (h : ∀ d ∈ ds, d < 16) :
    (ds.map hexDigit).mapM hexVal = some ds := by
  induction ds with
  | nil => rfl
  | cons d ds ih =>
      have hd := (hexVal_hexDigit (h d List.mem_cons_self)).1
      have hds := ih fun e he => h e (List.mem_cons_of_mem d he)
      simp [hd, hds]

/-- A numeral in Botan's digits spells its number. -/
theorem spelled_hexDigits
    {ds : List Nat}
    (hne : ds ≠ [])
    (h : ∀ d ∈ ds, d < 16) :
    spelled (String.ofList (ds.map hexDigit)) = some (numeral 16 ds) := by
  have hfilter : (ds.map hexDigit).filter (fun c => c != ':') = ds.map hexDigit := by
    rw [List.filter_eq_self]
    intro c hc
    rcases List.mem_map.mp hc with ⟨d, hd, rfl⟩
    exact (hexVal_hexDigit (h d hd)).2
  rw [spelled, String.toList_ofList, hfilter, mapM_hexVal h]
  cases ds with
  | nil => exact absurd rfl hne
  | cons d ds => rfl

/-- The canonical text of a number spells it. -/
theorem spelled_serialText (n : Nat) : spelled (Acme.Revoke.serialText n) = some n := by
  obtain ⟨ds, hne, hlt, hval, htext⟩ := exists_numeral (by decide : 1 < 16) n
  rw [serialText_natCast, htext, map_toUpper_digitChar hlt, spelled_hexDigits hne hlt, hval]

end Spelling

section Bytes

/-- The digits of a serial's bytes, two a byte. -/
def nibbles (serial : List UInt8) : List Nat :=
  serial.flatMap fun b => [b.toNat / 16, b.toNat % 16]

theorem hexDigits_eq (serial : List UInt8) :
    hexDigits serial = (nibbles serial).map hexDigit := by
  induction serial with
  | nil => rfl
  | cons b bs ih =>
      rw [hexDigits, ih]
      simp [nibbles]

theorem nibbles_lt {serial : List UInt8} : ∀ d ∈ nibbles serial, d < 16 := by
  intro d hd
  rcases List.mem_flatMap.mp hd with ⟨b, _, hb⟩
  have hlt := b.toNat_lt
  simp only [List.mem_cons, List.not_mem_nil, or_false] at hb
  omega

/-- Two digits a byte denote the same number. -/
theorem numeral_nibbles (serial : List UInt8) :
    numeral 16 (nibbles serial) = serialNumber serial := by
  induction serial using List.reverseRecOn with
  | nil => rfl
  | append_singleton bs b ih =>
      have hsplit : nibbles (bs ++ [b]) = nibbles bs ++ [b.toNat / 16] ++ [b.toNat % 16] := by
        simp [nibbles]
      rw [hsplit, numeral_concat, numeral_concat, ih, serialNumber, serialNumber, List.map_append,
        List.map_singleton, numeral_concat]
      omega

/-- What `index_cert` stores spells the serial. -/
theorem spelled_hexEncode
    {serial : List UInt8}
    (hne : serial ≠ []) :
    spelled (hexEncode serial) = some (serialNumber serial) := by
  have hnibbles : nibbles serial ≠ [] := by
    cases serial with
    | nil => exact absurd rfl hne
    | cons b bs => simp [nibbles]
  rw [hexEncode, hexDigits_eq, spelled_hexDigits hnibbles nibbles_lt, numeral_nibbles]

/-- The frontend's text of any serial is its normalised encoding. -/
theorem serialText_serialNumber
    {serial : List UInt8}
    (hne : serial ≠ []) :
    serialText serial = Acme.Revoke.serialText (serialNumber serial) :=
  normalizeSerial_of_spelled (spelled_hexEncode hne)

end Bytes

section Normalize

theorem toUpper_eq_self {c : Char} (h : ¬ ('a' ≤ c ∧ c ≤ 'z')) : toUpper c = c := by
  rw [toUpper, if_neg h]

/-- An upper-case letter is none in lower case, and no separator. -/
theorem toUpper_settled
    {c : Char}
    (hc : (c != ':') = true) :
    toUpper (toUpper c) = toUpper c ∧ (toUpper c != ':') = true := by
  by_cases h : 'a' ≤ c ∧ c ≤ 'z'
  · have hall : ∀ n : Fin 26, toUpper (toUpper (Char.ofNat (97 + n))) = toUpper (Char.ofNat (97 + n)) ∧
        (toUpper (Char.ofNat (97 + n)) != ':') = true := by
      decide
    have hlow : 97 ≤ c.toNat := h.1
    have hhigh : c.toNat ≤ 122 := h.2
    have hn := hall ⟨c.toNat - 97, by omega⟩
    rwa [show 97 + (c.toNat - 97) = c.toNat by omega, Char.ofNat_toNat] at hn
  · rw [toUpper_eq_self h, toUpper_eq_self h]
    exact ⟨rfl, hc⟩

/-- Normalising a normalised text changes nothing. -/
theorem normalizeSerial_idem (t : String) :
    normalizeSerial (normalizeSerial t) = normalizeSerial t := by
  have hsettled : ∀ c ∈ (t.toList.filter fun c => c != ':').map toUpper,
      toUpper c = c ∧ (c != ':') = true := by
    intro c hc
    rcases List.mem_map.mp hc with ⟨d, hd, rfl⟩
    exact toUpper_settled (List.mem_filter.mp hd).2
  cases hdrop : ((t.toList.filter fun c => c != ':').map toUpper).dropWhile fun c => c == '0' with
  | nil =>
      have hvalue : normalizeSerial t = "" ∨ normalizeSerial t = "0" := by
        simp only [normalizeSerial, hdrop]
        split
        · exact Or.inl rfl
        · exact Or.inr rfl
      rcases hvalue with heq | heq
      · rw [heq]
        decide
      · rw [heq]
        decide
  | cons c rest =>
      have hvalue : normalizeSerial t = String.ofList (c :: rest) := by
        simp only [normalizeSerial, hdrop]
      have hmem : ∀ d ∈ c :: rest, toUpper d = d ∧ (d != ':') = true := by
        intro d hd
        rw [← hdrop] at hd
        exact hsettled d ((List.dropWhile_subset _) hd)
      have hfilter : (c :: rest).filter (fun d => d != ':') = c :: rest :=
        List.filter_eq_self.mpr fun d hd => (hmem d hd).2
      have hmap : (c :: rest).map toUpper = c :: rest :=
        (List.map_congr_left fun d hd => (hmem d hd).1).trans (List.map_id _)
      have hzero : (c == '0') = false := by
        have hhead := List.head?_dropWhile_not (fun c => c == '0')
          ((t.toList.filter fun c => c != ':').map toUpper)
        rw [hdrop] at hhead
        simpa using hhead
      rw [hvalue]
      simp only [normalizeSerial, String.toList_ofList, hfilter, hmap]
      rw [List.dropWhile_cons_of_neg (by simpa using hzero)]

/-- A serial the CA draws has one text: the one `index_cert` stores, the one
`certMeta` records and `handleRevokeCert` looks up, and what any spelling of it
is normalised to.  Normalising twice changes nothing, and two numbers never have
a normalised spelling in common. -/
theorem one_serial_text
    {c : Cert}
    (hdrawn : drawnSerial c.serial = true)
    (kind : Kind)
    (purpose ariId : String) :
    ((indexRow c kind purpose).serial = Acme.Revoke.serialText (serialNumber c.serial) ∧
        (certEntry c ariId).serial = Acme.Revoke.serialText (serialNumber c.serial) ∧
        ∀ t, spelled t = some (serialNumber c.serial) →
          normalizeSerial t = Acme.Revoke.serialText (serialNumber c.serial)) ∧
      (∀ t, normalizeSerial (normalizeSerial t) = normalizeSerial t) ∧
      ∀ s t m n, spelled s = some m → spelled t = some n →
        normalizeSerial s = normalizeSerial t → m = n := by
  have hne : c.serial ≠ [] := by
    rintro hnil
    rw [hnil] at hdrawn
    simp [drawnSerial] at hdrawn
  refine ⟨⟨?_, serialText_serialNumber hne, fun t => normalizeSerial_of_spelled⟩,
    normalizeSerial_idem, ?_⟩
  · have hrow : (indexRow c kind purpose).serial = hexEncode c.serial := rfl
    rw [hrow, ← spelled_of_drawn hdrawn]
    exact normalizeSerial_of_spelled (spelled_hexEncode hne)
  · intro s t m n hs ht heq
    rw [normalizeSerial_of_spelled hs, normalizeSerial_of_spelled ht] at heq
    have hm := spelled_serialText m
    rw [heq, spelled_serialText n] at hm
    exact (Option.some.inj hm).symm

/-- A leaf with a serial as Botan draws one. -/
def drawnLeaf : Cert :=
  { ninetyDays with
    serial := [0x4A, 0, 0xFF, 0x0B, 1, 2, 3, 4, 5, 6, 7, 8, 9, 10, 11, 12] }

/-- One spelling of its serial. -/
theorem one_serial_text_sample :
    normalizeSerial "004a:00:fF:0b:0102030405060708090A0B0C" =
      Acme.Revoke.serialText (serialNumber drawnLeaf.serial) :=
  (one_serial_text (c := drawnLeaf) (by decide) (.ee .server) "" "").1.2.2 _ (by decide)

end Normalize

end Bridge
end Yca
