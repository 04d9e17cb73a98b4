import Yca.Core.Labels
import Yca.Bridge.CsrNames

/-!
# The shape of a name, in bytes

The frontend and the CA each check the shape of a DNS name on the bytes of a
string: `hostSafe` of `acme/order.go` splits it into labels and ranges over the
runes of each, `dns_safe` of `src/util.cpp` makes one pass with a counter.
Both decide `Core.HostName`, over the lower-case letters and over all of them;
so on lower-case names they agree, whatever bytes the name is made of.

The definitions on characters that the handlers and the CA commands use are the
same functions, seen through UTF-8.
-/

namespace Yca
namespace Bytes

open Yca.Core

section Runes

/-- `utf8.RuneError`. -/
def runeError : Nat := 0xFFFD

/-- The second byte of an encoding may be restricted (`acceptRanges`). -/
def acceptRange (b : UInt8) : UInt8 × UInt8 :=
  if b = 0xE0 then (0xA0, 0xBF)
  else if b = 0xED then (0x80, 0x9F)
  else if b = 0xF0 then (0x90, 0xBF)
  else if b = 0xF4 then (0x80, 0x8F)
  else (0x80, 0xBF)

def inRange (r : UInt8 × UInt8) (b : UInt8) : Bool :=
  decide (r.1.toNat ≤ b.toNat) && decide (b.toNat ≤ r.2.toNat)

/-- A continuation byte. -/
def isTail (b : UInt8) : Bool :=
  inRange (0x80, 0xBF) b

/-- `utf8.DecodeRuneInString`: the rune a string starts with, and the number of
bytes it takes after the first. -/
def decodeRune (b : UInt8) (rest : List UInt8) : Nat × Nat :=
  if b.toNat < 0x80 then (b.toNat, 0)
  else if inRange (0xC2, 0xDF) b then
    match rest with
    | b₁ :: _ =>
        if inRange (acceptRange b) b₁ then (b.toNat % 32 * 64 + b₁.toNat % 64, 1)
        else (runeError, 0)
    | _ => (runeError, 0)
  else if inRange (0xE0, 0xEF) b then
    match rest with
    | b₁ :: b₂ :: _ =>
        if inRange (acceptRange b) b₁ && isTail b₂ then
          (b.toNat % 16 * 4096 + b₁.toNat % 64 * 64 + b₂.toNat % 64, 2)
        else (runeError, 0)
    | _ => (runeError, 0)
  else if inRange (0xF0, 0xF4) b then
    match rest with
    | b₁ :: b₂ :: b₃ :: _ =>
        if inRange (acceptRange b) b₁ && isTail b₂ && isTail b₃ then
          (b.toNat % 8 * 262144 + b₁.toNat % 64 * 4096 + b₂.toNat % 64 * 64 + b₃.toNat % 64, 3)
        else (runeError, 0)
    | _ => (runeError, 0)
  else (runeError, 0)

/-- The runes of a string once so many bytes are passed over. -/
def runesFrom : Nat → List UInt8 → List Nat
  | _, [] => []
  | n + 1, _ :: bs => runesFrom n bs
  | 0, b :: bs => (decodeRune b bs).1 :: runesFrom (decodeRune b bs).2 bs

/-- The runes a `range` loop over a string sees. -/
def runes (s : List UInt8) : List Nat :=
  runesFrom 0 s

example : runes [0x61, 0xC3, 0xBC, 0xC3] = [0x61, 0xFC, 0xFFFD] := by decide

/-- An encoding of more than one byte is the shortest: its rune is no ASCII. -/
theorem decodeRune_high
    {b : UInt8}
    (h : 128 ≤ b.toNat)
    (rest : List UInt8) :
    128 ≤ (decodeRune b rest).1 := by
  have herror : 128 ≤ runeError := by decide
  unfold decodeRune
  rw [if_neg (Nat.not_lt.mpr h)]
  split
  · rename_i htwo
    simp only [inRange, Bool.and_eq_true, decide_eq_true_eq, UInt8.reduceToNat] at htwo
    split
    · split
      · show 128 ≤ b.toNat % 32 * 64 + _
        omega
      · exact herror
    · exact herror
  · split
    · rename_i hthree
      simp only [inRange, Bool.and_eq_true, decide_eq_true_eq, UInt8.reduceToNat] at hthree
      split
      · split
        · rename_i b₁ b₂ _ hrest
          simp only [Bool.and_eq_true] at hrest
          show 128 ≤ b.toNat % 16 * 4096 + b₁.toNat % 64 * 64 + b₂.toNat % 64
          by_cases hb : b = 0xE0
          · have hb₁ := hrest.1
            simp only [hb, acceptRange, if_true, inRange, Bool.and_eq_true,
              decide_eq_true_eq, UInt8.reduceToNat] at hb₁
            omega
          · have hne : b.toNat ≠ 224 := fun heq => hb (UInt8.toNat_inj.mp heq)
            omega
        · exact herror
      · exact herror
    · split
      · rename_i hfour
        simp only [inRange, Bool.and_eq_true, decide_eq_true_eq, UInt8.reduceToNat] at hfour
        split
        · split
          · rename_i b₁ b₂ b₃ _ hrest
            simp only [Bool.and_eq_true] at hrest
            show 128 ≤ b.toNat % 8 * 262144 + b₁.toNat % 64 * 4096 + b₂.toNat % 64 * 64 +
              b₃.toNat % 64
            by_cases hb : b = 0xF0
            · have hb₁ := hrest.1.1
              simp only [hb, acceptRange, inRange, Bool.and_eq_true,
                decide_eq_true_eq] at hb₁
              simp at hb₁
              omega
            · have hne : b.toNat ≠ 240 := fun heq => hb (UInt8.toNat_inj.mp heq)
              omega
          · exact herror
        · exact herror
      · exact herror

/-- A range loop that asks for ASCII runes asks for ASCII bytes. -/
theorem forall_runes_iff
    {P : Nat → Prop}
    (hP : ∀ r, P r → r < 128)
    (s : List UInt8) :
    (∀ r ∈ runes s, P r) ↔ ∀ b ∈ s, P b.toNat := by
  induction s with
  | nil => simp [runes, runesFrom]
  | cons b s ih =>
      rw [runes, runesFrom]
      by_cases hb : b.toNat < 128
      · have hdecode : decodeRune b s = (b.toNat, 0) := by
          unfold decodeRune
          rw [if_pos hb]
        rw [hdecode, List.forall_mem_cons, List.forall_mem_cons]
        exact and_congr_right fun _ => ih
      · constructor
        · intro h
          have hlow := hP _ (h _ List.mem_cons_self)
          have hhigh := decodeRune_high (Nat.not_lt.mp hb) s
          omega
        · intro h
          exact absurd (hP _ (h b List.mem_cons_self)) hb

end Runes

section Validators

def isDigit (b : UInt8) : Bool :=
  inRange (0x30, 0x39) b

/-- An ASCII letter or digit. -/
def isAlnum (b : UInt8) : Bool :=
  inRange (0x41, 0x5A) b || inRange (0x61, 0x7A) b || isDigit b

/-- A rune of a host-name label. -/
def isLdh (r : Nat) : Bool :=
  (decide (0x61 ≤ r) && decide (r ≤ 0x7A)) || (decide (0x30 ≤ r) && decide (r ≤ 0x39)) ||
    r == 0x2D

/-- Both ends of a string without the bytes of an ASCII set (`strings.Trim`). -/
def trim (cut : UInt8 → Bool) (s : List UInt8) : List UInt8 :=
  ((s.dropWhile cut).reverse.dropWhile cut).reverse

/-- One label of a host name. -/
def labelSafe (l : List UInt8) : Bool :=
  !(l.length == 0 || decide (l.length > 63) || l.head? == some 0x2D ||
      l.getLast? == some 0x2D) &&
    (runes l).all isLdh

/-- `hostSafe`. -/
def hostSafe (s : List UInt8) : Bool :=
  if s.length == 0 || decide (s.length > 253) then false
  else
    let labels := s.splitOn 0x2E
    labels.all labelSafe && !(trim isDigit (labels.getLast?.getD [])).isEmpty

/-- `strings.CutPrefix`. -/
def cutPrefix (s pre : List UInt8) : List UInt8 × Bool :=
  if pre.isPrefixOf s then (s.drop pre.length, true) else (s, false)

/-- The shape check of `handleNewOrder` on a lower-cased name. -/
def shapeAccepted (name : List UInt8) : Bool :=
  let base := (cutPrefix name [0x2A, 0x2E]).1
  !(base == [] || !hostSafe base || base.contains 0x2A)

/-- The loop of `valid_hostname`: the length of the current label and the byte
before the one at hand. -/
def hostnameLoop : Nat → Option UInt8 → List UInt8 → Bool
  | label, prev, [] => decide (label > 0) && prev != some 0x2D
  | label, prev, c :: cs =>
      if c = 0x2E then
        if label == 0 || prev == some 0x2D then false
        else hostnameLoop 0 (some c) cs
      else if !isAlnum c && c != 0x2D then false
      else if c == 0x2D && label == 0 then false
      else if label + 1 > 63 then false
      else hostnameLoop (label + 1) (some c) cs

/-- `valid_hostname`. -/
def validHostname (s : List UInt8) : Bool :=
  if s.isEmpty || decide (s.length > 253) then false
  else hostnameLoop 0 none s

/-- The name without a leading `*.` label. -/
def host (s : List UInt8) : List UInt8 :=
  if [0x2A, 0x2E].isPrefixOf s then s.drop 2 else s

/-- `dns_safe`. -/
def dnsSafe (s : List UInt8) : Bool :=
  validHostname (host s) && (lastLabel 0x2E (host s)).any fun c => !isDigit c

/-- The lower case of an ASCII letter, and every other byte as it is. -/
def asciiLower (b : UInt8) : UInt8 :=
  if inRange (0x41, 0x5A) b then b + 32 else b

/-- An ASCII-lowercased string. -/
def lower (s : List UInt8) : List UInt8 :=
  s.map asciiLower

/-- The letters and digits of a lower-case name. -/
def isLowerAlnum (b : UInt8) : Bool :=
  inRange (0x61, 0x7A) b || isDigit b

/-- What both validators decide, for their letters. -/
abbrev Host (letter : UInt8 → Bool) (s : List UInt8) : Prop :=
  HostName 0x2E 0x2D letter isDigit 63 253 s

theorem hostnameLoop_eq_scan (label : Nat) (prev : Option UInt8) (s : List UInt8) :
    hostnameLoop label prev s = scan 0x2E 0x2D isAlnum 63 label prev s := by
  induction s generalizing label prev with
  | nil => rfl
  | cons c s ih => rw [hostnameLoop, scan, ih, ih]

theorem dnsSafe_iff (s : List UInt8) : dnsSafe s = true ↔ Host isAlnum (host s) := by
  have hlast : ((lastLabel 0x2E (host s)).any fun c => !isDigit c) = true ↔
      ∃ c ∈ lastLabel 0x2E (host s), isDigit c = false := by
    simp
  rw [dnsSafe, Bool.and_eq_true, hlast, validHostname]
  constructor
  · rintro ⟨hvalid, hdigit⟩
    split at hvalid
    · simp at hvalid
    · rename_i hlen
      simp only [Bool.or_eq_true, decide_eq_true_eq, not_or, Nat.not_lt] at hlen
      rw [hostnameLoop_eq_scan, scan_iff] at hvalid
      exact ⟨hlen.2, hvalid, hdigit⟩
  · intro h
    have hne : (host s).isEmpty = false := by simpa using h.ne_nil
    have hlen : ¬ (host s).length > 253 := Nat.not_lt.mpr h.length_le
    refine ⟨?_, h.last⟩
    rw [if_neg (by simpa [hne] using hlen), hostnameLoop_eq_scan, scan_iff]
    exact h.labels

theorem isLdh_lt {r : Nat} (h : isLdh r = true) : r < 128 := by
  simp only [isLdh, Bool.or_eq_true, Bool.and_eq_true, decide_eq_true_eq, beq_iff_eq] at h
  omega

theorem isLdh_iff (b : UInt8) :
    isLdh b.toNat = true ↔ isLowerAlnum b = true ∨ b = 0x2D := by
  have hedge : b = 0x2D ↔ b.toNat = 0x2D := UInt8.toNat_inj.symm
  rw [hedge]
  simp [isLdh, isLowerAlnum, isDigit, inRange]

theorem labelSafe_iff (l : List UInt8) :
    labelSafe l = true ↔ Label 0x2D isLowerAlnum 63 l := by
  have hchars : (runes l).all isLdh = true ↔ ∀ b ∈ l, isLowerAlnum b = true ∨ b = 0x2D := by
    rw [List.all_eq_true, forall_runes_iff fun r => isLdh_lt]
    exact forall₂_congr fun b _ => isLdh_iff b
  rw [labelSafe, Bool.and_eq_true, hchars]
  simp only [Bool.not_eq_true', Bool.or_eq_false_iff, beq_eq_false_iff_ne, ne_eq,
    decide_eq_false_iff_not, Nat.not_lt]
  constructor
  · rintro ⟨⟨⟨⟨hne, hlen⟩, hhead⟩, hlast⟩, hall⟩
    exact ⟨by simpa using hne, hlen, hhead, hlast, hall⟩
  · intro h
    exact ⟨⟨⟨⟨by simpa using h.ne_nil, h.length_le⟩, h.head⟩, h.last⟩, h.chars⟩

theorem hostSafe_iff (s : List UInt8) : hostSafe s = true ↔ Host isLowerAlnum s := by
  have hlast : (!(trim isDigit (lastLabel 0x2E s)).isEmpty) = true ↔
      ∃ c ∈ lastLabel 0x2E s, isDigit c = false := by
    rw [Bool.not_eq_true', ← Bool.not_eq_true, List.isEmpty_iff, trim,
      dropWhile_ends_eq_nil_iff]
    simp
  have hlabels : (s.splitOn 0x2E).all labelSafe = true ↔
      ∀ l ∈ s.splitOn 0x2E, Label 0x2D isLowerAlnum 63 l := by
    rw [List.all_eq_true]
    exact forall₂_congr fun l _ => labelSafe_iff l
  rw [hostSafe]
  simp only [getLast?_splitOn, Option.getD_some]
  constructor
  · intro h
    split at h
    · simp at h
    · rename_i hlen
      simp only [Bool.or_eq_true, decide_eq_true_eq, not_or, Nat.not_lt] at hlen
      rw [Bool.and_eq_true, hlabels, hlast] at h
      exact ⟨hlen.2, h.1, h.2⟩
  · intro h
    have hne : s.length ≠ 0 := by simpa using h.ne_nil
    have hlen : ¬ s.length > 253 := Nat.not_lt.mpr h.length_le
    rw [if_neg (by simpa [hne] using hlen), Bool.and_eq_true, hlabels, hlast]
    exact ⟨h.labels, h.last⟩

/-- No host name has a star. -/
theorem shapeAccepted_iff (s : List UInt8) :
    shapeAccepted s = true ↔ Host isLowerAlnum (host s) := by
  have hbase : (cutPrefix s [0x2A, 0x2E]).1 = host s := by
    rw [cutPrefix, host]
    split <;> rfl
  simp only [shapeAccepted, hbase, Bool.not_eq_true', Bool.or_eq_false_iff, ← hostSafe_iff]
  constructor
  · rintro ⟨⟨_, hhost⟩, _⟩
    simpa using hhost
  · intro hhost
    have h := (hostSafe_iff _).mp hhost
    have hstar : (0x2A : UInt8) ∉ host s := by
      intro hmem
      rcases h.chars hmem with hchar | hchar | hchar
      · revert hchar
        decide
      · revert hchar
        decide
      · revert hchar
        decide
    exact ⟨⟨by simpa using h.ne_nil, by simpa using hhost⟩, by simpa using hstar⟩

end Validators

section Lower

theorem toNat_asciiLower (b : UInt8) :
    (asciiLower b).toNat =
      if 65 ≤ b.toNat ∧ b.toNat ≤ 90 then b.toNat + 32 else b.toNat := by
  have hiff : inRange (0x41, 0x5A) b = true ↔ 65 ≤ b.toNat ∧ b.toNat ≤ 90 := by
    simp [inRange]
  rw [asciiLower]
  by_cases h : 65 ≤ b.toNat ∧ b.toNat ≤ 90
  · rw [if_pos (hiff.mpr h), if_pos h, UInt8.toNat_add]
    simp only [UInt8.reduceToNat]
    omega
  · rw [if_neg (fun hb => h (hiff.mp hb)), if_neg h]

/-- The lower case of a letter is no sign. -/
theorem asciiLower_eq_iff
    {d : UInt8}
    (hd : d.toNat < 65)
    (b : UInt8) :
    asciiLower b = d ↔ b = d := by
  rw [← UInt8.toNat_inj, ← UInt8.toNat_inj, toNat_asciiLower]
  split <;> omega

theorem isAlnum_eq_isLowerAlnum (b : UInt8) :
    isLowerAlnum (asciiLower b) = isAlnum b := by
  rw [Bool.eq_iff_iff]
  simp only [isLowerAlnum, isAlnum, isDigit, inRange, Bool.or_eq_true, Bool.and_eq_true,
    decide_eq_true_eq, UInt8.reduceToNat, toNat_asciiLower]
  split <;> omega

theorem isAlnum_asciiLower (b : UInt8) : isAlnum (asciiLower b) = isAlnum b := by
  rw [Bool.eq_iff_iff]
  simp only [isAlnum, isDigit, inRange, Bool.or_eq_true, Bool.and_eq_true,
    decide_eq_true_eq, UInt8.reduceToNat, toNat_asciiLower]
  split <;> omega

theorem isDigit_asciiLower (b : UInt8) : isDigit (asciiLower b) = isDigit b := by
  rw [Bool.eq_iff_iff]
  simp only [isDigit, inRange, Bool.and_eq_true, decide_eq_true_eq, UInt8.reduceToNat,
    toNat_asciiLower]
  split <;> omega

/-- Letter case decides nothing about the wildcard label. -/
theorem host_lower (s : List UInt8) : host (lower s) = lower (host s) := by
  have hpre : ([0x2A, 0x2E] : List UInt8).isPrefixOf (lower s) =
      ([0x2A, 0x2E] : List UInt8).isPrefixOf s := by
    refine isPrefixOf_map (f := asciiLower) (p := [0x2A, 0x2E]) ?_
    intro a ha c _ hac
    simp only [List.mem_cons, List.not_mem_nil, or_false] at ha
    rcases ha with rfl | rfl
    · exact ((asciiLower_eq_iff (by decide) c).mp hac.symm).symm
    · exact ((asciiLower_eq_iff (by decide) c).mp hac.symm).symm
  rw [host, host, hpre]
  split
  · exact List.map_drop.symm
  · rfl

/-- The host names of lower-case letters, in any case. -/
theorem host_map_lower
    {letter : UInt8 → Bool}
    (hletter : ∀ b, letter (asciiLower b) = isAlnum b)
    (s : List UInt8) :
    Host letter (lower s) ↔ Host isAlnum s :=
  hostName_map rfl
    (fun b _ => (asciiLower_eq_iff (by decide) b).mp)
    (fun b _ => asciiLower_eq_iff (by decide) b)
    (fun b _ => hletter b)
    (fun b _ => isDigit_asciiLower b)

/-- The CA's check asks for no letter case. -/
theorem dnsSafe_lower (s : List UInt8) : dnsSafe (lower s) = dnsSafe s := by
  rw [Bool.eq_iff_iff, dnsSafe_iff, dnsSafe_iff, host_lower]
  exact host_map_lower isAlnum_asciiLower (host s)

/-- The frontend's check of a lower-cased name is the CA's of the name. -/
theorem shapeAccepted_lower (s : List UInt8) : shapeAccepted (lower s) = dnsSafe s := by
  rw [Bool.eq_iff_iff, shapeAccepted_iff, dnsSafe_iff, host_lower]
  exact host_map_lower isAlnum_eq_isLowerAlnum (host s)

end Lower

section Characters

/-- The bytes of a text. -/
def utf8 (s : List Char) : List UInt8 :=
  s.flatMap String.utf8EncodeChar

/-- The one byte of an ASCII character. -/
def byte (c : Char) : UInt8 :=
  UInt8.ofNat c.toNat

theorem utf8_ascii
    {s : List Char}
    (h : ∀ c ∈ s, c.toNat < 128) :
    utf8 s = s.map byte := by
  induction s with
  | nil => rfl
  | cons c s ih =>
      have hc : c.val.toNat ≤ 127 := Nat.le_of_lt_succ (h c List.mem_cons_self)
      have hone : String.utf8EncodeChar c = [byte c] := by
        rw [String.utf8EncodeChar]
        exact if_pos hc
      rw [utf8, List.flatMap_cons, hone, List.map_cons, ← ih fun d hd => h d (List.mem_cons_of_mem c hd)]
      rfl

/-- A character beyond ASCII takes bytes beyond ASCII. -/
theorem utf8EncodeChar_high
    {c : Char}
    (h : 128 ≤ c.toNat) :
    ∃ b bs, String.utf8EncodeChar c = b :: bs ∧
      ∀ b' ∈ String.utf8EncodeChar c, 128 ≤ b'.toNat := by
  have hone : ¬ c.val.toNat ≤ 127 := Nat.not_le.mpr h
  have hoffset (n m k : Nat) (hk : 128 ≤ k) (hm : 0 < m) (hsum : m + k ≤ 256) :
      128 ≤ (UInt8.ofNat (n % m + k)).toNat := by
    have hmod := Nat.mod_lt n hm
    rw [UInt8.toNat_ofNat']
    omega
  have htail (n : Nat) : 128 ≤ (UInt8.ofNat (n % 64 + 128)).toNat :=
    hoffset n 64 128 (by decide) (by decide) (by decide)
  rw [String.utf8EncodeChar]
  simp only [if_neg hone]
  split_ifs
  · refine ⟨_, _, rfl, ?_⟩
    simp only [List.forall_mem_cons, List.not_mem_nil, false_imp_iff, implies_true, and_true]
    exact ⟨hoffset _ 32 192 (by decide) (by decide) (by decide), htail _⟩
  · refine ⟨_, _, rfl, ?_⟩
    simp only [List.forall_mem_cons, List.not_mem_nil, false_imp_iff, implies_true, and_true]
    exact ⟨hoffset _ 16 224 (by decide) (by decide) (by decide), htail _, htail _⟩
  · refine ⟨_, _, rfl, ?_⟩
    simp only [List.forall_mem_cons, List.not_mem_nil, false_imp_iff, implies_true, and_true]
    exact ⟨hoffset _ 8 240 (by decide) (by decide) (by decide), htail _, htail _, htail _⟩

theorem ascii_of_utf8
    {s : List Char}
    (h : ∀ b ∈ utf8 s, b.toNat < 128) :
    ∀ c ∈ s, c.toNat < 128 := by
  intro c hc
  by_contra hhigh
  obtain ⟨b, bs, hbytes, hall⟩ := utf8EncodeChar_high (Nat.not_lt.mp hhigh)
  have hb : b ∈ String.utf8EncodeChar c := hbytes ▸ List.mem_cons_self
  have hlow := h b (List.mem_flatMap.mpr ⟨c, hc, hb⟩)
  have hb128 := hall b hb
  omega

theorem toNat_byte {c : Char} (h : c.toNat < 128) : (byte c).toNat = c.toNat := by
  rw [byte, UInt8.toNat_ofNat']
  exact Nat.mod_eq_of_lt (by omega)

theorem byte_inj
    {c d : Char}
    (hc : c.toNat < 128)
    (hd : d.toNat < 128)
    (h : byte c = byte d) :
    c = d := by
  have hnat := congrArg UInt8.toNat h
  rw [toNat_byte hc, toNat_byte hd] at hnat
  exact Char.toNat_inj.mp hnat

/-- The letters and digits of a lower-case name. -/
def isLowerChar (c : Char) : Bool :=
  ('a' ≤ c && c ≤ 'z') || Acme.isDigit c

theorem isDigit_byte {c : Char} (h : c.toNat < 128) : isDigit (byte c) = Acme.isDigit c := by
  rw [Bool.eq_iff_iff]
  simp only [isDigit, inRange, Acme.isDigit, Bool.and_eq_true, decide_eq_true_eq,
    UInt8.reduceToNat, toNat_byte h]
  rfl

theorem isLowerAlnum_byte {c : Char} (h : c.toNat < 128) :
    isLowerAlnum (byte c) = isLowerChar c := by
  rw [isLowerAlnum, isLowerChar, isDigit_byte h]
  congr 1
  rw [Bool.eq_iff_iff]
  simp only [inRange, Bool.and_eq_true, decide_eq_true_eq, UInt8.reduceToNat, toNat_byte h]
  rfl

theorem isAlnum_byte {c : Char} (h : c.toNat < 128) : isAlnum (byte c) = Ca.isAlnum c := by
  rw [isAlnum, Ca.isAlnum, isDigit_byte h]
  congr 1
  rw [Bool.eq_iff_iff]
  simp only [inRange, Bool.or_eq_true, Bool.and_eq_true, decide_eq_true_eq, UInt8.reduceToNat,
    toNat_byte h]
  rfl

theorem asciiLower_ascii {c : Char} (h : c.toNat < 128) : (Acme.asciiLower c).toNat < 128 := by
  have hall : ∀ n : Fin 128, (Acme.asciiLower (Char.ofNat n)).toNat < 128 := by
    decide
  have hc := hall ⟨c.toNat, h⟩
  rwa [Char.ofNat_toNat] at hc

theorem byte_asciiLower {c : Char} (h : c.toNat < 128) :
    byte (Acme.asciiLower c) = asciiLower (byte c) := by
  have hall : ∀ n : Fin 128,
      byte (Acme.asciiLower (Char.ofNat n)) = asciiLower (byte (Char.ofNat n)) := by
    decide
  have hc := hall ⟨c.toNat, h⟩
  rwa [Char.ofNat_toNat] at hc

/-- What both validators decide, on characters. -/
abbrev CharHost (letter : Char → Bool) (s : List Char) : Prop :=
  HostName '.' '-' letter Acme.isDigit 63 253 s

/-- The name without a leading `*.` label. -/
def charHost (s : List Char) : List Char :=
  if ['*', '.'].isPrefixOf s then s.drop 2 else s

theorem length_le_byteLen (s : List Char) : s.length ≤ Acme.byteLen s := by
  induction s with
  | nil => simp
  | cons c s ih =>
      have hc := c.utf8Size_pos
      simp only [Acme.byteLen, List.map_cons, List.sum_cons, List.length_cons] at ih ⊢
      omega

theorem byteLen_ascii
    {s : List Char}
    (h : ∀ c ∈ s, c.toNat < 128) :
    Acme.byteLen s = s.length := by
  induction s with
  | nil => rfl
  | cons c s ih =>
      have hc : c.utf8Size = 1 := Char.utf8Size_eq_one_iff.mpr
        (Nat.le_of_lt_succ (h c List.mem_cons_self))
      have hs := ih fun d hd => h d (List.mem_cons_of_mem c hd)
      simp only [Acme.byteLen, List.map_cons, List.sum_cons, List.length_cons] at hs ⊢
      omega

theorem isLowerChar_alnum {c : Char} (h : isLowerChar c = true) : Ca.isAlnum c = true := by
  simp only [isLowerChar, Bool.or_eq_true] at h
  simp only [Ca.isAlnum, Bool.or_eq_true]
  exact h.imp_left Or.inr

/-- A host name over ASCII letters is ASCII. -/
theorem charHost_ascii
    {letter : Char → Bool}
    (hletter : ∀ c, letter c = true → Ca.isAlnum c = true)
    {s : List Char}
    (h : CharHost letter s) :
    ∀ c ∈ s, c.toNat < 128 := by
  intro c hc
  rcases h.chars hc with hchar | rfl | rfl
  · exact Ca.isAlnum_ascii (hletter c hchar)
  · decide
  · decide

theorem isLdh_char_iff (c : Char) :
    Acme.isLdh c = true ↔ isLowerChar c = true ∨ c = '-' := by
  simp [Acme.isLdh, isLowerChar]

theorem labelSafe_char_iff (l : List Char) :
    Acme.labelSafe l = true ↔ Label '-' isLowerChar 63 l := by
  have hchars : l.all Acme.isLdh = true ↔ ∀ c ∈ l, isLowerChar c = true ∨ c = '-' := by
    rw [List.all_eq_true]
    exact forall₂_congr fun c _ => isLdh_char_iff c
  rw [Acme.labelSafe, Bool.and_eq_true, hchars]
  simp only [Bool.not_eq_true', Bool.or_eq_false_iff, beq_eq_false_iff_ne, ne_eq,
    decide_eq_false_iff_not, Nat.not_lt]
  have hlen : (∀ c ∈ l, isLowerChar c = true ∨ c = '-') → Acme.byteLen l = l.length := by
    intro hall
    refine byteLen_ascii fun c hc => ?_
    rcases hall c hc with hchar | rfl
    · exact Ca.isAlnum_ascii (isLowerChar_alnum hchar)
    · decide
  constructor
  · rintro ⟨⟨⟨⟨hne, hle⟩, hhead⟩, hlast⟩, hall⟩
    rw [hlen hall] at hne hle
    exact ⟨by simpa using hne, hle, hhead, hlast, hall⟩
  · intro h
    rw [hlen h.chars]
    exact ⟨⟨⟨⟨by simpa using h.ne_nil, h.length_le⟩, h.head⟩, h.last⟩, h.chars⟩

/-- `hostSafe` on characters. -/
theorem hostSafe_char_iff (s : String) :
    Acme.hostSafe s = true ↔ CharHost isLowerChar s.toList := by
  have hlast : (!(Acme.trim Acme.isDigit (lastLabel '.' s.toList)).isEmpty) = true ↔
      ∃ c ∈ lastLabel '.' s.toList, Acme.isDigit c = false := by
    rw [Bool.not_eq_true', ← Bool.not_eq_true, List.isEmpty_iff, Acme.trim,
      dropWhile_ends_eq_nil_iff]
    simp
  have hlabels : (s.toList.splitOn '.').all Acme.labelSafe = true ↔
      ∀ l ∈ s.toList.splitOn '.', Label '-' isLowerChar 63 l := by
    rw [List.all_eq_true]
    exact forall₂_congr fun l _ => labelSafe_char_iff l
  rw [Acme.hostSafe]
  simp only [getLast?_splitOn, Option.getD_some]
  constructor
  · intro h
    split at h
    · simp at h
    · rename_i hlen
      simp only [Bool.or_eq_true, decide_eq_true_eq, not_or, Nat.not_lt] at hlen
      rw [Bool.and_eq_true, hlabels, hlast] at h
      exact ⟨(length_le_byteLen _).trans hlen.2, h.1, h.2⟩
  · intro h
    have hbytes := byteLen_ascii (charHost_ascii (fun _ => isLowerChar_alnum) h)
    have hne : s.toList.length ≠ 0 := by simpa using h.ne_nil
    have hlen : ¬ s.toList.length > 253 := Nat.not_lt.mpr h.length_le
    rw [hbytes, if_neg (by simpa [hne] using hlen), Bool.and_eq_true, hlabels, hlast]
    exact ⟨h.labels, h.last⟩

theorem hostnameLoop_char_eq_scan (label : Nat) (prev : Option Char) (s : List Char) :
    Ca.hostnameLoop label prev s = scan '.' '-' Ca.isAlnum 63 label prev s := by
  induction s generalizing label prev with
  | nil => rfl
  | cons c s ih => rw [Ca.hostnameLoop, scan, ih, ih]

/-- `dns_safe` on characters. -/
theorem dnsSafe_char_iff (s : String) :
    Ca.dnsSafe s = true ↔ CharHost Ca.isAlnum (charHost s.toList) := by
  have hlast : ((lastLabel '.' (charHost s.toList)).any fun c => !Acme.isDigit c) = true ↔
      ∃ c ∈ lastLabel '.' (charHost s.toList), Acme.isDigit c = false := by
    simp
  have hdef : Ca.dnsSafe s = (Ca.validHostname (charHost s.toList) &&
      (lastLabel '.' (charHost s.toList)).any fun c => !Acme.isDigit c) := rfl
  rw [hdef, Bool.and_eq_true, hlast, Ca.validHostname]
  constructor
  · rintro ⟨hvalid, hdigit⟩
    split at hvalid
    · simp at hvalid
    · rename_i hlen
      simp only [Bool.or_eq_true, decide_eq_true_eq, not_or, Nat.not_lt] at hlen
      rw [hostnameLoop_char_eq_scan, scan_iff] at hvalid
      exact ⟨(length_le_byteLen _).trans hlen.2, hvalid, hdigit⟩
  · intro h
    have hbytes := byteLen_ascii (charHost_ascii (fun _ => id) h)
    have hne : (charHost s.toList).isEmpty = false := by simpa using h.ne_nil
    have hlen : ¬ (charHost s.toList).length > 253 := Nat.not_lt.mpr h.length_le
    refine ⟨?_, h.last⟩
    rw [hbytes, if_neg (by simpa [hne] using hlen), hostnameLoop_char_eq_scan, scan_iff]
    exact h.labels

/-- The bytes of an ASCII host name. -/
theorem host_map_byte
    {letter : UInt8 → Bool}
    {letter' : Char → Bool}
    (hletter : ∀ c, c.toNat < 128 → letter (byte c) = letter' c)
    {s : List Char}
    (hascii : ∀ c ∈ s, c.toNat < 128) :
    Host letter (s.map byte) ↔ CharHost letter' s :=
  hostName_map rfl
    (fun c hc => byte_inj (d := '.') (hascii c hc) (by decide))
    (fun c hc => ⟨byte_inj (d := '-') (hascii c hc) (by decide), fun h => congrArg byte h⟩)
    (fun c hc => hletter c (hascii c hc))
    (fun c hc => isDigit_byte (hascii c hc))

theorem isAlnum_lt {b : UInt8} (h : isAlnum b = true) : b.toNat < 128 := by
  simp only [isAlnum, isDigit, inRange, Bool.or_eq_true, Bool.and_eq_true, decide_eq_true_eq,
    UInt8.reduceToNat] at h
  omega

theorem isLowerAlnum_lt {b : UInt8} (h : isLowerAlnum b = true) : b.toNat < 128 := by
  simp only [isLowerAlnum, isDigit, inRange, Bool.or_eq_true, Bool.and_eq_true,
    decide_eq_true_eq, UInt8.reduceToNat] at h
  omega

theorem host_ascii
    {letter : UInt8 → Bool}
    (hletter : ∀ b, letter b = true → b.toNat < 128)
    {s : List UInt8}
    (h : Host letter s) :
    ∀ b ∈ s, b.toNat < 128 := by
  intro b hb
  rcases h.chars hb with hchar | rfl | rfl
  · exact hletter b hchar
  · decide
  · decide

/-- What `host` leaves out is ASCII. -/
theorem ascii_of_host
    {s : List UInt8}
    (h : ∀ b ∈ host s, b.toNat < 128) :
    ∀ b ∈ s, b.toNat < 128 := by
  rw [host] at h
  split at h
  · rename_i hpre
    rcases List.isPrefixOf_iff_prefix.mp hpre with ⟨rest, rfl⟩
    intro b hb
    simp only [List.cons_append, List.nil_append, List.mem_cons] at hb
    rcases hb with rfl | rfl | hb
    · decide
    · decide
    · exact h b (by simpa using hb)
  · exact h

theorem host_byte
    {s : List Char}
    (hascii : ∀ c ∈ s, c.toNat < 128) :
    host (s.map byte) = (charHost s).map byte := by
  have hpre : ([0x2A, 0x2E] : List UInt8).isPrefixOf (s.map byte) = ['*', '.'].isPrefixOf s := by
    refine isPrefixOf_map (f := byte) (p := ['*', '.']) ?_
    intro a ha c hc hac
    simp only [List.mem_cons, List.not_mem_nil, or_false] at ha
    rcases ha with rfl | rfl
    · exact byte_inj (by decide) (hascii c hc) hac
    · exact byte_inj (by decide) (hascii c hc) hac
  rw [host, charHost, hpre]
  split
  · exact List.map_drop.symm
  · rfl

theorem charHost_subset (s : List Char) : charHost s ⊆ s := by
  rw [charHost]
  split
  · exact List.drop_subset 2 s
  · exact List.Subset.refl s

/-- `hostSafe` on the characters of a text is `hostSafe` on its bytes. -/
theorem hostSafe_utf8 (s : String) : hostSafe (utf8 s.toList) = Acme.hostSafe s := by
  rw [Bool.eq_iff_iff, hostSafe_iff, hostSafe_char_iff]
  by_cases hascii : ∀ c ∈ s.toList, c.toNat < 128
  · rw [utf8_ascii hascii]
    exact host_map_byte (fun c => isLowerAlnum_byte) hascii
  · constructor
    · intro h
      exact absurd (ascii_of_utf8 (host_ascii (fun _ => isLowerAlnum_lt) h)) hascii
    · intro h
      exact absurd (charHost_ascii (fun _ => isLowerChar_alnum) h) hascii

/-- `dns_safe` on the characters of a text is `dns_safe` on its bytes. -/
theorem dnsSafe_utf8 (s : String) : dnsSafe (utf8 s.toList) = Ca.dnsSafe s := by
  rw [Bool.eq_iff_iff]
  by_cases hascii : ∀ c ∈ s.toList, c.toNat < 128
  · rw [dnsSafe_iff, dnsSafe_char_iff, utf8_ascii hascii, host_byte hascii]
    exact host_map_byte (fun c => isAlnum_byte)
      fun c hc => hascii c (charHost_subset s.toList hc)
  · constructor
    · intro h
      have hhost := host_ascii (fun _ => isAlnum_lt) ((dnsSafe_iff _).mp h)
      exact absurd (ascii_of_utf8 (ascii_of_host hhost)) hascii
    · intro h
      exact absurd (Ca.dnsSafe_ascii h) hascii

end Characters

end Bytes

namespace Bridge

open Acme (identifierProblem splitWildcard toLower)
open Ca (lowerAscii)

/-- The base name of an identifier is what the CA checks as a host. -/
theorem splitWildcard_toList (name : String) :
    (splitWildcard name).1.toList = Bytes.charHost name.toList := by
  have hpre : "*.".toList = ['*', '.'] := by decide
  rw [splitWildcard, Acme.cutPrefix, Bytes.charHost, hpre]
  by_cases h : ['*', '.'].isPrefixOf name.toList = true
  · rw [if_pos h, if_pos h]
    simp
  · rw [if_neg h, if_neg h]

theorem lowerAscii_ascii
    {s : String}
    (hascii : ∀ c ∈ s.toList, c.toNat < 128) :
    ∀ c ∈ (lowerAscii s).toList, c.toNat < 128 := by
  intro c hc
  rw [lowerAscii, String.toList_ofList] at hc
  rcases List.mem_map.mp hc with ⟨d, hd, rfl⟩
  exact Bytes.asciiLower_ascii (hascii d hd)

/-- The lower case of an ASCII name, in bytes. -/
theorem lower_utf8
    {s : String}
    (hascii : ∀ c ∈ s.toList, c.toNat < 128) :
    Bytes.lower (Bytes.utf8 s.toList) = Bytes.utf8 (lowerAscii s).toList := by
  have hlow := lowerAscii_ascii hascii
  rw [Bytes.utf8_ascii hascii, Bytes.utf8_ascii hlow, lowerAscii, String.toList_ofList,
    Bytes.lower, List.map_map, List.map_map]
  refine List.map_congr_left fun c hc => ?_
  exact (Bytes.byte_asciiLower (hascii c hc)).symm

/-- The base of a name the CA certifies, in lower case, is a host name to the
frontend. -/
theorem host_of_dnsSafe
    {v : String}
    (h : Ca.dnsSafe v = true) :
    Bytes.CharHost Bytes.isLowerChar (splitWildcard (lowerAscii v)).1.toList := by
  have hascii := Ca.dnsSafe_ascii h
  have hlow := lowerAscii_ascii hascii
  have hshape : Bytes.shapeAccepted (Bytes.utf8 (lowerAscii v).toList) = true := by
    rw [← lower_utf8 hascii, Bytes.shapeAccepted_lower, Bytes.dnsSafe_utf8]
    exact h
  rw [Bytes.shapeAccepted_iff, Bytes.utf8_ascii hlow, Bytes.host_byte hlow] at hshape
  rw [splitWildcard_toList]
  exact (Bytes.host_map_byte (fun c => Bytes.isLowerAlnum_byte)
    fun c hc => hlow c (Bytes.charHost_subset _ hc)).mp hshape

/-- On lower-case names, in any bytes, the shape check of the frontend and the
one of the CA accept the same; a name that passes the one of `newOrder` passes
the CA's, and a name the CA certifies fails `newOrder` only where wildcards are
not served. -/
theorem shape_agrees :
    (∀ s, Bytes.shapeAccepted (Bytes.lower s) = Bytes.dnsSafe (Bytes.lower s)) ∧
      (∀ cfg id, identifierProblem cfg id = none →
        Ca.dnsSafe (toLower cfg.rune id.value) = true) ∧
      ∀ cfg id, id.type = "dns" → Ca.dnsSafe id.value = true →
        identifierProblem cfg id = none ∨
          (splitWildcard (toLower cfg.rune id.value)).2 = true ∧ cfg.dns01 = false := by
  refine ⟨?_, ?_, ?_⟩
  · intro s
    rw [Bytes.shapeAccepted_lower, Bytes.dnsSafe_lower]
  · intro cfg id h
    have hhost := (Bytes.hostSafe_char_iff _).mp (Acme.host_of_identifierProblem h)
    rw [splitWildcard_toList] at hhost
    exact (Bytes.dnsSafe_char_iff _).mpr (hhost.mono fun _ _ => Bytes.isLowerChar_alnum)
  · intro cfg id htype hsafe
    have hhost := host_of_dnsSafe hsafe
    rw [← toLower_ascii cfg.rune (Ca.dnsSafe_ascii hsafe)] at hhost
    have hbase : (splitWildcard (toLower cfg.rune id.value)).1 ≠ "" := by
      intro hempty
      exact hhost.ne_nil (by rw [hempty]; rfl)
    have hstar : '*' ∉ (splitWildcard (toLower cfg.rune id.value)).1.toList := by
      intro hmem
      rcases hhost.chars hmem with hchar | hchar | hchar
      · revert hchar
        decide
      · revert hchar
        decide
      · revert hchar
        decide
    have hsafe' := (Bytes.hostSafe_char_iff _).mpr hhost
    by_cases hwild : (splitWildcard (toLower cfg.rune id.value)).2 = true ∧ cfg.dns01 = false
    · exact Or.inr hwild
    · refine Or.inl ?_
      simp only [identifierProblem]
      rw [if_neg (by simpa using htype), if_neg (by simp [hbase, hsafe', hstar]), if_neg hwild]

end Bridge
end Yca
