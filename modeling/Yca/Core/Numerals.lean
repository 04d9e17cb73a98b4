import Mathlib.Algebra.Ring.Int.Defs
import Mathlib.Algebra.Ring.Nat
import Mathlib.Data.List.Basic
import Mathlib.Data.List.Induction
import Mathlib.Data.Nat.Digits.Lemmas

/-!
# Numerals

The number a list of digits denotes, the first digit the highest, and the
numeral `Nat.toDigits` writes for it.  Bytes are digits of base 256; as the integers
of DER they are read in two's complement.
-/

namespace Yca
namespace Core

/-- The number a list of digits denotes, the highest first. -/
def numeral (base : Nat) (ds : List Nat) : Nat :=
  ds.foldl (fun n d => base * n + d) 0

section Numeral

variable {base : Nat}

@[simp] theorem numeral_nil : numeral base [] = 0 := rfl

theorem numeral_concat (ds : List Nat) (d : Nat) :
    numeral base (ds ++ [d]) = base * numeral base ds + d := by
  simp [numeral, List.foldl_append]

theorem numeral_cons (d : Nat) (ds : List Nat) :
    numeral base (d :: ds) = d * base ^ ds.length + numeral base ds := by
  induction ds using List.reverseRecOn with
  | nil => simp [numeral]
  | append_singleton ds e ih =>
      rw [← List.cons_append, numeral_concat, numeral_concat, ih, List.length_append,
        List.length_singleton, Nat.pow_succ, Nat.mul_add, Nat.add_assoc]
      congr 1
      rw [← Nat.mul_assoc, Nat.mul_comm base d, Nat.mul_assoc, Nat.mul_comm base]

theorem numeral_append (ds es : List Nat) :
    numeral base (ds ++ es) = numeral base ds * base ^ es.length + numeral base es := by
  induction ds with
  | nil => simp
  | cons d ds ih =>
      rw [List.cons_append, numeral_cons, ih, numeral_cons, List.length_append, Nat.pow_add,
        Nat.add_mul, Nat.mul_assoc, Nat.add_assoc]

theorem numeral_lt
    {ds : List Nat}
    (h : ∀ d ∈ ds, d < base) :
    numeral base ds < base ^ ds.length := by
  induction ds with
  | nil => simp
  | cons d ds ih =>
      obtain ⟨hd, hds⟩ := List.forall_mem_cons.mp h
      have hrest := ih hds
      have hle : d * base ^ ds.length + base ^ ds.length ≤ base * base ^ ds.length := by
        rw [← Nat.succ_mul]
        exact Nat.mul_le_mul_right _ hd
      rw [numeral_cons, List.length_cons, Nat.pow_succ, Nat.mul_comm _ base]
      omega

/-- Leading zeros count nothing. -/
theorem numeral_dropZeros (ds : List Nat) :
    numeral base (ds.dropWhile fun d => d == 0) = numeral base ds := by
  induction ds with
  | nil => rfl
  | cons d ds ih =>
      by_cases hd : d = 0
      · rw [List.dropWhile_cons_of_pos (by simpa using hd), ih, hd]
        simp [numeral]
      · rw [List.dropWhile_cons_of_neg (by simpa using hd)]

theorem numeral_pos
    (hbase : 0 < base)
    {d : Nat}
    (hd : 0 < d)
    (ds : List Nat) :
    0 < numeral base (d :: ds) := by
  induction ds using List.reverseRecOn with
  | nil => simpa [numeral] using hd
  | append_singleton ds e ih =>
      rw [← List.cons_append, numeral_concat]
      have hmul := Nat.mul_pos hbase ih
      omega

/-- A numeral without a leading zero is the one `Nat.toDigits` writes. -/
theorem toDigits_numeral
    (hbase : 1 < base)
    {d : Nat}
    {ds : List Nat}
    (hd : 0 < d)
    (hlt : ∀ e ∈ d :: ds, e < base) :
    Nat.toDigits base (numeral base (d :: ds)) = (d :: ds).map Nat.digitChar := by
  induction ds using List.reverseRecOn with
  | nil =>
      have hone : numeral base [d] = d := by simp [numeral]
      rw [hone, Nat.toDigits_of_lt_base (hlt d List.mem_cons_self)]
      rfl
  | append_singleton ds e ih =>
      have he : e < base := hlt e (by simp)
      have hpos := numeral_pos (Nat.lt_of_succ_lt hbase) hd ds
      have hinit := ih fun x hx => hlt x (by
        rcases List.mem_cons.mp hx with rfl | hx
        · exact List.mem_cons_self
        · exact List.mem_cons_of_mem d (List.mem_append_left [e] hx))
      rw [← List.cons_append, numeral_concat, ← Nat.toDigits_append_toDigits hbase hpos he, hinit,
        Nat.toDigits_of_lt_base he, List.map_append]
      rfl

/-- Every number has a numeral, the one `Nat.toDigits` writes. -/
theorem exists_numeral (hbase : 1 < base) (n : Nat) :
    ∃ ds, ds ≠ [] ∧ (∀ d ∈ ds, d < base) ∧ numeral base ds = n ∧
      Nat.toDigits base n = ds.map Nat.digitChar := by
  induction n using Nat.strongRecOn with
  | ind n ih =>
      by_cases hn : n < base
      · refine ⟨[n], by simp, by simpa using hn, by simp [numeral], ?_⟩
        rw [Nat.toDigits_of_lt_base hn]
        rfl
      · have hpos : 0 < n := by omega
        obtain ⟨ds, _, hlt, hval, htext⟩ := ih (n / base) (Nat.div_lt_self hpos hbase)
        refine ⟨ds ++ [n % base], by simp, ?_, ?_, ?_⟩
        · intro d hd
          rcases List.mem_append.mp hd with hd | hd
          · exact hlt d hd
          · rw [List.mem_singleton.mp hd]
            exact Nat.mod_lt n (by omega)
        · rw [numeral_concat, hval]
          exact Nat.div_add_mod n base
        · rw [Nat.toDigits_of_base_le hbase (Nat.not_lt.mp hn), htext, List.map_append]
          rfl

/-- The digits of a number are a numeral of it. -/
theorem numeral_digits (hbase : 1 < base) (n : Nat) :
    numeral base (Nat.digits base n).reverse = n := by
  induction n using Nat.strongRecOn with
  | ind n ih =>
      rcases Nat.eq_zero_or_pos n with rfl | hn
      · simp
      · rw [Nat.digits_def' hbase hn, List.reverse_cons, numeral_concat,
          ih (n / base) (Nat.div_lt_self hn hbase)]
        exact Nat.div_add_mod n base

end Numeral

section Integers

/-- The number some bytes denote. -/
def unsigned (b : List UInt8) : Nat :=
  numeral 256 (b.map UInt8.toNat)

/-- The bytes of a number, the highest first and not zero. -/
def bytesOf (n : Nat) : List UInt8 :=
  (Nat.digits 256 n).reverse.map UInt8.ofNat

theorem unsigned_bytesOf (n : Nat) : unsigned (bytesOf n) = n := by
  have hbytes : (bytesOf n).map UInt8.toNat = (Nat.digits 256 n).reverse := by
    rw [bytesOf, List.map_map]
    refine (List.map_congr_left fun d hd => ?_).trans (List.map_id _)
    have hlt := Nat.digits_lt_base (show 1 < 256 by decide) (List.mem_reverse.mp hd)
    rw [Function.comp_apply, UInt8.toNat_ofNat', id]
    exact Nat.mod_eq_of_lt hlt
  rw [unsigned, hbytes, numeral_digits (by decide)]

theorem bytesOf_head
    {n : Nat}
    {b : UInt8}
    {bs : List UInt8}
    (h : bytesOf n = b :: bs) :
    b ≠ 0 := by
  have hdigits : (Nat.digits 256 n).reverse.map UInt8.ofNat = b :: bs := h
  cases hrev : (Nat.digits 256 n).reverse with
  | nil => simp [hrev] at hdigits
  | cons d ds =>
      rw [hrev, List.map_cons, List.cons.injEq] at hdigits
      have hlist : Nat.digits 256 n = ds.reverse ++ [d] := by
        rw [← List.reverse_cons, ← hrev, List.reverse_reverse]
      have hn : n ≠ 0 := by
        rintro rfl
        simp at hlist
      have hlast := Nat.getLast_digit_ne_zero 256 hn
      have hlt := Nat.digits_lt_base (show 1 < 256 by decide)
        (hlist ▸ List.mem_append_right _ List.mem_cons_self)
      simp only [hlist, List.getLast_append_singleton] at hlast
      rintro rfl
      have hzero := congrArg UInt8.toNat hdigits.1
      rw [UInt8.toNat_ofNat', UInt8.toNat_zero] at hzero
      omega

theorem length_bytesOf_le
    {n k : Nat}
    (h : n < 256 ^ k) :
    (bytesOf n).length ≤ k := by
  rw [bytesOf, List.length_map, List.length_reverse]
  exact (Nat.digits_length_le_iff (by decide) n).mpr h

/-- The integer some bytes denote in two's complement. -/
def twosComplement : List UInt8 → Int
  | [] => 0
  | c :: cs => unsigned (c :: cs) - if 128 ≤ c.toNat then 256 ^ (cs.length + 1) else 0

theorem unsigned_cons (c : UInt8) (cs : List UInt8) :
    unsigned (c :: cs) = c.toNat * 256 ^ cs.length + unsigned cs := by
  rw [unsigned, List.map_cons, numeral_cons, List.length_map, unsigned]

theorem unsigned_lt (b : List UInt8) : unsigned b < 256 ^ b.length := by
  have h : unsigned b < 256 ^ (b.map UInt8.toNat).length := by
    refine numeral_lt fun d hd => ?_
    obtain ⟨c, _, rfl⟩ := List.mem_map.mp hd
    exact c.toNat_lt
  rwa [List.length_map] at h

/-- Without the sign bit bytes are what they are in two's complement. -/
theorem twosComplement_of_low
    {c : UInt8}
    (h : c.toNat < 128)
    (cs : List UInt8) :
    twosComplement (c :: cs) = unsigned (c :: cs) := by
  rw [twosComplement, if_neg (Nat.not_le.mpr h), Int.sub_zero]

/-- The sign bit makes them negative. -/
theorem twosComplement_of_high
    {c : UInt8}
    (h : 128 ≤ c.toNat)
    (cs : List UInt8) :
    twosComplement (c :: cs) < 0 := by
  have hlt := unsigned_lt (c :: cs)
  rw [List.length_cons] at hlt
  rw [twosComplement, if_pos h]
  have hcast : ((256 ^ (cs.length + 1) : Nat) : Int) = 256 ^ (cs.length + 1) := by
    rw [Int.natCast_pow]
    rfl
  omega

/-- Bytes that denote a number of so many bytes in two's complement stay below half of
what they can hold. -/
theorem unsigned_lt_half
    {c : UInt8}
    {cs : List UInt8}
    (h : 0 ≤ twosComplement (c :: cs)) :
    twosComplement (c :: cs) = unsigned (c :: cs) ∧ unsigned (c :: cs) < 128 * 256 ^ cs.length := by
  have hlow : c.toNat < 128 := by
    by_contra hhigh
    have hneg := twosComplement_of_high (Nat.not_lt.mp hhigh) cs
    omega
  refine ⟨twosComplement_of_low hlow cs, ?_⟩
  have hrest := unsigned_lt cs
  have hle : c.toNat * 256 ^ cs.length ≤ 127 * 256 ^ cs.length :=
    Nat.mul_le_mul_right _ (by omega)
  rw [unsigned_cons]
  omega

/-- The encoding of a number that is not negative as the contents of a DER integer. -/
structure DerNat (n : Nat) (b : List UInt8) : Prop where
  ne_nil : b ≠ []
  value : twosComplement b = n
  topBit : ∀ c ∈ b.head?, c.toNat < 128
  noZero : ∀ c cs, b = 0 :: c :: cs → 128 ≤ c.toNat

/-- No bytes that denote the number are fewer. -/
theorem DerNat.length_le
    {n : Nat}
    {b b' : List UInt8}
    (h : DerNat n b)
    (hne : b' ≠ [])
    (hvalue : twosComplement b' = n) :
    b.length ≤ b'.length := by
  cases b' with
  | nil => exact absurd rfl hne
  | cons c' cs' =>
      obtain ⟨hsame', hhalf⟩ := unsigned_lt_half (show 0 ≤ twosComplement (c' :: cs') by omega)
      by_contra hshort
      -- two bytes more than none, and the first two do not both belong to a padding
      cases b with
      | nil => exact h.ne_nil rfl
      | cons c cs =>
          cases cs with
          | nil => simp at hshort
          | cons d ds =>
              have hlow := h.topBit c (by simp)
              have hsame := twosComplement_of_low hlow (d :: ds)
              have hn : unsigned (c :: d :: ds) = n := by
                have hv := h.value
                omega
              have hbig : 128 * 256 ^ ds.length ≤ unsigned (c :: d :: ds) := by
                rw [unsigned_cons, unsigned_cons, List.length_cons, Nat.pow_succ]
                rcases Nat.eq_zero_or_pos c.toNat with hzero | hpos
                · have hc : c = 0 := UInt8.toNat_inj.mp hzero
                  have hd := h.noZero d ds (by rw [hc])
                  have hle : 128 * 256 ^ ds.length ≤ d.toNat * 256 ^ ds.length :=
                    Nat.mul_le_mul_right _ hd
                  omega
                · have hle : 1 * (256 ^ ds.length * 256) ≤ c.toNat * (256 ^ ds.length * 256) :=
                    Nat.mul_le_mul_right _ hpos
                  omega
              have hpow : 256 ^ cs'.length ≤ 256 ^ ds.length := by
                refine Nat.pow_le_pow_right (by decide) ?_
                simp only [List.length_cons] at hshort
                omega
              have hle : 128 * 256 ^ cs'.length ≤ 128 * 256 ^ ds.length :=
                Nat.mul_le_mul_left _ hpow
              omega

end Integers

end Core
end Yca
