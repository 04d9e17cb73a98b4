import Mathlib.Data.List.Basic
import Yca.Core.Numerals

/-!
# Values of DER

A value is an identifier octet, a length and contents (`tlv`).  A reader takes one value
off the front of some bytes (`takeTlv`) or splits bytes into all the values they hold
(`takeAll`); it admits definite lengths in their shortest form only.  What is written is
read back, in sequences of any depth.
-/

namespace Yca
namespace Core
namespace Der

section Writing

/-- The octets of a length. -/
def lengthOctets (n : Nat) : List UInt8 :=
  if n ≤ 127 then [UInt8.ofNat n]
  else UInt8.ofNat (0x80 + (bytesOf n).length) :: bytesOf n

/-- A value with its identifier octet. -/
def tlv (identifier : UInt8) (contents : List UInt8) : List UInt8 :=
  identifier :: (lengthOctets contents.length ++ contents)

/-- Several values, one behind the other. -/
def tlvs (values : List (UInt8 × List UInt8)) : List UInt8 :=
  values.flatMap fun v => tlv v.1 v.2

end Writing

section Reading

/-- The length some bytes start with, and the bytes behind it. -/
def takeLength : List UInt8 → Option (Nat × List UInt8)
  | [] => none
  | b :: bs =>
      if b.toNat < 128 then some (b.toNat, bs)
      else
        let count := b.toNat - 128
        let n := unsigned (bs.take count)
        if count = 0 ∨ bs.length < count ∨ n < 128 ∨ bs.head? = some 0 then none
        else some (n, bs.drop count)

/-- The value some bytes start with, and the bytes behind it.  Identifiers of more than
one octet are not read. -/
def takeTlv : List UInt8 → Option ((UInt8 × List UInt8) × List UInt8)
  | [] => none
  | identifier :: bs =>
      if identifier.toNat % 32 = 31 then none
      else
        match takeLength bs with
        | none => none
        | some (n, rest) =>
            if rest.length < n then none else some ((identifier, rest.take n), rest.drop n)

theorem takeLength_length
    {bs rest : List UInt8}
    {n : Nat}
    (h : takeLength bs = some (n, rest)) :
    rest.length < bs.length := by
  cases bs with
  | nil => simp [takeLength] at h
  | cons b bs =>
      rw [takeLength] at h
      split_ifs at h with hshort
      · obtain ⟨_, rfl⟩ := Prod.mk.inj (Option.some.inj h)
        exact Nat.lt_succ_self _
      · simp only at h
        split_ifs at h
        obtain ⟨_, rfl⟩ := Prod.mk.inj (Option.some.inj h)
        rw [List.length_drop, List.length_cons]
        omega

theorem takeTlv_length
    {bs rest : List UInt8}
    {v : UInt8 × List UInt8}
    (h : takeTlv bs = some (v, rest)) :
    rest.length < bs.length := by
  cases bs with
  | nil => simp [takeTlv] at h
  | cons identifier bs =>
      rw [takeTlv] at h
      split_ifs at h
      split at h
      · exact absurd h (by simp)
      · rename_i n behind hlength
        have hlen := takeLength_length hlength
        split_ifs at h
        obtain ⟨_, rfl⟩ := Prod.mk.inj (Option.some.inj h)
        rw [List.length_drop, List.length_cons]
        omega

/-- The values some bytes hold; `none` where they are not values only. -/
def takeAll (bs : List UInt8) : Option (List (UInt8 × List UInt8)) :=
  if bs.isEmpty then some []
  else
    match _h : takeTlv bs with
    | none => none
    | some (v, rest) => (takeAll rest).map fun vs => v :: vs
  termination_by bs.length
  decreasing_by exact takeTlv_length _h

end Reading

section RoundTrip

theorem takeLength_lengthOctets
    {n : Nat}
    (hn : n < 2 ^ 64)
    (rest : List UInt8) :
    takeLength (lengthOctets n ++ rest) = some (n, rest) := by
  unfold lengthOctets
  split_ifs with hshort
  · have hbyte : (UInt8.ofNat n).toNat = n := by
      rw [UInt8.toNat_ofNat']
      omega
    rw [List.singleton_append, takeLength, hbyte, if_pos (by omega)]
  · have hlen : (bytesOf n).length ≤ 8 := length_bytesOf_le (by omega)
    have hvalue := unsigned_bytesOf n
    have hne : bytesOf n ≠ [] := by
      intro hnil
      rw [hnil] at hvalue
      have hzero : n = 0 := hvalue.symm
      omega
    have hpos := List.length_pos_of_ne_nil hne
    have hbyte : (UInt8.ofNat (0x80 + (bytesOf n).length)).toNat = 128 + (bytesOf n).length := by
      rw [UInt8.toNat_ofNat']
      omega
    have hcount : 128 + (bytesOf n).length - 128 = (bytesOf n).length := by omega
    have hhead : (bytesOf n ++ rest).head? ≠ some 0 := by
      cases hbytes : bytesOf n with
      | nil => exact absurd hbytes hne
      | cons b bs =>
          rw [List.cons_append, List.head?_cons, Ne, Option.some.injEq]
          exact bytesOf_head hbytes
    rw [List.cons_append, takeLength, hbyte, if_neg (by omega)]
    simp only [hcount, List.take_left, List.drop_left, hvalue]
    rw [if_neg]
    rintro (hzero | hfew | hsmall | hlead)
    · omega
    · rw [List.length_append] at hfew
      omega
    · omega
    · exact hhead hlead

/-- A value is read back from the front of any bytes. -/
theorem takeTlv_tlv
    {identifier : UInt8}
    (hid : identifier.toNat % 32 ≠ 31)
    {contents : List UInt8}
    (hlen : contents.length < 2 ^ 64)
    (rest : List UInt8) :
    takeTlv (tlv identifier contents ++ rest) = some ((identifier, contents), rest) := by
  rw [tlv, List.cons_append, takeTlv, if_neg hid, List.append_assoc, takeLength_lengthOctets hlen]
  simp

theorem takeAll_nil : takeAll [] = some [] := by
  rw [takeAll]
  rfl

theorem takeAll_cons
    {bs rest : List UInt8}
    {v : UInt8 × List UInt8}
    (h : takeTlv bs = some (v, rest)) :
    takeAll bs = (takeAll rest).map fun vs => v :: vs := by
  have hne : bs ≠ [] := by
    rintro rfl
    simp [takeTlv] at h
  rw [takeAll, if_neg (by simpa using hne)]
  split
  · rename_i hnone
    rw [h] at hnone
    exact absurd hnone (by simp)
  · rename_i v' rest' hsome
    obtain ⟨rfl, rfl⟩ := Prod.mk.inj (Option.some.inj (h.symm.trans hsome))
    rfl

/-- Values one behind the other are read back. -/
theorem takeAll_tlvs
    {values : List (UInt8 × List UInt8)}
    (hid : ∀ v ∈ values, v.1.toNat % 32 ≠ 31)
    (hlen : ∀ v ∈ values, v.2.length < 2 ^ 64) :
    takeAll (tlvs values) = some values := by
  induction values with
  | nil => exact takeAll_nil
  | cons v values ih =>
      obtain ⟨hv, hids⟩ := List.forall_mem_cons.mp hid
      obtain ⟨hvlen, hlens⟩ := List.forall_mem_cons.mp hlen
      rw [tlvs, List.flatMap_cons, takeAll_cons (takeTlv_tlv hv hvlen _)]
      exact (congrArg (Option.map _) (ih hids hlens)).trans rfl

/-- A value alone is read back. -/
theorem takeAll_tlv
    {identifier : UInt8}
    (hid : identifier.toNat % 32 ≠ 31)
    {contents : List UInt8}
    (hlen : contents.length < 2 ^ 64) :
    takeAll (tlv identifier contents) = some [(identifier, contents)] := by
  have hone : tlvs [(identifier, contents)] = tlv identifier contents := by simp [tlvs]
  rw [← hone]
  exact takeAll_tlvs (by simpa using hid) (by simpa using hlen)

theorem length_lt_tlv (identifier : UInt8) (contents : List UInt8) :
    contents.length < (tlv identifier contents).length := by
  rw [tlv, List.length_cons, List.length_append]
  omega

/-- A value is no longer than the sequence it is in. -/
theorem length_lt_tlvs
    {values : List (UInt8 × List UInt8)}
    {v : UInt8 × List UInt8}
    (h : v ∈ values) :
    v.2.length < (tlvs values).length := by
  obtain ⟨l, r, rfl⟩ := List.append_of_mem h
  have hv := length_lt_tlv v.1 v.2
  rw [tlvs, List.flatMap_append, List.flatMap_cons, List.length_append, List.length_append]
  omega

end RoundTrip

end Der
end Core
end Yca
