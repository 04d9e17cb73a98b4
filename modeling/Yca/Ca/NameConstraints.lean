import Yca.Core.Der

/-!
# Name constraints

`Name_Constraints::encode_inner` of `src/x509ext.cpp` writes the extension value by
hand, on the encoder of Botan.  Its bytes are held here against the syntax of RFC 5280:

    NameConstraints ::= SEQUENCE {
         permittedSubtrees  [0] GeneralSubtrees OPTIONAL,
         excludedSubtrees   [1] GeneralSubtrees OPTIONAL }
    GeneralSubtrees ::= SEQUENCE SIZE (1..MAX) OF GeneralSubtree
    GeneralSubtree  ::= SEQUENCE {
         base     GeneralName,
         minimum  [0] BaseDistance DEFAULT 0,
         maximum  [1] BaseDistance OPTIONAL }

The names are octets here, whatever their characters.
-/

namespace Yca
namespace X509ext

open Yca.Core.Der

section Encoder

/-- `ASN1_Class::ContextSpecific`. -/
def contextSpecific : UInt8 := 0x80

/-- `ASN1_Class::Constructed`. -/
def constructed : UInt8 := 0x20

/-- `ASN1_Class::Universal`. -/
def universal : UInt8 := 0x00

/-- `ASN1_Type::Sequence`. -/
def sequence : UInt8 := 0x10

/-- A sequence that is not finished (`DER_Encoder::DER_Sequence`). -/
structure DerSequence where
  typeTag : UInt8
  classTag : UInt8
  contents : List UInt8

/-- `DER_Encoder` over an output vector: the vector, and the sequences begun, the
innermost first. -/
structure DerEncoder where
  out : List UInt8
  subsequences : List DerSequence

/-- `raw_bytes`. -/
def DerEncoder.rawBytes (der : DerEncoder) (bytes : List UInt8) : DerEncoder :=
  match der.subsequences with
  | [] => { der with out := der.out ++ bytes }
  | s :: rest =>
      { der with subsequences := { s with contents := s.contents ++ bytes } :: rest }

/-- `add_object`; the type tags here are below 31, one octet with the class. -/
def DerEncoder.addObject
    (der : DerEncoder)
    (typeTag classTag : UInt8)
    (rep : List UInt8) : DerEncoder :=
  der.rawBytes (tlv (typeTag ||| classTag) rep)

/-- `start_cons`. -/
def DerEncoder.startCons (der : DerEncoder) (typeTag classTag : UInt8) : DerEncoder :=
  { der with subsequences := ⟨typeTag, classTag, []⟩ :: der.subsequences }

/-- `start_sequence`. -/
def DerEncoder.startSequence (der : DerEncoder) : DerEncoder :=
  der.startCons sequence universal

/-- `end_cons`; `none` where it throws. -/
def DerEncoder.endCons (der : DerEncoder) : Option DerEncoder :=
  match der.subsequences with
  | [] => none
  | s :: rest =>
      some (DerEncoder.addObject { der with subsequences := rest } s.typeTag
        (s.classTag ||| constructed) s.contents)

end Encoder

section Extension

/-- `NameConstraints`: the permitted subtrees. -/
structure NameConstraints where
  permittedDns : List (List UInt8)
  permittedEmail : List (List UInt8)

/-- `NameConstraints::empty`. -/
def NameConstraints.empty (nc : NameConstraints) : Bool :=
  nc.permittedDns.isEmpty && nc.permittedEmail.isEmpty

/-- `kRfc822Name`. -/
def rfc822Tag : UInt8 := 1

/-- `kDnsName`. -/
def dnsTag : UInt8 := 2

/-- `encode_subtree`. -/
def encodeSubtree (der : DerEncoder) (tag : UInt8) (name : List UInt8) : Option DerEncoder :=
  (der.startSequence.addObject tag contextSpecific name).endCons

/-- `encode_inner`. -/
def encodeInner (nc : NameConstraints) : Option (List UInt8) := do
  let der : DerEncoder := ⟨[], []⟩
  let der := der.startSequence
  let der := der.startCons 0 (contextSpecific ||| constructed)
  let der ← nc.permittedDns.foldlM (fun der d => encodeSubtree der dnsTag d) der
  let der ← nc.permittedEmail.foldlM (fun der e => encodeSubtree der rfc822Tag e) der
  let der ← der.endCons
  let der ← der.endCons
  return der.out

end Extension

section Syntax

/-- `GeneralName`; the forms that are not used here keep their tag and octets. -/
inductive GeneralName
  | rfc822Name (name : List UInt8)
  | dnsName (name : List UInt8)
  | other (tag : UInt8) (contents : List UInt8)
  deriving DecidableEq

/-- `GeneralSubtree`. -/
structure GeneralSubtree where
  base : GeneralName
  minimum : Option (List UInt8)
  maximum : Option (List UInt8)
  deriving DecidableEq

/-- The fields of the extension. -/
structure Fields where
  permittedSubtrees : Option (List GeneralSubtree)
  excludedSubtrees : Option (List GeneralSubtree)
  deriving DecidableEq

/-- An OPTIONAL field under an identifier, and the values behind it. -/
def optionalField
    (identifier : UInt8) :
    List (UInt8 × List UInt8) → Option (List UInt8) × List (UInt8 × List UInt8)
  | [] => (none, [])
  | v :: vs => if v.1 = identifier then (some v.2, vs) else (none, v :: vs)

/-- The identifiers of the other forms: otherName, x400Address, directoryName,
ediPartyName, uniformResourceIdentifier, iPAddress and registeredID. -/
def otherForms : List UInt8 :=
  [0xA0, 0xA3, 0xA4, 0xA5, 0x86, 0x87, 0x88]

def decodeGeneralName (v : UInt8 × List UInt8) : Option GeneralName :=
  if v.1 = 0x81 then some (.rfc822Name v.2)
  else if v.1 = 0x82 then some (.dnsName v.2)
  else if otherForms.contains v.1 then some (.other v.1 v.2)
  else none

def decodeSubtree (v : UInt8 × List UInt8) : Option GeneralSubtree :=
  if v.1 ≠ 0x30 then none
  else
    match takeAll v.2 with
    | none => none
    | some [] => none
    | some (base :: vs) =>
        match decodeGeneralName base with
        | none => none
        | some name =>
            let minimum := optionalField 0x80 vs
            let maximum := optionalField 0x81 minimum.2
            if maximum.2.isEmpty then some ⟨name, minimum.1, maximum.1⟩ else none

/-- `GeneralSubtrees`, implicitly tagged: at least one. -/
def decodeSubtrees (contents : List UInt8) : Option (List GeneralSubtree) :=
  match takeAll contents with
  | none => none
  | some [] => none
  | some vs => vs.mapM decodeSubtree

/-- A field of subtrees, where it is there. -/
def decodeField : Option (List UInt8) → Option (Option (List GeneralSubtree))
  | none => some none
  | some contents => (decodeSubtrees contents).map some

/-- The extension value. -/
def decodeNameConstraints (bytes : List UInt8) : Option Fields :=
  match takeAll bytes with
  | some [v] =>
      if v.1 ≠ 0x30 then none
      else
        match takeAll v.2 with
        | none => none
        | some vs =>
            let permitted := optionalField 0xA0 vs
            let excluded := optionalField 0xA1 permitted.2
            if excluded.2.isEmpty then
              match decodeField permitted.1, decodeField excluded.1 with
              | some permittedSubtrees, some excludedSubtrees =>
                  some ⟨permittedSubtrees, excludedSubtrees⟩
              | _, _ => none
            else none
  | _ => none

end Syntax

section RoundTrip

/-- The subtrees of the constraints as values: identifier and contents. -/
def NameConstraints.values (nc : NameConstraints) : List (UInt8 × List UInt8) :=
  nc.permittedDns.map (fun d => (0x30, tlv 0x82 d)) ++
    nc.permittedEmail.map (fun e => (0x30, tlv 0x81 e))

/-- The subtrees of the constraints, without minimum and maximum. -/
def NameConstraints.subtrees (nc : NameConstraints) : List GeneralSubtree :=
  nc.permittedDns.map (fun d => ⟨.dnsName d, none, none⟩) ++
    nc.permittedEmail.map (fun e => ⟨.rfc822Name e, none, none⟩)

/-- A subtree goes to the sequence at hand. -/
theorem encodeSubtree_eq
    (out : List UInt8)
    (s : DerSequence)
    (rest : List DerSequence)
    (tag : UInt8)
    (name : List UInt8) :
    encodeSubtree ⟨out, s :: rest⟩ tag name =
      some ⟨out, { s with contents := s.contents ++ tlv 0x30 (tlv (tag ||| 0x80) name) } :: rest⟩ := by
  have hseq : sequence ||| (universal ||| constructed) = 0x30 := by decide
  simp only [encodeSubtree, DerEncoder.startSequence, DerEncoder.startCons, DerEncoder.addObject,
    DerEncoder.rawBytes, DerEncoder.endCons, hseq, List.nil_append]
  rfl

theorem foldlM_encodeSubtree
    (out : List UInt8)
    (s : DerSequence)
    (rest : List DerSequence)
    (tag : UInt8)
    (names : List (List UInt8)) :
    names.foldlM (fun der name => encodeSubtree der tag name) ⟨out, s :: rest⟩ =
      some ⟨out, { s with
        contents := s.contents ++ tlvs (names.map fun name => (0x30, tlv (tag ||| 0x80) name)) } :: rest⟩ := by
  induction names generalizing s with
  | nil => simp [tlvs]
  | cons name names ih =>
      rw [List.foldlM_cons, encodeSubtree_eq]
      refine (ih _).trans ?_
      simp [tlvs]

/-- The bytes that are written: never an error. -/
theorem encodeInner_eq (nc : NameConstraints) :
    encodeInner nc = some (tlv 0x30 (tlv 0xA0 (tlvs nc.values))) := by
  have hseq : sequence ||| (universal ||| constructed) = 0x30 := by decide
  have hpermitted : 0 ||| (contextSpecific ||| constructed ||| constructed) = 0xA0 := by decide
  have hdns : dnsTag ||| 0x80 = 0x82 := by decide
  have hemail : rfc822Tag ||| 0x80 = 0x81 := by decide
  have hvalues : tlvs (nc.permittedDns.map fun d => (0x30, tlv 0x82 d)) ++
      tlvs (nc.permittedEmail.map fun e => (0x30, tlv 0x81 e)) = tlvs nc.values :=
    List.flatMap_append.symm
  simp only [encodeInner, DerEncoder.startSequence, DerEncoder.startCons, foldlM_encodeSubtree,
    Option.bind_eq_bind, Option.bind_some, DerEncoder.endCons, DerEncoder.addObject,
    DerEncoder.rawBytes, hseq, hpermitted, hdns, hemail, List.nil_append, hvalues]
  rfl

/-- A subtree with nothing but its base. -/
theorem decodeSubtree_base
    {tag : UInt8}
    (htag : tag.toNat % 32 ≠ 31)
    {name : List UInt8}
    (hlen : name.length < 2 ^ 64)
    {base : GeneralName}
    (h : decodeGeneralName (tag, name) = some base) :
    decodeSubtree (0x30, tlv tag name) = some ⟨base, none, none⟩ := by
  unfold decodeSubtree
  simp only [takeAll_tlv htag hlen, h, optionalField, ne_eq, not_true_eq_false, if_false, List.isEmpty_nil, if_true]

theorem mapM_decodeSubtree
    {tag : UInt8}
    (htag : tag.toNat % 32 ≠ 31)
    {form : List UInt8 → GeneralName}
    (hform : ∀ name, decodeGeneralName (tag, name) = some (form name))
    {names : List (List UInt8)}
    (hlen : ∀ name ∈ names, name.length < 2 ^ 64) :
    (names.map fun name => (0x30, tlv tag name)).mapM decodeSubtree =
      some (names.map fun name => ⟨form name, none, none⟩) := by
  induction names with
  | nil => rfl
  | cons name names ih =>
      obtain ⟨hname, hnames⟩ := List.forall_mem_cons.mp hlen
      rw [List.map_cons, List.mapM_cons, decodeSubtree_base htag hname (hform name), ih hnames]
      rfl

/-- The values of the constraints are read as its subtrees. -/
theorem decodeSubtrees_values
    {nc : NameConstraints}
    (h : nc.empty = false)
    (hlen : ∀ v ∈ nc.values, v.2.length < 2 ^ 64) :
    decodeSubtrees (tlvs nc.values) = some nc.subtrees := by
  have hname {tag : UInt8} {name : List UInt8} (hv : (0x30, tlv tag name) ∈ nc.values) :
      name.length < 2 ^ 64 :=
    Nat.lt_trans (length_lt_tlv tag name) (hlen _ hv)
  have hdns : (nc.permittedDns.map fun d => (0x30, tlv 0x82 d)).mapM decodeSubtree =
      some (nc.permittedDns.map fun d => ⟨.dnsName d, none, none⟩) :=
    mapM_decodeSubtree (by decide) (fun _ => rfl)
      fun d hmem => hname (List.mem_append_left _ (List.mem_map_of_mem hmem))
  have hemail : (nc.permittedEmail.map fun e => (0x30, tlv 0x81 e)).mapM decodeSubtree =
      some (nc.permittedEmail.map fun e => ⟨.rfc822Name e, none, none⟩) :=
    mapM_decodeSubtree (by decide) (fun _ => rfl)
      fun e hmem => hname (List.mem_append_right _ (List.mem_map_of_mem hmem))
  have hids : ∀ v ∈ nc.values, v.1.toNat % 32 ≠ 31 := by
    intro v hv
    rcases List.mem_append.mp hv with hv | hv
    · obtain ⟨_, _, rfl⟩ := List.mem_map.mp hv
      exact show (0x30 : UInt8).toNat % 32 ≠ 31 by decide
    · obtain ⟨_, _, rfl⟩ := List.mem_map.mp hv
      exact show (0x30 : UInt8).toNat % 32 ≠ 31 by decide
  have hmany : nc.values.mapM decodeSubtree = some nc.subtrees := by
    rw [NameConstraints.values, List.mapM_append, hdns, hemail]
    rfl
  have hne : nc.values ≠ [] := by
    intro hnil
    rw [NameConstraints.values, List.append_eq_nil_iff, List.map_eq_nil_iff, List.map_eq_nil_iff] at hnil
    rw [NameConstraints.empty, hnil.1, hnil.2] at h
    exact absurd h (by decide)
  unfold decodeSubtrees
  rw [takeAll_tlvs hids hlen]
  cases hvalues : nc.values with
  | nil => exact absurd hvalues hne
  | cons v vs =>
      rw [hvalues] at hmany
      exact hmany

/-- **Name constraints.**  `encode_inner` throws nothing, and what it writes is read by
the syntax of the extension as the permitted DNS names and then the permitted mail names,
in order, each without minimum and maximum, and no excluded subtrees. -/
theorem name_constraints_decoded
    {nc : NameConstraints}
    (h : nc.empty = false) :
    ∃ bytes, encodeInner nc = some bytes ∧
      (bytes.length < 2 ^ 64 → decodeNameConstraints bytes = some ⟨some nc.subtrees, none⟩) := by
  refine ⟨_, encodeInner_eq nc, fun hsize => ?_⟩
  have houter := length_lt_tlv 0x30 (tlv 0xA0 (tlvs nc.values))
  have hinner := length_lt_tlv 0xA0 (tlvs nc.values)
  have hlen : ∀ v ∈ nc.values, v.2.length < 2 ^ 64 := fun v hv => by
    have hv := length_lt_tlvs hv
    omega
  have hsubtrees := decodeSubtrees_values h hlen
  have hpermitted : takeAll (tlv 0xA0 (tlvs nc.values)) = some [(0xA0, tlvs nc.values)] :=
    takeAll_tlv (by decide) (by omega)
  have hwhole : takeAll (tlv 0x30 (tlv 0xA0 (tlvs nc.values))) =
      some [(0x30, tlv 0xA0 (tlvs nc.values))] :=
    takeAll_tlv (by decide) (by omega)
  unfold decodeNameConstraints
  simp only [hwhole, hpermitted, optionalField, ne_eq, not_true_eq_false, if_false, List.isEmpty_nil,
    if_true, decodeField, hsubtrees, Option.map_some]

/-- Two DNS names and a mail domain. -/
def sampleConstraints : NameConstraints :=
  ⟨[[0x61, 0x2E, 0x63, 0x61], [0x62]], [[0x6D]]⟩

theorem name_constraints_decoded_sample :
    ∃ bytes, encodeInner sampleConstraints = some bytes ∧
      decodeNameConstraints bytes =
        some ⟨some [⟨.dnsName [0x61, 0x2E, 0x63, 0x61], none, none⟩, ⟨.dnsName [0x62], none, none⟩,
          ⟨.rfc822Name [0x6D], none, none⟩], none⟩ := by
  obtain ⟨bytes, hbytes, hdecoded⟩ := name_constraints_decoded
    (show sampleConstraints.empty = false by decide)
  refine ⟨bytes, hbytes, hdecoded ?_⟩
  have hsize : (encodeInner sampleConstraints).all (fun b => decide (b.length < 2 ^ 64)) = true := by
    decide
  rw [hbytes] at hsize
  simpa using hsize

end RoundTrip

end X509ext
end Yca
