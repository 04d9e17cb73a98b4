import Yca.Core.Base64
import Yca.Core.Labels
import Yca.Bridge.SerialText
import Mathlib.Data.Nat.Bitwise

/-!
# Renewal identifiers

A certificate is asked about by an identifier made of its authority key identifier and
its serial (`ariID` of `acme/ari.go`), both in base64 with a dot between them.  The
serial is written as the contents of a DER integer.

No two pairs have the identifier in common, and a frontend that records certificates
under their identifiers answers about the one it was asked about.
-/

namespace Yca
namespace Bridge

open Yca.Core Ca

section Identifiers

/-- `(*big.Int).Bytes`: the absolute value, no leading zero. -/
def bigBytes (n : Int) : List UInt8 :=
  bytesOf n.natAbs

/-- `derIntBytes`. -/
def derIntBytes (n : Int) : List UInt8 :=
  match bigBytes n with
  | [] => [0]
  | b :: bs => if b &&& 0x80 ≠ 0 then 0 :: b :: bs else b :: bs

/-- `ariID`; `none` where it returns an error. -/
def ariId (authorityKeyId : List UInt8) (serialNumber : Int) : Option String :=
  if authorityKeyId.isEmpty then none
  else
    some (String.ofList
      (Base64.encode authorityKeyId ++ '.' :: Base64.encode (derIntBytes serialNumber)))

example : derIntBytes 0 = [0] := by decide
example : derIntBytes 128 = [0, 128] := by decide

theorem highBit_iff (b : UInt8) : b &&& 0x80 ≠ 0 ↔ 128 ≤ b.toNat := by
  have hb := b.toNat_lt
  have hbit : (b &&& 0x80).toNat = (b.toNat.testBit 7).toNat * 2 ^ 7 := by
    rw [UInt8.toNat_and, ← Nat.and_two_pow]
    rfl
  rw [Ne, ← UInt8.toNat_inj, hbit, UInt8.toNat_zero, Nat.testBit_eq_decide_div_mod_eq]
  by_cases hhigh : 128 ≤ b.toNat
  · have hone : b.toNat / 2 ^ 7 % 2 = 1 := by omega
    rw [decide_eq_true hone]
    simp [hhigh]
  · have hzero : ¬ b.toNat / 2 ^ 7 % 2 = 1 := by omega
    rw [decide_eq_false hzero]
    simp [hhigh]

/-- `derIntBytes` is the DER encoding of every number that is not negative. -/
theorem derIntBytes_der (n : Nat) : DerNat n (derIntBytes n) := by
  have hvalue := unsigned_bytesOf n
  unfold derIntBytes bigBytes
  rw [Int.natAbs_natCast]
  cases hbytes : bytesOf n with
  | nil =>
      rw [hbytes] at hvalue
      obtain rfl : n = 0 := hvalue.symm
      exact ⟨by simp, by decide, by simp, by simp⟩
  | cons b bs =>
      have hhead := bytesOf_head hbytes
      rw [hbytes] at hvalue
      simp only
      split_ifs with hhigh
      · rw [highBit_iff] at hhigh
        refine ⟨by simp, ?_, by simp, ?_⟩
        · rw [twosComplement_of_low (by decide), unsigned_cons, hvalue]
          simp
        · intro c cs heq
          rw [List.cons.injEq, List.cons.injEq] at heq
          rwa [← heq.2.1]
      · rw [highBit_iff, Nat.not_le] at hhigh
        refine ⟨by simp, ?_, by simpa using hhigh, ?_⟩
        · rw [twosComplement_of_low hhigh, hvalue]
        · intro c cs heq
          exact absurd (List.cons.inj heq).1 hhead

theorem derIntBytes_inj
    {m n : Int}
    (hm : 0 ≤ m)
    (hn : 0 ≤ n)
    (h : derIntBytes m = derIntBytes n) :
    m = n := by
  obtain ⟨k, rfl⟩ := Int.eq_ofNat_of_zero_le hm
  obtain ⟨l, rfl⟩ := Int.eq_ofNat_of_zero_le hn
  rw [← (derIntBytes_der k).value, ← (derIntBytes_der l).value, h]

/-- The identifier names the key and the serial. -/
theorem ariId_inj
    {key key' : List UInt8}
    {m n : Int}
    (hm : 0 ≤ m)
    (hn : 0 ≤ n)
    {id : String}
    (h : ariId key m = some id)
    (h' : ariId key' n = some id) :
    key = key' ∧ m = n := by
  have hdot (s : List UInt8) : '.' ∉ Base64.encode s := by
    intro hmem
    have hchar := Base64.mem_encode hmem
    revert hchar
    decide
  unfold ariId at h h'
  split_ifs at h h'
  have heq := (Option.some.inj h).trans (Option.some.inj h').symm
  rw [String.ofList_inj] at heq
  obtain ⟨hkey, hserial⟩ := append_sep_inj (hdot key) (hdot key') heq
  exact ⟨Base64.encode_injective hkey, derIntBytes_inj hm hn (Base64.encode_injective hserial)⟩

end Identifiers

section Answers

/-- The column `ari_id` that `certMeta` fills; `keyId` are the bytes of a key's identifier.
Without an authority key identifier it is empty. -/
def certMetaAriId (keyId : Key → List UInt8) (leaf : Cert) : String :=
  (ariId (keyId leaf.aki) (serialNumber leaf.serial)).getD ""

/-- Any interleaving of everything, and the frontend records what `certMeta` read. -/
def recorded (keyId : Key → List UInt8) : Guard Site SiteStep
  | s, .store leaf ariId => ariId = certMetaAriId keyId leaf ∧ drawn s (.store leaf ariId)
  | s, x => drawn s x

variable {keyId : Key → List UInt8}

instance (s : Site) (x : SiteStep) : Decidable (recorded keyId s x) :=
  match x with
  | .ca a => inferInstanceAs (Decidable (drawn s (.ca a)))
  | .store leaf ariId =>
      inferInstanceAs (Decidable (ariId = certMetaAriId keyId leaf ∧ drawn s (.store leaf ariId)))
  | .note serial now => inferInstanceAs (Decidable (drawn s (.note serial now)))
  | .accelerate issuerCn secs => inferInstanceAs (Decidable (drawn s (.accelerate issuerCn secs)))
  | .clear issuerCn => inferInstanceAs (Decidable (drawn s (.clear issuerCn)))

theorem drawn_of_recorded
    {s : Site}
    {x : SiteStep}
    (h : recorded keyId s x) :
    drawn s x := by
  cases x with
  | store leaf ariId => exact h.2
  | ca a => exact h
  | note serial now => exact h
  | accelerate issuerCn secs => exact h
  | clear issuerCn => exact h

/-- Every row stands under the identifier of its certificate. -/
theorem ariId_of_reachable
    {s : Site}
    (hs : site.Reachable (recorded keyId) s) :
    ∀ c ∈ s.certs, c.ariId = certMetaAriId keyId c.leaf := by
  refine Automaton.Reachable.invariant
    (I := fun s => ∀ c ∈ s.certs, c.ariId = certMetaAriId keyId c.leaf) ?_ ?_ hs
  · intro s hinit
    rw [hinit.2.1]
    simp
  · intro s x s' h hG hx
    change s.exec x = some s' at hx
    cases x with
    | ca a =>
        obtain ⟨w, _, rfl⟩ := Option.map_eq_some_iff.mp hx
        exact h
    | store leaf ariId =>
        simp only [Site.exec] at hx
        split at hx
        · rw [← Option.some.inj hx]
          intro c hc
          rcases List.mem_append.mp hc with hold | hnew
          · exact h c hold
          · rw [List.mem_singleton.mp hnew]
            exact hG.1
        · simp at hx
    | note serial now =>
        simp only [Site.exec] at hx
        split at hx
        · rw [← Option.some.inj hx]
          intro c hc
          obtain ⟨c₀, hc₀, ⟨_, rfl⟩ | ⟨_, rfl⟩⟩ := mem_updateWhere.mp hc
          · exact h c₀ hc₀
          · exact h c hc₀
        · simp at hx
    | accelerate issuerCn secs =>
        rw [← Option.some.inj hx]
        exact h
    | clear issuerCn =>
        rw [← Option.some.inj hx]
        exact h

theorem length_hexDigits (serial : List UInt8) :
    (hexDigits serial).length = 2 * serial.length := by
  induction serial with
  | nil => rfl
  | cons b bs ih =>
      simp only [hexDigits, List.length_cons, ih]
      omega

/-- No serial but the empty one is zero in the spelling of the store. -/
theorem number_ne_zero
    {serial : List UInt8}
    (hne : serial ≠ [])
    (h : normalizeSerial (hexEncode serial) = hexEncode serial) :
    serialNumber serial ≠ 0 := by
  intro hzero
  have htext : hexEncode serial = "0" := by
    rw [← h]
    refine (serialText_serialNumber hne).trans ?_
    rw [hzero]
    decide
  have hlen := congrArg (fun t : String => t.toList.length) htext
  simp only [hexEncode, String.toList_ofList, length_hexDigits] at hlen
  change 2 * serial.length = 1 at hlen
  omega

/-- Serials in the spelling of the store are told apart by their numbers. -/
theorem serialText_of_number
    {serial serial' : List UInt8}
    (h : normalizeSerial (hexEncode serial) = hexEncode serial)
    (h' : normalizeSerial (hexEncode serial') = hexEncode serial')
    (hnumber : serialNumber serial = serialNumber serial') :
    serialText serial = serialText serial' := by
  by_cases hne : serial = []
  · by_cases hne' : serial' = []
    · rw [hne, hne']
    · rw [hne] at hnumber
      exact absurd hnumber.symm (number_ne_zero hne' h')
  · by_cases hne' : serial' = []
    · rw [hne'] at hnumber
      exact absurd hnumber (number_ne_zero hne h)
    · rw [serialText_serialNumber hne, serialText_serialNumber hne', hnumber]

/-- **Renewal identifiers.**  `derIntBytes` gives the DER contents of every number that is
not negative, and no shorter bytes denote it; the identifier names the key and the serial;
and the frontend answers only about the certificate the identifier was computed from: the
recorded certificate has that key and serial, and is that very certificate where the CA
has it on record. -/
theorem renewal_ids (keyId : Key → List UInt8) :
    (∀ n : Nat, DerNat n (derIntBytes n) ∧
        ∀ b, b ≠ [] → twosComplement b = n → (derIntBytes n).length ≤ b.length) ∧
      (∀ (key key' : List UInt8) (m n : Int), 0 ≤ m → 0 ≤ n → ∀ id,
        ariId key m = some id → ariId key' n = some id → key = key' ∧ m = n) ∧
      ∀ s, site.Reachable (recorded keyId) s → ∀ x id,
        ariId (keyId x.aki) (serialNumber x.serial) = some id → ∀ now w,
          s.renewalInfo id now = some w → ∃ c ∈ s.certs, s.certByAri id = some c ∧
            w = s.suggestedWindow c now ∧ keyId c.leaf.aki = keyId x.aki ∧
            serialNumber c.leaf.serial = serialNumber x.serial ∧
            ((∃ row ∈ s.ca.shared.db.certIndex, row.isLeaf = true ∧ row.fingerprint = x) →
              c.leaf = x) := by
  refine ⟨fun n => ⟨derIntBytes_der n, fun b => (derIntBytes_der n).length_le⟩, ?_, ?_⟩
  · intro key key' m n hm hn id
    exact ariId_inj hm hn
  · intro s hs x id hid now w hw
    have hagreed := agreed_of_reachable (hs.mono fun _ _ => drawn_of_recorded)
    have hleaves := leaves_of_reachable hagreed.ca
    unfold Site.renewalInfo at hw
    cases hfind : s.certByAri id with
    | none => simp [hfind] at hw
    | some c =>
        simp only [hfind] at hw
        split_ifs at hw with hempty
        have hc : c ∈ s.certs := List.mem_of_find?_eq_some hfind
        have hrow : c.ariId = id := by simpa using List.find?_some hfind
        have hown : ariId (keyId c.leaf.aki) (serialNumber c.leaf.serial) = some id := by
          have htext := ariId_of_reachable hs c hc
          rw [hrow, certMetaAriId] at htext
          cases hown : ariId (keyId c.leaf.aki) (serialNumber c.leaf.serial) with
          | none =>
              rw [hown] at htext
              exact absurd (hrow.trans htext) hempty
          | some id' =>
              rw [hown] at htext
              exact congrArg some htext.symm
        obtain ⟨hkey, hserial⟩ := ariId_inj (by omega) (by omega) hown hid
        refine ⟨c, hc, rfl, (Option.some.inj hw).symm, hkey, by omega, ?_⟩
        rintro ⟨row, hmem, hleaf, rfl⟩
        obtain ⟨_, _, _, row', hmem', hleaf', hfp', _⟩ := hagreed.entries c hc
        have hspelled : ∀ r ∈ s.ca.shared.db.certIndex, r.isLeaf = true →
            normalizeSerial (hexEncode r.fingerprint.serial) = hexEncode r.fingerprint.serial := by
          intro r hr hrleaf
          rw [← (hleaves.indexed.faithful r hr).serial]
          exact hleaves.spelled r hr hrleaf
        have htexts : serialText row'.fingerprint.serial = serialText row.fingerprint.serial := by
          refine serialText_of_number (hspelled row' hmem' hleaf') (hspelled row hmem hleaf) ?_
          rw [hfp']
          omega
        rw [← hfp', leaf_of_serialText hleaves hmem' hleaf' hmem hleaf htexts]

/-- Key identifiers of one byte. -/
def sampleKeyId (key : Key) : List UInt8 :=
  [UInt8.ofNat key]

/-- The frontend has a leaf signed and answers about it. -/
theorem renewal_ids_sample :
    ∃ (s : Site) (w : Window) (c : CertEntry),
      s.renewalInfo "Ag.UBU" 5000000000000 = some w ∧ s.certByAri "Ag.UBU" = some c ∧
      c.leaf = ninetyDays := by
  have h :
      (site.follow (recorded sampleKeyId) siteStart
        ((orderOf none ninetyDays).dropLast ++ [.store ninetyDays "Ag.UBU"])).any (fun s =>
          (s.renewalInfo "Ag.UBU" 5000000000000).isSome &&
            s.ca.shared.db.certIndex.contains (indexRow ninetyDays (.ee .server) "tls")) = true := by
    decide
  obtain ⟨s, hrun, hcheck⟩ := Automaton.Run.exists_of_follow h
  have hs := Automaton.Reachable.of_run siteStart_init hrun
  rw [Bool.and_eq_true, List.contains_iff_mem] at hcheck
  obtain ⟨w, hw⟩ := Option.isSome_iff_exists.mp hcheck.1
  obtain ⟨c, _, hfind, _, _, _, hsame⟩ :=
    (renewal_ids sampleKeyId).2.2 s hs ninetyDays "Ag.UBU" (by decide) 5000000000000 w hw
  exact ⟨s, w, c, hw, hfind, hsame ⟨_, hcheck.2, rfl, rfl⟩⟩

end Answers

end Bridge
end Yca
