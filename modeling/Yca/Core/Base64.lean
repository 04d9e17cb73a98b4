import Mathlib.Data.List.Nodup

/-!
# Base64 without padding

The URL alphabet of base64 and the encoding of bytes in it, three bytes in four
characters and no padding behind a last group that is shorter.  Different bytes have
different texts.
-/

namespace Yca
namespace Core
namespace Base64

/-- The URL alphabet. -/
def alphabet : List Char :=
  "ABCDEFGHIJKLMNOPQRSTUVWXYZabcdefghijklmnopqrstuvwxyz0123456789-_".toList

/-- The character of six bits. -/
def symbol (n : Nat) : Char :=
  alphabet.getD n 'A'

/-- The text of some bytes. -/
def encode : List UInt8 → List Char
  | a :: b :: c :: rest =>
      symbol (a.toNat / 4) :: symbol (a.toNat % 4 * 16 + b.toNat / 16) ::
        symbol (b.toNat % 16 * 4 + c.toNat / 64) :: symbol (c.toNat % 64) :: encode rest
  | [a, b] =>
      [symbol (a.toNat / 4), symbol (a.toNat % 4 * 16 + b.toNat / 16), symbol (b.toNat % 16 * 4)]
  | [a] => [symbol (a.toNat / 4), symbol (a.toNat % 4 * 16)]
  | [] => []

example : encode [0x4D, 0x61, 0x6E, 0xFF] = "TWFu_w".toList := by decide

theorem length_alphabet : alphabet.length = 64 := by
  decide

theorem symbol_eq {n : Nat} (hn : n < alphabet.length) : symbol n = alphabet[n] := by
  rw [symbol, List.getD_eq_getElem?_getD, List.getElem?_eq_getElem hn, Option.getD_some]

theorem symbol_inj
    {m n : Nat}
    (hm : m < 64)
    (hn : n < 64)
    (h : symbol m = symbol n) :
    m = n := by
  have hnodup : alphabet.Nodup := by decide
  rw [← length_alphabet] at hm hn
  rw [symbol_eq hm, symbol_eq hn] at h
  exact hnodup.getElem_inj_iff.mp h

theorem symbol_mem {n : Nat} (hn : n < 64) : symbol n ∈ alphabet := by
  rw [← length_alphabet] at hn
  rw [symbol_eq hn]
  exact List.getElem_mem hn

/-- Every text is of the alphabet. -/
theorem mem_encode
    {s : List UInt8}
    {c : Char}
    (h : c ∈ encode s) :
    c ∈ alphabet := by
  induction s using encode.induct with
  | case1 a b d rest ih =>
      have ha := a.toNat_lt
      have hb := b.toNat_lt
      have hd := d.toNat_lt
      simp only [encode, List.mem_cons] at h
      rcases h with rfl | rfl | rfl | rfl | h
      · exact symbol_mem (by omega)
      · exact symbol_mem (by omega)
      · exact symbol_mem (by omega)
      · exact symbol_mem (by omega)
      · exact ih h
  | case2 a b =>
      have ha := a.toNat_lt
      have hb := b.toNat_lt
      simp only [encode, List.mem_cons, List.not_mem_nil, or_false] at h
      rcases h with rfl | rfl | rfl
      · exact symbol_mem (by omega)
      · exact symbol_mem (by omega)
      · exact symbol_mem (by omega)
  | case3 a =>
      have ha := a.toNat_lt
      simp only [encode, List.mem_cons, List.not_mem_nil, or_false] at h
      rcases h with rfl | rfl
      · exact symbol_mem (by omega)
      · exact symbol_mem (by omega)
  | case4 => simp [encode] at h

/-- The first byte of a group stands in its first two characters. -/
theorem first_byte
    {a a' : UInt8}
    {x x' : Nat}
    (hx : x < 16)
    (hx' : x' < 16)
    (hhigh : symbol (a.toNat / 4) = symbol (a'.toNat / 4))
    (hlow : symbol (a.toNat % 4 * 16 + x) = symbol (a'.toNat % 4 * 16 + x')) :
    a = a' ∧ x = x' := by
  have ha := a.toNat_lt
  have ha' := a'.toNat_lt
  have h₁ := symbol_inj (by omega) (by omega) hhigh
  have h₂ := symbol_inj (by omega) (by omega) hlow
  refine ⟨UInt8.toNat_inj.mp ?_, ?_⟩
  · omega
  · omega

/-- The second byte stands in the second and third. -/
theorem second_byte
    {b b' : UInt8}
    {x x' : Nat}
    (hx : x < 4)
    (hx' : x' < 4)
    (hhigh : b.toNat / 16 = b'.toNat / 16)
    (hlow : symbol (b.toNat % 16 * 4 + x) = symbol (b'.toNat % 16 * 4 + x')) :
    b = b' ∧ x = x' := by
  have h := symbol_inj (by omega) (by omega) hlow
  refine ⟨UInt8.toNat_inj.mp ?_, ?_⟩
  · omega
  · omega

/-- Different bytes have different texts. -/
theorem encode_injective : Function.Injective encode := by
  intro s t h
  induction s using encode.induct generalizing t with
  | case1 a b c rest ih =>
      have hb := b.toNat_lt
      have hc := c.toNat_lt
      rcases t with _ | ⟨a', _ | ⟨b', _ | ⟨c', rest'⟩⟩⟩
      · simp [encode] at h
      · simp [encode] at h
      · simp [encode] at h
      · have hb' := b'.toNat_lt
        have hc' := c'.toNat_lt
        simp only [encode, List.cons.injEq] at h
        obtain ⟨h₁, h₂, h₃, h₄, hrest⟩ := h
        obtain ⟨rfl, hmiddle⟩ := first_byte (by omega) (by omega) h₁ h₂
        obtain ⟨rfl, hlast⟩ := second_byte (by omega) (by omega) hmiddle h₃
        have hlow := symbol_inj (by omega) (by omega) h₄
        obtain rfl : c = c' := UInt8.toNat_inj.mp (by omega)
        rw [ih hrest]
  | case2 a b =>
      have hb := b.toNat_lt
      rcases t with _ | ⟨a', _ | ⟨b', _ | ⟨c', rest'⟩⟩⟩
      · simp [encode] at h
      · simp [encode] at h
      · have hb' := b'.toNat_lt
        simp only [encode, List.cons.injEq, and_true] at h
        obtain ⟨h₁, h₂, h₃⟩ := h
        obtain ⟨rfl, hmiddle⟩ := first_byte (by omega) (by omega) h₁ h₂
        obtain ⟨rfl, _⟩ := second_byte (show 0 < 4 by decide) (show 0 < 4 by decide) hmiddle h₃
        rfl
      · simp [encode] at h
  | case3 a =>
      rcases t with _ | ⟨a', _ | ⟨b', _ | ⟨c', rest'⟩⟩⟩
      · simp [encode] at h
      · simp only [encode, List.cons.injEq, and_true] at h
        obtain ⟨rfl, _⟩ := first_byte (show 0 < 16 by decide) (show 0 < 16 by decide) h.1 h.2
        rfl
      · simp [encode] at h
      · simp [encode] at h
  | case4 =>
      rcases t with _ | ⟨a', _ | ⟨b', _ | ⟨c', rest'⟩⟩⟩
      · rfl
      · simp [encode] at h
      · simp [encode] at h
      · simp [encode] at h

end Base64
end Core
end Yca
