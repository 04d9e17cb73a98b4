import Mathlib.Data.List.Basic
import Mathlib.Data.List.TakeWhile

/-!
# Separated labels

A name is a list of labels between separators.  `Label` says what one label may
be: not empty, bounded, no edge character at its ends and nothing but letters
and edge characters.  `scan` checks all of it in one pass, with a counter and
the character before; `scan_iff` is that it decides the same as looking at each
label.
-/

namespace Yca
namespace Core

section Split

variable {α : Type*} [DecidableEq α] {sep : α}

/-- What stands before the first separator goes to the first label. -/
theorem splitOn_append_of_not_mem
    {p : List α}
    (hp : sep ∉ p)
    (s : List α) :
    (p ++ s).splitOn sep = (s.splitOn sep).modifyHead (p ++ ·) := by
  induction p with
  | nil =>
      rw [List.nil_append]
      cases s.splitOn sep <;> rfl
  | cons a p ih =>
      have ha : a ≠ sep := fun heq => hp (by simp [heq])
      have hp' : sep ∉ p := fun hmem => hp (List.mem_cons_of_mem a hmem)
      rw [List.cons_append, List.splitOn_cons_eq_if_modifyHead, if_neg (by simpa using ha), ih hp']
      cases s.splitOn sep <;> rfl

/-- What follows the last separator. -/
def lastLabel (sep : α) (s : List α) : List α :=
  (s.reverse.takeWhile fun c => c != sep).reverse

/-- The last label is what follows the last separator. -/
theorem getLast?_splitOn (s : List α) :
    (s.splitOn sep).getLast? = some (lastLabel sep s) := by
  rw [lastLabel]
  by_cases hmem : sep ∈ s
  · have hne : s.reverse.dropWhile (fun c => c != sep) ≠ [] := by
      intro hnil
      have hall := List.dropWhile_eq_nil_iff.mp hnil sep (List.mem_reverse.mpr hmem)
      simp at hall
    rcases List.exists_cons_of_ne_nil hne with ⟨d, rest, hdrop⟩
    have hd : d = sep := by
      have hhead := List.head?_dropWhile_not (fun c => c != sep) s.reverse
      rw [hdrop] at hhead
      simpa using hhead
    have hsplit : s = rest.reverse ++ sep :: (s.reverse.takeWhile fun c => c != sep).reverse := by
      have hwhole := List.takeWhile_append_dropWhile (p := fun c => c != sep) (l := s.reverse)
      rw [hdrop, hd] at hwhole
      have hrev := congrArg List.reverse hwhole
      rw [List.reverse_reverse] at hrev
      simpa using hrev.symm
    have hlast : sep ∉ (s.reverse.takeWhile fun c => c != sep).reverse := by
      intro hin
      have hkept := List.mem_takeWhile_imp (List.mem_reverse.mp hin)
      simp at hkept
    rw [hsplit, List.splitOn_append_cons_self, List.splitOn_eq_singleton hlast, ← hsplit]
    simp
  · have hall : s.reverse.takeWhile (fun c => c != sep) = s.reverse := by
      rw [List.takeWhile_eq_self_iff]
      intro c hc
      have hne : c ≠ sep := by
        rintro rfl
        exact hmem (List.mem_reverse.mp hc)
      simpa using hne
    rw [List.splitOn_eq_singleton hmem, hall]
    simp

/-- Every character but a separator stands in a label. -/
theorem mem_splitOn_of_mem
    {s : List α}
    {c : α}
    (hc : c ∈ s) :
    c = sep ∨ ∃ l ∈ s.splitOn sep, c ∈ l := by
  induction s with
  | nil => simp at hc
  | cons a s ih =>
      rw [List.splitOn_cons_eq_if_modifyHead]
      by_cases ha : a = sep
      · rcases List.mem_cons.mp hc with rfl | hc
        · exact Or.inl ha
        · rw [if_pos (by simpa using ha)]
          rcases ih hc with hsep | ⟨l, hl, hcl⟩
          · exact Or.inl hsep
          · exact Or.inr ⟨l, List.mem_cons_of_mem _ hl, hcl⟩
      · rw [if_neg (by simpa using ha)]
        rcases List.exists_cons_of_ne_nil (List.splitOn_ne_nil sep s) with ⟨l₀, ls, hls⟩
        rw [hls] at ih ⊢
        rw [List.modifyHead_cons]
        rcases List.mem_cons.mp hc with rfl | hc
        · exact Or.inr ⟨c :: l₀, by simp, by simp⟩
        · rcases ih hc with hsep | ⟨l, hl, hcl⟩
          · exact Or.inl hsep
          · rcases List.mem_cons.mp hl with rfl | hl
            · exact Or.inr ⟨a :: l, by simp, List.mem_cons_of_mem a hcl⟩
            · exact Or.inr ⟨l, List.mem_cons_of_mem _ hl, hcl⟩

/-- Every character of a label stands in the name. -/
theorem mem_of_mem_splitOn
    {s l : List α}
    (hl : l ∈ s.splitOn sep)
    {c : α}
    (hc : c ∈ l) :
    c ∈ s := by
  induction s generalizing l with
  | nil =>
      rw [List.splitOn_nil, List.mem_singleton] at hl
      simp [hl] at hc
  | cons a s ih =>
      rw [List.splitOn_cons_eq_if_modifyHead] at hl
      split at hl
      · rcases List.mem_cons.mp hl with rfl | hl
        · simp at hc
        · exact List.mem_cons_of_mem a (ih hl hc)
      · rcases List.exists_cons_of_ne_nil (List.splitOn_ne_nil sep s) with ⟨l₀, ls, hls⟩
        rw [hls] at ih hl
        rw [List.modifyHead_cons] at hl
        rcases List.mem_cons.mp hl with rfl | hl
        · rcases List.mem_cons.mp hc with rfl | hc
          · exact List.mem_cons_self
          · exact List.mem_cons_of_mem a (ih List.mem_cons_self hc)
        · exact List.mem_cons_of_mem a (ih (List.mem_cons_of_mem l₀ hl) hc)

/-- No separator stands in a label. -/
theorem not_mem_of_mem_splitOn
    {s l : List α}
    (hl : l ∈ s.splitOn sep) :
    sep ∉ l := by
  induction s generalizing l with
  | nil =>
      rw [List.splitOn_nil, List.mem_singleton] at hl
      simp [hl]
  | cons a s ih =>
      rw [List.splitOn_cons_eq_if_modifyHead] at hl
      split at hl
      · rcases List.mem_cons.mp hl with rfl | hl
        · simp
        · exact ih hl
      · rename_i ha
        rcases List.exists_cons_of_ne_nil (List.splitOn_ne_nil sep s) with ⟨l₀, ls, hls⟩
        rw [hls] at ih hl
        rw [List.modifyHead_cons] at hl
        rcases List.mem_cons.mp hl with rfl | hl
        · intro hmem
          rcases List.mem_cons.mp hmem with rfl | hmem
          · simp at ha
          · exact ih List.mem_cons_self hmem
        · exact ih (List.mem_cons_of_mem l₀ hl)

/-- A renaming of characters that keeps the separator apart keeps the labels. -/
theorem splitOn_map
    {β : Type*}
    [DecidableEq β]
    {f : α → β}
    {s : List α}
    (hf : ∀ c ∈ s, f c = f sep → c = sep) :
    (s.map f).splitOn (f sep) = (s.splitOn sep).map fun l => l.map f := by
  induction s with
  | nil => simp [List.splitOn_nil]
  | cons a s ih =>
      have ih := ih fun c hc => hf c (List.mem_cons_of_mem a hc)
      rw [List.map_cons, List.splitOn_cons_eq_if_modifyHead, List.splitOn_cons_eq_if_modifyHead,
        ih]
      by_cases ha : a = sep
      · simp [ha]
      · have hfa : f a ≠ f sep := fun heq => ha (hf a List.mem_cons_self heq)
        rw [if_neg (by simpa using hfa), if_neg (by simpa using ha)]
        cases s.splitOn sep <;> rfl

/-- A renaming of characters that keeps those of a prefix apart keeps the prefix. -/
theorem isPrefixOf_map
    {β : Type*}
    [DecidableEq β]
    {f : α → β}
    {p s : List α}
    (hf : ∀ a ∈ p, ∀ c ∈ s, f a = f c → a = c) :
    (p.map f).isPrefixOf (s.map f) = p.isPrefixOf s := by
  induction p generalizing s with
  | nil => rfl
  | cons a p ih =>
      cases s with
      | nil => rfl
      | cons c s =>
          have hrest := ih fun b hb d hd =>
            hf b (List.mem_cons_of_mem a hb) d (List.mem_cons_of_mem c hd)
          have hhead : f a = f c ↔ a = c :=
            ⟨hf a List.mem_cons_self c List.mem_cons_self, congrArg f⟩
          simp only [List.map_cons, List.isPrefixOf, hrest]
          rw [Bool.eq_iff_iff]
          simp only [Bool.and_eq_true, beq_iff_eq, hhead]

omit [DecidableEq α] in
/-- Nothing is left between the two ends when every character may go. -/
theorem dropWhile_ends_eq_nil_iff (cut : α → Bool) (s : List α) :
    ((s.dropWhile cut).reverse.dropWhile cut).reverse = [] ↔ ∀ c ∈ s, cut c = true := by
  rw [List.reverse_eq_nil_iff, List.dropWhile_eq_nil_iff]
  constructor
  · intro h c hc
    rw [← List.takeWhile_append_dropWhile (p := cut) (l := s)] at hc
    rcases List.mem_append.mp hc with htake | hdrop
    · exact List.mem_takeWhile_imp htake
    · exact h c (List.mem_reverse.mpr hdrop)
  · intro h c hc
    exact h c ((List.dropWhile_subset cut) (List.mem_reverse.mp hc))

theorem takeWhile_of_not_mem
    {p : List α}
    (hp : sep ∉ p) :
    (p.takeWhile fun c => c != sep) = p := by
  rw [List.takeWhile_eq_self_iff]
  intro c hc
  have hne : c ≠ sep := fun heq => hp (heq ▸ hc)
  simpa using hne

theorem takeWhile_before
    {p : List α}
    (hp : sep ∉ p)
    (rest : List α) :
    ((p ++ sep :: rest).takeWhile fun c => c != sep) = p := by
  have hall : ∀ c ∈ p, (c != sep) = true := List.takeWhile_eq_self_iff.mp (takeWhile_of_not_mem hp)
  rw [List.takeWhile_append_of_pos hall]
  simp

/-- What stands before the first separator is one text only. -/
theorem append_sep_inj
    {p p' rest rest' : List α}
    (hp : sep ∉ p)
    (hp' : sep ∉ p')
    (heq : p ++ sep :: rest = p' ++ sep :: rest') :
    p = p' ∧ rest = rest' := by
  have hfirst := takeWhile_before hp rest
  rw [heq, takeWhile_before hp' rest'] at hfirst
  subst hfirst
  exact ⟨rfl, (List.cons.inj (List.append_cancel_left heq)).2⟩

end Split

section First

/-- The first element without a property that all before it have. -/
theorem exists_first
    {α : Type*}
    {p : α → Prop}
    {l : List α}
    (h : ∃ a ∈ l, ¬ p a) :
    ∃ before a after, l = before ++ a :: after ∧ (∀ b ∈ before, p b) ∧ ¬ p a := by
  induction l with
  | nil => simp at h
  | cons b rest ih =>
      by_cases hb : p b
      · obtain ⟨a, ha, hnot⟩ := h
        have hrest : a ∈ rest := by
          rcases List.mem_cons.mp ha with rfl | ha
          · exact absurd hb hnot
          · exact ha
        obtain ⟨before, a', after, rfl, hall, hnot'⟩ := ih ⟨a, hrest, hnot⟩
        exact ⟨b :: before, a', after, rfl, List.forall_mem_cons.mpr ⟨hb, hall⟩, hnot'⟩
      · exact ⟨[], b, rest, rfl, by simp, hb⟩

end First

section Scan

variable {α : Type*}

/-- A label: letters and edge characters, no edge character at either end. -/
structure Label (edge : α) (letter : α → Bool) (bound : Nat) (l : List α) : Prop where
  ne_nil : l ≠ []
  length_le : l.length ≤ bound
  head : l.head? ≠ some edge
  last : l.getLast? ≠ some edge
  chars : ∀ c ∈ l, letter c = true ∨ c = edge

variable {sep edge : α} {letter : α → Bool} {bound : Nat}

/-- The label the pass is in, as far as it has come. -/
structure Begun (sep edge : α) (letter : α → Bool) (bound : Nat) (p : List α)
    (prev : Option α) : Prop where
  not_sep : sep ∉ p
  length_le : p.length ≤ bound
  head : p.head? ≠ some edge
  chars : ∀ c ∈ p, letter c = true ∨ c = edge
  prev_eq : p ≠ [] → prev = p.getLast?

theorem Begun.nil (prev : Option α) : Begun sep edge letter bound [] prev where
  not_sep := by simp
  length_le := by simp
  head := by simp
  chars := by simp
  prev_eq := fun h => absurd rfl h

/-- The label at hand is complete when it may end here. -/
theorem Begun.label_iff
    {p : List α}
    {prev : Option α}
    (h : Begun sep edge letter bound p prev) :
    Label edge letter bound p ↔ 0 < p.length ∧ prev ≠ some edge := by
  constructor
  · intro hl
    refine ⟨List.length_pos_iff.mpr hl.ne_nil, ?_⟩
    rw [h.prev_eq hl.ne_nil]
    exact hl.last
  · rintro ⟨hlen, hprev⟩
    have hne : p ≠ [] := List.length_pos_iff.mp hlen
    exact ⟨hne, h.length_le, h.head, h.prev_eq hne ▸ hprev, h.chars⟩

/-- The label at hand with one more character of a label. -/
theorem Begun.push
    {p : List α}
    {prev : Option α}
    (h : Begun sep edge letter bound p prev)
    {c : α}
    (hsep : c ≠ sep)
    (hchar : letter c = true ∨ c = edge)
    (hedge : c = edge → p ≠ [])
    (hlen : p.length + 1 ≤ bound) :
    Begun sep edge letter bound (p ++ [c]) (some c) where
  not_sep := by
    intro hmem
    rcases List.mem_append.mp hmem with hp | hc
    · exact h.not_sep hp
    · exact hsep (List.mem_singleton.mp hc).symm
  length_le := by simpa using hlen
  head := by
    cases p with
    | nil =>
        intro hhead
        exact hedge (by simpa using hhead) rfl
    | cons a p => simpa using h.head
  chars := by
    intro d hd
    rcases List.mem_append.mp hd with hp | hc
    · exact h.chars d hp
    · rw [List.mem_singleton.mp hc]
      exact hchar
  prev_eq := by simp

variable [DecidableEq α]

/-- A character that cannot continue the label at hand: no label there. -/
theorem Begun.stuck
    {p : List α}
    {prev : Option α}
    (h : Begun sep edge letter bound p prev)
    {c : α}
    {cs : List α}
    (hsep : c ≠ sep)
    (hbad : ¬ (letter c = true ∨ c = edge) ∨ c = edge ∧ p = [] ∨ bound < p.length + 1) :
    ¬ ∀ l ∈ (p ++ c :: cs).splitOn sep, Label edge letter bound l := by
  intro hall
  rw [splitOn_append_of_not_mem h.not_sep, List.splitOn_cons_eq_if_modifyHead,
    if_neg (by simpa using hsep)] at hall
  rcases List.exists_cons_of_ne_nil (List.splitOn_ne_nil sep cs) with ⟨l₀, ls, hls⟩
  rw [hls, List.modifyHead_cons, List.modifyHead_cons] at hall
  have hlabel := hall _ List.mem_cons_self
  rcases hbad with hchar | ⟨rfl, rfl⟩ | hlong
  · exact hchar (hlabel.chars c (by simp))
  · exact hlabel.head rfl
  · have hle := hlabel.length_le
    simp only [List.length_append, List.length_cons] at hle
    omega

/-- One pass over a name: the length of the label at hand and the character
before. -/
def scan (sep edge : α) (letter : α → Bool) (bound : Nat) : Nat → Option α → List α → Bool
  | label, prev, [] => decide (label > 0) && prev != some edge
  | label, prev, c :: cs =>
      if c = sep then
        if label == 0 || prev == some edge then false
        else scan sep edge letter bound 0 (some c) cs
      else if !letter c && c != edge then false
      else if c == edge && label == 0 then false
      else if label + 1 > bound then false
      else scan sep edge letter bound (label + 1) (some c) cs

/-- The pass from the middle of a label: it accepts when that label, continued,
and all the others are labels.  Induction on what is left to read. -/
theorem scan_of_begun
    (s : List α)
    {p : List α}
    {prev : Option α}
    (h : Begun sep edge letter bound p prev) :
    scan sep edge letter bound p.length prev s = true ↔
      ∀ l ∈ (p ++ s).splitOn sep, Label edge letter bound l := by
  induction s generalizing p prev with
  | nil =>
      rw [List.append_nil, List.splitOn_eq_singleton h.not_sep]
      simp only [scan, List.mem_singleton, forall_eq, h.label_iff, Bool.and_eq_true,
        decide_eq_true_eq, bne_iff_ne, ne_eq]
  | cons c cs ih =>
      rw [scan]
      by_cases hsep : c = sep
      · subst hsep
        rw [if_pos rfl, List.splitOn_append_cons_self, List.splitOn_eq_singleton h.not_sep]
        simp only [List.cons_append, List.nil_append, List.forall_mem_cons, h.label_iff]
        have hbegun : Begun c edge letter bound [] (some c) := Begun.nil (some c)
        have hrest := ih hbegun
        rw [List.nil_append] at hrest
        rw [← hrest, List.length_nil]
        by_cases hend : p.length = 0 ∨ prev = some edge
        · rw [if_pos (by simpa using hend)]
          rcases hend with hlen | hprev
          · simp [hlen]
          · simp [hprev]
        · rw [if_neg (by simpa using hend)]
          rw [not_or] at hend
          simp [Nat.pos_of_ne_zero hend.1, hend.2]
      · rw [if_neg hsep]
        by_cases hchar : letter c = true ∨ c = edge
        · rw [if_neg (by simpa [or_iff_not_imp_left] using hchar)]
          by_cases hedge : c = edge ∧ p = []
          · rw [if_pos (by simpa using hedge)]
            simpa using h.stuck hsep (Or.inr (Or.inl hedge))
          · rw [if_neg (by simpa using hedge)]
            by_cases hlen : bound < p.length + 1
            · rw [if_pos hlen]
              simpa using h.stuck hsep (Or.inr (Or.inr hlen))
            · rw [if_neg hlen]
              have hnext := h.push hsep hchar (fun hc hp => hedge ⟨hc, hp⟩)
                (Nat.not_lt.mp hlen)
              have hstep := ih hnext
              rw [List.length_append, List.length_singleton, List.append_assoc,
                List.singleton_append] at hstep
              exact hstep
        · rw [if_pos (by simpa using hchar)]
          simpa using h.stuck hsep (Or.inl hchar)

/-- The pass over a whole name decides whether all of its labels are labels. -/
theorem scan_iff (s : List α) (prev : Option α) :
    scan sep edge letter bound 0 prev s = true ↔
      ∀ l ∈ s.splitOn sep, Label edge letter bound l :=
  scan_of_begun s (Begun.nil prev)

end Scan

section HostName

variable {α β : Type*} [DecidableEq α] [DecidableEq β]

/-- A host name: labels, a bound on the whole, and a last label with a character
that is no digit. -/
structure HostName (sep edge : α) (letter digit : α → Bool) (bound total : Nat)
    (s : List α) : Prop where
  length_le : s.length ≤ total
  labels : ∀ l ∈ s.splitOn sep, Label edge letter bound l
  last : ∃ c ∈ lastLabel sep s, digit c = false

variable {sep edge : α} {letter digit : α → Bool} {bound total : Nat} {s : List α}

/-- The characters of a host name. -/
theorem HostName.chars
    (h : HostName sep edge letter digit bound total s)
    {c : α}
    (hc : c ∈ s) :
    letter c = true ∨ c = edge ∨ c = sep := by
  have hin : c = sep ∨ ∃ l ∈ s.splitOn sep, c ∈ l := mem_splitOn_of_mem hc
  rcases hin with hsep | ⟨l, hl, hcl⟩
  · exact Or.inr (Or.inr hsep)
  · exact ((h.labels l hl).chars c hcl).imp_right Or.inl

theorem HostName.ne_nil (h : HostName sep edge letter digit bound total s) : s ≠ [] := by
  rintro rfl
  rcases h.last with ⟨c, hc, _⟩
  simp [lastLabel] at hc

/-- More letters, more host names. -/
theorem HostName.mono
    {letter' : α → Bool}
    (h : HostName sep edge letter digit bound total s)
    (hletter : ∀ c ∈ s, letter c = true → letter' c = true) :
    HostName sep edge letter' digit bound total s where
  length_le := h.length_le
  labels l hl :=
    have hlabel := h.labels l hl
    { ne_nil := hlabel.ne_nil
      length_le := hlabel.length_le
      head := hlabel.head
      last := hlabel.last
      chars := fun c hc => (hlabel.chars c hc).imp_left
        (hletter c (mem_of_mem_splitOn hl hc)) }
  last := h.last

variable {sep' edge' : β} {letter' digit' : β → Bool} {f : α → β}

omit [DecidableEq α] [DecidableEq β] in
/-- A label keeps being one under a renaming that keeps letters and edges. -/
theorem label_map
    {l : List α}
    (hletter : ∀ c ∈ l, letter' (f c) = letter c)
    (hedge : ∀ c ∈ l, f c = edge' ↔ c = edge) :
    Label edge' letter' bound (l.map f) ↔ Label edge letter bound l := by
  have hend : ∀ o : Option α, (∀ c, o = some c → c ∈ l) →
      (o.map f = some edge' ↔ o = some edge) := by
    intro o ho
    cases o with
    | none => simp
    | some c => simpa using hedge c (ho c rfl)
  have hhead := hend l.head? fun c hc => List.mem_of_head? hc
  have hlast := hend l.getLast? fun c hc => List.mem_of_getLast? hc
  have hchars : (∀ d ∈ l.map f, letter' d = true ∨ d = edge') ↔
      ∀ c ∈ l, letter c = true ∨ c = edge := by
    rw [List.forall_mem_map]
    refine forall₂_congr fun c hc => ?_
    rw [hletter c hc, hedge c hc]
  constructor
  · intro h
    refine ⟨?_, ?_, ?_, ?_, hchars.mp h.chars⟩
    · simpa using h.ne_nil
    · simpa using h.length_le
    · rw [Ne, ← hhead, ← List.head?_map]
      exact h.head
    · rw [Ne, ← hlast, ← List.getLast?_map]
      exact h.last
  · intro h
    refine ⟨?_, ?_, ?_, ?_, hchars.mpr h.chars⟩
    · simpa using h.ne_nil
    · simpa using h.length_le
    · rw [Ne, List.head?_map, hhead]
      exact h.head
    · rw [Ne, List.getLast?_map, hlast]
      exact h.last

/-- A host name keeps being one under a renaming of its characters that keeps
separators, edges, letters and digits. -/
theorem hostName_map
    (hsep' : f sep = sep')
    (hsep : ∀ c ∈ s, f c = sep' → c = sep)
    (hedge : ∀ c ∈ s, f c = edge' ↔ c = edge)
    (hletter : ∀ c ∈ s, letter' (f c) = letter c)
    (hdigit : ∀ c ∈ s, digit' (f c) = digit c) :
    HostName sep' edge' letter' digit' bound total (s.map f) ↔
      HostName sep edge letter digit bound total s := by
  subst hsep'
  have hsplit := splitOn_map hsep
  have hlast : lastLabel (f sep) (s.map f) = (lastLabel sep s).map f := by
    have hget := congrArg List.getLast? hsplit
    rw [List.getLast?_map, getLast?_splitOn, getLast?_splitOn] at hget
    exact Option.some.inj hget
  have hmem : ∀ c ∈ lastLabel sep s, c ∈ s := fun c hc =>
    List.mem_reverse.mp ((List.takeWhile_subset _) (List.mem_reverse.mp hc))
  have hlabels : (∀ l ∈ (s.map f).splitOn (f sep), Label edge' letter' bound l) ↔
      ∀ l ∈ s.splitOn sep, Label edge letter bound l := by
    rw [hsplit, List.forall_mem_map]
    refine forall₂_congr fun l hl => label_map ?_ ?_
    · exact fun c hc => hletter c (mem_of_mem_splitOn hl hc)
    · exact fun c hc => hedge c (mem_of_mem_splitOn hl hc)
  have hdigits : (∃ d ∈ lastLabel (f sep) (s.map f), digit' d = false) ↔
      ∃ c ∈ lastLabel sep s, digit c = false := by
    rw [hlast]
    simp only [List.mem_map, exists_exists_and_eq_and]
    refine exists_congr fun c => and_congr_right fun hc => ?_
    rw [hdigit c (hmem c hc)]
  constructor
  · intro h
    exact ⟨by simpa using h.length_le, hlabels.mp h.labels, hdigits.mp h.last⟩
  · intro h
    exact ⟨by simpa using h.length_le, hlabels.mpr h.labels, hdigits.mpr h.last⟩

end HostName

end Core
end Yca
