import Mathlib.Data.List.Basic
import Mathlib.Data.List.Induction
import Mathlib.Tactic.Common

/-!
# Paths below a directory

A path is read component by component: an empty component and `.` stay where they
are, `..` goes up, anything else goes down.  A leading separator starts at the root.

A text without a separator is one component.  Unless it is a dot component it names a
direct child of the directory, and only such a text does.
-/

namespace Yca
namespace Core

/-- One component of a path. -/
abbrev Name :=
  List Char

/-- The components of a path, empty ones included. -/
def components (text : List Char) : List Name :=
  text.splitOn '/'

def isAbsolute (text : List Char) : Bool :=
  text.head? == some '/'

/-- One step down a path. -/
def enter (place : List Name) (n : Name) : List Name :=
  if n = [] ∨ n = ['.'] then place
  else if n = ['.', '.'] then place.dropLast
  else place ++ [n]

def descend (place : List Name) (names : List Name) : List Name :=
  names.foldl enter place

/-- The place a path leads to, from a directory given by its place. -/
def resolve (dir : List Name) (text : List Char) : List Name :=
  descend (if isAbsolute text then [] else dir) (components text)

/-- What follows the last separator. -/
def baseName : List Char → List Char
  | [] => []
  | c :: cs => if '/' ∈ c :: cs then baseName cs else c :: cs

/-- The text up to and with the last separator. -/
def parent : List Char → List Char
  | [] => []
  | c :: cs => if '/' ∈ c :: cs then c :: parent cs else []

/-- A component that goes down. -/
structure PlainName (n : Name) : Prop where
  nonempty : n ≠ []
  notDot : n ≠ ['.']
  notDots : n ≠ ['.', '.']

theorem PlainName.of_length {n : Name} (h : 2 < n.length) : PlainName n := by
  constructor
  case nonempty =>
    rintro rfl
    simp at h
  case notDot =>
    rintro rfl
    simp at h
  case notDots =>
    rintro rfl
    simp at h

/-- A path of one component, which leads to a file of the directory itself. -/
structure DirectChild (dir : List Name) (text : List Char) : Prop where
  relative : isAbsolute text = false
  single : (components text).length = 1
  inside : resolve dir text = dir ++ [text]

section Components

variable {text : List Char}

theorem components_of_flat (h : '/' ∉ text) : components text = [text] :=
  List.splitOn_eq_singleton h

theorem isAbsolute_of_flat (h : '/' ∉ text) : isAbsolute text = false := by
  cases text with
  | nil => rfl
  | cons c cs =>
      have hc : c ≠ '/' := fun hc => h (hc ▸ List.mem_cons_self)
      simpa [isAbsolute] using hc

theorem components_cons (c : Char) (cs : List Char) :
    components (c :: cs) =
      if c = '/' then [] :: components cs else (components cs).modifyHead (List.cons c) := by
  simp only [components, List.splitOn_cons_eq_if_modifyHead, beq_iff_eq]

theorem components_ne_nil (text : List Char) : components text ≠ [] :=
  List.splitOn_ne_nil '/' text

theorem one_le_length_components (text : List Char) : 1 ≤ (components text).length :=
  List.length_pos_of_ne_nil (components_ne_nil text)

/-- A path of one component has no separator. -/
theorem flat_of_single (h : (components text).length = 1) : '/' ∉ text := by
  induction text with
  | nil => simp
  | cons c cs ih =>
      rw [components_cons] at h
      by_cases hc : c = '/'
      · have hlen := one_le_length_components cs
        simp only [hc, if_true, List.length_cons] at h
        omega
      · simp only [hc, if_false, List.length_modifyHead] at h
        intro hmem
        rcases List.mem_cons.mp hmem with hsep | hmem
        · exact hc hsep.symm
        · exact ih h hmem

end Components

section Steps

theorem enter_of_plain {place : List Name} {n : Name} (h : PlainName n) :
    enter place n = place ++ [n] := by
  simp [enter, h.nonempty, h.notDot, h.notDots]

@[simp] theorem enter_nil (place : List Name) : enter place [] = place := by
  simp [enter]

@[simp] theorem descend_singleton (place : List Name) (n : Name) : descend place [n] = enter place n :=
  rfl

theorem descend_append (place : List Name) (xs ys : List Name) :
    descend place (xs ++ ys) = descend (descend place xs) ys :=
  List.foldl_append

/-- A plain component leads to a child of the directory. -/
theorem resolve_of_flat
    {dir : List Name}
    {text : List Char}
    (hflat : '/' ∉ text)
    (hplain : PlainName text) :
    resolve dir text = dir ++ [text] := by
  simp [resolve, isAbsolute_of_flat hflat, components_of_flat hflat, enter_of_plain hplain]

theorem directChild_iff
    {text : List Char}
    (h : PlainName text)
    (dir : List Name) :
    DirectChild dir text ↔ '/' ∉ text := by
  constructor
  · intro hchild
    exact flat_of_single hchild.single
  · intro hflat
    constructor
    case relative => exact isAbsolute_of_flat hflat
    case single => rw [components_of_flat hflat, List.length_singleton]
    case inside => exact resolve_of_flat hflat h

end Steps

section Bases

variable {text : List Char}

theorem parent_append_baseName (text : List Char) : parent text ++ baseName text = text := by
  induction text with
  | nil => rfl
  | cons c cs ih =>
      unfold parent baseName
      split
      · rw [List.cons_append, ih]
      · rfl

theorem flat_baseName (text : List Char) : '/' ∉ baseName text := by
  induction text with
  | nil => simp [baseName]
  | cons c cs ih =>
      unfold baseName
      split
      · exact ih
      · assumption

theorem parent_of_flat (h : '/' ∉ text) : parent text = [] := by
  cases text with
  | nil => rfl
  | cons c cs => simp only [parent, h, if_false]

theorem baseName_of_flat (h : '/' ∉ text) : baseName text = text := by
  cases text with
  | nil => rfl
  | cons c cs => simp only [baseName, h, if_false]

/-- Where a change of letters keeps the separators, the last component changes alone. -/
theorem baseName_map
    {f : Char → Char}
    (hf : ∀ c, f c = '/' ↔ c = '/')
    (text : List Char) :
    baseName (text.map f) = (baseName text).map f := by
  have hmem (l : List Char) : '/' ∈ l.map f ↔ '/' ∈ l := by
    simp [List.mem_map, hf]
  induction text with
  | nil => rfl
  | cons c cs ih =>
      have hcons := hmem (c :: cs)
      rw [List.map_cons] at hcons
      by_cases h : '/' ∈ c :: cs
      · simp only [List.map_cons, baseName, hcons, h, if_true, ih]
      · simp only [List.map_cons, baseName, hcons, h, if_false]

/-- A directory part is empty or ends with a separator. -/
theorem parent_eq (text : List Char) : parent text = [] ∨ ∃ p, parent text = p ++ ['/'] := by
  induction text with
  | nil => exact Or.inl rfl
  | cons c cs ih =>
      by_cases h : '/' ∈ c :: cs
      · simp only [parent, h, if_true]
        rcases ih with hnil | ⟨p, hp⟩
        · have hflat : '/' ∉ cs := by
            intro hmem
            cases cs with
            | nil => simp at hmem
            | cons d ds => simp [parent, hmem] at hnil
          have hc : c = '/' := by simpa [hflat, eq_comm] using h
          exact Or.inr ⟨[], by rw [hnil, hc]; rfl⟩
        · exact Or.inr ⟨c :: p, by rw [hp]; rfl⟩
      · exact Or.inl (by simp only [parent, h, if_false])

/-- A plain last component leads to a child of where the components before it lead. -/
theorem resolve_parent_append
    {dir : List Name}
    {n : Name}
    (text : List Char)
    (hflat : '/' ∉ n)
    (hplain : PlainName n) :
    resolve dir (parent text ++ n) = resolve dir (parent text) ++ [n] := by
  rcases parent_eq text with hnil | ⟨p, hp⟩
  · rw [hnil, List.nil_append, resolve_of_flat hflat hplain]
    rfl
  · have hsplit : components (p ++ '/' :: n) = components p ++ components n :=
      List.splitOn_append_cons_self p n
    have hparent : components (p ++ ['/']) = components p ++ [[]] :=
      List.splitOn_append_cons_self p []
    have habsolute : isAbsolute (p ++ '/' :: n) = isAbsolute (p ++ ['/']) := by
      cases p <;> rfl
    rw [hp, List.append_assoc, List.singleton_append, resolve, resolve, hsplit, hparent, habsolute,
      components_of_flat hflat, descend_append, descend_append, descend_singleton, descend_singleton, enter_nil,
      enter_of_plain hplain]

end Bases

end Core
end Yca
