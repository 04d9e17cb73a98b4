import Yca.Core.Labels
import Yca.Core.OrderedMap
import Mathlib.Algebra.Ring.Int.Defs
import Mathlib.Algebra.Ring.Nat

/-!
# TOML as a reader and a writer see it

What a parsed TOML document is, with the typed reads of a program on it, and
what a program writes when it prints one: a heading, sections under dotted
headers, and entries whose strings stand bare between double quotes.

`Document.table` is what such a text says when every string is `Plain`; the
headers are split at their dots and nest.  `readBasic` is what a string says that
ends a line, whatever is in it.  `Faithful` collects what a parser promises on
one printed document, so that a development can take the parser as a parameter.
-/

namespace Yca
namespace Core
namespace Toml

/-- A TOML value.  A float carries the integer it stands for exactly, if any;
`inline` tables are closed. -/
inductive Value
  | string (s : String)
  | integer (n : Int)
  | floating (whole : Option Int)
  | boolean (b : Bool)
  | dateTime
  | array (elems : List Value)
  | table (entries : List (String × Value)) (inline : Bool)

/-- The entries of a table, in key order. -/
abbrev Table : Type :=
  List (String × Value)

section Reads

/-- The value as a string. -/
def Value.asString : Value → Option String
  | .string s => some s
  | _ => none

/-- The value as an integer: integral floats and booleans convert. -/
def Value.asInteger : Value → Option Int
  | .integer n => some n
  | .floating whole => whole
  | .boolean b => some (if b then 1 else 0)
  | _ => none

/-- The value as a boolean: integers convert. -/
def Value.asBoolean : Value → Option Bool
  | .boolean b => some b
  | .integer n => some (n != 0)
  | _ => none

def Value.asArray : Value → Option (List Value)
  | .array elems => some elems
  | _ => none

def Value.asTable : Value → Option Table
  | .table entries _ => some entries
  | _ => none

/-- The value under a path of keys. -/
def at? : Table → List String → Option Value
  | _, [] => none
  | t, [k] => t.lookup k
  | t, k :: k' :: path =>
      match (t.lookup k).bind Value.asTable with
      | some sub => at? sub (k' :: path)
      | none => none

theorem at?_cons
    {t : Table}
    {k k' : String}
    {path : List String}
    {v : Value}
    (h : at? t (k :: k' :: path) = some v) :
    ∃ sub, (t.lookup k).bind Value.asTable = some sub ∧ at? sub (k' :: path) = some v := by
  rw [at?] at h
  split at h
  · rename_i sub hsub
    exact ⟨sub, hsub, h⟩
  · simp at h

end Reads

section Strings

/-- The control characters a string may not hold bare: all but the tab. -/
def isNontabControl (c : Char) : Bool :=
  decide (c.toNat ≤ 0x08) || (decide (0x0A ≤ c.toNat) && decide (c.toNat ≤ 0x1F)) ||
    c.toNat == 0x7F

/-- A character that stands for itself in a basic string. -/
def plainChar (c : Char) : Bool :=
  c != '"' && c != '\\' && !isNontabControl c

/-- A text that stands for itself between double quotes. -/
def Plain (s : String) : Prop :=
  s.toList.all plainChar = true

instance (s : String) : Decidable (Plain s) :=
  inferInstanceAs (Decidable (_ = _))

/-- The one-letter escapes. -/
def escape : Char → Option Char
  | 'b' => some '\x08'
  | 'f' => some '\x0C'
  | 'n' => some '\n'
  | 'r' => some '\r'
  | 't' => some '\t'
  | '"' => some '"'
  | '\\' => some '\\'
  | _ => none

/-- The value of a hexadecimal digit. -/
def hexValue (c : Char) : Option Nat :=
  if '0' ≤ c ∧ c ≤ '9' then some (c.toNat - 48)
  else if 'A' ≤ c ∧ c ≤ 'F' then some (c.toNat - 55)
  else if 'a' ≤ c ∧ c ≤ 'f' then some (c.toNat - 87)
  else none

/-- Where the reader of a basic string stands: between characters, behind a
backslash, or with some digits of a code point still to come. -/
inductive Mode
  | text
  | escaped
  | hex (left : Nat) (value : Nat)

/-- The value of a basic string, read from behind its opening quote; `none` when
it is ill-formed or not closed on its line. -/
def scanBasic : Mode → List Char → Option (List Char)
  | _, [] => none
  | .text, c :: cs =>
      if c = '"' then some []
      else if c = '\\' then scanBasic .escaped cs
      else if isNontabControl c then none
      else (scanBasic .text cs).map (c :: ·)
  | .escaped, c :: cs =>
      if c = 'u' then scanBasic (.hex 4 0) cs
      else if c = 'U' then scanBasic (.hex 8 0) cs
      else
        match escape c with
        | none => none
        | some d => (scanBasic .text cs).map (d :: ·)
  | .hex left value, c :: cs =>
      match hexValue c with
      | none => none
      | some d =>
          if left > 1 then scanBasic (.hex (left - 1) (value * 16 + d)) cs
          else if (value * 16 + d).isValidChar then
            (scanBasic .text cs).map (Char.ofNat (value * 16 + d) :: ·)
          else none

/-- What a parser reads of a text that was printed bare between double quotes at
the end of a line. -/
def readBasic (s : String) : Option String :=
  (scanBasic .text (s.toList ++ ['"', '\n'])).map String.ofList

/-- The printed text opens a multi-line string: three quotes in a row. -/
def OpensMultiline (s : String) : Prop :=
  ['"', '"'].isPrefixOf (s.toList ++ ['"', '\n']) = true

instance (s : String) : Decidable (OpensMultiline s) :=
  inferInstanceAs (Decidable (_ = _))

/-- A string never reads longer than it was printed, and as long only when every
character stood for itself. -/
theorem scanBasic_length
    {mode : Mode}
    {s v : List Char}
    (h : scanBasic mode (s ++ ['"', '\n']) = some v) :
    v.length ≤ s.length ∧
      (mode = .text → v.length = s.length → s.all plainChar = true) := by
  induction s generalizing mode v with
  | nil =>
      cases mode with
      | text =>
          have hv : v = [] := by simpa [scanBasic] using h.symm
          subst hv
          exact ⟨Nat.le_refl _, fun _ _ => rfl⟩
      | escaped => simp [scanBasic, escape, isNontabControl] at h
      | hex left value => simp [scanBasic, hexValue] at h
  | cons c cs ih =>
      cases mode with
      | text =>
          simp only [List.cons_append, scanBasic] at h
          split_ifs at h with hquote hback hcontrol
          · obtain rfl := Option.some.inj h
            exact ⟨Nat.zero_le _, fun _ hlen => by simp at hlen⟩
          · obtain ⟨hle, _⟩ := ih h
            refine ⟨Nat.le_succ_of_le hle, fun _ hlen => ?_⟩
            rw [List.length_cons] at hlen
            omega
          · obtain ⟨v', hv', rfl⟩ := Option.map_eq_some_iff.mp h
            obtain ⟨hle, hall⟩ := ih hv'
            refine ⟨Nat.succ_le_succ hle, fun _ hlen => ?_⟩
            have hrest : cs.all plainChar = true := hall rfl (Nat.succ.inj hlen)
            have hc : plainChar c = true := by simp [plainChar, hquote, hback, hcontrol]
            rw [List.all_cons, hc, hrest]
            rfl
      | escaped =>
          refine ⟨?_, fun hmode => by cases hmode⟩
          simp only [List.cons_append, scanBasic] at h
          split_ifs at h
          · exact Nat.le_succ_of_le (ih h).1
          · exact Nat.le_succ_of_le (ih h).1
          · split at h
            · simp at h
            · obtain ⟨v', hv', rfl⟩ := Option.map_eq_some_iff.mp h
              exact Nat.succ_le_succ (ih hv').1
      | hex left value =>
          refine ⟨?_, fun hmode => by cases hmode⟩
          simp only [List.cons_append, scanBasic] at h
          split at h
          · simp at h
          · split_ifs at h
            · exact Nat.le_succ_of_le (ih h).1
            · obtain ⟨v', hv', rfl⟩ := Option.map_eq_some_iff.mp h
              exact Nat.succ_le_succ (ih hv').1

theorem scanBasic_plain
    {s : List Char}
    (h : s.all plainChar = true) :
    scanBasic .text (s ++ ['"', '\n']) = some s := by
  induction s with
  | nil => rfl
  | cons c cs ih =>
      rw [List.all_cons, Bool.and_eq_true] at h
      obtain ⟨hc, hcs⟩ := h
      simp only [plainChar, Bool.and_eq_true, bne_iff_ne, ne_eq, Bool.not_eq_true'] at hc
      simp [scanBasic, hc, ih hcs]

/-- A printed text reads as itself exactly when it is plain. -/
theorem readBasic_eq_self_iff (s : String) :
    readBasic s = some s ↔ Plain s := by
  constructor
  · intro h
    obtain ⟨v, hv, hs⟩ := Option.map_eq_some_iff.mp h
    have hvs : v = s.toList := by rw [← hs, String.toList_ofList]
    exact (scanBasic_length hv).2 rfl (congrArg List.length hvs)
  · intro h
    rw [readBasic, scanBasic_plain h]
    simp

example : readBasic "A \"B\" Ltd" = some "A " := by decide
example : readBasic "C:\\dir" = none := by decide

end Strings

section Documents

/-- A value as a program prints it. -/
inductive Printed
  | text (s : String)
  | number (n : Int)
  | yes
  | texts (l : List String)
  | inline (l : List (String × List String))

/-- `key = value`, with a comment behind it or not. -/
structure Entry where
  key : String
  value : Printed
  comment : Option String

/-- A header and the entries under it. -/
structure Section where
  header : String
  entries : List Entry

/-- A printed file: a comment, then sections. -/
structure Document where
  heading : String
  sections : List Section

def quoted (s : String) : String :=
  "\"" ++ s ++ "\""

def renderTexts (l : List String) : String :=
  "[" ++ ", ".intercalate (l.map quoted) ++ "]"

def Printed.render : Printed → String
  | .text s => quoted s
  | .number n => toString n
  | .yes => "true"
  | .texts l => renderTexts l
  | .inline l =>
      "\x7b " ++ ", ".intercalate (l.map fun e => e.1 ++ " = " ++ renderTexts e.2) ++ " \x7d"

def Entry.render (e : Entry) : String :=
  e.key ++ " = " ++ e.value.render ++
    (match e.comment with
      | none => ""
      | some c => "  # " ++ c) ++ "\n"

def Section.render (sec : Section) : String :=
  "\n[" ++ sec.header ++ "]\n" ++ String.join (sec.entries.map Entry.render)

/-- The text of the file. -/
def Document.render (d : Document) : String :=
  "# " ++ d.heading ++ "\n" ++ String.join (d.sections.map Section.render)

/-- The keys a header names. -/
def Section.path (sec : Section) : List String :=
  (sec.header.toList.splitOn '.').map String.ofList

/-- Define a key under a path.  Tables on the way are created; a key is defined
once, an empty key is no key, and inline tables are closed. -/
def define : List String → Value → Table → Option Table
  | [], _, _ => none
  | [k], v, t =>
      if k = "" ∨ (t.lookup k).isSome then none else some (insertEntry k v t)
  | k :: k' :: path, v, t =>
      if k = "" then none
      else
        match t.lookup k with
        | none => (define (k' :: path) v []).map fun sub => insertEntry k (.table sub false) t
        | some (.table sub false) =>
            (define (k' :: path) v sub).map fun sub' => insertEntry k (.table sub' false) t
        | some _ => none

/-- A table from keys written one after another. -/
def tableOf (l : List (String × Value)) : Option Table :=
  l.foldlM (fun t e => define [e.1] e.2 t) []

/-- What a printed value says. -/
def Printed.value : Printed → Option Value
  | .text s => some (.string s)
  | .number n => some (.integer n)
  | .yes => some (.boolean true)
  | .texts l => some (.array (l.map Value.string))
  | .inline l =>
      (tableOf (l.map fun e => (e.1, Value.array (e.2.map Value.string)))).map
        fun t => .table t true

def Section.table (sec : Section) : Option Table :=
  (sec.entries.mapM fun (e : Entry) => e.value.value.map fun v => (e.key, v)).bind tableOf

/-- What the file says; `none` when it is no TOML. -/
def Document.table (d : Document) : Option Table :=
  d.sections.foldlM (fun t sec => sec.table.bind fun sub => define sec.path (.table sub false) t) []

/-- A character of a key that needs no quotes. -/
def bareChar (c : Char) : Bool :=
  decide ('a' ≤ c ∧ c ≤ 'z') || decide ('A' ≤ c ∧ c ≤ 'Z') || decide ('0' ≤ c ∧ c ≤ '9') ||
    c == '_' || c == '-'

/-- A key that needs no quotes. -/
def BareKey (k : String) : Prop :=
  k ≠ "" ∧ k.toList.all bareChar = true

instance (k : String) : Decidable (BareKey k) :=
  inferInstanceAs (Decidable (_ ∧ _))

/-- A comment stays on its line. -/
def OneLine (s : String) : Prop :=
  (s.toList.all fun c => !isNontabControl c) = true

instance (s : String) : Decidable (OneLine s) :=
  inferInstanceAs (Decidable (_ = _))

/-- The value needs no quoting beyond the quotes it is printed with, and a number
fits the 64 bits TOML has for it. -/
def Printed.Plain : Printed → Prop
  | .text s => Toml.Plain s
  | .number n => -2 ^ 63 ≤ n ∧ n < 2 ^ 63
  | .yes => True
  | .texts l => ∀ s ∈ l, Toml.Plain s
  | .inline l => ∀ e ∈ l, BareKey e.1 ∧ ∀ s ∈ e.2, Toml.Plain s

structure Entry.Plain (e : Entry) : Prop where
  key : BareKey e.key
  value : e.value.Plain
  comment : ∀ c, e.comment = some c → OneLine c

/-- A section without quotes in its header; its keys may still be empty. -/
structure Section.Plain (sec : Section) : Prop where
  header : sec.header.toList.all (fun c => bareChar c || c == '.') = true
  entries : ∀ e ∈ sec.entries, e.Plain

/-- A file that needs no quoting beyond what it was printed with, in which no
header comes back to a table that an earlier one created on its way. -/
structure Document.Plain (d : Document) : Prop where
  heading : OneLine d.heading
  sections : ∀ sec ∈ d.sections, sec.Plain
  order : d.sections.Pairwise fun sec sec' => ¬ sec'.path <+: sec.path

/-- What a parser promises on one printed file.  Up to the first string that is
not plain the file says what it seems to say; that string, unless it opens a
multi-line one, is read to the end of its line, and no later text defines its
key again. -/
structure Faithful {ε : Type} (parse : String → Except ε Table) (d : Document) : Prop where
  plain : d.Plain → (parse d.render).toOption = d.table
  basic : ∀ before header es key s es' after,
    OneLine d.heading →
    d.sections = before ++ ⟨header, es ++ ⟨key, .text s, none⟩ :: es'⟩ :: after →
    (∀ sec ∈ before, sec.Plain) →
    (∀ k ∈ (Section.mk header []).path, BareKey k) →
    (∀ e ∈ es, e.Plain) →
    BareKey key →
    ¬ Toml.Plain s →
    ¬ OpensMultiline s →
    ∀ t, parse d.render = .ok t →
      ∃ v, readBasic s = some v ∧
        at? t ((Section.mk header []).path ++ [key]) = some (.string v)

end Documents

section Tables

theorem define_one_iff
    {k : String}
    {v : Value}
    {t t' : Table} :
    define [k] v t = some t' ↔ k ≠ "" ∧ t.lookup k = none ∧ insertEntry k v t = t' := by
  simp only [define, ite_eq_iff, not_or, Option.not_isSome_iff_eq_none, Option.some.injEq,
    reduceCtorEq, and_false, false_or, and_assoc, ne_eq]

/-- A lone key is defined once. -/
theorem define_one
    {k : String}
    (hk : k ≠ "")
    {t : Table}
    (hnew : t.lookup k = none)
    (v : Value) :
    define [k] v t = some (insertEntry k v t) := by
  simp [define, hk, hnew]

theorem define_two_new
    {k k' : String}
    (hk : k ≠ "")
    (hk' : k' ≠ "")
    {t : Table}
    (hnew : t.lookup k = none)
    (v : Value) :
    define [k, k'] v t = some (insertEntry k (.table (insertEntry k' v []) false) t) := by
  simp [define, hk, hk', hnew]

theorem define_two_old
    {k k' : String}
    (hk : k ≠ "")
    (hk' : k' ≠ "")
    {t sub : Table}
    (hold : t.lookup k = some (.table sub false))
    (hnew : sub.lookup k' = none)
    (v : Value) :
    define [k, k'] v t = some (insertEntry k (.table (insertEntry k' v sub) false) t) := by
  simp [define, hk, hk', hold, hnew]

/-- The only new key at the top of a table is the first one of the path. -/
theorem define_lookup_of_ne
    {k k' : String}
    {path : List String}
    {v : Value}
    {t t' : Table}
    (h : define (k :: path) v t = some t')
    (hne : k' ≠ k) :
    t'.lookup k' = t.lookup k' := by
  cases path with
  | nil =>
      simp only [define] at h
      split_ifs at h
      rw [← Option.some.inj h, lookup_insertEntry_of_ne _ hne]
  | cons k'' path =>
      simp only [define] at h
      split_ifs at h
      split at h
      · obtain ⟨sub, _, rfl⟩ := Option.map_eq_some_iff.mp h
        exact lookup_insertEntry_of_ne _ hne t
      · obtain ⟨sub, _, rfl⟩ := Option.map_eq_some_iff.mp h
        exact lookup_insertEntry_of_ne _ hne t
      · simp at h

theorem define_ne_empty
    {k : String}
    {path : List String}
    {v : Value}
    {t t' : Table}
    (h : define (k :: path) v t = some t') :
    k ≠ "" := by
  rintro rfl
  cases path <;> simp [define] at h

/-- What a longer path leaves under its first key. -/
theorem define_sub
    {k k' : String}
    {path : List String}
    {v : Value}
    {t t' : Table}
    (h : define (k :: k' :: path) v t = some t') :
    ∃ sub sub', (t.lookup k = none ∧ sub = [] ∨ t.lookup k = some (.table sub false)) ∧
      define (k' :: path) v sub = some sub' ∧ t'.lookup k = some (.table sub' false) := by
  simp only [define] at h
  split_ifs at h
  split at h
  · rename_i hnone
    obtain ⟨sub', hsub', rfl⟩ := Option.map_eq_some_iff.mp h
    exact ⟨[], sub', Or.inl ⟨hnone, rfl⟩, hsub', lookup_insertEntry_self k _ t⟩
  · rename_i sub hold
    obtain ⟨sub', hsub', rfl⟩ := Option.map_eq_some_iff.mp h
    exact ⟨sub, sub', Or.inr hold, hsub', lookup_insertEntry_self k _ t⟩
  · simp at h

/-- Entries with different keys make a table that finds each of them. -/
theorem tableOf_of_nodup
    {l : List (String × Value)}
    (hnodup : (l.map Prod.fst).Nodup)
    (hkeys : ∀ k ∈ l.map Prod.fst, k ≠ "") :
    ∃ t, tableOf l = some t ∧ KeySorted t ∧ ∀ k, t.lookup k = l.lookup k := by
  suffices hgen : ∀ (t₀ : Table), KeySorted t₀ → (∀ k ∈ l.map Prod.fst, t₀.lookup k = none) →
      ∃ t, l.foldlM (fun t e => define [e.1] e.2 t) t₀ = some t ∧ KeySorted t ∧
        ∀ k, t.lookup k = (l.lookup k).or (t₀.lookup k) by
    obtain ⟨t, ht, hsorted, hlookup⟩ := hgen [] List.Pairwise.nil (fun _ _ => rfl)
    exact ⟨t, ht, hsorted, fun k => by simpa using hlookup k⟩
  induction l with
  | nil => exact fun t₀ hsorted _ => ⟨t₀, rfl, hsorted, fun k => by simp⟩
  | cons e rest ih =>
      intro t₀ hsorted hnew
      obtain ⟨k₀, v₀⟩ := e
      simp only [List.map_cons, List.nodup_cons] at hnodup
      obtain ⟨hfresh, hrest⟩ := hnodup
      have hstep := define_one (hkeys k₀ (by simp)) (hnew k₀ (by simp)) v₀
      obtain ⟨t, ht, hts, hlookup⟩ := ih hrest (fun k hk => hkeys k (by simp [hk]))
        (insertEntry k₀ v₀ t₀) (hsorted.insertEntry k₀ v₀) (by
          intro k hk
          have hne : k ≠ k₀ := by
            rintro rfl
            exact hfresh hk
          rw [lookup_insertEntry_of_ne _ hne]
          exact hnew k (List.mem_cons_of_mem _ hk))
      refine ⟨t, ?_, hts, ?_⟩
      · rw [List.foldlM_cons, hstep]
        exact ht
      · intro k
        rw [hlookup, List.lookup_cons]
        by_cases heq : k = k₀
        · subst heq
          have hnone : rest.lookup k = none := by
            rw [← Option.not_isSome_iff_eq_none, lookup_isSome_iff]
            exact hfresh
          simp [hnone]
        · have hbeq : (k == k₀) = false := by simpa using heq
          simp [hbeq, lookup_insertEntry_of_ne _ heq]

/-- Entries in key order are their own table. -/
theorem tableOf_of_sorted
    {l : List (String × Value)}
    (hsorted : KeySorted l)
    (hkeys : ∀ k ∈ l.map Prod.fst, k ≠ "") :
    tableOf l = some l := by
  obtain ⟨t, ht, hts, hlookup⟩ := tableOf_of_nodup hsorted.nodup hkeys
  rw [ht, hts.ext hsorted hlookup]

/-- Every key of a path that was defined is a key. -/
theorem define_keys
    {path : List String}
    {v : Value}
    {t t' : Table}
    (h : define path v t = some t') :
    ∀ k ∈ path, k ≠ "" := by
  induction path generalizing t t' with
  | nil => simp
  | cons k path ih =>
      intro k' hk'
      rcases List.mem_cons.mp hk' with rfl | hk'
      · exact define_ne_empty h
      · cases path with
        | nil => simp at hk'
        | cons k'' path =>
            obtain ⟨sub, sub', _, hsub, _⟩ := define_sub h
            exact ih hsub k' hk'

/-- Keys defined under one key make the table of that key. -/
theorem foldlM_define_under
    {k : String}
    (hk : k ≠ "")
    {l : List (String × Value)}
    {t sub sub' : Table}
    (hold : t.lookup k = some (.table sub false))
    (hsub : l.foldlM (fun t e => define [e.1] e.2 t) sub = some sub') :
    ∃ t', l.foldlM (fun t e => define [k, e.1] e.2 t) t = some t' ∧
      t'.lookup k = some (.table sub' false) ∧ ∀ k' ≠ k, t'.lookup k' = t.lookup k' := by
  induction l generalizing t sub with
  | nil =>
      obtain rfl := Option.some.inj hsub
      exact ⟨t, rfl, hold, fun _ _ => rfl⟩
  | cons e rest ih =>
      obtain ⟨k₁, v₁⟩ := e
      rw [List.foldlM_cons] at hsub
      obtain ⟨sub₁, hfirst, hrest⟩ := Option.bind_eq_some_iff.mp hsub
      obtain ⟨hk₁, hnew, rfl⟩ := define_one_iff.mp hfirst
      have hstep := define_two_old hk hk₁ hold hnew v₁
      obtain ⟨t', ht', hlookup, hother⟩ := ih (lookup_insertEntry_self k _ t) hrest
      refine ⟨t', ?_, hlookup, ?_⟩
      · rw [List.foldlM_cons, hstep]
        exact ht'
      · intro k' hk'
        rw [hother k' hk', lookup_insertEntry_of_ne _ hk']

/-- The first of them creates it. -/
theorem foldlM_define_fresh
    {k : String}
    (hk : k ≠ "")
    {l : List (String × Value)}
    (hl : l ≠ [])
    {t sub : Table}
    (hnew : t.lookup k = none)
    (hsub : tableOf l = some sub) :
    ∃ t', l.foldlM (fun t e => define [k, e.1] e.2 t) t = some t' ∧
      t'.lookup k = some (.table sub false) ∧ ∀ k' ≠ k, t'.lookup k' = t.lookup k' := by
  cases l with
  | nil => exact absurd rfl hl
  | cons e rest =>
      obtain ⟨k₁, v₁⟩ := e
      rw [tableOf, List.foldlM_cons] at hsub
      obtain ⟨sub₁, hfirst, hrest⟩ := Option.bind_eq_some_iff.mp hsub
      obtain ⟨hk₁, _, rfl⟩ := define_one_iff.mp hfirst
      have hstep := define_two_new hk hk₁ hnew v₁
      obtain ⟨t', ht', hlookup, hother⟩ :=
        foldlM_define_under hk (lookup_insertEntry_self k _ t) hrest
      refine ⟨t', ?_, hlookup, ?_⟩
      · rw [List.foldlM_cons, hstep]
        exact ht'
      · intro k' hk'
        rw [hother k' hk', lookup_insertEntry_of_ne _ hk']

/-- The keys under one key of a table. -/
def keysUnder (t : Table) (k : String) : List String :=
  ((t.lookup k).bind Value.asTable).elim [] fun sub => sub.map Prod.fst

/-- A new key under a key is the next one of the path. -/
theorem keysUnder_define
    {k k' : String}
    {path : List String}
    {v : Value}
    {t t' : Table}
    (h : define path v t = some t')
    (hlong : path ≠ [k])
    (hk' : k' ∈ keysUnder t' k) :
    k' ∈ keysUnder t k ∨ ∃ rest, path = k :: k' :: rest := by
  cases path with
  | nil => simp [define] at h
  | cons k₀ path =>
      by_cases hk : k = k₀
      · subst hk
        cases path with
        | nil => exact absurd rfl hlong
        | cons k₁ path =>
            by_cases hfirst : k' = k₁
            · exact Or.inr ⟨path, by rw [hfirst]⟩
            · obtain ⟨sub, sub', hbefore, hsub, hafter⟩ := define_sub h
              have hmem : (sub.lookup k').isSome = true := by
                rw [← define_lookup_of_ne hsub hfirst, lookup_isSome_iff]
                simpa [keysUnder, hafter, Value.asTable] using hk'
              rcases hbefore with ⟨_, rfl⟩ | hold
              · simp at hmem
              · left
                simpa [keysUnder, hold, Value.asTable] using lookup_isSome_iff.mp hmem
      · left
        rwa [keysUnder, ← define_lookup_of_ne h hk]

end Tables

section Sections

theorem Section.path_dotless
    {sec : Section}
    {k : String}
    (hk : k ∈ sec.path) :
    '.' ∉ k.toList := by
  obtain ⟨l, hl, rfl⟩ := List.mem_map.mp hk
  rw [String.toList_ofList]
  exact not_mem_of_mem_splitOn hl

/-- The keys of a header without quotes need none. -/
theorem Section.path_bare
    {sec : Section}
    (h : sec.header.toList.all (fun c => bareChar c || c == '.') = true)
    {k : String}
    (hk : k ∈ sec.path)
    (hne : k ≠ "") :
    BareKey k := by
  have hdotless := sec.path_dotless hk
  refine ⟨hne, List.all_eq_true.mpr fun c hc => ?_⟩
  obtain ⟨l, hl, rfl⟩ := List.mem_map.mp hk
  rw [String.toList_ofList] at hdotless hc
  have hchar := List.all_eq_true.mp h c (mem_of_mem_splitOn hl hc)
  have hdot : c ≠ '.' := by
    rintro rfl
    exact hdotless hc
  simpa [hdot] using hchar

/-- A header without a dot is one key. -/
theorem Section.path_one
    {sec : Section}
    (h : '.' ∉ sec.header.toList) :
    sec.path = [sec.header] := by
  rw [Section.path, List.splitOn_eq_singleton h, List.map_singleton, String.ofList_toList]

/-- A header with one dot is two keys. -/
theorem Section.path_two
    {sec : Section}
    {k k' : List Char}
    (hk : '.' ∉ k)
    (hk' : '.' ∉ k')
    (h : sec.header.toList = k ++ '.' :: k') :
    sec.path = [String.ofList k, String.ofList k'] := by
  rw [Section.path, h, List.splitOn_append_cons_self_of_not_mem hk, List.splitOn_eq_singleton hk']
  rfl

/-- A header is its keys with dots between them. -/
theorem Section.header_eq (sec : Section) :
    sec.header.toList = ['.'].intercalate (sec.path.map String.toList) := by
  have hlabels : sec.path.map String.toList = sec.header.toList.splitOn '.' := by
    rw [Section.path, List.map_map]
    exact List.map_id'' (fun _ => String.toList_ofList) _
  rw [hlabels, List.intercalate_splitOn]

/-- A header whose keys go on those of another goes on the other. -/
theorem Section.header_prefix
    {sec sec' : Section}
    (h : sec'.path <+: sec.path) :
    sec'.header.toList <+: sec.header.toList := by
  obtain ⟨rest, hrest⟩ := h
  rw [sec.header_eq, sec'.header_eq, ← hrest, List.map_append]
  have hgen (l m : List (List Char)) : ['.'].intercalate l <+: ['.'].intercalate (l ++ m) := by
    induction l with
    | nil => exact List.nil_prefix
    | cons a l ih =>
        cases l with
        | nil =>
            cases m with
            | nil => exact List.prefix_rfl
            | cons b m =>
                rw [List.singleton_append, List.intercalate_cons_cons, List.intercalate_singleton,
                  List.append_assoc]
                exact List.prefix_append _ _
        | cons b l =>
            rw [List.cons_append, List.cons_append, List.intercalate_cons_cons,
              List.intercalate_cons_cons]
            exact (List.prefix_append_right_inj _).mpr ih
  exact hgen _ _

/-- What entries say, key by key. -/
theorem pairs_of_entries
    {entries : List Entry}
    (hvalues : ∀ e ∈ entries, e.value.value.isSome = true) :
    ∃ l, (entries.mapM fun e => e.value.value.map fun v => (e.key, v)) = some l ∧
      l.map Prod.fst = entries.map Entry.key ∧ ∀ k,
        l.lookup k = (entries.find? fun e => e.key == k).bind fun e => e.value.value := by
  induction entries with
  | nil => exact ⟨[], rfl, rfl, fun _ => rfl⟩
  | cons e rest ih =>
      obtain ⟨l, hl, hfst, hlookup⟩ := ih fun e' he' => hvalues e' (List.mem_cons_of_mem e he')
      obtain ⟨v, hv⟩ := Option.isSome_iff_exists.mp (hvalues e List.mem_cons_self)
      refine ⟨(e.key, v) :: l, ?_, ?_, ?_⟩
      · rw [List.mapM_cons, hl, hv]
        rfl
      · rw [List.map_cons, List.map_cons, hfst]
      · intro k
        rw [List.lookup_cons, List.find?_cons, hlookup]
        by_cases hk : k = e.key
        · simp [hk, hv]
        · have hbeq : (k == e.key) = false := by simpa using hk
          have hbeq' : (e.key == k) = false := by simpa using Ne.symm hk
          simp [hbeq, hbeq']

/-- A section whose keys differ makes a table that says what its entries say. -/
theorem Section.table_of
    {sec : Section}
    (hvalues : ∀ e ∈ sec.entries, e.value.value.isSome = true)
    (hnodup : (sec.entries.map Entry.key).Nodup)
    (hkeys : ∀ e ∈ sec.entries, e.key ≠ "") :
    ∃ t, sec.table = some t ∧ ∀ k,
      t.lookup k = (sec.entries.find? fun e => e.key == k).bind fun e => e.value.value := by
  obtain ⟨l, hl, hfst, hlookup⟩ := pairs_of_entries hvalues
  have hnames : ∀ k ∈ l.map Prod.fst, k ≠ "" := by
    rw [hfst]
    intro k hk
    obtain ⟨e, he, rfl⟩ := List.mem_map.mp hk
    exact hkeys e he
  obtain ⟨t, ht, _, hfind⟩ := tableOf_of_nodup (hfst ▸ hnodup) hnames
  refine ⟨t, ?_, fun k => (hfind k).trans (hlookup k)⟩
  rw [Section.table, hl]
  exact ht

/-- Sections side by side under one header are keys defined one after another. -/
theorem foldlM_sections
    {ι : Type*}
    {l : List ι}
    (sec : ι → Section)
    (above : List String)
    {name : ι → String}
    {tab : ι → Table}
    (hpath : ∀ i ∈ l, (sec i).path = above ++ [name i])
    (htab : ∀ i ∈ l, (sec i).table = some (tab i))
    (t₀ : Table) :
    (l.map sec).foldlM
        (fun t sec => sec.table.bind fun sub => define sec.path (.table sub false) t) t₀ =
      (l.map fun i => (name i, Value.table (tab i) false)).foldlM
        (fun t e => define (above ++ [e.1]) e.2 t) t₀ := by
  induction l generalizing t₀ with
  | nil => rfl
  | cons i rest ih =>
      rw [List.map_cons, List.map_cons, List.foldlM_cons, List.foldlM_cons,
        htab i List.mem_cons_self, hpath i List.mem_cons_self]
      refine Option.bind_congr fun t _ => ?_
      exact ih (fun j hj => hpath j (List.mem_cons_of_mem _ hj))
        (fun j hj => htab j (List.mem_cons_of_mem _ hj)) t

/-- No header of a file that says something has an empty key. -/
theorem Document.path_keys
    {d : Document}
    {t : Table}
    (h : d.table = some t)
    {sec : Section}
    (hsec : sec ∈ d.sections) :
    ∀ k ∈ sec.path, k ≠ "" := by
  suffices hgen : ∀ (secs : List Section) (t₀ : Table), sec ∈ secs →
      secs.foldlM (fun t sec => sec.table.bind fun sub => define sec.path (.table sub false) t) t₀ =
        some t → ∀ k ∈ sec.path, k ≠ "" by
    exact hgen d.sections [] hsec h
  intro secs
  induction secs with
  | nil => simp
  | cons s rest ih =>
      intro t₀ hmem hfold
      rw [List.foldlM_cons] at hfold
      obtain ⟨t₁, hfirst, hrest⟩ := Option.bind_eq_some_iff.mp hfold
      obtain ⟨sub, _, hdefine⟩ := Option.bind_eq_some_iff.mp hfirst
      rcases List.mem_cons.mp hmem with rfl | hmem
      · exact define_keys hdefine
      · exact ih t₁ hmem hrest

/-- Keys under a key that is no header come from the headers, and hold no dot. -/
theorem Document.keysUnder_dotless
    {d : Document}
    {t : Table}
    (h : d.table = some t)
    {k k' : String}
    (hheaders : ∀ sec ∈ d.sections, sec.path ≠ [k])
    (hk' : k' ∈ keysUnder t k) :
    '.' ∉ k'.toList := by
  suffices hgen : ∀ (secs : List Section) (t₀ : Table), (∀ sec ∈ secs, sec.path ≠ [k]) →
      secs.foldlM (fun t sec => sec.table.bind fun sub => define sec.path (.table sub false) t) t₀ =
        some t →
      k' ∈ keysUnder t₀ k ∨ '.' ∉ k'.toList by
    rcases hgen d.sections [] hheaders h with hempty | hdotless
    · simp [keysUnder] at hempty
    · exact hdotless
  intro secs
  induction secs with
  | nil =>
      intro t₀ _ hfold
      obtain rfl := Option.some.inj hfold
      exact Or.inl hk'
  | cons sec rest ih =>
      intro t₀ hpaths hfold
      rw [List.foldlM_cons] at hfold
      obtain ⟨t₁, hfirst, hrest⟩ := Option.bind_eq_some_iff.mp hfold
      obtain ⟨sub, _, hdefine⟩ := Option.bind_eq_some_iff.mp hfirst
      rcases ih t₁ (fun s hs => hpaths s (List.mem_cons_of_mem _ hs)) hrest with hmem | hdotless
      · rcases keysUnder_define hdefine (hpaths sec List.mem_cons_self) hmem with hold | ⟨path, hpath⟩
        · exact Or.inl hold
        · exact Or.inr (sec.path_dotless (by simp [hpath]))
      · exact Or.inr hdotless

end Sections

end Toml
end Core
end Yca
