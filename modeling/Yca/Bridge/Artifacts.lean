import Yca.Bridge.Delivery
import Yca.Core.Paths
import Mathlib.Data.List.Forall2

/-!
# The files of the leaves

`issue_ee` names the files of a leaf by the slug of its common name and nothing else.
The profile is no part of the name, and the slug forgets the case of a letter and
whether a word ends with a blank or a hyphen.

Two calls for different leaves keep out of each other's files exactly when their common
names are not alike in this sense.  And a common name is taken as it is: only the
server profile refuses the separator, so that a name of another profile can lead out
of `ee/`.
-/

namespace Yca
namespace Bridge

open Yca.Core Ca
open Acme (asciiLower)
open Cfg (findProfile)

section Slugs

/-- Letters the slug does not tell apart. -/
def Alike (a b : Char) : Prop :=
  asciiLower a = asciiLower b ∨ (a ∈ [' ', '-'] ∧ b ∈ [' ', '-'])

/-- One letter of a slug. -/
def slugChar (c : Char) : Char :=
  if c = ' ' then '-' else asciiLower c

theorem toList_slug (name : String) : (slug name).toList = name.toList.map slugChar := by
  simp [slug, slugChar]

theorem toNat_small : ∀ n : Fin 26, (Char.ofNat (65 + n.val + 32)).toNat = 65 + n.val + 32 := by
  decide

/-- The lower case of a letter is no sign. -/
theorem asciiLower_eq_iff
    {c d : Char}
    (hupper : d.toNat < 65 ∨ 90 < d.toNat)
    (hlower : d.toNat < 97 ∨ 122 < d.toNat) :
    asciiLower c = d ↔ c = d := by
  by_cases h : 'A' ≤ c ∧ c ≤ 'Z'
  · have hlow : 65 ≤ c.toNat := h.1
    have hhigh : c.toNat ≤ 90 := h.2
    have hsmall := toNat_small ⟨c.toNat - 65, by omega⟩
    rw [show 65 + (c.toNat - 65) + 32 = c.toNat + 32 by omega] at hsmall
    rw [asciiLower, if_pos h]
    constructor
    · rintro rfl
      omega
    · rintro rfl
      omega
  · rw [asciiLower, if_neg h]

theorem asciiLower_eq_hyphen (c : Char) : asciiLower c = '-' ↔ c = '-' :=
  asciiLower_eq_iff (by decide) (by decide)

theorem asciiLower_eq_slash (c : Char) : asciiLower c = '/' ↔ c = '/' :=
  asciiLower_eq_iff (by decide) (by decide)

theorem slugChar_eq_slash (c : Char) : slugChar c = '/' ↔ c = '/' := by
  by_cases h : c = ' '
  · simp [slugChar, h]
  · rw [slugChar, if_neg h, asciiLower_eq_slash]

theorem slugChar_eq_hyphen (c : Char) : slugChar c = '-' ↔ c ∈ [' ', '-'] := by
  by_cases h : c = ' '
  · simp [slugChar, h]
  · rw [slugChar, if_neg h, asciiLower_eq_hyphen]
    simp [h]

theorem slugChar_of_ne {c : Char} (h : c ≠ ' ') : slugChar c = asciiLower c := by
  rw [slugChar, if_neg h]

/-- A blank or a hyphen has no other case. -/
theorem asciiLower_eq_blank {a b : Char} (ha : a ∈ [' ', '-']) :
    asciiLower a = asciiLower b ↔ a = b := by
  simp only [List.mem_cons, List.not_mem_nil, or_false] at ha
  rcases ha with rfl | rfl
  · exact eq_comm.trans ((asciiLower_eq_iff (by decide) (by decide)).trans eq_comm)
  · exact eq_comm.trans ((asciiLower_eq_iff (by decide) (by decide)).trans eq_comm)

/-- The slug tells letters apart unless they are alike. -/
theorem slugChar_eq_iff (a b : Char) : slugChar a = slugChar b ↔ Alike a b := by
  by_cases ha : a ∈ [' ', '-']
  · rw [(slugChar_eq_hyphen a).mpr ha, eq_comm, slugChar_eq_hyphen, Alike, asciiLower_eq_blank ha]
    constructor
    · intro hb
      exact Or.inr ⟨ha, hb⟩
    · rintro (rfl | ⟨_, hb⟩)
      · exact ha
      · exact hb
  · have hne : a ≠ ' ' := fun h => ha (h ▸ List.mem_cons_self)
    rw [slugChar_of_ne hne, Alike]
    by_cases hb : b = ' '
    · have hblank : b ∈ [' ', '-'] := hb ▸ List.mem_cons_self
      have hhyphen : asciiLower a ≠ '-' := fun h =>
        ha ((asciiLower_eq_hyphen a).mp h ▸ List.mem_cons_of_mem _ List.mem_cons_self)
      have hcase : asciiLower a ≠ asciiLower b := fun h =>
        ha ((asciiLower_eq_blank hblank).mp h.symm ▸ hblank)
      simp [(slugChar_eq_hyphen b).mpr hblank, hhyphen, hcase, ha]
    · rw [slugChar_of_ne hb]
      simp [ha]

theorem map_slugChar_eq_iff (xs ys : List Char) :
    xs.map slugChar = ys.map slugChar ↔ List.Forall₂ Alike xs ys := by
  simp only [← List.forall₂_eq_eq_eq, List.forall₂_map_left_iff, List.forall₂_map_right_iff,
    slugChar_eq_iff]

end Slugs

section Places

variable {cn cn' : String}

/-- Where the certificate and the key of a common name go. -/
def crtPlace (dir : List Name) (cn : String) : List Name :=
  resolve dir (crtFile cn).toList

def keyPlace (dir : List Name) (cn : String) : List Name :=
  resolve dir (keyFile cn).toList

/-- Two common names that are not told apart: their last components are alike, and what
is before these leads to one directory.  A name without a separator is its own last
component. -/
structure Meet (dir : List Name) (cn cn' : String) : Prop where
  names : List.Forall₂ Alike (baseName cn.toList) (baseName cn'.toList)
  folders : resolve dir (parent (slug cn).toList) = resolve dir (parent (slug cn').toList)

theorem meet_iff_alike
    (dir : List Name)
    (h : '/' ∉ cn.toList)
    (h' : '/' ∉ cn'.toList) :
    Meet dir cn cn' ↔ List.Forall₂ Alike cn.toList cn'.toList := by
  have hflat {name : String} (hname : '/' ∉ name.toList) : '/' ∉ (slug name).toList := by
    simpa [toList_slug, slugChar_eq_slash] using hname
  constructor
  · intro hmeet
    rw [← baseName_of_flat h, ← baseName_of_flat h']
    exact hmeet.names
  · intro halike
    constructor
    case names =>
      rw [baseName_of_flat h, baseName_of_flat h']
      exact halike
    case folders =>
      rw [parent_of_flat (hflat h), parent_of_flat (hflat h')]

/-- A file under the slug of a name is a file of the directory the name leads to. -/
theorem resolve_slug
    (dir : List Name)
    (cn : String)
    {suffix : String}
    (hflat : '/' ∉ suffix.toList)
    (hlong : 2 < suffix.toList.length) :
    resolve dir (slug cn ++ suffix).toList =
      resolve dir (parent (slug cn).toList) ++
        [(baseName cn.toList).map slugChar ++ suffix.toList] := by
  have hbase : baseName (slug cn).toList = (baseName cn.toList).map slugChar := by
    rw [toList_slug, baseName_map slugChar_eq_slash]
  have hsplit : (slug cn ++ suffix).toList =
      parent (slug cn).toList ++ ((baseName cn.toList).map slugChar ++ suffix.toList) := by
    rw [String.toList_append, ← hbase, ← List.append_assoc, parent_append_baseName]
  rw [hsplit, resolve_parent_append]
  · intro hmem
    rcases List.mem_append.mp hmem with hmem | hmem
    · rw [← hbase] at hmem
      exact flat_baseName _ hmem
    · exact hflat hmem
  · refine PlainName.of_length ?_
    rw [List.length_append]
    omega

theorem crtPlace_eq (dir : List Name) (cn : String) :
    crtPlace dir cn =
      resolve dir (parent (slug cn).toList) ++
        [(baseName cn.toList).map slugChar ++ ".crt".toList] :=
  resolve_slug dir cn (by decide) (by decide)

theorem keyPlace_eq (dir : List Name) (cn : String) :
    keyPlace dir cn =
      resolve dir (parent (slug cn).toList) ++
        [(baseName cn.toList).map slugChar ++ ".key".toList] :=
  resolve_slug dir cn (by decide) (by decide)

theorem place_eq_iff
    {dir : List Name}
    {suffix : List Char} :
    resolve dir (parent (slug cn).toList) ++ [(baseName cn.toList).map slugChar ++ suffix] =
        resolve dir (parent (slug cn').toList) ++ [(baseName cn'.toList).map slugChar ++ suffix] ↔
      Meet dir cn cn' := by
  constructor
  · intro h
    obtain ⟨hfolders, hlast⟩ := List.append_singleton_inj.mp h
    have hnames := List.append_cancel_right hlast
    exact ⟨(map_slugChar_eq_iff _ _).mp hnames, hfolders⟩
  · intro h
    rw [h.folders, (map_slugChar_eq_iff _ _).mpr h.names]

theorem crtPlace_eq_iff (dir : List Name) : crtPlace dir cn = crtPlace dir cn' ↔ Meet dir cn cn' := by
  rw [crtPlace_eq, crtPlace_eq]
  exact place_eq_iff

theorem keyPlace_eq_iff (dir : List Name) : keyPlace dir cn = keyPlace dir cn' ↔ Meet dir cn cn' := by
  rw [keyPlace_eq, keyPlace_eq]
  exact place_eq_iff

/-- No certificate takes the place of a key. -/
theorem crtPlace_ne_keyPlace (dir : List Name) (cn cn' : String) :
    crtPlace dir cn ≠ keyPlace dir cn' := by
  intro h
  rw [crtPlace_eq, keyPlace_eq] at h
  obtain ⟨_, hlast⟩ := List.append_singleton_inj.mp h
  obtain ⟨_, hsuffix⟩ := List.append_inj' hlast (by decide)
  exact absurd hsuffix (by decide)

end Places

section Runs

/-- One call of a run, with the database it finds. -/
structure Call where
  config : Config
  secrets : CaSpec → String
  profile : String
  cn : String
  extra : List San
  valid : Option Nat
  outcomes : Outcomes
  db : Db

namespace Call

def issue (lib : Parsers) (enc : Encodings) (c : Call) (files : Files String UInt8) :
    Ended × Shelf :=
  issueEe lib enc c.config c.secrets c.profile c.cn c.extra c.valid c.outcomes ⟨c.db, files⟩

/-- What the duplicate check tells leaves apart by. -/
def pair (c : Call) : String × String :=
  (c.cn, c.profile)

/-- The places of the two files. -/
def places (dir : List Name) (c : Call) : List (List Name) :=
  [crtPlace dir c.cn, keyPlace dir c.cn]

/-- The names of the two files. -/
def paths (c : Call) : List String :=
  [crtFile c.cn, keyFile c.cn]

end Call

/-- The files a run of calls leaves. -/
def filesAfter
    (lib : Parsers)
    (enc : Encodings)
    (files : Files String UInt8)
    (calls : List Call) : Files String UInt8 :=
  calls.foldl (fun files c => (c.issue lib enc files).2.files) files

variable {lib : Parsers} {enc : Encodings} {dir : List Name} {files : Files String UInt8}
  {c c' : Call} {calls : List Call}

/-- What one call commits. -/
def Call.Commits (lib : Parsers) (c : Call) (i : Issued) : Prop :=
  Passed lib c.config c.secrets c.profile c.cn c.extra c.valid c.outcomes c.db i

/-- The call commits a leaf, and `ee/` is there for its files. -/
def Call.Succeeds (lib : Parsers) (c : Call) : Prop :=
  (∃ i, c.Commits lib i) ∧ c.outcomes.directory = true

theorem Call.issue_of_not_commits
    (enc : Encodings)
    (files : Files String UInt8)
    (h : ∀ i, ¬ c.Commits lib i) :
    (c.issue lib enc files).2 = ⟨c.db, files⟩ ∧ (c.issue lib enc files).1 ≠ .returned true :=
  issueEe_of_not_passed enc h

theorem Call.issue_fst {i : Issued} (h : c.Commits lib i) :
    (c.issue lib enc files).1 = if c.outcomes.directory then .returned true else .threw :=
  issueEe_fst h

/-- A call succeeds exactly when it returns true. -/
theorem Call.succeeds_iff (enc : Encodings) (c : Call) (files : Files String UInt8) :
    c.Succeeds lib ↔ (c.issue lib enc files).1 = .returned true := by
  constructor
  · rintro ⟨⟨i, hi⟩, hdirectory⟩
    rw [Call.issue_fst hi, if_pos hdirectory]
  · intro h
    by_cases hcommits : ∃ i, c.Commits lib i
    · obtain ⟨i, hi⟩ := hcommits
      rw [Call.issue_fst hi] at h
      refine ⟨⟨i, hi⟩, ?_⟩
      cases hdirectory : c.outcomes.directory with
      | true => rfl
      | false => simp [hdirectory] at h
    · exact absurd h (Call.issue_of_not_commits enc files (not_exists.mp hcommits)).2

/-- A call without success touches no file. -/
theorem Call.issue_files_of_not_succeeds (h : ¬ c.Succeeds lib) :
    (c.issue lib enc files).2.files = files := by
  by_cases hcommits : ∃ i, c.Commits lib i
  · have hdirectory : c.outcomes.directory = false := by
      cases hdirectory : c.outcomes.directory with
      | true => exact absurd ⟨hcommits, hdirectory⟩ h
      | false => rfl
    obtain ⟨i, hi⟩ := hcommits
    simp [Call.issue, issueEe, ready_eq_ok_iff.mpr hi, hdirectory]
  · rw [(Call.issue_of_not_commits enc files (not_exists.mp hcommits)).1]

/-- A file that is neither of the two, nor a temporary sibling of these, stays. -/
theorem Call.issue_files_other
    {path : String}
    (hcrt : path ∉ [crtFile c.cn, temporary (crtFile c.cn)])
    (hkey : path ∉ [keyFile c.cn, temporary (keyFile c.cn)]) :
    (c.issue lib enc files).2.files path = files path := by
  simp only [List.mem_cons, List.not_mem_nil, or_false, not_or] at hcrt hkey
  by_cases h : c.Succeeds lib
  · obtain ⟨⟨i, hi⟩, hdirectory⟩ := h
    simp only [Call.issue, issueEe, ready_eq_ok_iff.mpr hi, hdirectory, Bool.not_true,
      Bool.false_eq_true, if_false]
    rw [Replacement.replace_other hkey.1 hkey.2, Replacement.replace_other hcrt.1 hcrt.2]
  · rw [Call.issue_files_of_not_succeeds h]

/-- No file of a leaf is a temporary one. -/
theorem Call.ne_temporary {path : String} (h : path ∈ c.paths) (other : String) :
    path ≠ temporary other := by
  simp only [Call.paths, List.mem_cons, List.not_mem_nil, or_false] at h
  rcases h with rfl | rfl
  · exact crtFile_ne_temporary _ other
  · exact keyFile_ne_temporary _ other

/-- Files of calls whose names do not meet have different paths. -/
theorem Call.paths_disjoint (h : ¬ Meet dir c.cn c'.cn) {path : String} (hpath : path ∈ c.paths) :
    path ∉ c'.paths := by
  intro hother
  simp only [Call.paths, List.mem_cons, List.not_mem_nil, or_false] at hpath hother
  rcases hpath with rfl | rfl <;> rcases hother with hsame | hsame
  · refine h ((crtPlace_eq_iff dir).mp ?_)
    rw [crtPlace, crtPlace, hsame]
  · refine crtPlace_ne_keyPlace dir c.cn c'.cn ?_
    rw [crtPlace, keyPlace, hsame]
  · refine crtPlace_ne_keyPlace dir c'.cn c.cn ?_
    rw [crtPlace, keyPlace, hsame]
  · refine h ((keyPlace_eq_iff dir).mp ?_)
    rw [keyPlace, keyPlace, hsame]

/-- A call whose name does not meet that of another spares its files. -/
theorem Call.issue_spares
    (h : ¬ Meet dir c.cn c'.cn)
    {path : String}
    (hpath : path ∈ c.paths) :
    (c'.issue lib enc files).2.files path = files path := by
  have hother := Call.paths_disjoint h hpath
  simp only [Call.paths, List.mem_cons, List.not_mem_nil, or_false, not_or] at hother
  refine Call.issue_files_other ?_ ?_
  · simp [hother.1, Call.ne_temporary hpath]
  · simp [hother.2, Call.ne_temporary hpath]

theorem filesAfter_append (xs ys : List Call) :
    filesAfter lib enc files (xs ++ ys) =
      filesAfter lib enc (filesAfter lib enc files xs) ys :=
  List.foldl_append

/-- A run of such calls spares them. -/
theorem filesAfter_spares
    (dir : List Name)
    (h : ∀ c' ∈ calls, c'.Succeeds lib → ¬ Meet dir c.cn c'.cn)
    {path : String}
    (hpath : path ∈ c.paths) :
    filesAfter lib enc files calls path = files path := by
  induction calls generalizing files with
  | nil => rfl
  | cons c' rest ih =>
      have hrest : filesAfter lib enc (c'.issue lib enc files).2.files rest path =
          (c'.issue lib enc files).2.files path :=
        ih fun d hd => h d (List.mem_cons_of_mem _ hd)
      refine hrest.trans ?_
      by_cases hsuccess : c'.Succeeds lib
      · exact Call.issue_spares (h c' List.mem_cons_self hsuccess) hpath
      · rw [Call.issue_files_of_not_succeeds hsuccess]

/-- The calls of a run that succeed keep out of each other's files, unless they are for
one leaf: no two write to one place, and what one has written is there until the next
call for its leaf. -/
structure FilesApart
    (lib : Parsers)
    (enc : Encodings)
    (dir : List Name)
    (files : Files String UInt8)
    (calls : List Call) : Prop where
  places : ∀ c ∈ calls, ∀ c' ∈ calls, c.Succeeds lib → c'.Succeeds lib → c.pair ≠ c'.pair →
    List.Disjoint (c.places dir) (c'.places dir)
  contents : ∀ earlier c between later, calls = earlier ++ c :: (between ++ later) →
    c.Succeeds lib → (∀ c' ∈ between, c'.Succeeds lib → c'.pair ≠ c.pair) →
    ∀ path ∈ c.paths, filesAfter lib enc files (earlier ++ c :: between) path =
      filesAfter lib enc files (earlier ++ [c]) path

/-- The calls of a run keep out of each other's files exactly when no two of them for
different leaves have common names that meet. -/
theorem files_apart_iff
    (lib : Parsers)
    (enc : Encodings)
    (dir : List Name)
    (files : Files String UInt8)
    (calls : List Call) :
    FilesApart lib enc dir files calls ↔
      ∀ c ∈ calls, ∀ c' ∈ calls, c.Succeeds lib → c'.Succeeds lib → c.pair ≠ c'.pair →
        ¬ Meet dir c.cn c'.cn := by
  constructor
  · intro h c hc c' hc' hsuccess hsuccess' hpair hmeet
    refine h.places c hc c' hc' hsuccess hsuccess' hpair List.mem_cons_self ?_
    rw [(crtPlace_eq_iff dir).mpr hmeet]
    exact List.mem_cons_self
  · intro h
    constructor
    case places =>
      intro c hc c' hc' hsuccess hsuccess' hpair place hplace hplace'
      have hapart := h c hc c' hc' hsuccess hsuccess' hpair
      simp only [Call.places, List.mem_cons, List.not_mem_nil, or_false] at hplace hplace'
      rcases hplace with hcrt | hkey
      · rcases hplace' with hcrt' | hkey'
        · exact hapart ((crtPlace_eq_iff dir).mp (hcrt.symm.trans hcrt'))
        · exact crtPlace_ne_keyPlace dir _ _ (hcrt.symm.trans hkey')
      · rcases hplace' with hcrt' | hkey'
        · exact crtPlace_ne_keyPlace dir _ _ (hcrt'.symm.trans hkey)
        · exact hapart ((keyPlace_eq_iff dir).mp (hkey.symm.trans hkey'))
    case contents =>
      intro earlier c between later hcalls hsuccess hbetween path hpath
      have hsplit : filesAfter lib enc files (earlier ++ c :: between) =
          filesAfter lib enc (filesAfter lib enc files (earlier ++ [c])) between := by
        rw [← filesAfter_append, List.append_assoc, List.singleton_append]
      rw [hsplit]
      refine filesAfter_spares dir ?_ hpath
      intro c' hc' hsuccess'
      have hmem : c ∈ calls := by simp [hcalls]
      have hmem' : c' ∈ calls := by simp [hcalls, hc']
      exact h c hmem c' hmem' hsuccess hsuccess' fun hsame => hbetween c' hc' hsuccess' hsame.symm

end Runs

section Sample

/-- A leaf of the sample store, for which every operation succeeds. -/
def sampleLeaf
    (profile cn : String)
    (key : Key)
    (serial : List UInt8)
    (db : Db) : Call where
  config := sampleConfig
  secrets := fun _ => "secret"
  profile := profile
  cn := cn
  extra := [⟨.dns, "a.ca"⟩]
  valid := none
  outcomes :=
    { keylessOutcomes with
      early := some (db, 1000)
      generated := some key
      made := some (serial, 1000)
      key := ⟨true, true, 64, true, true⟩ }
  db := db

def sampleParsers : Parsers :=
  ⟨some, some⟩

def sampleEncodings : Encodings :=
  ⟨fun c => c.serial, fun k => [UInt8.ofNat k]⟩

/-- `create -p server a.ca`. -/
def serverLeaf : Call :=
  sampleLeaf "server" "a.ca" 4 [0x44] sampleStore.db

/-- What it leaves in the database. -/
def serverDb : Db :=
  (serverLeaf.issue sampleParsers sampleEncodings fun _ => none).2.db

/-- `create -p client a.ca` after it. -/
def clientLeaf : Call :=
  sampleLeaf "client" "a.ca" 5 [0x45] serverDb

/-- What both leave in the database. -/
def bothDb : Db :=
  (clientLeaf.issue sampleParsers sampleEncodings
    (filesAfter sampleParsers sampleEncodings (fun _ => none) [serverLeaf])).2.db

/-- The second call destroys the key of the first, whose certificate is active. -/
theorem key_overwritten :
    ¬ FilesApart sampleParsers sampleEncodings [] (fun _ => none) [serverLeaf, clientLeaf] ∧
      filesAfter sampleParsers sampleEncodings (fun _ => none) [serverLeaf] (keyFile "a.ca") =
        some [4] ∧
      filesAfter sampleParsers sampleEncodings (fun _ => none) [serverLeaf, clientLeaf]
        (keyFile "a.ca") = some [5] ∧
      ∀ profile ∈ [Profile.server, .client], ∃ row ∈ bothDb.certIndex,
        row.cn = "a.ca" ∧ row.kind = .ee profile ∧ row.status = .active ∧ 1000 < row.notAfter := by
  have hserver : serverLeaf.Succeeds sampleParsers :=
    (Call.succeeds_iff sampleEncodings _ fun _ => none).mpr (by decide)
  have hclient : clientLeaf.Succeeds sampleParsers :=
    (Call.succeeds_iff sampleEncodings _ fun _ => none).mpr (by decide)
  refine ⟨?_, by decide, by decide, by decide⟩
  intro h
  have hpair : serverLeaf.pair ≠ clientLeaf.pair := by decide
  have hdisjoint := h.places serverLeaf List.mem_cons_self clientLeaf
    (List.mem_cons_of_mem _ List.mem_cons_self) hserver hclient hpair
  exact hdisjoint List.mem_cons_self List.mem_cons_self

end Sample

section Directory

variable {lib : Parsers} {dir : List Name} {c : Call}

/-- The files of a call that succeeds are direct children of `ee/`. -/
def Call.InPlace (lib : Parsers) (dir : List Name) (c : Call) : Prop :=
  c.Succeeds lib → DirectChild dir (crtFile c.cn).toList ∧ DirectChild dir (keyFile c.cn).toList

theorem directChild_slug_iff
    (dir : List Name)
    (cn : String)
    {suffix : String}
    (hflat : '/' ∉ suffix.toList)
    (hlong : 2 < suffix.toList.length) :
    DirectChild dir (slug cn ++ suffix).toList ↔ '/' ∉ cn.toList := by
  have hplain : PlainName (slug cn ++ suffix).toList := by
    refine PlainName.of_length ?_
    rw [String.toList_append, List.length_append]
    omega
  rw [directChild_iff hplain, String.toList_append, toList_slug]
  simp [hflat, slugChar_eq_slash]

/-- A host name has no separator. -/
theorem flat_of_dnsSafe {s : String} (h : dnsSafe s = true) : '/' ∉ s.toList := by
  intro hmem
  rcases dnsSafe_chars h _ hmem with halnum | hsign | hsign | hsign
  · exact absurd halnum (by decide)
  · exact absurd hsign (by decide)
  · exact absurd hsign (by decide)
  · exact absurd hsign (by decide)

/-- The server profile takes host names only. -/
theorem Call.Commits.flat_of_server
    {i : Issued}
    (h : c.Commits lib i)
    (hserver : c.profile = "server") :
    '/' ∉ c.cn.toList := by
  have hfind : findProfile c.profile = some .server := by
    rw [hserver]
    decide
  have hprofile : i.profile = .server := Option.some.inj (h.profile.symm.trans hfind)
  obtain ⟨first, hfirst, _⟩ := h.subject
  rw [hprofile, issueSubject, Profile.subject] at hfirst
  by_cases hdns : dnsSafe c.cn = true
  · exact flat_of_dnsSafe hdns
  · simp [hdns] at hfirst

/-- The files of a leaf stay in `ee/` exactly when it is a server's, or its common name
has no separator. -/
theorem leaf_in_place_iff (lib : Parsers) (dir : List Name) (c : Call) :
    c.InPlace lib dir ↔ (c.Succeeds lib → c.profile = "server" ∨ '/' ∉ c.cn.toList) := by
  have hchildren : DirectChild dir (crtFile c.cn).toList ∧ DirectChild dir (keyFile c.cn).toList ↔
      '/' ∉ c.cn.toList := by
    rw [crtFile, keyFile, directChild_slug_iff dir c.cn (by decide) (by decide),
      directChild_slug_iff dir c.cn (by decide) (by decide), and_self]
  rw [Call.InPlace, hchildren]
  constructor
  · intro h hsuccess
    exact Or.inr (h hsuccess)
  · intro h hsuccess
    rcases h hsuccess with hserver | hflat
    · obtain ⟨⟨i, hi⟩, _⟩ := hsuccess
      exact hi.flat_of_server hserver
    · exact hflat

/-- `create -p client ../a.ca`. -/
def strayLeaf : Call :=
  sampleLeaf "client" "../a.ca" 4 [0x44] sampleStore.db

/-- It is accepted, and its key is put beside `ee/`. -/
theorem leaf_outside :
    ¬ strayLeaf.InPlace sampleParsers ["store".toList, "ee".toList] ∧
      (strayLeaf.issue sampleParsers sampleEncodings fun _ => none).1 = .returned true ∧
      keyPlace ["store".toList, "ee".toList] "../a.ca" = ["store".toList, "a.ca.key".toList] := by
  have hreturns : (strayLeaf.issue sampleParsers sampleEncodings fun _ => none).1 =
      .returned true := by
    decide
  refine ⟨?_, hreturns, by decide⟩
  intro h
  obtain ⟨hcrt, _⟩ := h ((Call.succeeds_iff sampleEncodings _ fun _ => none).mpr hreturns)
  exact absurd hcrt.single (by decide)

end Directory

end Bridge
end Yca
