import Yca.Cfg.Accepted
import Yca.Core.Labels
import Mathlib.Data.List.TakeWhile

/-!
# Lists and maps in one column

The store keeps a list of a `[ca.<purpose>]` section as one text with commas between
its entries, and the policies of the section as entries `profile=oids` with semicolons
between them (`join_profiles`, `join_policies` of `src/ca.cpp`).  What is joined comes
apart again where no entry of a list is empty and no separator stands in one; every
configuration that is accepted is of that kind.
-/

namespace Yca
namespace Cfg

open Yca.Core

section Columns

/-- Texts one after another with a separator between them; an empty one in front
leaves no trace. -/
def joinSep (sep : Char) (l : List String) : String :=
  l.foldl (fun out p => (if out = "" then out else out ++ String.singleton sep) ++ p) ""

/-- The texts between separators; nothing follows the last separator.  `cur` is
what stands before the text at hand. -/
def splitSep (sep : Char) : List Char → List Char → List (List Char)
  | cur, [] => if cur = [] then [] else [cur]
  | cur, c :: cs =>
      if c = sep then cur :: splitSep sep [] cs else splitSep sep (cur ++ [c]) cs

/-- `join_profiles`. -/
def joinProfiles (profiles : List String) : String :=
  joinSep ',' profiles

/-- `split_profiles`. -/
def splitProfiles (s : String) : List String :=
  (splitSep ',' [] s.toList).map String.ofList

/-- One entry of `join_policies`. -/
def joinPolicy (e : String × List String) : String :=
  e.1 ++ "=" ++ joinProfiles e.2

/-- `join_policies`. -/
def joinPolicies (policies : OrderedMap String (List String)) : String :=
  joinSep ';' (policies.entries.map joinPolicy)

/-- One entry of `split_policies`. -/
def splitPolicy (entry : List Char) : String × List String :=
  let prof := entry.takeWhile fun c => c != '='
  let oids := if entry.contains '=' then entry.drop (prof.length + 1) else entry
  (String.ofList prof, splitProfiles (String.ofList oids))

/-- `split_policies`. -/
def splitPolicies (s : String) : OrderedMap String (List String) :=
  ((splitSep ';' [] s.toList).map splitPolicy).foldl (fun m e => m.insert e.1 e.2) .empty

theorem splitSep_append
    {sep : Char}
    {p : List Char}
    (hp : sep ∉ p)
    (cur rest : List Char) :
    splitSep sep cur (p ++ rest) = splitSep sep (cur ++ p) rest := by
  induction p generalizing cur with
  | nil => simp
  | cons c cs ih =>
      have hc : c ≠ sep := by
        rintro rfl
        exact hp List.mem_cons_self
      rw [List.cons_append, splitSep, if_neg hc,
        ih fun hmem => hp (List.mem_cons_of_mem _ hmem)]
      simp

theorem splitSep_flatMap
    {sep : Char}
    {l : List (List Char)}
    (hne : ∀ p ∈ l, p ≠ [])
    (hsep : ∀ p ∈ l, sep ∉ p)
    {cur : List Char}
    (hcur : cur ≠ []) :
    splitSep sep cur (l.flatMap fun p => sep :: p) = cur :: l := by
  induction l generalizing cur with
  | nil => simp [splitSep, hcur]
  | cons p rest ih =>
      have hrest := ih (fun q hq => hne q (List.mem_cons_of_mem _ hq))
        (fun q hq => hsep q (List.mem_cons_of_mem _ hq)) (hne p List.mem_cons_self)
      rw [List.flatMap_cons, List.cons_append, splitSep, if_pos rfl,
        splitSep_append (hsep p List.mem_cons_self), List.nil_append, hrest]

theorem joinSep_go
    {sep : Char}
    {l : List String}
    {out : String}
    (hout : out ≠ "") :
    (l.foldl (fun out p => (if out = "" then out else out ++ String.singleton sep) ++ p) out).toList =
      out.toList ++ l.flatMap fun p => sep :: p.toList := by
  induction l generalizing out with
  | nil => simp
  | cons p rest ih =>
      have hnext : out ++ String.singleton sep ++ p ≠ "" := by
        intro h
        have := congrArg String.toList h
        simp at this
      rw [List.foldl_cons, if_neg hout, ih hnext]
      simp

theorem joinSep_cons
    {sep : Char}
    {p : String}
    (hp : p ≠ "")
    (l : List String) :
    (joinSep sep (p :: l)).toList = p.toList ++ l.flatMap fun q => sep :: q.toList := by
  unfold joinSep
  rw [List.foldl_cons, if_pos rfl, String.empty_append]
  exact joinSep_go hp

/-- What was joined comes apart again. -/
theorem splitSep_joinSep
    {sep : Char}
    {l : List String}
    (hne : ∀ p ∈ l, p ≠ "")
    (hsep : ∀ p ∈ l, sep ∉ p.toList) :
    splitSep sep [] (joinSep sep l).toList = l.map String.toList := by
  cases l with
  | nil => rfl
  | cons p rest =>
      have hp : p.toList ≠ [] := by
        simpa using hne p List.mem_cons_self
      have hflat : (rest.flatMap fun q => sep :: q.toList) =
          (rest.map String.toList).flatMap fun q => sep :: q := by
        rw [List.flatMap_map]
      rw [joinSep_cons (hne p List.mem_cons_self), splitSep_append (hsep p List.mem_cons_self),
        List.nil_append, hflat, splitSep_flatMap _ _ hp]
      · rfl
      · intro q hq
        obtain ⟨q', hq', rfl⟩ := List.mem_map.mp hq
        simpa using hne q' (List.mem_cons_of_mem _ hq')
      · intro q hq
        obtain ⟨q', hq', rfl⟩ := List.mem_map.mp hq
        exact hsep q' (List.mem_cons_of_mem _ hq')

/-- A character of a joined text is a separator or stands in one of the texts. -/
theorem mem_joinSep
    {sep c : Char}
    {l : List String}
    (hne : ∀ p ∈ l, p ≠ "")
    (h : c ∈ (joinSep sep l).toList) :
    c = sep ∨ ∃ p ∈ l, c ∈ p.toList := by
  cases l with
  | nil => simp [joinSep] at h
  | cons p rest =>
      rw [joinSep_cons (hne p List.mem_cons_self), List.mem_append, List.mem_flatMap] at h
      rcases h with h | ⟨q, hq, h⟩
      · exact Or.inr ⟨p, List.mem_cons_self, h⟩
      · rcases List.mem_cons.mp h with rfl | h
        · exact Or.inl rfl
        · exact Or.inr ⟨q, List.mem_cons_of_mem _ hq, h⟩

/-- What a list has to be like to come apart again. -/
def Separable (l : List String) : Prop :=
  ∀ p ∈ l, p ≠ "" ∧ ',' ∉ p.toList

instance (l : List String) : Decidable (Separable l) :=
  inferInstanceAs (Decidable (∀ p ∈ l, p ≠ "" ∧ ',' ∉ p.toList))

/-- What a policy map has to be like to come apart again.  A list may be empty, and a
name too. -/
def SeparablePolicies (policies : OrderedMap String (List String)) : Prop :=
  ∀ prof oids, policies.find? prof = some oids →
    ';' ∉ prof.toList ∧ '=' ∉ prof.toList ∧ ∀ oid ∈ oids, oid ≠ "" ∧ ',' ∉ oid.toList ∧ ';' ∉ oid.toList

theorem splitProfiles_joinProfiles
    {l : List String}
    (h : Separable l) :
    splitProfiles (joinProfiles l) = l := by
  have hne : ∀ p ∈ l, p ≠ "" := fun p hp => (h p hp).1
  have hsep : ∀ p ∈ l, ',' ∉ p.toList := fun p hp => (h p hp).2
  rw [splitProfiles, joinProfiles, splitSep_joinSep hne hsep, List.map_map]
  exact List.map_id'' (fun s => String.ofList_toList) l

theorem toList_joinPolicy (e : String × List String) :
    (joinPolicy e).toList = e.1.toList ++ '=' :: (joinProfiles e.2).toList := by
  simp [joinPolicy]

/-- An entry is never empty. -/
theorem joinPolicy_ne_empty (e : String × List String) : joinPolicy e ≠ "" := by
  intro h
  have hnil := congrArg String.toList h
  rw [toList_joinPolicy] at hnil
  simp at hnil

/-- The first `=` of an entry is the one behind its profile. -/
theorem splitPolicy_joinPolicy
    {e : String × List String}
    (hprof : '=' ∉ e.1.toList)
    (hoids : Separable e.2) :
    splitPolicy (joinPolicy e).toList = e := by
  have hmem : (e.1.toList ++ '=' :: (joinProfiles e.2).toList).contains '=' = true := by simp
  have hdrop : (e.1.toList ++ '=' :: (joinProfiles e.2).toList).drop (e.1.toList.length + 1) =
      (joinProfiles e.2).toList := by
    simp
  rw [toList_joinPolicy]
  unfold splitPolicy
  simp only [takeWhile_before hprof, hmem, if_true, hdrop, String.ofList_toList]
  rw [splitProfiles_joinProfiles hoids]

/-- A character of an entry is one of its profile, the sign between the two, a comma or
one of an identifier. -/
theorem mem_joinPolicy
    {e : String × List String}
    (hoids : ∀ oid ∈ e.2, oid ≠ "")
    {c : Char}
    (hc : c ∈ (joinPolicy e).toList) :
    c ∈ e.1.toList ∨ c = '=' ∨ c = ',' ∨ ∃ oid ∈ e.2, c ∈ oid.toList := by
  rw [toList_joinPolicy] at hc
  rcases List.mem_append.mp hc with hc | hc
  · exact Or.inl hc
  · rcases List.mem_cons.mp hc with rfl | hc
    · exact Or.inr (Or.inl rfl)
    · exact Or.inr (Or.inr (mem_joinSep hoids hc))

theorem splitPolicies_joinPolicies
    {policies : OrderedMap String (List String)}
    (h : SeparablePolicies policies) :
    splitPolicies (joinPolicies policies) = policies := by
  have hentry : ∀ e ∈ policies.entries, ';' ∉ e.1.toList ∧ '=' ∉ e.1.toList ∧
      ∀ oid ∈ e.2, oid ≠ "" ∧ ',' ∉ oid.toList ∧ ';' ∉ oid.toList :=
    fun e he => h e.1 e.2 (OrderedMap.mem_entries_iff.mp he)
  have hne : ∀ p ∈ policies.entries.map joinPolicy, p ≠ "" := by
    intro p hp
    obtain ⟨e, _, rfl⟩ := List.mem_map.mp hp
    exact joinPolicy_ne_empty e
  have hsemicolon : ∀ p ∈ policies.entries.map joinPolicy, ';' ∉ p.toList := by
    intro p hp hmem
    obtain ⟨e, he, rfl⟩ := List.mem_map.mp hp
    obtain ⟨hprof, _, hoids⟩ := hentry e he
    rcases mem_joinPolicy (fun oid hoid => (hoids oid hoid).1) hmem with hmem | hmem | hmem | hmem
    · exact hprof hmem
    · simp at hmem
    · simp at hmem
    · obtain ⟨oid, hoid, hmem⟩ := hmem
      exact (hoids oid hoid).2.2 hmem
  have hsplit : ((policies.entries.map joinPolicy).map String.toList).map splitPolicy =
      policies.entries := by
    rw [List.map_map, List.map_map]
    refine (List.map_congr_left fun e he => ?_).trans (List.map_id _)
    obtain ⟨_, hprof, hoids⟩ := hentry e he
    exact splitPolicy_joinPolicy hprof fun oid hoid => ⟨(hoids oid hoid).1, (hoids oid hoid).2.1⟩
  rw [splitPolicies, joinPolicies, splitSep_joinSep hne hsemicolon, hsplit]
  exact OrderedMap.foldl_insert_entries policies

example : splitPolicies "server=1.2,1.3;client=" =
    (OrderedMap.empty.insert "server" ["1.2", "1.3"]).insert "client" [] := by decide

end Columns

section Accepted

variable {oidText : String → Option String}

theorem separable_of_words
    {l : List String}
    (h : ∀ p ∈ l, Word p ∧ p ≠ "") :
    Separable l :=
  fun p hp => ⟨(h p hp).2, (h p hp).1.not_mem (by decide)⟩

theorem separablePolicies_of_words
    {policies : OrderedMap String (List String)}
    (h : ∀ prof oids, policies.find? prof = some oids →
      Word prof ∧ ∀ oid ∈ oids, Word oid ∧ oid ≠ "") :
    SeparablePolicies policies := by
  intro prof oids hfind
  obtain ⟨hprof, hoids⟩ := h prof oids hfind
  refine ⟨hprof.not_mem (by decide), hprof.not_mem (by decide), fun oid hoid => ?_⟩
  obtain ⟨hword, hne⟩ := hoids oid hoid
  exact ⟨hne, hword.not_mem (by decide), hword.not_mem (by decide)⟩

/-- What the checks of a section leave of its lists. -/
theorem SigningCa.Valid.words
    (hoid : DottedDecimal oidText)
    {rootDays : Int}
    {ca : SigningCa}
    (h : ca.Valid oidText rootDays) :
    (∀ p ∈ ca.profiles, Word p ∧ p ≠ "") ∧ (∀ name ∈ ca.permittedDns, Word name ∧ name ≠ "") ∧
      (∀ name ∈ ca.permittedEmail, Word name ∧ name ≠ "") ∧
      ∀ prof oids, ca.policies.find? prof = some oids →
        Word prof ∧ ∀ oid ∈ oids, Word oid ∧ oid ≠ "" := by
  refine ⟨fun p hp => word_of_profile (h.known p hp),
    fun name hname => word_of_subtree (h.permittedDns name hname),
    fun name hname => word_of_subtree (h.permittedEmail name hname), ?_⟩
  intro prof oids hfind
  obtain ⟨hprof, _, hoids⟩ := h.policies prof oids hfind
  exact ⟨(word_of_profile (h.known prof hprof)).1, fun oid hmem => word_of_policy hoid (hoids oid hmem)⟩

/-- What is written into a column is read back: lists of texts that are not empty and
hold no comma, policy maps likewise, and with them all lists and maps of a configuration
that `load` accepts. -/
theorem columns_read_back
    (hoid : DottedDecimal oidText)
    (parse : String → Except ParseError Toml.Table) :
    (∀ l, Separable l → splitProfiles (joinProfiles l) = l) ∧
      (∀ policies, SeparablePolicies policies → splitPolicies (joinPolicies policies) = policies) ∧
      ∀ path file c, load oidText parse path file = .ok c →
        ∀ purpose ca, c.cas.find? purpose = some ca →
          Separable ca.profiles ∧ Separable ca.permittedDns ∧ Separable ca.permittedEmail ∧
            SeparablePolicies ca.policies := by
  refine ⟨fun l => splitProfiles_joinProfiles, fun policies => splitPolicies_joinPolicies, ?_⟩
  intro path file c hload purpose ca hca
  obtain ⟨hprofiles, hdns, hemail, hpolicies⟩ := ((load_accepted hload).cas purpose ca hca).2.words hoid
  exact ⟨separable_of_words hprofiles, separable_of_words hdns, separable_of_words hemail,
    separablePolicies_of_words hpolicies⟩

theorem columns_read_back_sample :
    splitProfiles (joinProfiles ["server", "client"]) = ["server", "client"] ∧
      ∀ ca, (sampleConfig "Example Ltd").cas.find? "tls" = some ca →
        SeparablePolicies ca.policies := by
  have h := columns_read_back sampleOid_dotted (sampleParse "Example Ltd" "Example Ltd")
  refine ⟨h.1 _ (by decide), fun ca hca => ?_⟩
  exact (h.2.2 _ _ _ (sample_load "Example Ltd" sample_errors) "tls" ca hca).2.2.2

end Accepted

end Cfg
end Yca
