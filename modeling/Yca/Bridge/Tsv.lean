import Yca.Bridge.Duplicates
import Yca.Ca.Listing
import Yca.Cfg.Locked
import Yca.Core.Separated

/-!
# Output for scripts

`list --tsv` prints a header and a line for each row it lists, the columns between tabs.
`sign` prints the common name it has certified, and `get --cn -` takes the first line of
its input for one.  None of them escapes anything, and the common name of a `client`
certificate and of a CA is free-form.
-/

namespace Yca
namespace Bridge

open Yca.Core Ca
open Cfg (dbText dbText_eq_self_iff)

section Time

/-- `std::tm` as far as it is printed. -/
structure Tm where
  year : Int
  month : Nat
  day : Nat
  hour : Nat
  minute : Nat
  deriving DecidableEq

/-- A `size_t` as a `time_t`. -/
def timeT (e : Nat) : Int :=
  (e : Int).bmod (2 ^ 64)

/-- `gmtime_r`. -/
def gmtime (t : Int) : Tm :=
  let secs := (t % 86400).toNat
  -- years from March on, in eras of 400 years
  let z := t / 86400 + 719468
  let doe := (z % 146097).toNat
  let yoe := (doe - doe / 1460 + doe / 36524 - doe / 146096) / 365
  let doy := doe - (365 * yoe + yoe / 4 - yoe / 100)
  let mp := (5 * doy + 2) / 153
  let month := if mp < 10 then mp + 3 else mp - 9
  { year := yoe + z / 146097 * 400 + if month ≤ 2 then 1 else 0
    month := month
    day := doy - (153 * mp + 2) / 5 + 1
    hour := secs / 3600
    minute := secs / 60 % 60 }

/-- `%m`, `%d`, `%H` and `%M` of `strftime`. -/
def twoDigits (n : Nat) : String :=
  if n < 10 then "0" ++ toString n else toString n

/-- `fmt_epoch`. -/
def fmtEpoch (e : Nat) : String :=
  let tm := gmtime (timeT e)
  toString tm.year ++ "-" ++ twoDigits tm.month ++ "-" ++ twoDigits tm.day ++ " " ++
    twoDigits tm.hour ++ ":" ++ twoDigits tm.minute ++ " UTC"

end Time

section Listing

/-- The text of a `kind` column. -/
def kindText : Kind → String
  | .ca .root => "root"
  | .ca .signing => "signing"
  | .ee .server => "server"
  | .ee .client => "client"
  | .ee .email => "email"

/-- The columns of a line. -/
def fieldsOf (l : Line) : List String :=
  [l.cn, kindText l.kind, l.serial, l.expires, l.status]

/-- The names of the columns. -/
def tsvHeader : List String :=
  ["CN", "KIND", "SERIAL", "EXPIRES", "STATUS"]

/-- `std::print("{}\t{}\t{}\t{}\t{}\n", ...)`. -/
def printRow (fields : List String) : String :=
  "\t".intercalate fields ++ "\n"

/-- The lines `list --tsv` prints. -/
def tsvText (lines : List Line) : String :=
  String.join (printRow tsvHeader :: lines.map fun l => printRow (fieldsOf l))

/-- A line of what the statement returned: `get_str` reads a text up to its first NUL. -/
def readLine (l : Line) : Line :=
  { l with cn := dbText l.cn, serial := dbText l.serial }

/-- `list --tsv`. -/
def listTsv (db : Db) (filter : Filter) (days limit : Int) (now : Nat) : String :=
  tsvText ((listCerts fmtEpoch db filter days limit now).1.map readLine)

/-- A script takes the output apart: lines at newlines, fields at tabs. -/
def parseTsv (out : String) : List (List String) :=
  (readRows '\t' '\n' out.toList).map fun row => row.map String.ofList

/-- The rows that are listed. -/
def listedRows (db : Db) (filter : Filter) (days limit : Int) (now : Nat) : List CertRow :=
  if limit > 0 then (selectRows db filter days now).take limit.toNat
  else selectRows db filter days now

/-- A common name of a listed row is cut or split by nothing. -/
def Scriptable (cn : String) : Prop :=
  '\t' ∉ cn.toList ∧ '\n' ∉ cn.toList ∧ '\x00' ∉ cn.toList

instance (cn : String) : Decidable (Scriptable cn) :=
  inferInstanceAs (Decidable (_ ∧ _ ∧ _))

end Listing

section Pipe

/-- What `sign` prints. -/
def signOutput (cn : String) : String :=
  cn ++ "\n"

/-- `std::getline`. -/
def getline (input : String) : String :=
  String.ofList (input.toList.takeWhile fun c => c != '\n')

/-- The common name of `get --cn -`. -/
def pipedCn (input : String) : Option String :=
  if getline input = "" then none else some (getline input)

end Pipe

section Plain

/-- The text splits and cuts nothing. -/
def Plain (s : String) : Prop :=
  ∀ c ∈ s.toList, c ≠ '\t' ∧ c ≠ '\n' ∧ c ≠ '\x00'

instance (s : String) : Decidable (Plain s) :=
  List.decidableBAll _ _

theorem Plain.append
    {a b : String}
    (ha : Plain a)
    (hb : Plain b) :
    Plain (a ++ b) := by
  intro c hc
  rw [String.toList_append] at hc
  rcases List.mem_append.mp hc with hc | hc
  · exact ha c hc
  · exact hb c hc

theorem scriptable_iff {cn : String} :
    Scriptable cn ↔ Plain cn := by
  constructor
  · rintro ⟨htab, hnewline, hnul⟩ c hc
    exact ⟨fun heq => htab (heq ▸ hc), fun heq => hnewline (heq ▸ hc), fun heq => hnul (heq ▸ hc)⟩
  · intro h
    exact ⟨fun hc => (h _ hc).1 rfl, fun hc => (h _ hc).2.1 rfl, fun hc => (h _ hc).2.2 rfl⟩

/-- Digits split nothing. -/
theorem plain_toString (n : Nat) :
    Plain (toString n) := by
  intro c hc
  have hdigit := decimal_toString hc
  refine ⟨?_, ?_, ?_⟩ <;> rintro rfl <;> revert hdigit <;> decide

theorem plain_year (y : Int) :
    Plain (toString y) := by
  cases y with
  | ofNat n => exact plain_toString n
  | negSucc n => exact Plain.append (a := "-") (by decide) (plain_toString (n + 1))

theorem plain_twoDigits (n : Nat) :
    Plain (twoDigits n) := by
  unfold twoDigits
  split
  · exact Plain.append (by decide) (plain_toString n)
  · exact plain_toString n

theorem plain_fmtEpoch (e : Nat) :
    Plain (fmtEpoch e) := by
  have hdash : Plain "-" := by decide
  have hyear := (plain_year (gmtime (timeT e)).year).append hdash
  have hmonth := (hyear.append (plain_twoDigits (gmtime (timeT e)).month)).append hdash
  have hday := (hmonth.append (plain_twoDigits (gmtime (timeT e)).day)).append
    (b := " ") (by decide)
  have hhour := (hday.append (plain_twoDigits (gmtime (timeT e)).hour)).append
    (b := ":") (by decide)
  exact (hhour.append (plain_twoDigits (gmtime (timeT e)).minute)).append (by decide)

theorem plain_kindText (kind : Kind) :
    Plain (kindText kind) := by
  rcases kind with kind | profile
  · cases kind <;> decide
  · cases profile <;> decide

/-- A digit of a serial splits nothing. -/
theorem hexDigit_splits : ∀ n : Fin 16,
    hexDigit n ≠ '\t' ∧ hexDigit n ≠ '\n' ∧ hexDigit n ≠ '\x00' := by
  decide

theorem plain_hexEncode (bs : List UInt8) :
    Plain (hexEncode bs) := by
  have hdigits : ∀ c ∈ hexDigits bs, c ≠ '\t' ∧ c ≠ '\n' ∧ c ≠ '\x00' := by
    induction bs with
    | nil => simp [hexDigits]
    | cons b bs ih =>
        have hb := b.toNat_lt
        simp only [hexDigits, List.mem_cons, forall_eq_or_imp]
        exact ⟨hexDigit_splits ⟨b.toNat / 16, by omega⟩, hexDigit_splits ⟨b.toNat % 16, by omega⟩, ih⟩
  intro c hc
  rw [hexEncode, String.toList_ofList] at hc
  exact hdigits c hc

theorem plain_lineStatus (now : Nat) (row : CertRow) :
    Plain (lineStatus now row) := by
  unfold lineStatus
  split
  · decide
  · split <;> decide

end Plain

section RoundTrip

variable {db : Db} {filter : Filter} {days limit : Int} {now : Nat} {row : CertRow}

/-- The lines are those of the listed rows. -/
theorem listCerts_lines (fmt : Nat → String) :
    (listCerts fmt db filter days limit now).1 =
      (listedRows db filter days limit now).map (lineOf fmt now) := by
  unfold listCerts listedRows
  by_cases hlimit : limit > 0
  · simp only [hlimit, if_true, true_and]
    split
    · rw [← List.map_take, List.take_take, Nat.min_eq_left (Nat.le_succ _)]
    · rename_i hfew
      rw [List.length_map, List.length_take] at hfew
      rw [List.take_of_length_le (by omega), List.take_of_length_le (by omega)]
  · simp only [hlimit, if_false, false_and]

theorem plain_serial
    (hrow : row.Faithful) :
    Plain (lineOf fmtEpoch now row).serial := by
  intro c hc
  rw [lineOf, String.toList_ofList, hrow.serial] at hc
  exact plain_hexEncode _ c (List.mem_of_mem_take hc)

/-- Every column but the common name splits nothing. -/
theorem plain_columns
    (hrow : row.Faithful) :
    ∀ field ∈ (fieldsOf (lineOf fmtEpoch now row)).tail, Plain field := by
  simp only [fieldsOf, List.tail_cons, List.mem_cons, List.not_mem_nil, or_false, forall_eq_or_imp,
    forall_eq]
  exact ⟨plain_kindText _, plain_serial hrow, plain_fmtEpoch _, plain_lineStatus now row⟩

/-- `get_str` may cut the common name, and nothing else. -/
theorem readLine_lineOf
    (hrow : row.Faithful) :
    readLine (lineOf fmtEpoch now row) =
      { lineOf fmtEpoch now row with cn := dbText row.cn } := by
  have hserial : dbText (lineOf fmtEpoch now row).serial = (lineOf fmtEpoch now row).serial :=
    dbText_eq_self_iff.mpr fun hc => (plain_serial hrow _ hc).2.2 rfl
  unfold readLine
  rw [hserial]
  rfl

/-- The text of a table of fields. -/
theorem tsvText_toList (lines : List Line) :
    (tsvText lines).toList =
      writeRows '\t' '\n' ((tsvHeader :: lines.map fieldsOf).map fun row =>
        row.map String.toList) := by
  have hrow : ∀ fields : List String,
      (printRow fields).toList = writeRow '\t' '\n' (fields.map String.toList) := by
    intro fields
    rw [printRow, String.toList_append, String.toList_intercalate]
    rfl
  rw [tsvText, String.toList_join, writeRows]
  simp only [List.map_cons, List.map_map, List.flatMap_cons, List.flatMap_map, hrow,
    Function.comp_def]

/-- What is taken apart, in lists of characters. -/
theorem parseTsv_eq_iff
    {out : String}
    {rows : List (List String)} :
    parseTsv out = rows ↔
      readRows '\t' '\n' out.toList = rows.map fun row => row.map String.toList := by
  unfold parseTsv
  constructor
  · rintro rfl
    simp [Function.comp_def]
  · intro h
    rw [h]
    simp [Function.comp_def]

/-- The printed text holds no NUL. -/
theorem nul_not_mem_tsvText
    {rows : List CertRow}
    (hrows : ∀ row ∈ rows, row.Faithful) :
    '\x00' ∉ (tsvText ((rows.map (lineOf fmtEpoch now)).map readLine)).toList := by
  rw [tsvText_toList]
  intro hmem
  rcases mem_writeRows hmem with htab | hnewline | ⟨chars, hchars, field, hfield, hnul⟩
  · revert htab
    decide
  · revert hnewline
    decide
  · obtain ⟨fields, hfields, rfl⟩ := List.mem_map.mp hchars
    obtain ⟨text, htext, rfl⟩ := List.mem_map.mp hfield
    have hplain : '\x00' ∉ text.toList := by
      rcases List.mem_cons.mp hfields with rfl | hfields
      · have hheader : ∀ text ∈ tsvHeader, Plain text := by decide
        exact fun hc => (hheader text htext _ hc).2.2 rfl
      · simp only [List.map_map, List.mem_map] at hfields
        obtain ⟨row, hrow, rfl⟩ := hfields
        rw [Function.comp_apply, Function.comp_apply, readLine_lineOf (hrows row hrow)] at htext
        rcases List.mem_cons.mp htext with rfl | hcolumn
        · rw [dbText, String.toList_ofList]
          intro hc
          have hkept := List.mem_takeWhile_imp hc
          simp at hkept
        · exact fun hc => (plain_columns (hrows row hrow) text hcolumn _ hc).2.2 rfl
    exact hplain hnul

/-- The output is taken apart into the listed rows exactly when nothing splits or cuts
their common names. -/
theorem listTsv_iff
    (hdb : ∀ row ∈ db.certIndex, row.Faithful) :
    parseTsv (listTsv db filter days limit now) =
        tsvHeader :: (listCerts fmtEpoch db filter days limit now).1.map fieldsOf ↔
      ∀ row ∈ listedRows db filter days limit now, Scriptable row.cn := by
  have hrows : ∀ row ∈ listedRows db filter days limit now, row.Faithful := by
    intro row hrow
    have hselected : row ∈ selectRows db filter days now := by
      unfold listedRows at hrow
      split at hrow
      · exact List.mem_of_mem_take hrow
      · exact hrow
    exact hdb row (mem_selectRows.mp hselected).1
  have hheader : ∀ text ∈ tsvHeader, Plain text := by decide
  rw [listTsv, listCerts_lines]
  constructor
  · intro hparse row hrow
    have hread := parseTsv_eq_iff.mp hparse
    have hfields : fieldsOf (lineOf fmtEpoch now row) ∈
        tsvHeader :: ((listedRows db filter days limit now).map (lineOf fmtEpoch now)).map
          fieldsOf :=
      List.mem_cons_of_mem _ (List.mem_map_of_mem (List.mem_map_of_mem hrow))
    have hline : (fieldsOf (lineOf fmtEpoch now row)).map String.toList ∈ readRows '\t' '\n'
        (tsvText (((listedRows db filter days limit now).map (lineOf fmtEpoch now)).map
          readLine)).toList := by
      rw [hread]
      exact List.mem_map_of_mem hfields
    have hcn : row.cn.toList ∈ (fieldsOf (lineOf fmtEpoch now row)).map String.toList :=
      List.mem_cons_self
    obtain ⟨htab, hnewline⟩ := separable_readRows _ _ hline _ hcn
    exact ⟨htab, hnewline, fun hnul =>
      nul_not_mem_tsvText hrows (mem_of_mem_readRows hline hcn hnul)⟩
  · intro hplain
    have hread : ((listedRows db filter days limit now).map (lineOf fmtEpoch now)).map readLine =
        (listedRows db filter days limit now).map (lineOf fmtEpoch now) := by
      rw [List.map_map]
      refine List.map_congr_left ?_
      intro row hrow
      have hcn : dbText row.cn = row.cn := dbText_eq_self_iff.mpr (hplain row hrow).2.2
      rw [Function.comp_apply, readLine_lineOf (hrows row hrow), hcn]
      rfl
    rw [hread, parseTsv_eq_iff, tsvText_toList]
    refine readRows_writeRows (by decide) ?_ ?_
    · intro chars hchars
      obtain ⟨fields, hfields, rfl⟩ := List.mem_map.mp hchars
      rcases List.mem_cons.mp hfields with rfl | hfields
      · decide
      · obtain ⟨l, _, rfl⟩ := List.mem_map.mp hfields
        simp [fieldsOf]
    · intro chars hchars field hfield
      obtain ⟨fields, hfields, rfl⟩ := List.mem_map.mp hchars
      obtain ⟨text, htext, rfl⟩ := List.mem_map.mp hfield
      have htextPlain : Plain text := by
        rcases List.mem_cons.mp hfields with rfl | hfields
        · exact hheader text htext
        · simp only [List.map_map, List.mem_map] at hfields
          obtain ⟨row, hrow, rfl⟩ := hfields
          rcases List.mem_cons.mp htext with rfl | hcolumn
          · exact scriptable_iff.mp (hplain row hrow)
          · exact plain_columns (hrows row hrow) text hcolumn
      exact ⟨fun hc => (htextPlain _ hc).1 rfl, fun hc => (htextPlain _ hc).2.1 rfl⟩

end RoundTrip

section FirstLine

variable {lib : Parsers} {profile : Profile} {r : Csr} {names : Names}

/-- A common name survives the pipe exactly when it is one line. -/
theorem pipedCn_iff (cn : String) :
    pipedCn (signOutput cn) = some cn ↔ cn ≠ "" ∧ '\n' ∉ cn.toList := by
  have hline : getline (signOutput cn) = cn ↔ '\n' ∉ cn.toList := by
    rw [getline, signOutput, ← String.toList_inj, String.toList_ofList, String.toList_append]
    constructor
    · intro h hmem
      rw [← h] at hmem
      have hkept := List.mem_takeWhile_imp hmem
      simp at hkept
    · intro h
      exact takeWhile_before h []
  constructor
  · intro h
    unfold pipedCn at h
    split at h
    · simp at h
    · rename_i hne
      have hcn := Option.some.inj h
      rw [hcn] at hne
      exact ⟨hne, hline.mp hcn⟩
  · rintro ⟨hne, hone⟩
    rw [pipedCn, hline.mpr hone, if_neg hne]

/-- The common name of a profile that names a host or a mailbox is checked. -/
theorem checked_of_signNames
    (hprofile : profile ≠ .client)
    (h : signNames lib profile r = some names) :
    dnsSafe names.commonName = true ∨ asciiGraphic names.commonName = true := by
  unfold signNames at h
  split at h
  · simp at h
  · split at h
    · simp at h
    · rename_i cn hcn
      split at h
      · simp at h
      · rename_i hsans
        simp only [Bool.or_eq_true, not_or, Bool.not_eq_true', Bool.not_eq_false] at hsans
        split at h
        · split at h
          · simp at h
          · rename_i hsafe
            split at h
            · simp at h
            · rw [← Option.some.inj h]
              exact Or.inl (by simpa using hsafe)
        · rename_i hsubject
          exact absurd hsubject (by cases profile <;> simp [Profile.subject] at hprofile ⊢)
        · split at h
          · rename_i hmail
            rw [← Option.some.inj h]
            exact Or.inr (List.all_eq_true.mp hsans.1.1.2 cn (by simpa using hmail))
          · simp at h

/-- Such a common name is one line. -/
theorem oneLine_of_signNames
    (hprofile : profile ≠ .client)
    (h : signNames lib profile r = some names) :
    names.commonName ≠ "" ∧ '\n' ∉ names.commonName.toList := by
  rcases checked_of_signNames hprofile h with hsafe | hgraphic
  · refine ⟨dnsSafe_ne_empty hsafe, ?_⟩
    intro hmem
    rcases dnsSafe_chars hsafe _ hmem with halnum | hother
    · revert halnum
      decide
    · revert hother
      decide
  · simp only [asciiGraphic, Bool.and_eq_true, Bool.not_eq_true', List.isEmpty_eq_false_iff,
      List.all_eq_true, decide_eq_true_eq] at hgraphic
    refine ⟨?_, ?_⟩
    · rintro hempty
      rw [hempty] at hgraphic
      exact hgraphic.1 rfl
    · intro hmem
      have hprintable := hgraphic.2 _ hmem
      revert hprintable
      decide

end FirstLine

section Results

/-- In every store reached by any commands in any order, the output of `list --tsv` is
taken apart into the listed rows exactly when their common names hold no tab, no newline
and no NUL; and what `sign` prints selects the name it certified, but for a `client`
certificate whose name is empty or more than one line. -/
theorem output_parsed_iff
    {w : World Store (Request × Command)}
    (hw : (ycaCalls.system Initialised).Reachable (Rules.free.calls fun _ => True) w) :
    (∀ filter days limit now,
      parseTsv (listTsv w.shared.db filter days limit now) =
          tsvHeader :: (listCerts fmtEpoch w.shared.db filter days limit now).1.map fieldsOf ↔
        ∀ row ∈ listedRows w.shared.db filter days limit now, Scriptable row.cn) ∧
    ∀ lib profile r names, signNames lib profile r = some names →
      (pipedCn (signOutput names.commonName) = some names.commonName ↔
        (profile = .client → names.commonName ≠ "" ∧ '\n' ∉ names.commonName.toList)) := by
  constructor
  · intro filter days limit now
    exact listTsv_iff (faithful_of_reachable hw)
  · intro lib profile r names hsign
    rw [pipedCn_iff]
    by_cases hprofile : profile = .client
    · simp [hprofile]
    · simp [hprofile, oneLine_of_signNames hprofile hsign]

/-- A `client` certificate, then a `server` certificate. -/
def tabLabels : List (Action Choice Request Outside) :=
  [.spawn 0 (.issueEe .client "a\tb" none)] ++ acts 0 10 (sampleChoice 31) ++
    [.spawn 0 (.issueEe .server "a.ca" none)] ++ acts 0 10 (sampleChoice 32)

/-- Both certificates are listed by their names. -/
theorem tabLabels_reached :
    ∃ w : World Store (Request × Command),
      (ycaCalls.system Initialised).Reachable (Rules.free.calls fun _ => True) w ∧
      ∀ cn ∈ ["a\tb", "a.ca"], ∃ row ∈ selectRows w.shared.db (.cn cn) 0 0, row.cn = cn := by
  have h :
      ((ycaCalls.system Initialised).follow (Rules.free.calls fun _ => True)
        (World.idle sampleStore) tabLabels).any
        (fun w => ["a\tb", "a.ca"].all fun cn => w.shared.db.certIndex.any fun row =>
          Filter.condition w.shared.db 0 (daysToSeconds 0) row (.cn cn) && row.cn == cn) =
          true := by
    decide
  obtain ⟨w, hrun, hcheck⟩ := Automaton.Run.exists_of_follow h
  have hw := Automaton.Reachable.of_run
    (M := ycaCalls.system Initialised) ⟨sampleStore_initialised, World.idle_quiet _⟩ hrun
  refine ⟨w, hw, ?_⟩
  intro cn hcn
  obtain ⟨row, hrow, hboth⟩ := List.any_eq_true.mp (List.all_eq_true.mp hcheck cn hcn)
  simp only [Bool.and_eq_true, beq_iff_eq] at hboth
  exact ⟨row, mem_selectRows.mpr ⟨hrow, hboth.1⟩, hboth.2⟩

/-- A listing of one host name. -/
theorem output_parsed_iff_sample :
    ∃ w : World Store (Request × Command),
      (listedRows w.shared.db (.cn "a.ca") 0 0 0).length ≠ 0 ∧
      parseTsv (listTsv w.shared.db (.cn "a.ca") 0 0 0) =
        tsvHeader :: (listCerts fmtEpoch w.shared.db (.cn "a.ca") 0 0 0).1.map fieldsOf := by
  obtain ⟨w, hw, hlisted⟩ := tabLabels_reached
  obtain ⟨row, hrow, _⟩ := hlisted "a.ca" (by simp)
  refine ⟨w, ?_, ((output_parsed_iff hw).1 (.cn "a.ca") 0 0 0).mpr ?_⟩
  · exact Nat.ne_of_gt (List.length_pos_of_mem hrow)
  · intro row hrow
    have hcn := (mem_selectRows.mp hrow).2
    have halias : aliasPurpose w.shared.db "a.ca" = "" := if_neg (by decide)
    have hname : row.cn = "a.ca" := by simpa [Filter.condition, halias] using hcn
    rw [hname]
    decide

/-- A request for a `client` certificate with a name of two lines. -/
def twoLines : Csr :=
  ⟨[(.utf8, "a\nb")], ["a.ca"], [], [], [], []⟩

/-- A tab in a common name adds a field to its line, and of two lines the first is taken
for the name. -/
theorem output_not_parsed :
    (∃ w : World Store (Request × Command),
      (ycaCalls.system Initialised).Reachable (Rules.free.calls fun _ => True) w ∧
      parseTsv (listTsv w.shared.db (.cn "a\tb") 0 0 0) ≠
        tsvHeader :: (listCerts fmtEpoch w.shared.db (.cn "a\tb") 0 0 0).1.map fieldsOf) ∧
    ∃ names, signNames plainParsers .client twoLines = some names ∧
      names.commonName = "a\nb" ∧
      pipedCn (signOutput names.commonName) = some "a" := by
  constructor
  · obtain ⟨w, hw, hlisted⟩ := tabLabels_reached
    obtain ⟨row, hrow, hcn⟩ := hlisted "a\tb" (by simp)
    refine ⟨w, hw, ?_⟩
    intro hparse
    have hplain := (listTsv_iff (faithful_of_reachable hw)).mp hparse row hrow
    rw [hcn] at hplain
    revert hplain
    decide
  · exact ⟨⟨"a\nb", ["a.ca"], [], [], []⟩, by decide, rfl, by decide⟩

end Results

end Bridge
end Yca
