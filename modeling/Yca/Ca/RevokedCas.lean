import Yca.Ca.Additions
import Yca.Ca.Outliving
import Yca.Ca.Succession
import Yca.Core.Refinement

/-!
# Revoked generations

`revoke_ca` takes a generation out of service: its row in `ca_cert_index` says
`revoked`, and no command ever writes another status there.  A call that issues
a leaf looks for the active generation once, in its second step, and goes on
with what it found.  So the only leaves that a revoked generation can still
sign are those of the calls that had found it before.
-/

namespace Yca
namespace Ca

open Yca.Core

section Choices

/-- The profile of the leaf a call issues. -/
def Request.leafProfile : Request → Option Profile
  | .issueEe profile _ _ => some profile
  | .signCsr profile .. => some profile
  | _ => none

/-- The generation a call issues for: the active one of its second step, by the
configuration of its first. -/
def Request.issuer (req : Request) (past : List Store) : Option CaGen :=
  req.leafProfile.bind fun profile =>
  past[0]?.bind fun read =>
  (read.db.loadConfig.caForProfile profile).bind fun ca =>
  past[1]?.map fun active => activeCa active.db read.db.loadConfig ca.purpose

/-- A leaf is issued for the generation the call has chosen, under the
certificate it found in that generation's file. -/
def Chooses (req : Request) (past : List Store) (_ : Store) (e : Event) : Prop :=
  ∀ cert issuer profile purpose id,
    e = .commit (.issue cert issuer profile purpose id) →
    ∃ g file,
      req.issuer past = some g ∧
      past[2]? = some file ∧
      file.pem g.slug = some issuer ∧
      purpose = g.purpose

theorem chooses_plain
    (req : Request)
    (past : List Store)
    (s : Store)
    (e : Event)
    (he : e.issued = none) :
    Chooses req past s e := by
  rintro cert issuer profile purpose id rfl
  simp [Event.issued] at he

/-- What `issue` does once it has read the certificate of its issuer. -/
theorem issue_keeps_issuer
    {past : List Store}
    {profile : Profile}
    {cn purpose : String}
    {validity : Nat}
    {signCert : Cert}
    {spec : CaSpec}
    {slug : String}
    {csrKey : Option Key}
    {enrolled : Option (String × String)} :
    Script.Notes
      (fun _ _ e => ∀ cert issuer profile' purpose' id,
        e = .commit (.issue cert issuer profile' purpose' id) →
        issuer = signCert ∧ purpose' = purpose) past
      (look fun _ s =>
        if outlivesIssuer signCert validity s.now then .halt
        else
          checkNonce enrolled .halt <|
          checkDuplicate cn profile .halt <|
          caKey signCert spec slug fun key =>
          beginWrite <|
          checkNonce enrolled abort <|
          checkDuplicate cn profile abort <|
          look fun k s =>
            let pub := csrKey.getD k.key
            let cert : Cert :=
              { serial := k.serial
                subjectCn := cn
                issuerCn := signCert.subjectCn
                notBefore := s.now
                notAfter := s.now + validity
                ski := pub
                aki := signCert.ski
                publicKey := pub
                signedBy := key.priv }
            commitWrite fun _ =>
              .issue cert signCert profile purpose (enrolled.map Prod.fst)) := by
  have hM : ∀ (past : List Store) (s : Store) (e : Event), e.issued = none →
      ∀ cert issuer profile' purpose' id,
        e = .commit (.issue cert issuer profile' purpose' id) →
        issuer = signCert ∧ purpose' = purpose := by
    rintro _ _ e he cert issuer profile' purpose' id rfl
    simp [Event.issued] at he
  refine note_look hM fun _ check => ?_
  split
  · trivial
  · refine note_checkNonce hM (fun _ => trivial) fun _ => ?_
    refine note_checkDuplicate hM (fun _ => trivial) fun _ => ?_
    refine note_key hM fun key _ => ?_
    refine note_beginWrite hM fun _ => ?_
    refine note_checkNonce hM (fun _ => note_abort hM) fun _ => ?_
    refine note_checkDuplicate hM (fun _ => note_abort hM) fun _ => ?_
    refine note_look hM fun k draw => ?_
    refine note_commitWrite hM fun t => ?_
    intro cert issuer profile' purpose' id htx
    obtain ⟨_, rfl, _, rfl, _⟩ := Tx.issue.inj (Event.commit.inj htx)
    exact ⟨rfl, rfl⟩

theorem chooses_issue
    {req : Request}
    {read : Store}
    {ca : SigningCa}
    {profile : Profile}
    {cn : String}
    {validity : Nat}
    {csrKey : Option Key}
    {enrolled : Option (String × String)}
    (hreq : req.leafProfile = some profile)
    (hca : read.db.loadConfig.caForProfile profile = some ca) :
    Script.Notes (Chooses req) [read]
      (issue read.db.loadConfig ca profile cn validity csrKey enrolled) := by
  refine note_look (chooses_plain req) fun _ active => ?_
  refine note_look (chooses_plain req) fun _ file => ?_
  split
  · trivial
  · rename_i signCert hfile
    have hmeets : ∀ past s e, [read] ++ [active] ++ [file] <+: past →
        (∀ cert' issuer profile' purpose id,
          e = .commit (.issue cert' issuer profile' purpose id) →
            issuer = signCert ∧
              purpose = (activeCa active.db read.db.loadConfig ca.purpose).purpose) →
        Chooses req past s e := by
      rintro past s e ⟨rest, rfl⟩ hkept cert issuer profile' purpose id he
      obtain ⟨rfl, rfl⟩ := hkept cert issuer profile' purpose id he
      refine ⟨activeCa active.db read.db.loadConfig ca.purpose, file, ?_, rfl, hfile, rfl⟩
      simp [Request.issuer, hreq, hca]
    exact Script.Notes.onward issue_keeps_issuer hmeets (List.prefix_refl _)

/-- Every leaf is issued for the generation its call has chosen. -/
theorem chooses_start (req : Request) :
    (start req).Notes (Chooses req) [] := by
  have hother : req.leafProfile = none → (start req).Notes (Chooses req) [] := by
    intro hreq
    have hsafe := accounts_start (fun _ => True) (fun _ _ _ => True) (fun _ _ _ => True) req 0
      sampleStore
    refine (Script.notes_of_safe (fun _ _ => trivial) (fun _ => trivial) (fun _ _ => trivial)
      hsafe []).mono ?_
    rintro past s e haccount cert issuer profile purpose id rfl
    obtain ⟨_, _, _, _, _, hissues, _⟩ := commit_cases haccount
    cases req with
    | issueEe => simp [Request.leafProfile] at hreq
    | signCsr => simp [Request.leafProfile] at hreq
    | _ => exact hissues.elim
  cases req with
  | issueEe profile cn valid =>
      refine note_look (chooses_plain _) fun _ read => ?_
      simp only [Request.run]
      split
      · trivial
      · rename_i ca hca
        split
        · trivial
        · split
          · trivial
          · exact chooses_issue rfl hca
  | signCsr profile id nonce cn csrKey valid =>
      refine note_look (chooses_plain _) fun _ read => ?_
      simp only [Request.run]
      split
      · trivial
      · rename_i ca hca
        split
        · trivial
        · exact chooses_issue rfl hca
  | _ => exact hother rfl

end Choices

section Rows

variable {s : Store} {r : CaRow}

/-- No transaction changes the row of a revoked generation. -/
theorem revoked_mem_caIndex
    {rows : List CaRow}
    (hr : r ∈ rows)
    (hrevoked : r.status = .revoked)
    (tx : Tx) :
    r ∈ tx.caIndex rows := by
  cases tx with
  | revokeCa victim cert reason at_ =>
      refine mem_updateWhere.mpr ⟨r, hr, ?_⟩
      by_cases hvictim :
          (r.kind == .signing && r.purpose == victim.purpose && r.gen == victim.gen) = true
      · refine Or.inl ⟨hvictim, ?_⟩
        rw [← hrevoked]
      · exact Or.inr ⟨by simpa using hvictim, rfl⟩
  | generation next cert key lock =>
      refine List.mem_append_left _ ?_
      unfold keptRows
      split
      · exact hr
      · exact mem_updateWhere.mpr ⟨r, hr, Or.inr ⟨by simp [hrevoked], rfl⟩⟩
  | _ => exact hr

/-- No event does. -/
theorem revoked_mem_apply
    (hr : r ∈ s.db.caIndex)
    (hrevoked : r.status = .revoked)
    (p : Pid)
    (e : Event) :
    r ∈ (s.apply p e).db.caIndex := by
  cases e with
  | key use =>
      rw [(apply_key_db p use s).1]
      exact hr
  | publish slug issuer file => cases file <;> exact hr
  | backfill row => exact List.mem_append_left _ hr
  | commit tx =>
      cases hrun : tx.run s.db with
      | none =>
          simp only [Store.apply, Store.effect, hrun]
          exact hr
      | some db =>
          rw [apply_commit p hrun]
          show r ∈ db.caIndex
          rw [run_caIndex hrun]
          exact revoked_mem_caIndex hr hrevoked tx
  | _ => exact hr

/-- A revoked generation is not the active one of any purpose. -/
theorem Ranked.activeCa_ne
    (h : Ranked s)
    (hr : r ∈ s.db.caIndex)
    (hrevoked : r.status = .revoked)
    (config : Config)
    (purpose : String) :
    activeCa s.db config purpose ≠ r.toCaGen := by
  intro heq
  obtain ⟨n, hn⟩ := h r.purpose (Or.inr ⟨r, hr, rfl⟩)
  obtain ⟨last, hlast, hof, _, hactive⟩ := hn.last
  unfold activeCa at heq
  split at heq
  · rename_i row hnewest
    obtain ⟨hrow, hboth⟩ := List.mem_filter.mp (mem_of_newest hnewest)
    simp only [Bool.and_eq_true, beq_iff_eq] at hboth
    have hsame : row = r := hn.row_eq hrow hr (congrArg CaGen.purpose heq) rfl
      (congrArg CaGen.gen heq)
    rw [hsame, hrevoked] at hboth
    simp at hboth
  · rename_i hnewest
    have hpurpose : purpose = r.purpose := by
      rw [← configGen_purpose config purpose, heq]
    obtain ⟨row, hrow⟩ := newest_isSome (fun r : CaRow => r.gen)
      (List.mem_filter.mpr ⟨hlast, by simp [hof, hpurpose, hactive]⟩ :
        last ∈ s.db.caIndex.filter fun r => r.purpose == purpose && r.status == .active)
    rw [hrow] at hnewest
    simp at hnewest

end Rows

section Runs

/-- The runs of all calls, each addition with a file that `cfg::load` accepts, with the
records of the calls. -/
abbrev loadedRecords : ycaRecords.Guarded :=
  Guard.through Recorded.forget (Rules.free.calls Request.Loads)

variable {w w' : World Store (Recorded Store Request Command)}

theorem ranked_of_records
    (hw : (ycaRecords.system Founded).Reachable loadedRecords w) :
    Ranked w.shared :=
  ranked_of_reachable
    (((machine.records_forget start).refinement Founded (Rules.free.calls Request.Loads)).reachable hw)

/-- The call `c` of process `p` was under way in `w` and had chosen `g` there. -/
def ChosenIn
    (w : World Store (Recorded Store Request Command))
    (p : Pid)
    (c : Recorded Store Request Command)
    (g : CaGen) : Prop :=
  ∃ c₀, w.procs p = some c₀ ∧ c₀.call = c.call ∧ c₀.past <+: c.past ∧
    c₀.call.issuer c₀.past = some g

/-- Since `w`, generation `r` is revoked: who has chosen an issuer had done so in
`w`, or found another. -/
structure RevokedSince
    (r : CaRow)
    (w w' : World Store (Recorded Store Request Command)) : Prop where
  row : r ∈ w'.shared.db.caIndex
  chosen : ∀ p c g,
    w'.procs p = some c →
    c.call.issuer c.past = some g →
    g ≠ r.toCaGen ∨ ChosenIn w p c g

/-- A choice is made in the second step and kept. -/
theorem issuer_append
    {req : Request}
    {past : List Store}
    {s : Store}
    {g : CaGen}
    (h : req.issuer (past ++ [s]) = some g) :
    req.issuer past = some g ∨
      ∃ config purpose, g = activeCa s.db config purpose := by
  match past with
  | [] =>
      simp [Request.issuer] at h
  | [read] =>
      right
      simp only [Request.issuer, Option.bind_eq_some_iff, Option.map_eq_some_iff] at h
      obtain ⟨profile, _, read', _, ca, _, active, hactive, rfl⟩ := h
      obtain rfl : s = active := by simpa using hactive
      exact ⟨read'.db.loadConfig, ca.purpose, rfl⟩
  | read :: active :: rest =>
      left
      exact h

theorem RevokedSince.exec
    {r : CaRow}
    {v : World Store (Recorded Store Request Command)}
    {a : Action Choice Request Outside}
    (h : RevokedSince r w w')
    (hrevoked : r.status = .revoked)
    (hranked : Ranked w'.shared)
    (hx : ycaRecords.exec w' a = some v) :
    RevokedSince r w v := by
  cases a with
  | spawn p req =>
      obtain ⟨_, rfl⟩ := Program.exec_spawn hx
      refine ⟨h.row, ?_⟩
      intro q c g hc hg
      by_cases hq : q = p
      · subst hq
        rw [World.put_procs_self] at hc
        obtain rfl := Option.some.inj hc
        change (req.issuer []) = some g at hg
        simp [Request.issuer] at hg
      · rw [World.put_procs_of_ne w' _ hq] at hc
        exact h.chosen q c g hc hg
  | act p k =>
      obtain ⟨c, s', c', hc, hact, rfl⟩ := Program.exec_act hx
      obtain ⟨ready, emit, next, _, _, rfl, rfl⟩ := Machine.act_records hact
      refine ⟨revoked_mem_apply h.row hrevoked p _, ?_⟩
      intro q d g hd hg
      by_cases hq : q = p
      · subst hq
        rw [World.put_procs_self] at hd
        obtain ⟨l, _, rfl⟩ := Option.map_eq_some_iff.mp hd
        rcases issuer_append hg with hold | ⟨config, purpose, rfl⟩
        · rcases h.chosen q c g hc hold with hother | ⟨c₀, hc₀, hsame, hpast, hg₀⟩
          · exact Or.inl hother
          · exact Or.inr ⟨c₀, hc₀, hsame, hpast.trans (List.prefix_append _ _), hg₀⟩
        · exact Or.inl (hranked.activeCa_ne h.row hrevoked config purpose)
      · rw [World.put_procs_of_ne w' _ hq] at hd
        exact h.chosen q d g hd hg
  | crash p =>
      obtain ⟨c, _, rfl⟩ := Program.exec_crash hx
      refine ⟨?_, ?_⟩
      · show r ∈ (w'.shared.die p).db.caIndex
        unfold Store.die
        split <;> exact h.row
      · intro q d g hd hg
        by_cases hq : q = p
        · subst hq
          rw [World.put_procs_self] at hd
          simp at hd
        · rw [World.put_procs_of_ne w' _ hq] at hd
          exact h.chosen q d g hd hg
  | env x =>
      obtain ⟨s', hs, rfl⟩ := Program.exec_env hx
      refine ⟨?_, h.chosen⟩
      have halone : Alone w'.shared s' := alone_outside hs
      show r ∈ s'.db.caIndex
      rw [halone.db]
      exact h.row

/-- A revoked generation stays revoked, and a leaf is issued for it afterwards
only by a call that had chosen it when it was revoked; every other leaf is
issued for another generation, under the certificate in that one's file. -/
theorem revoked_generation_final
    {r : CaRow}
    {as : List (Action Choice Request Outside)}
    (hw : (ycaRecords.system Founded).Reachable loadedRecords w)
    (hr : r ∈ w.shared.db.caIndex)
    (hrevoked : r.status = .revoked)
    (hrun : (ycaRecords.system Founded).Run loadedRecords w as w') :
    r ∈ w'.shared.db.caIndex ∧
    ∀ p k c cert issuer profile purpose id,
      w'.procs p = some c →
      c.rest.event k w'.shared = some (.commit (.issue cert issuer profile purpose id)) →
      ∃ g file,
        c.call.issuer c.past = some g ∧
        c.past[2]? = some file ∧
        file.pem g.slug = some issuer ∧
        purpose = g.purpose ∧
        (g ≠ r.toCaGen ∨ ChosenIn w p c g) := by
  have hsince : RevokedSince r w w' :=
    Automaton.Run.stable (P := fun v => RevokedSince r w v)
      (I := fun v => (ycaRecords.system Founded).Reachable loadedRecords v)
      (fun v hv => hv)
      (fun v a v' hv _ _ hx h => h.exec hrevoked (ranked_of_records hv) hx) hw hrun
      ⟨hr, fun p c g hc hg => Or.inr ⟨c, hc, rfl, List.prefix_refl _, hg⟩⟩
  refine ⟨hsince.row, ?_⟩
  intro p k c cert issuer profile purpose id hc he
  have hfree : (ycaRecords.system Founded).Reachable
      (machine.recordPolicy start fun _ _ _ _ => True) w' := by
    refine (hw.run hrun).mono ?_
    intro v a _
    cases a with
    | act q k' => exact fun _ _ _ _ => trivial
    | _ => trivial
  have hnoted : Chooses c.call c.past w'.shared
      (.commit (.issue cert issuer profile purpose id)) :=
    Machine.records_noted chooses_start hfree hc he
  obtain ⟨g, file, hg, hfile, hpem, hpurpose⟩ := hnoted cert issuer profile purpose id rfl
  exact ⟨g, file, hg, hfile, hpem, hpurpose, hsince.chosen p c g hc hg⟩

/-- A leaf is under way while its CA is renewed and the old generation revoked. -/
theorem revoked_generation_final_sample :
    ∃ (w w' : World Store (Recorded Store Request Command)) (r : CaRow)
      (c c₀ : Recorded Store Request Command) (e : Event),
      r.status = .revoked ∧ r ∈ w.shared.db.caIndex ∧ r ∈ w'.shared.db.caIndex ∧
      w'.procs 1 = some c ∧ w.procs 1 = some c₀ ∧
      c.rest.event (sampleChoice 31) w'.shared = some e ∧ e.newLeaf.isSome = true ∧
      c₀.call.issuer c₀.past = some r.toCaGen := by
  have h :
      ((ycaRecords.system Founded).follow loadedRecords (World.idle sampleStore)
        ([.spawn 1 (.issueEe .server "a.ca" none)] ++ acts 1 6 (sampleChoice 31) ++
          [.spawn 0 (.renewSigningCa "tls" "CA E2")] ++ acts 0 18 (sampleChoice 32) ++
          [.spawn 0 (.revokeCa "CA E1" "superseded")] ++ acts 0 16 (sampleChoice 34))).any
        (fun w => decide (⟨⟨"tls", 1, "CA E1", "ca-e1"⟩, .signing, .revoked⟩ ∈
            w.shared.db.caIndex) &&
          ((ycaRecords.system Founded).follow loadedRecords w (acts 1 3 (sampleChoice 31))).any
            fun w' => (w'.procs 1).any fun c =>
              decide (c.call.issuer c.past = some ⟨"tls", 1, "CA E1", "ca-e1"⟩) &&
              (c.rest.event (sampleChoice 31) w'.shared).any fun e => e.newLeaf.isSome) = true := by
    decide
  obtain ⟨w, hstart, hw⟩ := Automaton.Run.exists_of_follow h
  rw [Bool.and_eq_true, decide_eq_true_eq] at hw
  obtain ⟨w', hrun, hw'⟩ := Automaton.Run.exists_of_follow hw.2
  simp only [Option.any_eq_true, Bool.and_eq_true, decide_eq_true_eq] at hw'
  obtain ⟨c, hc, hissuer, e, he, hleaf⟩ := hw'
  obtain ⟨cert, hcert⟩ := Option.isSome_iff_exists.mp hleaf
  obtain ⟨issuer, profile, purpose, enrolled, rfl⟩ := Event.eq_of_newLeaf hcert
  have hreach := Automaton.Reachable.of_run (M := ycaRecords.system Founded)
    ⟨sampleStore_founded, World.idle_quiet _⟩ hstart
  obtain ⟨hrow, hfinal⟩ := revoked_generation_final hreach hw.1 rfl hrun
  obtain ⟨g, _, hg, _, _, _, hother | ⟨c₀, hc₀, _, _, hchosen⟩⟩ :=
    hfinal 1 _ c cert issuer profile purpose enrolled hc he
  · exact absurd (Option.some.inj (hg.symm.trans hissuer)) hother
  · refine ⟨w, w', _, c, c₀, _, rfl, hw.1, hrow, hc, hc₀, he, rfl, ?_⟩
    rw [hchosen, ← hg, hissuer]

end Runs

end Ca
end Yca
