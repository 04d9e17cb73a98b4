import Yca.Ca.Commands
import Yca.Core.Calls

/-!
# How the commands end

A command that commits does nothing to the store afterwards: what is left of it
reports success.  Every other way to end it is a failure (or `refresh crl` with
nothing to do).
-/

namespace Yca
namespace Ca

open Yca.Core

/-- A transaction went through. -/
def Event.commits : Event → Bool
  | .commit _ => true
  | _ => false

/-- A command that commits does so with its last access to the store. -/
abbrev Ends (c : Command) : Prop :=
  c.EndsOn Event.commits

theorem ends_look
    {next : Choice → Store → Command}
    (h : ∀ k s, Ends (next k s)) :
    Ends (look next) := by
  intro k s
  exact ⟨by simp [Event.commits], h k s⟩

theorem ends_beginWrite {next : Command} (h : Ends next) :
    Ends (beginWrite next) := by
  intro k s
  exact ⟨by simp [Event.commits], h⟩

theorem ends_abort : Ends abort := by
  intro k s
  exact ⟨fun _ => rfl, trivial⟩

theorem ends_commitWrite (tx : Store → Tx) :
    Ends (commitWrite tx) := by
  intro k s
  exact ⟨fun _ => rfl, trivial⟩

theorem ends_emitting
    {α : Type}
    {found : Choice → Store → Option α}
    {use : α → KeyUse}
    {next : α → Command}
    (h : ∀ a, Ends (next a)) :
    Ends (emitting found (fun a => .key (use a)) next) := by
  intro k s
  show (Event.commits (((found k s).map fun a => .key (use a)).getD .quiet) = true →
    ((found k s).map next).getD .halt = .halt) ∧ Ends (((found k s).map next).getD .halt)
  cases found k s with
  | none => exact ⟨fun _ => rfl, trivial⟩
  | some a => exact ⟨by simp [Event.commits], h a⟩

theorem ends_makeCaKey
    {spec : CaSpec}
    {slug : String}
    {next : KeyPair → Command}
    (h : ∀ pair, Ends (next pair)) :
    Ends (makeCaKey spec slug next) := by
  unfold makeCaKey
  split
  · exact ends_emitting fun found => h found.1
  · exact ends_emitting h

theorem ends_ceremonyRootKey
    {config : Config}
    {rootCert : Cert}
    {slug : String}
    {next : KeyPair → Command}
    (h : ∀ pair, Ends (next pair)) :
    Ends (ceremonyRootKey config rootCert slug next) := by
  unfold ceremonyRootKey
  split
  · exact ends_emitting fun found => h found.1
  · exact ends_emitting h

theorem ends_publish
    {slug : String}
    {issuer : Cert}
    {file : Store → Artifact}
    {next : Command}
    (h : Ends next) :
    Ends (publish slug issuer file next) := by
  intro k s
  exact ⟨by simp [Event.commits], h⟩

theorem ends_rewriteCrl
    {mayFail : Bool}
    {w : Store → Rewrite}
    {next : Command}
    (h : Ends next) :
    Ends (rewriteCrl mayFail w next) := by
  intro k s
  refine ⟨?_, h⟩
  show Event.commits (if k.ok then .rewrite (w s) else .quiet) = true → next = .halt
  cases k.ok <;> simp [Event.commits]

theorem ends_checkNonce
    {enrolled : Option (String × String)}
    {refused next : Command}
    (hrefused : Ends refused)
    (h : Ends next) :
    Ends (checkNonce enrolled refused next) := by
  cases enrolled with
  | none => exact h
  | some pair =>
      refine ends_look ?_
      intro k s
      split
      · exact hrefused
      · exact h

theorem ends_checkDuplicate
    {cn : String}
    {profile : Profile}
    {refused next : Command}
    (hrefused : Ends refused)
    (h : Ends next) :
    Ends (checkDuplicate cn profile refused next) := by
  refine ends_look ?_
  intro k s
  split
  · exact hrefused
  · exact h

theorem ends_issue
    (config : Config)
    (ca : SigningCa)
    (profile : Profile)
    (cn : String)
    (validity : Nat)
    (csrKey : Option Key)
    (enrolled : Option (String × String)) :
    Ends (issue config ca profile cn validity csrKey enrolled) := by
  refine ends_look fun _ _ => ends_look fun _ _ => ?_
  split
  · trivial
  · refine ends_look fun _ _ => ?_
    split
    · trivial
    · refine ends_checkNonce trivial (ends_checkDuplicate trivial (ends_emitting fun _ => ?_))
      refine ends_beginWrite (ends_checkNonce ends_abort (ends_checkDuplicate ends_abort ?_))
      exact ends_look fun _ _ => ends_commitWrite _

theorem ends_ensureCaIndexLoop
    {config : Config}
    {next : Command}
    (h : Ends next)
    (purposes : List String) :
    Ends (ensureCaIndexLoop config next purposes) := by
  induction purposes with
  | nil => exact h
  | cons purpose rest ih =>
      refine ends_look fun _ _ => ?_
      split
      · exact ih
      · refine ends_look fun _ _ => ?_
        split
        · intro k s
          exact ⟨by simp [Event.commits], ih⟩
        · exact ih

theorem ends_ceremony
    (config : Config)
    (ca : SigningCa)
    (root next : CaGen)
    (lock : Option SigningCa) :
    Ends
      (unlessCnTaken root next.cn <|
        mintCaGeneration config ca root next fun cert key =>
        beginWrite <|
        commitWrite fun _ => .generation next cert (persisted ca key) lock) := by
  have hmint : Ends (mintCaGeneration config ca root next fun cert key =>
      beginWrite <| commitWrite fun _ => .generation next cert (persisted ca key) lock) := by
    refine ends_look fun _ _ => ?_
    split
    · trivial
    · refine ends_look fun _ _ => ?_
      split
      · trivial
      · refine ends_ceremonyRootKey fun _ => ends_makeCaKey fun _ => ends_look fun _ _ => ?_
        refine ends_publish (ends_publish (ends_publish (ends_beginWrite ?_)))
        exact ends_commitWrite _
  unfold unlessCnTaken
  split
  · trivial
  · refine ends_look fun _ _ => ?_
    split
    · trivial
    · refine ends_look fun _ _ => ?_
      split
      · trivial
      · exact hmint

theorem ends_revoke
    (config : Config)
    (target : Profile)
    (cn serial : String)
    (reason : Reason) :
    Ends (revoke config target cn serial reason) := by
  refine ends_look fun _ _ => ?_
  split
  · trivial
  · refine ends_look fun _ _ => ?_
    split
    · trivial
    · refine ends_look fun _ _ => ?_
      split
      · trivial
      · split
        · trivial
        · refine ends_look fun _ _ => ?_
          split
          · trivial
          · refine ends_look fun _ _ => ?_
            split
            · trivial
            · refine ends_emitting fun _ => ends_beginWrite (ends_look fun _ _ => ?_)
              split
              · exact ends_abort
              · refine ends_look fun _ _ => ?_
                split
                · exact ends_abort
                · exact ends_rewriteCrl (ends_commitWrite _)

theorem ends_resolveCaCn
    {config : Config}
    {selector : String}
    {next : String → Command}
    (h : ∀ cn, Ends (next cn)) :
    Ends (resolveCaCn config selector next) := by
  unfold resolveCaCn
  simp only
  split
  · exact ends_look fun _ _ => h _
  · split
    · exact ends_look fun _ _ => h _
    · split
      · split
        · exact ends_look fun _ _ => h _
        · trivial
      · exact h _

theorem ends_revokeCa (config : Config) (selector : String) (reason : Reason) :
    Ends (revokeCa config selector reason) := by
  refine ends_ensureCaIndexLoop (ends_look fun _ _ => ?_) _
  simp only
  split
  · trivial
  · refine ends_resolveCaCn fun cn => ?_
    split
    · trivial
    · refine ends_look fun _ _ => ?_
      split
      · trivial
      · refine ends_look fun _ _ => ?_
        split
        · trivial
        · refine ends_look fun _ _ => ?_
          split
          · trivial
          · refine ends_look fun _ _ => ?_
            split
            · trivial
            · refine ends_look fun _ _ => ?_
              split
              · trivial
              · refine ends_look fun _ _ => ?_
                split
                · trivial
                · refine ends_emitting fun _ => ends_beginWrite (ends_look fun _ _ => ?_)
                  split
                  · exact ends_abort
                  · exact ends_rewriteCrl (ends_commitWrite _)

theorem ends_collectJobs
    {config : Config}
    {kind : CaKind}
    {horizon now : Nat}
    {next : List Job → Command}
    (h : ∀ jobs, Ends (next jobs))
    (cas : List CaGen)
    (jobs : List Job) :
    Ends (collectJobs config kind horizon now next cas jobs) := by
  induction cas generalizing jobs with
  | nil => exact h jobs
  | cons g rest ih =>
      unfold collectJobs
      split
      · trivial
      · refine ends_look fun _ _ => ?_
        split
        · trivial
        · refine ends_look fun _ _ => ?_
          split
          · trivial
          · split
            · exact ih _
            · exact ih _

theorem ends_loadKeys
    {next : List (Job × KeyPair) → Command}
    (h : ∀ keyed, Ends (next keyed))
    (jobs : List Job)
    (keyed : List (Job × KeyPair)) :
    Ends (loadKeys next jobs keyed) := by
  induction jobs generalizing keyed with
  | nil => exact h keyed
  | cons j rest ih => exact ends_emitting fun _ => ih _

theorem ends_refreshJobs
    {next : Command}
    (h : Ends next)
    (jobs : List (Job × KeyPair)) :
    Ends (refreshJobs next jobs) := by
  induction jobs with
  | nil => exact h
  | cons j rest ih =>
      obtain ⟨job, key⟩ := j
      refine ends_look fun _ _ => ?_
      split
      · exact ends_abort
      · exact ends_rewriteCrl ih

theorem ends_refreshCrl (config : Config) (scope : CrlScope) :
    Ends (refreshCrl config scope) := by
  have hscope : ∀ (now : Nat) (kind : CaKind) (wanted : Bool) (jobs : List Job)
      (next : List Job → Command), (∀ jobs, Ends (next jobs)) →
      Ends (refreshCrl.collectScope config now kind wanted jobs next) := by
    intro now kind wanted jobs next hnext
    unfold refreshCrl.collectScope
    split
    · exact ends_look fun _ _ => ends_collectJobs hnext _ _
    · exact hnext jobs
  refine ends_look fun _ _ => hscope _ _ _ _ _ fun jobs => hscope _ _ _ _ _ fun jobs' => ?_
  split
  · trivial
  · exact ends_loadKeys
      (fun keyed => ends_beginWrite (ends_refreshJobs (ends_commitWrite _) keyed)) _ _

theorem ends_start (req : Request) :
    Ends (start req) := by
  refine ends_look fun _ s => ?_
  cases req with
  | issueEe profile cn valid =>
      simp only [Request.run]
      split
      · trivial
      · split
        · trivial
        · split
          · trivial
          · exact ends_issue _ _ _ _ _ _ _
  | signCsr profile id nonce cn csrKey valid =>
      simp only [Request.run]
      split
      · trivial
      · split
        · trivial
        · exact ends_issue _ _ _ _ _ _ _
  | revoke target cn serial reason =>
      simp only [Request.run]
      split
      · trivial
      · exact ends_revoke _ _ _ _ _
  | revokeCa selector reason =>
      simp only [Request.run]
      split
      · trivial
      · exact ends_revokeCa _ _ _
  | refreshCrl scope => exact ends_refreshCrl _ _
  | addSigningCa file purpose =>
      simp only [Request.run, addSigningCa]
      split
      · trivial
      · refine ends_ensureCaIndexLoop (ends_look fun _ _ => ?_) _
        split
        · trivial
        · exact ends_look fun _ _ => ends_ceremony _ _ _ ⟨_, _, _, _⟩ _
  | renewSigningCa purpose newCn =>
      simp only [Request.run, renewSigningCa]
      split
      · trivial
      · split
        · trivial
        · refine ends_ensureCaIndexLoop (ends_look fun _ _ => ends_look fun _ _ => ?_) _
          exact ends_ceremony _ _ _ ⟨_, _, newCn, _⟩ _
  | enroll id =>
      simp only [Request.run, enroll]
      split
      · trivial
      · refine ends_beginWrite (ends_look fun _ _ => ?_)
        split
        · exact ends_abort
        · exact ends_commitWrite _
  | getNonce id =>
      refine ends_beginWrite (ends_look fun _ _ => ?_)
      split
      · exact ends_abort
      · refine ends_look fun _ _ => ?_
        split
        · exact ends_commitWrite _
        · exact ends_commitWrite _

end Ca
end Yca
