import Noesar.Capability.Isolation
import Noesar.Lib.Framing

namespace Noesar.Capability

open Lib Lib.Framing

/-- The declaration a step makes about itself. The declared limits are of a type
of their own: the plans of the Rust crate declare none. -/
structure BlastRadius (L : Type) where
  destructive : Bool
  reachesOutsideWorkspace : Bool
  limits : Option L
  deriving DecidableEq

structure Step (L : Type) where
  id : String
  description : String
  files : List String
  commands : List String
  dependsOn : List String
  blastRadius : BlastRadius L
  deriving DecidableEq

structure Plan (L : Type) where
  mode : String
  constraints : List String
  steps : List (Step L)
  deriving DecidableEq

variable {L : Type}

def Step.fields (step : Step L) : List String :=
  [step.id, step.description] ++ step.files ++ step.commands ++ step.dependsOn ++
    [if step.blastRadius.destructive then "destructive" else "non-destructive"]

/-- The texts `planDigest` feeds to the hash, in order. -/
def Plan.fields (plan : Plan L) : List String :=
  plan.mode :: plan.constraints ++ plan.steps.flatMap Step.fields

def planDigest (host : Host) (plan : Plan L) : String :=
  hex (host.sha256 (feedAll plan.fields)).toList

theorem planDigest_length (host : Host) (plan : Plan L) : (planDigest host plan).length = 64 := by
  simp [planDigest, hex_length]

/-- Two steps whose lists have the same lengths and which declare the same reach
and the same limits. -/
structure Step.SameShape (s t : Step L) : Prop where
  files : s.files.length = t.files.length
  commands : s.commands.length = t.commands.length
  dependsOn : s.dependsOn.length = t.dependsOn.length
  reaches : s.blastRadius.reachesOutsideWorkspace = t.blastRadius.reachesOutsideWorkspace
  limits : s.blastRadius.limits = t.blastRadius.limits

structure Plan.SameShape (P Q : Plan L) : Prop where
  constraints : P.constraints.length = Q.constraints.length
  steps : List.Forall₂ Step.SameShape P.steps Q.steps

theorem Step.SameShape.refl (s : Step L) : s.SameShape s := ⟨rfl, rfl, rfl, rfl, rfl⟩

theorem Plan.SameShape.refl (P : Plan L) : P.SameShape P :=
  ⟨rfl, List.forall₂_same.mpr fun s _ ↦ Step.SameShape.refl s⟩

theorem Step.fields_length {s t : Step L} (h : s.SameShape t) :
    s.fields.length = t.fields.length := by
  simp [Step.fields, h.files, h.commands, h.dependsOn]

theorem destructive_text {a b : Bool} (h : (if a then "destructive" else "non-destructive") =
    if b then "destructive" else "non-destructive") : a = b := by
  cases a <;> cases b <;> simp_all

theorem Step.eq_of_fields {s t : Step L} (hs : s.SameShape t) (h : s.fields = t.fields) : s = t := by
  obtain ⟨hrest, hflag⟩ := List.append_inj' h (by simp)
  obtain ⟨hrest, hdeps⟩ := List.append_inj' hrest hs.dependsOn
  obtain ⟨hrest, hcommands⟩ := List.append_inj' hrest hs.commands
  obtain ⟨hhead, hfiles⟩ := List.append_inj' hrest hs.files
  obtain ⟨hid, hdescription, -⟩ : s.id = t.id ∧ s.description = t.description ∧ True := by
    simpa using hhead
  have hdestructive := destructive_text (List.cons.inj hflag).1
  obtain ⟨id, description, files, commands, dependsOn, ⟨destructive, reaches, limits⟩⟩ := s
  obtain ⟨id', description', files', commands', dependsOn', ⟨destructive', reaches', limits'⟩⟩ := t
  obtain ⟨-, -, -, hreaches, hlimits⟩ := hs
  simp_all

theorem steps_eq_of_fields {a b : List (Step L)} (hs : List.Forall₂ Step.SameShape a b)
    (h : a.flatMap Step.fields = b.flatMap Step.fields) : a = b := by
  induction hs with
  | nil => rfl
  | cons hst _ ih =>
    simp only [List.flatMap_cons] at h
    obtain ⟨hhead, htail⟩ := List.append_inj h (Step.fields_length hst)
    rw [Step.eq_of_fields hst hhead, ih htail]

theorem Plan.eq_of_fields {P Q : Plan L} (hs : P.SameShape Q) (h : P.fields = Q.fields) : P = Q := by
  obtain ⟨hmode, hrest⟩ := List.cons.inj h
  obtain ⟨hconstraints, hsteps⟩ := List.append_inj hrest hs.constraints
  have hsteps' := steps_eq_of_fields hs.steps hsteps
  obtain ⟨mode, constraints, steps⟩ := P
  obtain ⟨mode', constraints', steps'⟩ := Q
  simp_all

theorem planDigest_eq_iff {host : Host} {P Q : Plan L} (hP : ∀ s ∈ P.fields, Fits s)
    (hQ : ∀ s ∈ Q.fields, Fits s)
    (hsha : host.sha256 (feedAll P.fields) = host.sha256 (feedAll Q.fields) →
      feedAll P.fields = feedAll Q.fields) :
    planDigest host P = planDigest host Q ↔ P.fields = Q.fields := by
  constructor
  · intro h
    apply feedAll_inj hP hQ
    apply hsha
    exact Vector.toList_inj.mp (hex_injective h)
  · intro h
    rw [planDigest, planDigest, h]

def oneStep (files commands : List String) (reaches : Bool) : Plan RawLimits :=
  ⟨"implement", [], [⟨"s1", "edit", files, commands, [], ⟨true, reaches, none⟩⟩]⟩

/-- A person's approval. The Rust crate counts seconds in an `i64`. -/
structure Approval (Time : Type) where
  approverId : String
  grantedAtUnix : Time
  expiresAtUnix : Time

/-- A plan a person has approved, with the digest that names it. -/
structure AuthorizedPlan (host : Host) (Time L : Type) where
  plan : Plan L
  approval : Approval Time
  digest : String
  digest_eq : digest = planDigest host plan

theorem AuthorizedPlan.digest_length {host : Host} {Time : Type} (authorized : AuthorizedPlan host Time L) :
    authorized.digest.length = 64 := by
  rw [authorized.digest_eq, planDigest_length]

def notAuthorized (reason : String) : Refusal := ⟨.capabilityError, .notAuthorized, none, reason⟩

/-- What `trim` removes. -/
def isWhiteSpace (c : Char) : Bool :=
  c.val ∈ [0x9, 0xA, 0xB, 0xC, 0xD, 0x20, 0xA0, 0x1680, 0x2028, 0x2029, 0x202F, 0x205F, 0x3000, 0xFEFF] ||
    (0x2000 ≤ c.val && c.val ≤ 0x200A)

def authorizePlan (host : Host) (plan : Plan L) (approval : Approval Number) (nowUnix : Number) :
    Except Refusal (AuthorizedPlan host Number L) :=
  if approval.approverId.toList.all isWhiteSpace then
    .error (notAuthorized "an approval with no approver names nobody accountable")
  else if !approval.grantedAtUnix.lt approval.expiresAtUnix then
    .error (notAuthorized "an approval that expires before it is granted authorises nothing")
  else if approval.expiresAtUnix.le nowUnix then
    .error (notAuthorized "the approval has lapsed")
  else .ok ⟨plan, approval, planDigest host plan, rfl⟩

end Noesar.Capability
