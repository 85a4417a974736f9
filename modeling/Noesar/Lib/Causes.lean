import Mathlib

namespace Noesar.Lib.Causes

variable {ε κ : Type}

/-- A list made by adding one element after the other, each of which the ones before it admit. -/
def Built (admits : List ε → ε → Prop) (xs : List ε) : Prop :=
  ∀ earlier e later, xs = earlier ++ e :: later → admits earlier e

section

variable {admits : List ε → ε → Prop} {xs : List ε} {e : ε}

theorem built_nil : Built admits [] := by
  intro earlier e later h
  simp at h

theorem built_snoc : Built admits (xs ++ [e]) ↔ Built admits xs ∧ admits xs e := by
  constructor
  · intro h
    refine ⟨fun earlier f later hsplit ↦ ?_, h xs e [] rfl⟩
    apply h earlier f (later ++ [e])
    rw [hsplit, List.append_assoc, List.cons_append]
  · rintro ⟨hxs, he⟩ earlier f later hsplit
    induction later using List.reverseRecOn with
    | nil =>
      obtain ⟨rfl, hlast⟩ := List.append_inj' hsplit rfl
      cases hlast
      exact he
    | append_singleton later =>
      rw [← List.cons_append, ← List.append_assoc] at hsplit
      exact hxs earlier f later (List.append_inj' hsplit rfl).1

theorem built_cons : Built admits (e :: xs) ↔ admits [] e ∧ Built (fun earlier f ↦ admits (e :: earlier) f) xs := by
  constructor
  · intro h
    refine ⟨h [] e xs rfl, fun earlier f later hsplit ↦ ?_⟩
    apply h (e :: earlier) f later
    rw [hsplit, List.cons_append]
  · rintro ⟨he, hxs⟩ earlier f later hsplit
    cases earlier with
    | nil =>
      cases hsplit
      exact he
    | cons g earlier =>
      cases hsplit
      exact hxs earlier f later rfl

theorem nodup_map_iff (key : ε → κ) :
    (xs.map key).Nodup ↔ Built (fun earlier e ↦ ∀ f ∈ earlier, key f ≠ key e) xs := by
  induction xs using List.reverseRecOn with
  | nil => simp [built_nil]
  | append_singleton xs e ih =>
    rw [built_snoc, ← ih, List.map_append, List.map_singleton, List.nodup_append]
    simp

end

section

variable {δ : Type} (digest previous : ε → δ) (genesis : δ)

def lastDigest (xs : List ε) : δ := (xs.getLast?.map digest).getD genesis

variable {digest previous genesis}

theorem lastDigest_snoc (xs : List ε) (e : ε) : lastDigest digest genesis (xs ++ [e]) = digest e := by
  simp [lastDigest]

/-- Two chains that end in one digest are related element by element, from the last one back:
what has the same digest is related and follows the same digest, and no digest is the one a
chain begins with. -/
theorem chains_agree {R : ε → ε → Prop} {xs ys : List ε}
    (hxs : Built (fun earlier e ↦ previous e = lastDigest digest genesis earlier) xs)
    (hys : Built (fun earlier e ↦ previous e = lastDigest digest genesis earlier) ys)
    (hlinks : ∀ e ∈ xs, ∀ f ∈ ys, digest e = digest f → previous e = previous f ∧ R e f)
    (hx : ∀ e ∈ xs, digest e ≠ genesis) (hy : ∀ f ∈ ys, digest f ≠ genesis)
    (hlast : lastDigest digest genesis xs = lastDigest digest genesis ys) : List.Forall₂ R xs ys := by
  induction xs using List.reverseRecOn generalizing ys with
  | nil =>
    induction ys using List.reverseRecOn with
    | nil => exact .nil
    | append_singleton ys f =>
      rw [lastDigest_snoc] at hlast
      exact absurd hlast.symm (hy f (by simp))
  | append_singleton xs e ih =>
    rw [lastDigest_snoc] at hlast
    induction ys using List.reverseRecOn with
    | nil => exact absurd hlast (hx e (by simp))
    | append_singleton ys f =>
      rw [lastDigest_snoc] at hlast
      obtain ⟨hprevious, hR⟩ := hlinks e (by simp) f (by simp) hlast
      obtain ⟨hxs, he⟩ := built_snoc.mp hxs
      obtain ⟨hys, hf⟩ := built_snoc.mp hys
      have hrest : List.Forall₂ R xs ys := by
        apply ih hxs hys
        · intro e' he' f' hf'
          exact hlinks e' (by simp [he']) f' (by simp [hf'])
        · intro e' he'
          exact hx e' (by simp [he'])
        · intro f' hf'
          exact hy f' (by simp [hf'])
        · rw [← he, ← hf, hprevious]
      exact List.rel_append hrest (.cons hR .nil)

end

section

variable (find : κ → Option ε) (cause : ε → Option κ)

/-- The walk from an element to its cause, to the cause of that, and so on, which ends at
an element without a cause. It gets nowhere when the steps run out. -/
def walk : ℕ → Option ε → Option (List ε)
  | _, none => some []
  | 0, some _ => none
  | fuel + 1, some e => (walk fuel ((cause e).bind find)).map (e :: ·)

variable {find cause}

theorem walk_mono {fuel fuel' : ℕ} (hle : fuel ≤ fuel') {start : Option ε} {path : List ε}
    (h : walk find cause fuel start = some path) : walk find cause fuel' start = some path := by
  induction fuel generalizing start path fuel' with
  | zero =>
    cases start with
    | none => cases fuel' <;> exact h
    | some => cases h
  | succ fuel ih =>
    cases start with
    | none => cases fuel' <;> exact h
    | some =>
      cases fuel' with
      | zero => omega
      | succ =>
        rw [walk] at h ⊢
        obtain ⟨rest, hrest, hpath⟩ := Option.map_eq_some_iff.mp h
        rw [ih (by omega) hrest]
        exact congrArg some hpath

theorem walk_own_cause {e : ε} {c : κ} (hcause : cause e = some c) (hfind : find c = some e) (fuel : ℕ) :
    walk find cause fuel (some e) = none := by
  induction fuel with
  | zero => rfl
  | succ fuel ih =>
    rw [walk, hcause, Option.bind_some, hfind, ih]
    rfl

/-- A chain of causes, from an element that has none to a given one. -/
structure ChainTo (cause : ε → Option κ) (key : ε → κ) (chain : List ε) (e : ε) : Prop where
  ends : chain.getLast? = some e
  starts : ∀ root ∈ chain.head?, cause root = none
  linked : List.IsChain (fun a b ↦ cause b = some (key a)) chain

theorem ChainTo.single {key : ε → κ} {e : ε} (h : cause e = none) : ChainTo cause key [e] e := by
  refine ⟨rfl, ?_, by simp⟩
  intro root hroot
  cases hroot
  exact h

theorem ChainTo.snoc {key : ε → κ} {chain : List ε} {f e : ε} (h : ChainTo cause key chain f)
    (hcause : cause e = some (key f)) : ChainTo cause key (chain ++ [e]) e := by
  refine ⟨by simp, ?_, ?_⟩
  · intro root hroot
    cases hchain : chain with
    | nil =>
      have hends := h.ends
      rw [hchain] at hends
      cases hends
    | cons =>
      rw [hchain] at hroot
      apply h.starts root
      rw [hchain]
      exact hroot
  · rw [List.isChain_append]
    refine ⟨h.linked, by simp, ?_⟩
    intro x hx y hy
    rw [h.ends] at hx
    cases hx
    cases hy
    exact hcause

/-- Where every cause is found among the earlier elements, the walk from any element ends;
backwards it is a chain to that element, in the order of the list. -/
theorem walk_ends {key : ε → κ} {group : ε → κ} {xs : List ε}
    (hbuilt : Built (fun earlier e ↦ ∀ c, cause e = some c →
      ∃ f ∈ earlier, find c = some f ∧ key f = c ∧ group f = group e) xs)
    {earlier later : List ε} {e : ε} (hsplit : xs = earlier ++ e :: later) :
    ∃ chain, walk find cause (earlier.length + 1) (some e) = some chain.reverse ∧ ChainTo cause key chain e ∧
      chain.Sublist (earlier ++ [e]) ∧ ∀ f ∈ chain, group f = group e := by
  induction hn : earlier.length using Nat.strong_induction_on generalizing earlier e later with
  | _ n ih =>
    subst hn
    cases hcause : cause e with
    | none =>
      refine ⟨[e], ?_, .single hcause, ?_, by simp⟩
      · simp [walk, hcause]
      · exact List.sublist_append_right earlier [e]
    | some c =>
      obtain ⟨f, hf, hfind, hkey, hgroup⟩ := hbuilt earlier e later hsplit c hcause
      obtain ⟨front, back, rfl⟩ := List.append_of_mem hf
      have hlt : front.length < (front ++ f :: back).length := by
        simp
      obtain ⟨chain, hwalk, hchain, hsub, hsame⟩ := ih front.length hlt
        (by rw [hsplit, List.append_assoc, List.cons_append]) rfl
      refine ⟨chain ++ [e], ?_, ?_, ?_, ?_⟩
      · rw [walk, hcause, Option.bind_some, hfind, walk_mono hlt hwalk]
        simp
      · apply hchain.snoc
        rw [hkey, hcause]
      · refine List.Sublist.append (hsub.trans ?_) (List.Sublist.refl [e])
        rw [← List.singleton_append (l := back), ← List.append_assoc]
        exact List.sublist_append_left _ _
      · intro g hg
        rcases List.mem_append.mp hg with hg | hg
        · rw [hsame g hg, hgroup]
        · cases List.mem_singleton.mp hg
          rfl

end

end Noesar.Lib.Causes
