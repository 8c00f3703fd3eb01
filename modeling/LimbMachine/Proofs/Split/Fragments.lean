import LimbMachine.Proofs.Split.Represents
import LimbMachine.Split.Fragment

/-!
# Running fragments

Fragments run one after the other until control falls past the last one, branches, or leaves the
instruction (`Exit`). A branch is taken by name: how far it goes is settled when the instruction is
put together, so a run does not depend on the distance (`Fragment.settled`).
-/

namespace LimbMachine

/-- How control gets out of a list of fragments. -/
inductive Exit where
  /-- Past the last fragment. -/
  | fall
  | branch (branch : Branch)
  /-- Out of the instruction. -/
  | leave (step : Step)

/-- Whether control leaves the instruction. -/
def Step.leaves : Step → Bool
  | skip _ => false
  | _ => true

namespace Fragment

/-- The microcode of a fragment, given how far it branches. -/
def settled (fragment : Fragment) (distance : Nat) : Microcode :=
  match fragment.branch with
  | some _ => fragment.code.withSkip distance
  | none => fragment.code

/-- Fragments that lead from one state to another, whatever the distances of their branches are. -/
inductive Runs : List Fragment → State → Exit → State → Prop
  | nil (s : State) : Runs [] s .fall s
  | next {fragment : Fragment} {rest : List Fragment} {s s₁ s₂ : State} {exit : Exit}
    (first : ∀ d, (fragment.settled d).Does s (.skip 1) s₁)
    (others : Runs rest s₁ exit s₂) : Runs (fragment :: rest) s exit s₂
  | branch {fragment : Fragment} {rest : List Fragment} {s : State} {b : Branch}
    (named : fragment.branch = some b)
    (first : ∀ d, (fragment.settled d).Does s (.skip (Word.add 1 d)) s) :
    Runs (fragment :: rest) s (.branch b) s
  | leave {fragment : Fragment} {rest : List Fragment} {s s₁ : State} {step : Step}
    (leaves : step.leaves = true) (first : ∀ d, (fragment.settled d).Does s step s₁) :
    Runs (fragment :: rest) s (.leave step) s₁

variable {fragments fragments' : List Fragment} {s s₁ s₂ : State} {exit : Exit}

theorem Runs.append (h : Runs fragments s exit s₁) (hexit : exit ≠ .fall) :
    Runs (fragments ++ fragments') s exit s₁ := by
  induction h with
  | nil s => exact absurd rfl hexit
  | next first _ ih => exact .next first (ih hexit)
  | branch named first => exact .branch named first
  | leave leaves first => exact .leave leaves first

theorem Runs.append_fall (h : Runs fragments s .fall s₁) (h' : Runs fragments' s₁ exit s₂) :
    Runs (fragments ++ fragments') s exit s₂ := by
  generalize hfall : Exit.fall = exit' at h
  induction h with
  | nil s => exact h'
  | next first _ ih => exact .next first (ih h' hfall)
  | branch _ _ => cases hfall
  | leave _ _ => cases hfall

theorem map_code_plain (codes : List Microcode) : (codes.map plain).map code = codes := by
  rw [List.map_map]
  exact List.map_id codes

theorem runs_plain {codes : List Microcode} (h : Microcode.Runs codes s s₁) :
    Runs (codes.map plain) s .fall s₁ := by
  induction h with
  | nil s => exact .nil s
  | cons first _ ih => exact .next (fun _ => first) ih

/-! ## Comparisons -/

/-- A fragment that compares: it branches unless both sides agree. -/
def Compares (fragment : Fragment) (b : Branch) (s : State) (agree : Bool) : Prop :=
  fragment.branch = some b ∧ ∀ d, (fragment.settled d).Does s
    (if agree then .skip 1 else .skip (Word.add 1 d)) s

theorem compares_const (s : State) (id : RegId) (constant : Nat) (b : Branch) :
    (compareConst id constant b).Compares b s (s.load id == constant) := by
  refine ⟨rfl, ?_⟩
  intro d σ io m
  have hexec : ((compareConst id constant b).settled d).execute io ⟨s, m⟩ =
      .ok (.compare (s.load id) constant d) ⟨s, m⟩ := rfl
  rw [hexec]
  by_cases heq : s.load id = constant
  · simp [Step.compare, heq]
  · simp [Step.compare, heq]

/-- Comparisons one after the other branch to where they all branch, unless all of them agree. -/
theorem runs_comparisons {α : Type} (items : List α) (mk : α → Fragment) {b : Branch}
    (agree : α → Bool) (h : ∀ x ∈ items, (mk x).Compares b s (agree x)) :
    Runs (items.map mk) s (if items.all agree then .fall else .branch b) s := by
  induction items with
  | nil => exact .nil s
  | cons x items ih =>
    obtain ⟨hbranch, hdoes⟩ := h x List.mem_cons_self
    cases hx : agree x with
    | true =>
      rw [List.all_cons, hx, Bool.true_and]
      simp only [hx, if_true] at hdoes
      exact .next hdoes (ih fun y hy => h y (List.mem_cons_of_mem _ hy))
    | false =>
      rw [List.all_cons, hx, Bool.false_and]
      simp only [hx, Bool.false_eq_true, if_false] at hdoes
      exact .branch hbranch hdoes

end Fragment

end LimbMachine
