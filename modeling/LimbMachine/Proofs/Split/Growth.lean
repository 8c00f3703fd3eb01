import LimbMachine.Proofs.Failure
import LimbMachine.Proofs.Split.Limbs
import LimbMachine.Split.Expansion

/-!
# Pools only grow

Whatever is asked of a pool, also where it is refused half of the way, the pool only grows at its
end, by registers of some width (`Pool.Appends`). This is shown of `Pool.allocate`, the only
function that changes a pool, and then of each function that uses it by the laws of `Keeps`.
-/

namespace LimbMachine

namespace Pool

variable {pool later : Pool} {label : String} {width : Nat} {id : RegId}

/-- `later` is the pool after registers of some width were allocated. -/
structure Appends (pool later : Pool) : Prop extends pool.Extends later where
  wide : ∀ i, pool.registers.length ≤ i → i < later.registers.length →
    0 < later.registers.widthOf (.reg i)

instance : IsPreorder Pool Appends where
  refl pool := ⟨.refl pool, fun i hi hlt => by omega⟩
  trans p q r h h' := by
    refine ⟨h.toExtends.trans h'.toExtends, fun i hi hlt => ?_⟩
    by_cases hq : i < q.registers.length
    · rw [RegisterFile.widthOf_mono h'.registers (RegisterFile.declares_reg.2 hq)]
      exact h.wide i hi hq
    · exact h'.wide i (by omega) hlt

/-- At most one register is new. -/
theorem allocate_new (h : allocate label width pool = .ok id later) {i : Nat}
    (hle : pool.registers.length ≤ i) (hlt : i < later.registers.length) : id = .reg i := by
  unfold allocate at h
  split at h
  · cases h
    exact absurd hlt (Nat.not_lt.2 hle)
  · cases h
    rw [List.length_append, List.length_singleton] at hlt
    obtain rfl : pool.registers.length = i := by omega
    rfl

theorem keeps_allocate (label : String) (width : Nat) : Keeps Appends (allocate label width) := by
  intro pool
  cases h : allocate label width pool with
  | error e later =>
    unfold allocate at h
    split at h <;> cases h
  | ok id later =>
    have hnew := allocate_ok h
    refine ⟨hnew.grows, fun i hi hlt => ?_⟩
    obtain rfl := allocate_new h hi hlt
    have hpos : 0 < width := hnew.used_iff.1 rfl
    exact hnew.widthOf_eq ▸ hpos

theorem keeps_asking {α : Type} (question : Pool → Except SplitError α) :
    Keeps Appends (asking question) := by
  intro pool
  unfold asking
  cases question pool <;> exact refl_of Appends pool

end Pool

/-! ## Functions that allocate -/

section Lowering

open Pool

variable {rs : RegisterFile} {site : Site}

theorem LimbEquation.keeps_copy (ids : List RegId) : Keeps Appends (copy ids) := by
  induction ids with
  | nil => exact .pure _
  | cons id rest ih =>
    exact Keeps.get.bind fun _ => (keeps_allocate _ _).bind fun _ => ih.bind fun _ => .pure _

theorem LimbEquation.keeps_chain (carry : RegId) (eqs : List LimbEquation) :
    Keeps Appends (chain site carry eqs) := by
  induction eqs generalizing carry with
  | nil => exact .pure _
  | cons eq rest ih =>
    refine Keeps.get.bind fun _ => Keeps.ite (Keeps.ite (Keeps.throw _) (Keeps.pure _)) ?_
    exact (keeps_allocate _ _).bind fun next => (ih next).bind fun _ => .pure _

theorem keeps_distribute (terms : List Term) (layout : List Limb) :
    Keeps Appends (distribute site terms layout) :=
  (LimbEquation.keeps_copy _).bind fun _ => (LimbEquation.keeps_chain _ _).bind fun _ => .pure _

theorem keeps_splitPolynomial (targets : List RegId) (rhs : Polynomial) :
    Keeps Appends (splitPolynomial site targets rhs) :=
  (keeps_asking _).bind fun _ => (keeps_asking _).bind fun _ => keeps_distribute _ _

namespace Subtraction

variable (plan : Subtraction)

theorem keeps_difference (stage : Stage) : Keeps Appends (plan.difference stage) := by
  refine Keeps.ite (Keeps.pure _) ?_
  cases stage.low with
  | some id => exact .pure _
  | none => exact (keeps_allocate _ _).bind fun _ => .pure _

theorem keeps_stage (isLast : Bool) (borrow : RegId) (stage : Stage) :
    Keeps Appends (plan.stage isLast borrow stage) := by
  refine Keeps.get.bind fun _ => (plan.keeps_difference stage).bind fun (targets, scratch) => ?_
  refine Keeps.ite (Keeps.ite (Keeps.throw _) (Keeps.pure _)) ?_
  exact (keeps_allocate _ _).bind fun _ => .pure _

theorem keeps_stages (borrow : RegId) (stages : List Stage) :
    Keeps Appends (plan.stages borrow stages) := by
  induction stages generalizing borrow with
  | nil => exact .pure _
  | cons stage rest ih =>
    refine (plan.keeps_stage _ _ _).bind fun (code, scratch, next) => ?_
    exact (ih next).bind fun (codes, more, final) => .pure _

theorem keeps_codes (aligned : Bool) (stages : List Stage) :
    Keeps Appends (plan.codes aligned stages) := by
  refine (plan.keeps_stages _ _).bind fun (chain, scratch, borrow) => ?_
  refine Keeps.ite ((Keeps.pure _).bind fun moved => ?_)
    ((keeps_distribute _ _).bind fun moved => ?_)
  all_goals
    refine Keeps.ite (Keeps.pure _) (Keeps.ite (Keeps.throw _) ?_)
    exact (keeps_distribute _ _).bind fun _ => .pure _

end Subtraction

theorem keeps_splitSubtraction (targets sources : List RegId) (constant : Nat) :
    Keeps Appends (splitSubtraction site targets sources constant) :=
  (keeps_asking _).bind fun (plan, aligned, stages) => plan.keeps_codes aligned stages

theorem Piece.keeps_gather (pieces : List Piece) : Keeps Appends (gather pieces) := by
  induction pieces with
  | nil => exact .pure _
  | cons piece rest ih =>
    refine Keeps.ite ((keeps_allocate _ _).bind fun _ => ?_) ?_
    · exact ih.bind fun (casts, terms) => .pure _
    · exact ih.bind fun (casts, terms) => .pure _

theorem Piece.keeps_move (pieces : List Piece) (targets : List Limb) :
    Keeps Appends (move site pieces targets) := by
  unfold move
  cases pieces.mapM fun piece => piece.slot? targets with
  | some slots => exact .pure _
  | none =>
    refine (keeps_gather pieces).bind fun (casts, terms) => ?_
    exact (keeps_distribute _ _).bind fun _ => .pure _

theorem keeps_splitCast (targets : List RegId) (source : RegId) (width : Nat) :
    Keeps Appends (splitCast site targets source width) :=
  (keeps_asking _).bind fun _ => (keeps_asking _).bind fun _ =>
    (Piece.keeps_move _ _).bind fun _ => .pure _

theorem keeps_splitComparison (left : List RegId) (right : Option (List RegId))
    (constant landing : Nat) :
    Keeps Appends (splitComparison site left right constant landing) := by
  refine (keeps_asking _).bind fun other => (keeps_asking _).bind fun _ => ?_
  cases other with
  | none => exact .pure _
  | some other => exact Keeps.ite (Keeps.throw _) (Keeps.pure _)

theorem Microcode.keeps_lower (code : Microcode) (offset : Nat) :
    Keeps Appends (lower ⟨code, rs⟩ offset) := by
  cases code with
  | assign targets rhs => exact (keeps_splitPolynomial _ _).bind fun _ => .pure _
  | add targets sources constant => exact (keeps_splitPolynomial _ _).bind fun _ => .pure _
  | mul targets sources constant => exact (keeps_splitPolynomial _ _).bind fun _ => .pure _
  | sub targets sources constant => exact (keeps_splitSubtraction _ _ _).bind fun _ => .pure _
  | cast targets source width => exact keeps_splitCast _ _ _
  | div quotient remainder witness dividend divisor => exact keeps_asking _
  | skip left right constant distance => exact keeps_splitComparison _ _ _ _
  | skipIf left right constant distance => exact keeps_splitComparison _ _ _ _
  | call bus targets sources => exact keeps_asking _
  | jmp target => exact .pure _
  | ret => exact .pure _
  | fail => exact .pure _

theorem Microcode.keeps_expand (code : Microcode) (offset : Nat) :
    Keeps Appends (code.expand rs offset) :=
  (keeps_asking _).bind fun _ =>
    Keeps.ite (Keeps.get.bind fun _ => .pure _) (code.keeps_lower offset)

theorem Microcode.expand_grows {early later : Pool} {code : Microcode} {offset : Nat}
    {fragments : List Fragment} (h : code.expand rs offset early = .ok fragments later) :
    early.Extends later :=
  ((code.keeps_expand offset).of_ok h).toExtends

theorem Instruction.keeps_expandFrom (offset : Nat) (codes : List Microcode) :
    Keeps Appends (expandFrom rs offset codes) := by
  induction codes generalizing offset with
  | nil => exact .pure _
  | cons code rest ih =>
    exact (code.keeps_expand offset).bind fun _ => (ih (offset + 1)).bind fun _ => .pure _

/-- Splitting an instruction grows the pool at its end, however far it gets. -/
theorem Instruction.keeps_split (instruction : Instruction) :
    Keeps Appends (instruction.split rs) :=
  (keeps_expandFrom 0 instruction).bind fun _ => .pure _

end Lowering

end LimbMachine
