import LimbMachine.Proofs.Split.Refusals
import LimbMachine.Proofs.Split.Routine

/-!
# Split routines are accepted, but for the bandwidth

A routine that is accepted without a limit on widths, whose bus lines are declared and whose
microcodes leave out nothing they need (`Routine.Legal`), is split for any usable field, or refused
for one of few reasons (`Routine.Refuses`): a division over several limbs, a carry or borrow of a
sum, product or difference with nowhere to go, or a right-hand side of the split routine that is
wider than the field. Nothing else can go wrong while a legal routine is split, nor when what comes
out is checked again (`Routine.Legal.split_or_refuses`).
-/

namespace LimbMachine

/-- What splitting relies on in an instruction. -/
structure Instruction.Legal (scope : Scope) (instruction : Instruction) : Prop where
  valid : instruction.validate scope = .ok ()
  codes : ∀ code ∈ instruction, code.Legal scope
  landing : ∀ {offset : Nat} {code : Microcode}, instruction[offset]? = some code →
    offset + 1 + code.skipDistance.getD 0 < Word.modulus

/-! ## Instructions, one microcode after the other -/

namespace Instruction

variable {scope : Scope} {offset : Nat} {codes : List Microcode} {instruction : Instruction}
  {instructions : List Instruction} {early later : Pool}

/-- Microcodes are unfolded one after the other, each in the pool that the one before it left. -/
theorem expandFrom_unfolds {expansions : List (List Fragment)}
    (h : expandFrom scope.registers offset codes early = .ok expansions later)
    (hlegal : ∀ code ∈ codes, code.Legal scope) (hs : early.Splits scope.registers)
    (hsize : ∀ id, scope.registers.widthOf id < Word.modulus) :
    early.Extends later ∧ expansions.length = codes.length ∧
      ∃ pools : Nat → Pool, pools 0 = early ∧ pools codes.length = later ∧
        ∀ (i : Nat) (code : Microcode), codes[i]? = some code →
          ∃ fragments, expansions[i]? = some fragments ∧
            code.Unfolds scope (offset + i) (pools i) (pools (i + 1)) fragments := by
  induction codes generalizing offset early expansions with
  | nil =>
    obtain ⟨rfl, rfl⟩ := estate_pure_ok.1 h
    exact ⟨.refl early, rfl, fun _ => early, rfl, rfl, fun i code hi => by simp at hi⟩
  | cons first rest ih =>
    obtain ⟨fragments, mid, hfirst, h⟩ := estate_bind_ok.1 h
    obtain ⟨others, last, hrest, h⟩ := estate_bind_ok.1 h
    obtain ⟨rfl, rfl⟩ := estate_pure_ok.1 h
    have hcode := hlegal first List.mem_cons_self
    have hunfolds :=
      Microcode.expand_unfolds hfirst rfl hcode.valid hcode.sized hcode.compact hs hsize
    obtain ⟨hext, hlength, pools, hmid, hlast, hothers⟩ :=
      ih hrest (fun code hc => hlegal code (List.mem_cons_of_mem _ hc)) (hs.mono hunfolds.grows)
    refine ⟨hunfolds.grows.trans hext, by simp [hlength],
      fun i => i.casesOn early pools, rfl, hlast, fun i code hi => ?_⟩
    cases i with
    | zero =>
      cases hi
      refine ⟨fragments, rfl, ?_⟩
      rw [← hmid] at hunfolds
      exact hunfolds
    | succ i =>
      obtain ⟨fragments', hget, hcode'⟩ := hothers i code hi
      rw [Nat.add_right_comm, Nat.add_assoc] at hcode'
      exact ⟨fragments', hget, hcode'⟩

theorem expandFrom_refuses (hlegal : ∀ code ∈ codes, code.Legal scope)
    (hs : early.Splits scope.registers)
    (hsize : ∀ id, scope.registers.widthOf id < Word.modulus) :
    RaisesOnly (fun e => ∃ code ∈ codes, Site.Refuses ⟨code, scope.registers⟩ e)
      (expandFrom scope.registers offset codes early) := by
  induction codes generalizing offset early with
  | nil => exact .of_ok rfl
  | cons first rest ih =>
    have hcode := hlegal first List.mem_cons_self
    have hfirst : RaisesOnly (Site.Refuses ⟨first, scope.registers⟩)
        (first.expand scope.registers offset early) :=
      Microcode.expand_refuses hcode hs hsize
    refine .bind (hfirst.mono fun e he => ⟨first, List.mem_cons_self, he⟩)
      fun fragments mid hmid => ?_
    have hunfolds :=
      Microcode.expand_unfolds hmid rfl hcode.valid hcode.sized hcode.compact hs hsize
    refine .bind (.mono (ih (fun code hc => hlegal code (List.mem_cons_of_mem _ hc))
      (hs.mono hunfolds.grows)) ?_) fun others last _ => .of_ok rfl
    rintro e ⟨code, hc, he⟩
    exact ⟨code, List.mem_cons_of_mem _ hc, he⟩

/-- A legal instruction is split into the fragments of its microcodes. -/
theorem Legal.split_unfolded (hlegal : instruction.Legal scope) {split : Instruction}
    (h : instruction.split scope.registers early = .ok split later)
    (hs : early.Splits scope.registers)
    (hsize : ∀ id, scope.registers.widthOf id < Word.modulus) :
    early.Extends later ∧ ∃ expansions pools, split = Fragment.link expansions ∧
      instruction.Unfolded scope pools expansions ∧ pools instruction.length = later := by
  obtain ⟨expansions, mid, hexpand, hlink⟩ := estate_bind_ok.1 h
  obtain ⟨rfl, rfl⟩ := estate_pure_ok.1 hlink
  obtain ⟨hext, hlength, pools, hfirst, hlast, hunfolds⟩ :=
    expandFrom_unfolds hexpand hlegal.codes hs hsize
  refine ⟨hext, expansions, pools, rfl, ⟨hlegal.valid, hlegal.landing, hlength, ?_, ?_⟩,
    hlast⟩
  · rw [hfirst]
    exact hs
  · intro offset code hcode
    obtain ⟨fragments, hget, hcode'⟩ := hunfolds offset code hcode
    rw [Nat.zero_add] at hcode'
    exact ⟨fragments, hget, hcode'⟩

/-- Legal instructions are split one after the other, in pools that grow. -/
theorem splitAll_unfolded {code : List Instruction}
    (h : splitAll scope.registers instructions early = .ok code later)
    (hlegal : ∀ instruction ∈ instructions, instruction.Legal scope)
    (hs : early.Splits scope.registers)
    (hsize : ∀ id, scope.registers.widthOf id < Word.modulus) :
    early.Extends later ∧ code.length = instructions.length ∧
      ∀ split ∈ code, ∃ (instruction : Instruction) (expansions : List (List Fragment))
        (pools : Nat → Pool), split = Fragment.link expansions ∧
          instruction.Unfolded scope pools expansions ∧
            (pools instruction.length).Extends later := by
  induction instructions generalizing early code with
  | nil =>
    obtain ⟨rfl, rfl⟩ := estate_pure_ok.1 h
    exact ⟨.refl early, rfl, fun split hsplit => by simp at hsplit⟩
  | cons first rest ih =>
    obtain ⟨first', mid, hfirst, h⟩ := estate_bind_ok.1 h
    obtain ⟨others, last, hrest, h⟩ := estate_bind_ok.1 h
    obtain ⟨rfl, rfl⟩ := estate_pure_ok.1 h
    obtain ⟨hgrows, expansions, pools, hlink, hunfolded, hmid⟩ :=
      (hlegal first List.mem_cons_self).split_unfolded hfirst hs hsize
    obtain ⟨hext, hlength, hothers⟩ :=
      ih hrest (fun i hi => hlegal i (List.mem_cons_of_mem _ hi)) (hs.mono hgrows)
    refine ⟨hgrows.trans hext, by simp [hlength], List.forall_mem_cons.2 ⟨?_, hothers⟩⟩
    rw [← hmid] at hext
    exact ⟨first, expansions, pools, hlink, hunfolded, hext⟩

theorem splitAll_refuses (hlegal : ∀ instruction ∈ instructions, instruction.Legal scope)
    (hs : early.Splits scope.registers)
    (hsize : ∀ id, scope.registers.widthOf id < Word.modulus) :
    RaisesOnly (fun e => ∃ instruction ∈ instructions, ∃ code ∈ instruction,
        Site.Refuses ⟨code, scope.registers⟩ e)
          (splitAll scope.registers instructions early) := by
  induction instructions generalizing early with
  | nil => exact .of_ok rfl
  | cons first rest ih =>
    have hfirst := hlegal first List.mem_cons_self
    have hsplit :
        RaisesOnly (fun e => ∃ code ∈ first, Site.Refuses ⟨code, scope.registers⟩ e)
          (first.split scope.registers early) :=
      .bind (expandFrom_refuses hfirst.codes hs hsize) fun _ _ _ => .of_ok rfl
    refine .bind (hsplit.mono fun e he => ⟨first, List.mem_cons_self, he⟩)
      fun first' mid hmid => ?_
    have hrest := ih (fun i hi => hlegal i (List.mem_cons_of_mem _ hi))
      (hs.mono (hfirst.split_unfolded hmid hs hsize).1)
    refine .bind (hrest.mono ?_) fun others last _ => .of_ok rfl
    rintro e ⟨instruction, hi, he⟩
    exact ⟨instruction, List.mem_cons_of_mem _ hi, he⟩

end Instruction

/-! ## Registers in order -/

theorem RegKind.rank_le (kind : RegKind) : kind.rank ≤ RegKind.temp.rank := by
  cases kind <;> decide

namespace Pool

variable {pool : Pool} {rs : RegisterFile}

/-- Limbs keep their register's role and what is allocated comes last, so the order stays. -/
theorem Splits.isOrdered (h : pool.Splits rs) (hrs : rs.isOrdered = true) :
    pool.registers.isOrdered = true := by
  obtain ⟨width, hext⟩ := h
  obtain ⟨extra, heq, hextra⟩ := hext.grown
  rw [RegisterFile.isOrdered_iff] at hrs ⊢
  rw [heq, List.pairwise_append]
  refine ⟨List.pairwise_flatten.2 ⟨?_, ?_⟩, ?_, ?_⟩
  · intro limbs hlimbs
    obtain ⟨r, -, rfl⟩ := List.mem_map.1 hlimbs
    refine List.pairwise_of_forall_mem_list fun a ha b hb => ?_
    rw [Register.kind_of_mem_limbs ha, Register.kind_of_mem_limbs hb]
  · refine List.pairwise_map.2 (hrs.imp fun hle a ha b hb => ?_)
    rw [Register.kind_of_mem_limbs ha, Register.kind_of_mem_limbs hb]
    exact hle
  · refine List.pairwise_of_forall_mem_list fun a _ b hb => ?_
    rw [(hextra b hb).1]
    exact a.kind.rank_le
  · intro a _ b hb
    rw [(hextra b hb).1]
    exact a.kind.rank_le

/-! ## Buses over limbs -/

theorem Splits.getD_limbs?_eq_group (h : pool.Splits rs) {line : RegId}
    (hline : rs.declares line = true) : (pool.limbs? line).getD [] = pool.group line := by
  obtain ⟨limbs, hlimbs⟩ := h.limbs_of_declares hline
  rw [group_eq hlimbs, hlimbs]
  rfl

/-- A bus over declared lines goes over to their limbs. -/
theorem Splits.splitBus_eq (h : pool.Splits rs) {bus : Bus}
    (hlines : ∀ line ∈ bus.lines, rs.declares line = true) :
    pool.splitBus bus = .ok (bus.expand pool.group) := by
  obtain ⟨limbs, hlimbs⟩ := h.flatten_succeeds hlines
  have hgroup : ∀ line ∈ bus.lines, (pool.limbs? line).getD [] = pool.group line :=
    fun line hline => h.getD_limbs?_eq_group (hlines line hline)
  rw [Bus.lines, List.forall_mem_append] at hgroup
  unfold splitBus
  rw [hlimbs, except_ok_bind, Bus.expand, Bus.expand, List.flatMap_congr hgroup.1,
    List.flatMap_congr hgroup.2]
  rfl

theorem Splits.mapM_splitBus (h : pool.Splits rs) {buses : List Bus}
    (hlines : ∀ bus ∈ buses, ∀ line ∈ bus.lines, rs.declares line = true) :
    buses.mapM pool.splitBus = .ok (buses.map fun bus => bus.expand pool.group) := by
  rw [except_mapM_ok, List.forall₂_map_right_iff, List.forall₂_same]
  exact fun bus hbus => h.splitBus_eq (hlines bus hbus)

end Pool

/-- The routine over the limbs in a pool, with split code. -/
def Routine.overLimbs (f : Routine) (pool : Pool) (code : List Instruction) : Routine :=
  ⟨f.name, pool.registers, f.buses.map fun bus => bus.expand pool.group, code⟩

namespace Routine

variable {f : Routine} {field : FieldParams} {pool : Pool} {code : List Instruction}

/-- A routine that can be checked and split: it is accepted without a limit on widths, its bus lines
are declared, nothing needed is left out, and no sum of sizes runs past the largest one. -/
structure Legal (f : Routine) : Prop where
  valid : f.validate .unbounded = .ok ()
  lines : ∀ bus ∈ f.buses, ∀ line ∈ bus.lines, f.registers.declares line = true
  complete : ∀ instruction ∈ f.code, ∀ code ∈ instruction, code.Complete
  sized : f.Sized
  compact : ∀ instruction ∈ f.code, ∀ code ∈ instruction, code.Compact f.registers

/-- The microcodes of every instruction can be addressed by sizes once it is split. -/
def SplitsAddressed (f : Routine) (field : FieldParams) : Prop :=
  ∀ code pool, Instruction.splitAll f.registers f.code
      (Pool.ofRegisters f.registers field.registerWidth) = .ok code pool →
    ∀ instruction ∈ code, instruction.length < Word.modulus

/-- Why a legal routine may be refused. -/
inductive Refuses (f : Routine) : SplitError → Prop
  | microcode {instruction : Instruction} {code : Microcode} {e : SplitError}
      (hi : instruction ∈ f.code) (hc : code ∈ instruction)
      (he : Site.Refuses ⟨code, f.registers⟩ e) : Refuses f e
  | bandwidth {reason : ValidationError} (pc : Nat) (h : reason.IsBandwidth) :
      Refuses f (.invalid (.validation f.name pc reason))

theorem Legal.isOrdered (h : f.Legal) : f.registers.isOrdered = true :=
  (validate_ok_iff.1 h.valid).2.1

theorem Legal.instruction (h : f.Legal) :
    ∀ instruction ∈ f.code, instruction.Legal (f.scope .unbounded) := by
  intro instruction hi
  have hvalid := (validate_ok_iff.1 h.valid).2.2 instruction hi
  refine ⟨hvalid, fun code hc => ?_, h.sized.landing_lt hi⟩
  exact ⟨(Instruction.validate_ok_iff.1 hvalid).2.1 code hc, h.complete instruction hi code hc,
    h.sized.packed instruction hi code hc, h.compact instruction hi code hc⟩

theorem bus?_overLimbs (f : Routine) (pool : Pool) (code : List Instruction) (number : Nat) :
    (f.overLimbs pool code).bus? number =
      (f.bus? number).map fun bus => bus.expand pool.group := List.find?_map ..

theorem bus_overLimbs (pool : Pool) (code : List Instruction) {number : Nat} {declared : Bus}
    (h : f.bus? number = some declared) :
    (f.overLimbs pool code).bus? number = some (declared.expand pool.group) := by
  rw [bus?_overLimbs, h]
  rfl

/-- The routine over limbs is checked against limbs. -/
theorem splitTo_overLimbs (field : FieldParams) (hs : pool.Splits f.registers)
    (hlen : code.length = f.code.length)
    (hlines : ∀ bus ∈ f.buses, ∀ line ∈ bus.lines, f.registers.declares line = true) :
    (f.scope .unbounded).SplitTo pool ((f.overLimbs pool code).scope field) :=
  ⟨hs, rfl, hlen, hlines, fun hfind => ⟨_, bus_overLimbs pool code hfind, rfl, rfl⟩⟩

/-- The split routine is checked against limbs. -/
theorem Legal.splitTo (h : f.Legal) (field : FieldParams) (hs : pool.Splits f.registers)
    (hlen : code.length = f.code.length) :
    (f.scope .unbounded).SplitTo pool ((f.overLimbs pool code).scope field) :=
  splitTo_overLimbs field hs hlen h.lines

section Split

variable (hcode : Instruction.splitAll f.registers f.code
  (Pool.ofRegisters f.registers field.registerWidth) = .ok code pool)

include hcode

theorem Legal.splits (h : f.Legal) : pool.Splits f.registers := by
  have hbase := Pool.splits_ofRegisters f.registers field.registerWidth
  exact hbase.mono (Instruction.splitAll_unfolded hcode h.instruction hbase h.sized.widthOf_lt).1

/-- What a legal routine is split to is refused only for the bandwidth. -/
theorem Legal.failsOnly_validate (h : f.Legal) (hfield : field.validate = .ok ())
    (haddressed : ∀ instruction ∈ code, instruction.length < Word.modulus) :
    FailsOnly (fun e => ∃ pc reason, e = .validation f.name pc reason ∧ reason.IsBandwidth)
      ((f.overLimbs pool code).validate field) := by
  have hbase := Pool.splits_ofRegisters f.registers field.registerWidth
  obtain ⟨-, hlength, hunfolded⟩ :=
    Instruction.splitAll_unfolded hcode h.instruction hbase h.sized.widthOf_lt
  have hs := h.splits hcode
  have horder : (f.overLimbs pool code).checkOrder = .ok () :=
    checkOrder_ok_iff.2 (hs.isOrdered h.isOrdered)
  unfold validate
  refine .bind (.of_ok (except_mapError_ok.2 hfield)) fun _ _ => ?_
  refine .bind (.of_ok horder) fun _ _ => ?_
  refine .forM fun (instruction, pc) hmem => ?_
  have hi : instruction ∈ code := List.fst_mem_of_mem_zipIdx hmem
  obtain ⟨original, expansions, pools, rfl, hfrom, hgrown⟩ := hunfolded instruction hi
  have hfails := hfrom.failsOnly_validate (haddressed _ hi) hgrown (h.splitTo field hs hlength)
  exact hfails.mapError fun reason hreason => ⟨pc, reason, rfl, hreason⟩

end Split

theorem Legal.failsOnly_splitWithLimbs (h : f.Legal) (hfield : field.validate = .ok ())
    (haddressed : f.SplitsAddressed field) : FailsOnly f.Refuses (f.splitWithLimbs field) := by
  unfold splitWithLimbs
  refine .bind (.of_ok (except_mapError_ok.2 hfield)) fun _ _ => ?_
  cases hcode : Instruction.splitAll f.registers f.code
      (Pool.ofRegisters f.registers field.registerWidth) with
  | error e pool =>
    intro e' he'
    cases he'
    obtain ⟨instruction, hi, code, hc, he⟩ := Instruction.splitAll_refuses h.instruction
      (Pool.splits_ofRegisters _ _) h.sized.widthOf_lt e pool hcode
    exact .microcode hi hc he
  | ok code pool =>
    have hs := h.splits hcode
    have hbuses := hs.mapM_splitBus h.lines
    have hmake : make? f.name pool.registers (f.buses.map fun bus => bus.expand pool.group) code =
        .ok (f.overLimbs pool code) :=
      except_map_ok.2 ⟨(), checkOrder_ok_iff.2 (hs.isOrdered h.isOrdered), rfl⟩
    have hvalidate := h.failsOnly_validate hcode hfield (haddressed code pool hcode)
    simp only [hbuses, except_ok_bind, hmake, Except.mapError]
    refine .bind (hvalidate.mapError ?_) fun _ _ => .of_ok rfl
    rintro e ⟨pc, reason, rfl, hreason⟩
    exact .bandwidth pc hreason

/-- **A legal routine is split into an accepted one, or refused for one of few reasons.** What it is
split into is the routine over limbs, with the code that its instructions are split into. -/
theorem Legal.split_or_refuses (h : f.Legal) (hfield : field.validate = .ok ())
    (haddressed : f.SplitsAddressed field) :
    (∃ split code, f.splitWithLimbs field = .ok split ∧
        Instruction.splitAll f.registers f.code
          (Pool.ofRegisters f.registers field.registerWidth) = .ok code split.pool ∧
        split.routine = f.overLimbs split.pool code ∧ split.routine.validate field = .ok ()) ∨
      ∃ e, f.splitWithLimbs field = .error e ∧ f.Refuses e := by
  cases hsplit : f.splitWithLimbs field with
  | ok split =>
    obtain ⟨code, buses, hcode, hbuses, hroutine, hvalid⟩ := splitWithLimbs_ok hsplit
    rw [(h.splits hcode).mapM_splitBus h.lines] at hbuses
    cases hbuses
    exact .inl ⟨split, code, rfl, hcode, hroutine, hvalid⟩
  | error e => exact .inr ⟨e, rfl, h.failsOnly_splitWithLimbs hfield haddressed e hsplit⟩

/-- Limbs of four bits suit a field of twelve bits, but one of four bits has no room for a
borrow. -/
theorem split_or_refuses_tally :
    tally.Legal ∧
      (∃ split code, tally.splitWithLimbs ⟨"small", 12, 4⟩ = .ok split ∧
        Instruction.splitAll tally.registers tally.code (Pool.ofRegisters tally.registers 4) =
          .ok code split.pool ∧
        split.routine = tally.overLimbs split.pool code ∧
        split.routine.validate ⟨"small", 12, 4⟩ = .ok ()) ∧
      ∃ e, tally.splitWithLimbs ⟨"tight", 4, 4⟩ = .error e ∧ tally.Refuses e := by
  have hlegal : tally.Legal :=
    ⟨rfl, by decide, by decide, ⟨by decide, by decide, by decide⟩, by decide⟩
  have hcheck : (match Instruction.splitAll tally.registers tally.code
        (Pool.ofRegisters tally.registers 4) with
      | .ok code _ => code.all fun instruction => instruction.length < 100
      | .error _ _ => true) = true := by decide +kernel
  have haddressed : ∀ name bandwidth, tally.SplitsAddressed ⟨name, bandwidth, 4⟩ := by
    intro name bandwidth code pool hcode instruction hi
    have hcode : Instruction.splitAll tally.registers tally.code
      (Pool.ofRegisters tally.registers 4) = .ok code pool := hcode
    rw [hcode] at hcheck
    have hlength := of_decide_eq_true (List.all_eq_true.1 hcheck instruction hi)
    exact hlength.trans (by decide)
  have hsplits : (tally.splitWithLimbs ⟨"small", 12, 4⟩).isOk = true := by decide +kernel
  have hrefused : (tally.splitWithLimbs ⟨"tight", 4, 4⟩).isOk = false := by decide +kernel
  refine ⟨hlegal, (hlegal.split_or_refuses (by decide) (haddressed _ _)).resolve_right ?_,
    (hlegal.split_or_refuses (by decide) (haddressed _ _)).resolve_left ?_⟩
  · rintro ⟨e, he, -⟩
    rw [he] at hsplits
    cases hsplits
  · rintro ⟨split, code, hsplit, -⟩
    rw [hsplit] at hrefused
    cases hrefused

end Routine

end LimbMachine
