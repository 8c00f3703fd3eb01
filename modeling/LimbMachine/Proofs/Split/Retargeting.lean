import LimbMachine.Proofs.Split.Vouched

/-!
# Where the branches of a split instruction land

A microcode that is emitted for a sum, a subtraction, a cast, a division or a call goes on to the
next one. All other fragments branch where their microcode branches, guard a cast, or leave the
instruction just as their microcode does (`Fragment.Routes`). Nothing else takes control in a split
instruction from one expansion to another, and no branch lands within one
(`Instruction.split_retargets`). None of this depends on how wide the registers are or what they
hold.
-/

namespace LimbMachine

/-- Control goes on from the microcode to the next one. -/
structure Microcode.GoesOn (code : Microcode) : Prop where
  isTerminal_eq : code.isTerminal = false
  skipDistance_eq : code.skipDistance = none

/-! ## Emitted microcodes -/

theorem LimbEquation.chain_goesOn {site : Site} {carry : RegId} {eqs : List LimbEquation}
    {pool later : Pool} {codes : List Microcode} (h : chain site carry eqs pool = .ok codes later) :
    ∀ code ∈ codes, code.GoesOn := by
  induction eqs generalizing carry pool codes with
  | nil =>
    obtain ⟨rfl, rfl⟩ := estate_pure_ok.1 h
    simp
  | cons eq rest ih =>
    rcases chain_cons_ok h with ⟨-, -, rfl, -⟩ | ⟨-, next, mid, codes', -, hchain, rfl⟩
    · exact List.forall_mem_singleton.2 ⟨rfl, rfl⟩
    · exact List.forall_mem_cons.2 ⟨⟨rfl, rfl⟩, ih hchain⟩

section Emission

variable {site : Site} {targets sources : List RegId} {early later : Pool} {codes : List Microcode}

theorem distribute_goesOn {terms : List Term} {layout : List Limb}
    (h : distribute site terms layout early = .ok codes later) :
    ∀ code ∈ codes, code.GoesOn := by
  obtain ⟨copies, mid, chained, -, hchain, rfl⟩ := distribute_ok h
  refine List.forall_mem_append.2 ⟨List.forall_mem_map.2 fun pair _ => ⟨rfl, rfl⟩, ?_⟩
  exact LimbEquation.chain_goesOn hchain

theorem splitPolynomial_goesOn {rhs : Polynomial}
    (h : splitPolynomial site targets rhs early = .ok codes later) :
    ∀ code ∈ codes, code.GoesOn := by
  obtain ⟨layout, terms, -, -, hdistribute⟩ := splitPolynomial_ok h
  exact distribute_goesOn hdistribute

theorem Subtraction.stages_goesOn {plan : Subtraction} {borrow next : RegId} {stages : List Stage}
    {scratch : List Term} (h : plan.stages borrow stages early = .ok (codes, scratch, next) later) :
    ∀ code ∈ codes, code.GoesOn := by
  induction stages generalizing borrow early codes scratch with
  | nil =>
    obtain ⟨heq, rfl⟩ := estate_pure_ok.1 h
    cases heq
    simp
  | cons stage rest ih =>
    obtain ⟨code, scratch₁, next₁, mid, codes₂, scratch₂, hstage, hrest, rfl, rfl⟩ :=
      stages_cons_ok h
    obtain ⟨targets, mid', -, rfl, -⟩ := stage_cases hstage
    exact List.forall_mem_cons.2 ⟨⟨rfl, rfl⟩, ih hrest⟩

theorem Subtraction.codes_goesOn {plan : Subtraction} {aligned : Bool} {stages : List Stage}
    (h : plan.codes aligned stages early = .ok codes later) : ∀ code ∈ codes, code.GoesOn := by
  obtain ⟨chain, scratch, next, mid, moved, later₁, hchain, hmoved, hnone, hsome⟩ :=
    codes_ok h
  have hlow : ∀ code ∈ chain ++ moved, code.GoesOn := by
    refine List.forall_mem_append.2 ⟨stages_goesOn hchain, ?_⟩
    cases aligned with
    | true =>
      obtain ⟨rfl, -⟩ := estate_pure_ok.1 hmoved
      simp
    | false => exact distribute_goesOn hmoved
  by_cases habove : plan.above = []
  · rw [(hnone habove).1]
    exact hlow
  · obtain ⟨-, raised, rfl, hraised⟩ := hsome habove
    exact List.forall_mem_append.2 ⟨hlow, distribute_goesOn hraised⟩

theorem splitSubtraction_goesOn {constant : Nat}
    (h : splitSubtraction site targets sources constant early = .ok codes later) :
    ∀ code ∈ codes, code.GoesOn := by
  obtain ⟨⟨plan, aligned, stages⟩, mid, -, hcodes⟩ := estate_bind_ok.1 h
  exact Subtraction.codes_goesOn hcodes

namespace Piece

variable {pieces : List Piece}

theorem gather_goesOn {terms : List Term} (h : gather pieces early = .ok (codes, terms) later) :
    ∀ code ∈ codes, code.GoesOn := by
  induction pieces generalizing early codes terms with
  | nil =>
    obtain ⟨heq, rfl⟩ := estate_pure_ok.1 h
    cases heq
    simp
  | cons piece rest ih =>
    rcases gather_cons_ok h with ⟨-, whole, mid, casts, terms', -, hrest, rfl, -⟩ |
      ⟨-, terms', hrest, -⟩
    · exact List.forall_mem_cons.2 ⟨⟨rfl, rfl⟩, ih hrest⟩
    · exact ih hrest

theorem goesOn_copyTo (piece : Piece) (target : RegId) : (piece.copyTo target).GoesOn := by
  unfold copyTo
  split
  · exact ⟨rfl, rfl⟩
  · exact ⟨rfl, rfl⟩

theorem move_goesOn {limbs : List Limb} (h : Piece.move site pieces limbs early = .ok codes later) :
    ∀ code ∈ codes, code.GoesOn := by
  rcases move_ok h with ⟨slots, -, rfl, -⟩ | ⟨casts, terms, mid, distributed, hgather,
    hdist, rfl⟩
  · refine List.forall_mem_append.2 ⟨?_, List.forall_mem_map.2 fun slot _ => ⟨rfl, rfl⟩⟩
    exact List.forall_mem_map.2 fun pair _ => goesOn_copyTo pair.1 pair.2.1.id
  · exact List.forall_mem_append.2 ⟨gather_goesOn hgather, distribute_goesOn hdist⟩

end Piece

end Emission

/-! ## Routes of fragments -/

/-- How control gets on from a fragment of the microcode at `offset`. -/
inductive Fragment.Routes (code : Microcode) (offset : Nat) : Fragment → Prop
  /-- To the next fragment, where the microcode goes on too. -/
  | through {code' : Microcode} (goesOn : code.GoesOn) (h : code'.GoesOn) :
    Routes code offset (.plain code')
  /-- Out of the instruction, by the microcode itself. -/
  | leave (h : code.isTerminal = true) : Routes code offset (.plain code)
  /-- To the next fragment, or to where the microcode branches. -/
  | compare {code' : Microcode} {distance : Nat} (skips : code.skipDistance = some distance)
    (h : code'.skipDistance.isSome = true) :
    Routes code offset ⟨code', some (.offset (Microcode.landing offset distance))⟩
  /-- To the next fragment, or to the failure at the end. -/
  | guard {targets : List RegId} {source limb : RegId} {width : Nat}
    (h : code = .cast targets source width) : Routes code offset (.compareConst limb 0 .trailer)

namespace Fragment.Routes

variable {code : Microcode} {offset : Nat} {fragment : Fragment} {fragments : List Fragment}

theorem isTerminal_eq (h : fragment.Routes code offset) :
    fragment.code.isTerminal = code.isTerminal := by
  cases h with
  | through goesOn h => exact h.isTerminal_eq.trans goesOn.isTerminal_eq.symm
  | leave h => rfl
  | compare skips h =>
    rw [Microcode.isTerminal_of_skipDistance h, Microcode.isTerminal_of_skipDistance]
    rw [skips]
    rfl
  | guard h =>
    subst h
    rfl

/-- A comparison is made of comparisons that go where it goes. -/
theorem branch_of_skipDistance (h : fragment.Routes code offset) {distance : Nat}
    (hskip : code.skipDistance = some distance) :
    fragment.branch = some (.offset (Microcode.landing offset distance)) := by
  cases h with
  | through goesOn h =>
    rw [goesOn.skipDistance_eq] at hskip
    cases hskip
  | leave h =>
    rw [Microcode.isTerminal_of_skipDistance (by rw [hskip]; rfl)] at h
    cases h
  | compare skips h =>
    rw [skips] at hskip
    cases hskip
    rfl
  | guard h =>
    subst h
    cases hskip

/-- Only the guards of a cast go to the failure at the end. -/
theorem guard_of_trailer (h : fragment.Routes code offset)
    (hbranch : fragment.branch = some .trailer) :
    (∃ targets source width, code = .cast targets source width) ∧
      ∃ limb, fragment = .compareConst limb 0 .trailer := by
  cases h with
  | through goesOn h => cases hbranch
  | leave h => cases hbranch
  | compare skips h => cases hbranch
  | guard h => exact ⟨⟨_, _, _, h⟩, _, rfl⟩

theorem branches (h : ∀ fragment ∈ fragments, fragment.Routes code offset)
    (hlast : code.isTerminal = true → fragments = [.plain code]) :
    Fragment.Branches code offset fragments where
  branch fragment hmem b hb := by
    cases h fragment hmem with
    | through goesOn h => cases hb
    | leave h => cases hb
    | compare skips h =>
      cases hb
      exact ⟨h, .inr ⟨_, skips, rfl⟩⟩
    | guard h =>
      cases hb
      exact ⟨rfl, .inl rfl⟩
  plain fragment hmem hb := by
    cases h fragment hmem with
    | through goesOn h => exact h.skipDistance_eq
    | leave h =>
      cases code with
      | jmp target => rfl
      | ret => rfl
      | fail => rfl
      | _ => cases h
    | compare skips h => cases hb
    | guard h => cases hb
  quiet hskip fragment hmem := by
    obtain ⟨distance, hdistance⟩ := Option.isSome_iff_exists.1 hskip
    have hbranch := (h fragment hmem).branch_of_skipDistance hdistance
    cases h fragment hmem with
    | through goesOn h => cases hbranch
    | leave h => cases hbranch
    | compare skips h => exact Microcode.targets_of_skipDistance h
    | guard h => rfl
  last hterm := ⟨code, hlast hterm, hterm⟩

end Fragment.Routes

namespace Microcode

variable {code : Microcode} {rs : RegisterFile} {offset : Nat} {early later pool : Pool}
  {fragments : List Fragment}

theorem routes_plain {codes : List Microcode} (hcode : code.GoesOn)
    (h : ∀ code' ∈ codes, code'.GoesOn) :
    ∀ fragment ∈ codes.map Fragment.plain, fragment.Routes code offset :=
  List.forall_mem_map.2 fun code' hmem => .through hcode (h code' hmem)

theorem routes_rename (code : Microcode) (offset : Nat) (pool : Pool) :
    (code.rename offset pool).Routes code offset := by
  cases code with
  | skip left right constant distance => exact .compare rfl rfl
  | skipIf left right constant distance => exact .compare rfl rfl
  | jmp target => exact .leave rfl
  | ret => exact .leave rfl
  | fail => exact .leave rfl
  | _ => exact .through ⟨rfl, rfl⟩ ⟨rfl, rfl⟩

theorem routes_comparison {site : Site} {left : List RegId} {right : Option (List RegId)}
    {constant distance : Nat} (hskip : code.skipDistance = some distance)
    (h : splitComparison site left right constant (landing offset distance) early =
      .ok fragments later) : ∀ fragment ∈ fragments, fragment.Routes code offset := by
  intro fragment hmem
  obtain ⟨hbranch, hsome⟩ := splitComparison_branch h fragment hmem
  obtain ⟨code', branch⟩ := fragment
  cases hbranch
  exact .compare hskip hsome

theorem lower_routes (h : lower ⟨code, rs⟩ offset early = .ok fragments later) :
    ∀ fragment ∈ fragments, fragment.Routes code offset := by
  cases lower_ok h with
  | sum hp h =>
    exact routes_plain ⟨(goesOn_sum hp).1, (goesOn_sum hp).2⟩ (splitPolynomial_goesOn h)
  | difference h => exact routes_plain ⟨rfl, rfl⟩ (splitSubtraction_goesOn h)
  | copy h =>
    obtain ⟨limbs, layout, codes, -, -, hmove, rfl⟩ := splitCast_ok h
    refine List.forall_mem_append.2 ⟨List.forall_mem_map.2 fun piece _ => .guard rfl, ?_⟩
    exact routes_plain ⟨rfl, rfl⟩ (Piece.move_goesOn hmove)
  | comparison hcompares h => exact routes_comparison hcompares.skipDistance_eq h
  | renamed => exact List.forall_mem_singleton.2 (routes_rename _ _ _)
  | lines => exact List.forall_mem_singleton.2 (.through ⟨rfl, rfl⟩ ⟨rfl, rfl⟩)

theorem ExpandsTo.routes (h : code.ExpandsTo rs pool offset fragments) :
    ∀ fragment ∈ fragments, fragment.Routes code offset := by
  obtain ⟨early, later, hexpand, -, -⟩ := h
  rcases (expand_ok hexpand).2 with ⟨-, -, rfl⟩ | ⟨-, hlower⟩
  · exact List.forall_mem_singleton.2 (routes_rename code offset early)
  · exact lower_routes hlower

/-- Where control leaves an instruction nothing is split. -/
theorem ExpandsTo.eq_of_isTerminal (h : code.ExpandsTo rs pool offset fragments)
    (hterm : code.isTerminal = true) : fragments = [.plain code] := by
  obtain ⟨early, later, hexpand, hs, -⟩ := h
  rcases (expand_cases hexpand hs).2 with ⟨-, -, -, rfl⟩ | ⟨hwide, -⟩
  · cases code with
    | jmp target => rfl
    | ret => rfl
    | fail => rfl
    | _ => cases hterm
  · rw [hwide.isTerminal] at hterm
    cases hterm

theorem ExpandsTo.branches (h : code.ExpandsTo rs pool offset fragments) :
    Fragment.Branches code offset fragments :=
  Fragment.Routes.branches h.routes h.eq_of_isTerminal

end Microcode

/-! ## Successors in a split instruction -/

/-- Where control can go from place `k` of the expansion of the microcode at `offset`. -/
inductive Fragment.Leads (expansions : List (List Fragment)) (code : Microcode) (offset : Nat)
    (fragments : List Fragment) (k : Nat) : Nat → Prop
  /-- On to the next fragment of the same expansion. -/
  | next (h : k + 1 < fragments.length) :
    Leads expansions code offset fragments k (start expansions offset + (k + 1))
  /-- From the last fragment to the start of the expansion that follows. -/
  | follow (h : k + 1 = fragments.length) :
    Leads expansions code offset fragments k (start expansions (offset + 1))
  /-- From a comparison to the start of the expansion of the microcode it goes to. -/
  | branch {distance : Nat} (h : code.skipDistance = some distance) :
    Leads expansions code offset fragments k (start expansions (offset + 1 + distance))
  /-- From a guard of a cast to the failure at the end. -/
  | guard {targets : List RegId} {source limb : RegId} {width : Nat}
    (cast : code = .cast targets source width)
    (h : fragments[k]? = some (.compareConst limb 0 .trailer)) :
    Leads expansions code offset fragments k expansions.flatten.length

namespace Instruction

variable {instruction : Instruction} {expansions : List (List Fragment)} {here offset k next : Nat}
  {code : Microcode} {fragments : List Fragment} {fragment : Fragment}

theorem Expands.routed {rs : RegisterFile} {pool : Pool}
    (h : instruction.Expands rs pool expansions) (hflows : instruction.Flows)
    (hland : ∀ {offset : Nat} {code : Microcode}, instruction[offset]? = some code →
      offset + 1 + code.skipDistance.getD 0 < Word.modulus) : instruction.Routed expansions where
  flows := hflows
  landing := hland
  length_eq := h.length_eq
  branches hcode := by
    obtain ⟨fragments, hget, hexpand⟩ := h.expand hcode
    exact ⟨fragments, hget, hexpand.branches⟩

namespace Routed

/-- The successors of a settled fragment, all of them. -/
theorem mem_successors_iff (h : instruction.Routed expansions)
    (hlen : (Fragment.link expansions).length < Word.modulus)
    (hplace : Fragment.Place expansions here offset k fragments fragment)
    (hcode : instruction[offset]? = some code) (hbranches : Fragment.Branches code offset fragments)
    (hroutes : fragment.Routes code offset) (next : Nat) :
    next ∈ (Fragment.settle expansions fragment here).successors here ↔
      code.isTerminal = false ∧ Fragment.Leads expansions code offset fragments k next := by
  have hbody := Fragment.length_flatten_le expansions
  have hlt := hplace.lt_flatten
  have hhere := hplace.here_eq
  have hsucc := Fragment.start_succ hplace.expansion
  constructor
  · intro hnext
    obtain ⟨hterm, -, hcases⟩ := h.next_cases hlen hplace hcode hbranches hnext
    refine ⟨hterm, ?_⟩
    rcases hcases with rfl | ⟨hb, rfl⟩ | ⟨distance, hskip, -, -, rfl⟩
    · rcases Nat.lt_or_eq_of_le (Nat.succ_le_of_lt hplace.lt_length) with hinside | hend
      · rw [hhere]
        exact .next hinside
      · rw [show here + 1 = Fragment.start expansions (offset + 1) by omega]
        exact .follow hend
    · obtain ⟨⟨targets, source, width, hcast⟩, limb, rfl⟩ := hroutes.guard_of_trailer hb
      exact .guard hcast hplace.get
    · exact .branch hskip
  · rintro ⟨hterm, hleads⟩
    have hnext : here + 1 ∈ (Fragment.settle expansions fragment here).successors here :=
      Fragment.succ_mem_successors (hroutes.isTerminal_eq.trans hterm) (by omega)
    have hbranch : ∀ {b : Branch}, fragment.branch = some b → Fragment.target expansions b ∈
        (Fragment.settle expansions fragment here).successors here := by
      intro b hb
      obtain ⟨hle, hge⟩ := h.target_bounds hplace hcode hbranches hb
      exact Fragment.target_mem_successors hb (hbranches.branch fragment hplace.mem b hb).1 hle
        (by omega)
    cases hleads with
    | next hinside =>
      rw [hhere] at hnext ⊢
      exact hnext
    | follow hend =>
      rw [show Fragment.start expansions (offset + 1) = here + 1 by omega]
      exact hnext
    | branch hskip =>
      rw [← (h.target_landing hcode hskip).2.2]
      exact hbranch (hroutes.branch_of_skipDistance hskip)
    | guard hcast hguard =>
      cases hplace.get.symm.trans hguard
      exact hbranch rfl

/-- Control goes on to a fragment, unless a guard takes it to the failure at the end. -/
theorem leads_lt (h : instruction.Routed expansions)
    (hplace : Fragment.Place expansions here offset k fragments fragment)
    (hcode : instruction[offset]? = some code) (hterm : code.isTerminal = false)
    (hleads : Fragment.Leads expansions code offset fragments k next) :
    next < expansions.flatten.length ∨
      ((∃ targets source width, code = .cast targets source width) ∧
        (∃ limb, fragment = .compareConst limb 0 .trailer) ∧
          next = expansions.flatten.length) := by
  have hland := h.landing hcode
  have hin := (h.flows.succ_lt hcode hterm (by omega)).1
  have hsucc := h.start_lt hin
  have hstart := Fragment.start_succ hplace.expansion
  cases hleads with
  | next hinside => exact .inl (by omega)
  | follow hend => exact .inl hsucc
  | branch hskip => exact .inl (h.start_lt (h.target_landing hcode hskip).1)
  | guard hcast hguard =>
    cases hplace.get.symm.trans hguard
    exact .inr ⟨⟨_, _, _, hcast⟩, ⟨_, rfl⟩, rfl⟩

end Routed

/-- **Branches never land within an expansion**: from a fragment of a microcode of an accepted
instruction control goes on to the next fragment, at the end of the expansion to the start of the
one that follows, from a comparison to the start of the expansion of the microcode it goes to, and
from a guard of a cast to the failure at the end. All of these are there, and nothing but guards
goes to the failure. A microcode at which control leaves the instruction is left as it is. -/
theorem split_retargets {scope : Scope} {codes : Instruction} {early later : Pool}
    (hvalid : instruction.validate scope = .ok ()) (hlength : instruction.length < Word.modulus)
    (hland : ∀ offset code distance, instruction[offset]? = some code →
      code.skipDistance = some distance → offset + 1 + distance < Word.modulus)
    (hs : early.Splits scope.registers)
    (h : instruction.split scope.registers early = .ok codes later)
    (hlen : codes.length < Word.modulus) :
    ∃ expansions, expandFrom scope.registers 0 instruction early = .ok expansions later ∧
      codes = Fragment.link expansions ∧
      (∀ here code', codes[here]? = some code' → expansions.flatten.length ≤ here →
        here = expansions.flatten.length ∧ code' = .fail) ∧
      ∀ offset code, instruction[offset]? = some code → ∃ fragments,
        expansions[offset]? = some fragments ∧
        Fragment.start expansions offset < expansions.flatten.length ∧
        (code.isTerminal = true →
          fragments.length = 1 ∧ codes[Fragment.start expansions offset]? = some code) ∧
        ∀ k < fragments.length, ∃ code',
          codes[Fragment.start expansions offset + k]? = some code' ∧
          code'.isTerminal = code.isTerminal ∧
          (∀ next, next ∈ code'.successors (Fragment.start expansions offset + k) ↔
            code.isTerminal = false ∧ Fragment.Leads expansions code offset fragments k next) ∧
          ∀ next ∈ code'.successors (Fragment.start expansions offset + k),
            next < expansions.flatten.length ∨
            ((∃ targets source width, code = .cast targets source width) ∧
              (∃ limb distance, code' = .skip limb .unused 0 distance) ∧
              next = expansions.flatten.length ∧ codes[next]? = some .fail) := by
  obtain ⟨expansions, mid, hexpand, h⟩ := estate_bind_ok.1 h
  obtain ⟨rfl, rfl⟩ := estate_pure_ok.1 h
  obtain ⟨-, hcount, hall⟩ := expandFrom_ok hexpand hs
  have hexpands : instruction.Expands scope.registers mid expansions :=
    ⟨hcount, fun {offset code} hcode => by simpa using hall offset code hcode⟩
  have hrouted := hexpands.routed (validate_ok_iff.1 hvalid).2.2.1 fun {offset code} hcode => by
    have hlt := (List.getElem?_eq_some_iff.1 hcode).1
    cases hskip : code.skipDistance with
    | none => exact Nat.lt_of_le_of_lt hlt hlength
    | some distance => exact hland offset code distance hcode hskip
  refine ⟨expansions, hexpand, rfl, fun here code' hget hge => ?_, fun offset code hcode => ?_⟩
  · rcases Fragment.link_cases hget with ⟨offset, k, fragments, fragment, hplace, -⟩ | htrailer
    · exact absurd hge (Nat.not_le.2 hplace.lt_flatten)
    · exact htrailer
  · obtain ⟨fragments, hget, hexpandsTo⟩ := hexpands.expand hcode
    refine ⟨fragments, hget, hrouted.start_lt (List.getElem?_eq_some_iff.1 hcode).1,
      fun hterm => ?_, fun k hk => ?_⟩
    · obtain rfl := hexpandsTo.eq_of_isTerminal hterm
      have hplace : Fragment.Place expansions (Fragment.start expansions offset) offset 0 _
          (.plain code) := ⟨hget, rfl, rfl⟩
      exact ⟨rfl, hplace.link_eq⟩
    · have hplace :
          Fragment.Place expansions (Fragment.start expansions offset + k) offset k fragments
            fragments[k] := ⟨hget, List.getElem?_eq_getElem hk, rfl⟩
      have hroutes := hexpandsTo.routes _ hplace.mem
      have hsuccessors := hrouted.mem_successors_iff hlen hplace hcode hexpandsTo.branches hroutes
      refine ⟨_, hplace.link_eq, (Fragment.isTerminal_settle _ _ _).trans hroutes.isTerminal_eq,
        hsuccessors, fun next hnext => ?_⟩
      obtain ⟨hterm, hleads⟩ := (hsuccessors next).1 hnext
      refine (hrouted.leads_lt hplace hcode hterm hleads).imp_right ?_
      rintro ⟨hcast, ⟨limb, hguard⟩, rfl⟩
      have hfail := Fragment.link_trailer hplace.mem_flatten (by rw [hguard]; rfl)
      rw [Fragment.start_length] at hfail
      exact ⟨hcast, ⟨limb, _, by rw [hguard]; rfl⟩, rfl, hfail⟩

/-- A comparison of three limbs, a cast that guards one of them, and a way out. -/
def guarded : Instruction := [.skip (.reg 0) .unused 3 1, .cast [.reg 1] (.reg 0) 3, .ret]

/-- The first limb is compared at 0, from where control gets to the way out at 6; the guard of the
cast is at 3 and leads to the failure at 7. -/
theorem split_retargets_guarded : ∃ codes later,
    guarded.split [⟨.temp, "x", 5, 0⟩, ⟨.temp, "y", 3, 0⟩]
      (.ofRegisters [⟨.temp, "x", 5, 0⟩, ⟨.temp, "y", 3, 0⟩] 2) = .ok codes later ∧
    (∃ code, codes[0]? = some code ∧ 6 ∈ code.successors 0) ∧ codes[6]? = some .ret ∧
    ∃ code, codes[3]? = some code ∧ 7 ∈ code.successors 3 := by
  obtain ⟨expansions, later, hexpand, hstarts, hend, hguard⟩ : ∃ expansions later,
      expandFrom [⟨.temp, "x", 5, 0⟩, ⟨.temp, "y", 3, 0⟩] 0 guarded
        (.ofRegisters [⟨.temp, "x", 5, 0⟩, ⟨.temp, "y", 3, 0⟩] 2) = .ok expansions later ∧
      [0, 1, 2].map (Fragment.start expansions) = [0, 3, 6] ∧ expansions.flatten.length = 7 ∧
      ∃ fragments, expansions[1]? = some fragments ∧
        fragments[0]? = some (.compareConst (.reg 2) 0 .trailer) :=
    ⟨_, _, rfl, rfl, rfl, _, rfl, rfl⟩
  have hsplit : guarded.split [⟨.temp, "x", 5, 0⟩, ⟨.temp, "y", 3, 0⟩]
      (.ofRegisters [⟨.temp, "x", 5, 0⟩, ⟨.temp, "y", 3, 0⟩] 2) =
      .ok (Fragment.link expansions) later :=
    estate_bind_ok.2 ⟨expansions, later, hexpand, rfl⟩
  have hvalid : guarded.validate
      ⟨.unbounded, [⟨.temp, "x", 5, 0⟩, ⟨.temp, "y", 3, 0⟩], [], 1⟩ = .ok () := rfl
  have hland : ∀ offset code distance, guarded[offset]? = some code →
      code.skipDistance = some distance → offset + 1 + distance < Word.modulus := by
    intro offset code distance hcode hskip
    rcases offset with _ | _ | _ | offset
    all_goals cases hcode
    all_goals cases hskip
    decide
  have hlen : (Fragment.link expansions).length < Word.modulus :=
    Nat.lt_of_le_of_lt (Fragment.length_link_le expansions) (by rw [hend]; decide)
  obtain ⟨expansions', hexpand', -, -, hall⟩ := split_retargets hvalid (by decide) hland
    (Pool.splits_ofRegisters _ 2) hsplit hlen
  cases hexpand.symm.trans hexpand'
  simp only [List.map_cons, List.map_nil, List.cons.injEq, and_true] at hstarts
  obtain ⟨hfirst, hsecond, hthird⟩ := hstarts
  refine ⟨_, later, hsplit, ?_, ?_, ?_⟩
  · obtain ⟨fragments, hget, -, -, hplaces⟩ := hall 0 _ rfl
    have hlength : Fragment.start expansions 1 = _ := Fragment.start_succ hget
    obtain ⟨code, hcode, -, hsuccessors, -⟩ := hplaces 0 (by omega)
    have hnext := (hsuccessors _).2 ⟨rfl, .branch rfl⟩
    rw [hfirst, hthird] at hnext
    rw [hfirst] at hcode
    exact ⟨code, hcode, hnext⟩
  · obtain ⟨fragments, -, -, hterminal, -⟩ := hall 2 _ rfl
    rw [← hthird]
    exact (hterminal rfl).2
  · obtain ⟨fragments, hget, hguard⟩ := hguard
    obtain ⟨fragments', hget', -, -, hplaces⟩ := hall 1 _ rfl
    cases hget.symm.trans hget'
    obtain ⟨code, hcode, -, hsuccessors, -⟩ := hplaces 0 (List.getElem?_eq_some_iff.1 hguard).1
    have hnext := (hsuccessors _).2 ⟨rfl, .guard rfl hguard⟩
    rw [hsecond, hend] at hnext
    rw [hsecond] at hcode
    exact ⟨code, hcode, hnext⟩

end Instruction

end LimbMachine
