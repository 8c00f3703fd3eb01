import LimbMachine.Proofs.Split.Tiling
import LimbMachine.Proofs.Split.Linked

/-!
# Why an accepted microcode may not be split

Declared registers are always found in the pool, the limbs of a subtrahend start where limbs of the
minuend do, and the sides of a comparison stay equally wide. So a microcode of an accepted routine
is refused for two reasons only: a division by or into several limbs, and a carry or borrow of a
sum, product or difference that its registers could hold but its targets do not (`Site.Refuses`,
`Microcode.expand_refuses`). A cast is never refused.
-/

namespace LimbMachine

/-! ## Lookups of declared registers -/

namespace Pool

variable {pool : Pool} {rs : RegisterFile} {ids : List RegId}

theorem Splits.tryLimbs_succeeds {id : RegId} (h : pool.Splits rs) (hid : rs.declares id = true) :
    ∃ limbs, pool.tryLimbs id = .ok limbs := by
  obtain ⟨limbs, hlimbs⟩ := h.limbs_of_declares hid
  exact ⟨limbs, tryLimbs_ok_iff.2 hlimbs⟩

theorem Splits.flatten_succeeds (h : pool.Splits rs)
    (hids : ∀ id ∈ ids, rs.declares id = true) : ∃ limbs, pool.flatten ids = .ok limbs := by
  obtain ⟨limbs, hlimbs⟩ := except_mapM_succeeds fun id hid => h.tryLimbs_succeeds (hids id hid)
  exact ⟨limbs.flatten, except_map_ok.2 ⟨limbs, hlimbs, rfl⟩⟩

theorem Splits.layout_succeeds (h : pool.Splits rs) (hids : ∀ id ∈ ids, rs.declares id = true) :
    ∃ limbs, pool.layout ids = .ok limbs := by
  obtain ⟨limbs, hlimbs⟩ := h.flatten_succeeds hids
  exact ⟨_, except_map_ok.2 ⟨limbs, hlimbs, rfl⟩⟩

theorem Splits.products_succeeds (h : pool.Splits rs)
    (hids : ∀ id ∈ ids, rs.declares id = true) :
    ∃ products, pool.products ids = .ok products := by
  induction ids with
  | nil => exact ⟨_, rfl⟩
  | cons id ids ih =>
    rw [List.forall_mem_cons] at hids
    obtain ⟨limbs, hlimbs⟩ : ∃ limbs, pool.layout [id] = .ok limbs :=
      h.layout_succeeds (by simpa using hids.1)
    obtain ⟨inner, hinner⟩ := ih hids.2
    exact ⟨_, except_bind_ok.2 ⟨limbs, hlimbs, except_bind_ok.2 ⟨inner, hinner, rfl⟩⟩⟩

theorem Splits.terms_succeeds {p : Polynomial} (h : pool.Splits rs)
    (hids : ∀ id ∈ p.registers, rs.declares id = true) :
    ∃ terms, pool.terms p = .ok terms := by
  have hmonomial : ∀ m ∈ p.terms, ∃ terms, (do
      return (← pool.products m.vars).map fun product =>
        Term.mk ⟨m.coefficient, product.1⟩ product.2 : Except SplitError (List Term)) =
          .ok terms := by
    intro m hm
    obtain ⟨products, hproducts⟩ := h.products_succeeds fun id hid =>
      hids id (Polynomial.mem_registers.2 ⟨m, hm, hid⟩)
    exact ⟨_, except_bind_ok.2 ⟨products, hproducts, rfl⟩⟩
  obtain ⟨expanded, hexpanded⟩ := except_mapM_succeeds hmonomial
  exact ⟨_, except_bind_ok.2 ⟨expanded, hexpanded, rfl⟩⟩

theorem Splits.limbsOfEach_succeeds (h : pool.Splits rs)
    (hids : ∀ id ∈ ids, rs.declares id = true) :
    ∃ limbs, pool.limbsOfEach ids = .ok limbs := by
  have hlayout : ∀ id ∈ ids, ∃ limbs, pool.layout [id] = .ok limbs := fun id hid =>
    h.layout_succeeds (by simpa using hids id hid)
  obtain ⟨layouts, hlayouts⟩ := except_mapM_succeeds hlayout
  exact ⟨_, except_bind_ok.2 ⟨layouts, hlayouts, rfl⟩⟩

end Pool

/-! ## Sums -/

section Sums

variable {site : Site} {pool : Pool} {rs : RegisterFile}

theorem LimbEquation.raises_copy {P : SplitError → Prop} (ids : List RegId) (pool : Pool) :
    RaisesOnly P (copy ids pool) := by
  induction ids generalizing pool with
  | nil => exact .of_ok rfl
  | cons id ids ih =>
    obtain ⟨saved, mid, hsaved⟩ := Pool.allocate_succeeds "tmp" (pool.registers.widthOf id) pool
    unfold copy
    rw [estate_get_bind, estate_bind_of_ok hsaved]
    exact .bind (ih mid) fun copies later _ => .of_ok rfl

/-- A chain of equations is refused only where its last limbs are too narrow. -/
theorem LimbEquation.raises_chain (carry : RegId) (eqs : List LimbEquation) (pool : Pool) :
    RaisesOnly (· = .overflow site) (chain site carry eqs pool) := by
  induction eqs generalizing carry pool with
  | nil => exact .of_ok rfl
  | cons eq rest ih =>
    unfold chain
    rw [estate_get_bind]
    refine .ite (fun _ => .ite (fun _ => .throw rfl) fun _ => .of_ok rfl) fun _ => ?_
    obtain ⟨next, mid, hnext⟩ := Pool.allocate_succeeds "carry"
      ((eq.rhs carry).width pool.registers - eq.limb.width) pool
    rw [estate_bind_of_ok hnext]
    exact .bind (ih next mid) fun codes later _ => .of_ok rfl

theorem raises_distribute (terms : List Term) (layout : List Limb) (pool : Pool) :
    RaisesOnly (· = .overflow site) (distribute site terms layout pool) := by
  unfold distribute
  refine .bind (LimbEquation.raises_copy _ pool) fun copies mid _ => ?_
  exact .bind (LimbEquation.raises_chain .unused _ mid) fun codes later _ => .of_ok rfl

theorem raises_splitPolynomial {targets : List RegId} {rhs : Polynomial} (hs : pool.Splits rs)
    (hdecl : ∀ id ∈ rhs.registers ++ targets, rs.declares id = true) :
    RaisesOnly (· = .overflow site) (splitPolynomial site targets rhs pool) := by
  rw [List.forall_mem_append] at hdecl
  obtain ⟨layout, hlayout⟩ := hs.layout_succeeds hdecl.2
  obtain ⟨terms, hterms⟩ := hs.terms_succeeds hdecl.1
  unfold splitPolynomial
  rw [estate_bind_of_ok (Pool.asking_ok.2 ⟨hlayout, rfl⟩),
    estate_bind_of_ok (Pool.asking_ok.2 ⟨hterms, rfl⟩)]
  exact raises_distribute terms layout pool

end Sums

/-! ## Differences -/

namespace Limb

theorem Contiguous.offset_eq {rs : RegisterFile} {offset i : Nat} {limbs : List Limb} {limb : Limb}
    (h : Contiguous rs offset limbs) (hget : limbs[i]? = some limb) :
    limb.offset = offset + ((limbs.map Limb.width).take i).sum := by
  induction limbs generalizing offset i with
  | nil => cases hget
  | cons first rest ih =>
    obtain ⟨hoffset, hwidth, hrest⟩ := h
    cases i with
    | zero =>
      cases hget
      simpa using hoffset
    | succ i =>
      rw [ih hrest hget, List.map_cons, List.take_succ_cons, List.sum_cons, Nat.add_assoc]

end Limb

namespace Pool

variable {pool : Pool} {rs : RegisterFile} {id minuend : RegId} {limbs others : List Limb}

theorem length_limbWidths (width total : Nat) :
    (limbWidths width total).length = if total ≤ width then 1
      else (total + width - 1) / width := by
  simp [limbWidths]

/-- The limbs of a register start at multiples of the limb width. -/
theorem LaidOut.offset_eq (h : pool.LaidOut [id] limbs) (hs : pool.Splits rs) {i : Nat}
    {limb : Limb} (hget : limbs[i]? = some limb) :
    limb.offset = min (i * pool.width) (rs.widthOf id) ∧
      limb.width = min pool.width (rs.widthOf id - i * pool.width) := by
  have hlt := (List.getElem?_eq_some_iff.1 hget).1
  have hwidths := h.map_width hs
  have hlength : limbs.length = (limbWidths pool.width (rs.widthOf id)).length := by
    rw [← hwidths, List.length_map]
  rw [length_limbWidths] at hlength
  refine ⟨?_, ?_⟩
  · rw [h.contiguous.offset_eq hget, hwidths, limbWidths, ← List.map_take, List.take_range,
      Nat.min_eq_left (by omega), sum_map_min, Nat.zero_add]
  · have hwidth : (limbs.map Limb.width)[i]? = some limb.width := by
      rw [List.getElem?_map, hget]
      rfl
    rw [hwidths, limbWidths, List.getElem?_map, List.getElem?_range (by omega)] at hwidth
    exact (Option.some.inj hwidth).symm

/-- A limb of a register that starts below the width of another one starts where a limb of that one
does. -/
theorem LaidOut.exists_offset (h : pool.LaidOut [minuend] limbs) (h' : pool.LaidOut [id] others)
    (hs : pool.Splits rs) {limb : Limb} (hlimb : limb ∈ others) (hpos : 0 < limb.width)
    (hlt : limb.offset < rs.widthOf minuend) : ∃ m ∈ limbs, m.offset = limb.offset := by
  obtain ⟨k, hget⟩ := List.getElem?_of_mem hlimb
  obtain ⟨hoffset, hwidth⟩ := h'.offset_eq hs hget
  have hw := hs.width_pos
  have hstart : limb.offset = k * pool.width := by omega
  have hcount : k < limbs.length := by
    have hlength : limbs.length = (limbWidths pool.width (rs.widthOf minuend)).length := by
      rw [← h.map_width hs, List.length_map]
    rw [hlength, length_limbWidths]
    split
    · rename_i hle
      have hone : k * pool.width < 1 * pool.width := by omega
      exact Nat.lt_of_mul_lt_mul_right hone
    · rw [Nat.lt_iff_add_one_le, Nat.le_div_iff_mul_le hw, Nat.succ_mul]
      omega
  obtain ⟨m, hm⟩ : ∃ m, limbs[k]? = some m := ⟨_, List.getElem?_eq_getElem hcount⟩
  refine ⟨m, List.mem_of_getElem? hm, ?_⟩
  rw [(h.offset_eq hs hm).1]
  omega

/-- The limbs of an accepted subtraction line up. -/
theorem Splits.plan_succeeds {site : Site} {targets subtrahends : List RegId} {constant pivot : Nat}
    (hs : pool.Splits site.registers) (hsize : ∀ id, site.registers.widthOf id < Word.modulus)
    (hdecl : ∀ id ∈ (minuend :: subtrahends) ++ targets, site.registers.declares id = true)
    (hpivot : subPivot targets site.registers (site.registers.widthOf minuend) = some pivot) :
    ∃ plan aligned stages, pool.planSubtraction site targets (minuend :: subtrahends) constant =
      .ok (plan, aligned, stages) ∧ plan.site = site := by
  rw [List.forall_mem_append, List.forall_mem_cons] at hdecl
  obtain ⟨all, hall⟩ : ∃ all, pool.layout [minuend] = .ok all :=
    hs.layout_succeeds (by simpa using hdecl.1.1)
  obtain ⟨low, hlow⟩ : ∃ low, pool.layout (targets.take pivot) = .ok low :=
    hs.layout_succeeds fun id hid => hdecl.2 id (List.mem_of_mem_take hid)
  obtain ⟨high, hhigh⟩ : ∃ high, pool.layout (targets.drop pivot) = .ok high :=
    hs.layout_succeeds fun id hid => hdecl.2 id (List.mem_of_mem_drop hid)
  obtain ⟨others, hothers⟩ := hs.limbsOfEach_succeeds hdecl.1.2
  -- a subtrahend's limb below the width of the minuend starts where a limb of the minuend does
  have hfound : ((others.filter fun limb => limb.offset < site.registers.widthOf minuend).any
      fun limb => (if site.registers.widthOf minuend = 0 then all.take 1 else all).all
        fun m => m.offset ≠ limb.offset) = false := by
    rw [List.any_eq_false]
    intro limb hlimb hnone
    obtain ⟨hlimb, hlt⟩ := List.mem_filter.1 hlimb
    have hlt := of_decide_eq_true hlt
    rw [if_neg (by omega)] at hnone
    obtain ⟨hpos, id, own, hown, hmem⟩ := mem_limbsOfEach hothers limb hlimb
    have hlaid := hs.laidOut (by simpa using hsize minuend) hall
    have hlaid' := hs.laidOut (by simpa using hsize id) hown
    obtain ⟨m, hm, heq⟩ := hlaid.exists_offset hlaid' hs hmem hpos hlt
    exact of_decide_eq_true (List.all_eq_true.1 hnone m hm) heq
  unfold planSubtraction
  simp only [hpivot, List.partition_eq_filter_filter, hall, hlow, hhigh, hothers, except_ok_bind,
    hfound, Bool.false_eq_true, if_false]
  exact ⟨_, _, _, rfl, rfl⟩

end Pool

namespace Subtraction

variable {plan : Subtraction}

theorem raises_difference {P : SplitError → Prop} (plan : Subtraction) (stage : Stage)
    (pool : Pool) : RaisesOnly P (plan.difference stage pool) := by
  unfold difference
  refine .ite (fun _ => .of_ok rfl) fun _ => ?_
  cases hlow : stage.low with
  | some id => exact .of_ok rfl
  | none =>
    obtain ⟨scratch, mid, hscratch⟩ := Pool.allocate_succeeds "tmp" stage.minuend.width pool
    exact .bind (.of_ok hscratch) fun scratch mid _ => .of_ok rfl

/-- A stage is refused only where the borrow does not fit its targets. -/
theorem raises_stage (plan : Subtraction) (isLast : Bool) (borrow : RegId) (stage : Stage)
    (pool : Pool) :
    RaisesOnly (· = .overflow plan.site) (plan.stage isLast borrow stage pool) := by
  unfold Subtraction.stage
  rw [estate_get_bind]
  refine .bind (plan.raises_difference stage pool) fun (targets, scratch) mid _ => ?_
  refine .ite (fun _ => .ite (fun _ => .throw rfl) fun _ => .of_ok rfl) fun _ => ?_
  refine .bind ?_ fun next later _ => .of_ok rfl
  obtain ⟨next, later, hnext⟩ := Pool.allocate_succeeds "borrow" _ mid
  exact .of_ok hnext

theorem raises_stages (plan : Subtraction) (borrow : RegId) (stages : List Stage) (pool : Pool) :
    RaisesOnly (· = .overflow plan.site) (plan.stages borrow stages pool) := by
  induction stages generalizing borrow pool with
  | nil => exact .of_ok rfl
  | cons stage rest ih =>
    unfold Subtraction.stages
    refine .bind (plan.raises_stage _ borrow stage pool) fun result mid _ => ?_
    exact .bind (ih result.2.2 mid) fun rest later _ => .of_ok rfl

theorem raises_codes (plan : Subtraction) (aligned : Bool) (stages : List Stage) (pool : Pool) :
    RaisesOnly (· = .overflow plan.site) (plan.codes aligned stages pool) := by
  have hraised : ∀ (chain moved : List Microcode) (borrow : RegId) (last : Pool),
      RaisesOnly (· = .overflow plan.site) ((do
        if plan.above.isEmpty then
          return chain ++ moved
        if plan.high.isEmpty then
          throw (.overflow plan.site)
        let borrowed := if borrow.isUsed then [Term.ofLimb borrow 0] else []
        let raised ← distribute plan.site (plan.above ++ borrowed) plan.high
        return chain ++ moved ++ raised : SplitM (List Microcode)) last) := by
    intro chain moved borrow last
    refine .ite (fun _ => .of_ok rfl) fun _ => .ite (fun _ => .throw rfl) fun _ => ?_
    exact .bind (raises_distribute _ _ _) fun raised later _ => .of_ok rfl
  unfold codes
  refine .bind (plan.raises_stages .unused stages pool) fun (chain, scratch, borrow) mid _ => ?_
  refine .ite (fun _ => ?_) fun _ => ?_
  · exact hraised chain [] borrow mid
  · exact .bind (raises_distribute scratch plan.low mid) fun moved last _ =>
      hraised chain moved borrow last

end Subtraction

theorem raises_splitSubtraction {site : Site} {targets subtrahends : List RegId} {minuend : RegId}
    {constant pivot : Nat} {pool : Pool} (hs : pool.Splits site.registers)
    (hsize : ∀ id, site.registers.widthOf id < Word.modulus)
    (hdecl : ∀ id ∈ (minuend :: subtrahends) ++ targets, site.registers.declares id = true)
    (hpivot : subPivot targets site.registers (site.registers.widthOf minuend) = some pivot) :
    RaisesOnly (· = .overflow site)
      (splitSubtraction site targets (minuend :: subtrahends) constant pool) := by
  obtain ⟨plan, aligned, stages, hplan, rfl⟩ := hs.plan_succeeds hsize hdecl hpivot
  unfold splitSubtraction
  rw [estate_bind_of_ok (Pool.asking_ok.2 ⟨hplan, rfl⟩)]
  exact plan.raises_codes aligned stages pool

/-! ## Casts, comparisons and divisions -/

section Others

variable {P : SplitError → Prop} {site : Site} {pool : Pool} {rs : RegisterFile}

/-- A cast is never refused. -/
theorem raises_splitCast {targets : List RegId} {source : RegId} {width : Nat} (hs : pool.Splits rs)
    (hsize : ∀ id, rs.widthOf id < Word.modulus)
    (hdecl : ∀ id ∈ [source] ++ targets, rs.declares id = true) (ht : rs.Storable targets)
    (hwidth : width ≤ (rs.widths targets).sum) :
    RaisesOnly P (splitCast site targets source width pool) := by
  rw [List.forall_mem_append] at hdecl
  obtain ⟨limbs, hlimbs⟩ := hs.layout_succeeds hdecl.1
  obtain ⟨layout, hlayout⟩ := hs.layout_succeeds hdecl.2
  have hlaid := hs.laidOut (by simpa using hsize source) hlimbs
  have htargets := hs.laidOut ht.size hlayout
  have hkept := Piece.keptOf_ofLimbs width hlaid.contiguous (hlaid.declares hs)
  have htiled := Piece.tiled_ofLimbs width hlaid.contiguous
  rw [Nat.zero_min] at htiled
  obtain ⟨codes, later, hmove⟩ : ∃ codes later, Piece.move site
      ((Piece.ofLimbs width limbs).filter fun piece => !decide (piece.kept = 0)) layout pool =
        .ok codes later := by
    apply Piece.move_succeeds htiled hkept htargets.contiguous
    · rw [htargets.sum_width hs]
      exact ht.size
    · rw [htargets.sum_width hs]
      exact Nat.le_trans (Nat.min_le_right _ _) hwidth
  unfold splitCast
  rw [estate_bind_of_ok (Pool.asking_ok.2 ⟨hlimbs, rfl⟩),
    estate_bind_of_ok (Pool.asking_ok.2 ⟨hlayout, rfl⟩)]
  simp only [List.partition_eq_filter_filter]
  exact .bind (.of_ok hmove) fun codes later _ => .of_ok rfl

/-- A comparison of sides of the same width is never refused. -/
theorem raises_splitComparison {left : List RegId} {right : Option (List RegId)}
    {constant landing : Nat} (hs : pool.Splits rs)
    (hleft : (rs.widths left).sum < Word.modulus)
    (hdecl : ∀ id ∈ left, rs.declares id = true)
    (hright : ∀ ids, right = some ids →
      (∀ id ∈ ids, rs.declares id = true) ∧ (rs.widths left).sum = (rs.widths ids).sum) :
    RaisesOnly P (splitComparison site left right constant landing pool) := by
  obtain ⟨limbs, hlimbs⟩ := hs.layout_succeeds hdecl
  have hlaid := hs.laidOut hleft hlimbs
  unfold splitComparison
  cases right with
  | none =>
    refine .bind (.of_ok rfl) fun other mid hother => ?_
    cases hother
    exact .bind (.asking (.of_ok hlimbs)) fun limbs later _ => .of_ok rfl
  | some ids =>
    obtain ⟨hids, hsum⟩ := hright ids rfl
    obtain ⟨others, hothers⟩ := hs.layout_succeeds hids
    have hlaid' := hs.laidOut (hsum ▸ hleft) hothers
    have htotal : Limb.total limbs = Limb.total others := by
      rw [Limb.total, Limb.total, Word.sum, Word.sum, hlaid.sum_width hs, hlaid'.sum_width hs, hsum]
    have hother : (pool.layout ids).map some = .ok (some others) :=
      except_map_ok.2 ⟨others, hothers, rfl⟩
    rw [estate_bind_of_ok (Pool.asking_ok.2 ⟨hother, rfl⟩),
      estate_bind_of_ok (Pool.asking_ok.2 ⟨hlimbs, rfl⟩)]
    simp only [ne_eq, htotal, not_true_eq_false, if_false]
    exact .of_ok rfl

/-- An operand of a division is refused only for having several limbs. -/
theorem Pool.Splits.failsOnly_onlyLimb {id : RegId} (hs : pool.Splits rs) (hid : rs.Knows id) :
    FailsOnly (· = .unsupportedDivision site) (pool.onlyLimb site id) := by
  unfold onlyLimb
  split
  · rename_i hused
    obtain ⟨limbs, hlimbs⟩ := hs.tryLimbs_succeeds (hid hused)
    refine .bind (.of_ok hlimbs) fun limbs _ => ?_
    split
    · exact .of_ok rfl
    · intro e heq
      cases heq
      rfl
  · exact .of_ok rfl

theorem Pool.Splits.failsOnly_isSingle {code : Microcode} (hs : pool.Splits rs)
    (hknown : ∀ id ∈ code.reads ++ code.writes, rs.declares id = true) :
    FailsOnly P (pool.isSingle code) := by
  obtain ⟨limbs, hlimbs⟩ :=
    except_mapM_succeeds fun id hid => hs.tryLimbs_succeeds (hknown id hid)
  exact .bind (.of_ok hlimbs) fun limbs _ => .of_ok rfl

end Others

/-! ## One microcode -/

/-- The microcodes whose carries or borrows may run over their targets. -/
def Microcode.Carries : Microcode → Prop
  | assign .. | add .. | sub .. | mul .. => True
  | _ => False

/-- Why a microcode of an accepted routine may be refused. -/
inductive Site.Refuses : Site → SplitError → Prop
  | division (quotient remainder witness dividend divisor : RegId) (rs : RegisterFile) :
    Refuses ⟨.div quotient remainder witness dividend divisor, rs⟩
      (.unsupportedDivision ⟨.div quotient remainder witness dividend divisor, rs⟩)
  | overflow {site : Site} (carries : site.code.Carries) : Refuses site (.overflow site)

namespace Microcode

variable {scope : Scope} {code : Microcode} {pool : Pool} {offset : Nat}

theorem knows_of_known {rs : RegisterFile}
    (hknown : ∀ id ∈ code.reads ++ code.writes, rs.declares id = true) :
    ∀ id ∈ code.operands ++ code.targets, rs.Knows id := by
  intro id hid hused
  refine hknown id ?_
  rw [reads, writes, ← List.filter_append]
  exact List.mem_filter.2 ⟨hid, hused⟩

theorem declares_of_used (hvalid : code.validate scope = .ok ())
    (hused : ∀ id ∈ code.operands ++ code.targets, id.isUsed = true) :
    ∀ id ∈ code.operands ++ code.targets, scope.registers.declares id = true :=
  fun id hid => knows_of_known (validate_ok_iff.1 hvalid).1 id hid (hused id hid)

theorem Compares.used {left : List RegId} {right : Option (List RegId)} {constant distance : Nat}
    (h : code.Compares left right constant distance) (hcomplete : code.Complete) :
    ∀ id ∈ left ++ right.getD [], id.isUsed = true := by
  cases h with
  | skip left right constant distance =>
    have hleft : left.isUsed = true := hcomplete
    cases hright : right.isUsed with
    | true => simp [hleft, hright]
    | false => simp [hleft]
  | skipIf left right constant distance =>
    have hall : ∀ id ∈ left ++ right ++ [], id.isUsed = true := hcomplete
    rw [List.append_nil] at hall
    by_cases hnil : right = []
    · simpa [hnil] using hall
    · simpa [hnil] using hall

theorem lower_refuses (hvalid : code.validate scope = .ok ()) (hcomplete : code.Complete)
    (hsized : code.Sized scope.registers) (hs : pool.Splits scope.registers)
    (hsize : ∀ id, scope.registers.widthOf id < Word.modulus) :
    RaisesOnly (Site.Refuses ⟨code, scope.registers⟩)
      (lower ⟨code, scope.registers⟩ offset pool) := by
  obtain ⟨hknown, hrule⟩ := validate_ok_iff.1 hvalid
  have hrun := runnable_of_validate hvalid hsized
  have hoverflow : ∀ {α : Type} {result : EStateM.Result SplitError Pool α}, code.Carries →
      RaisesOnly (· = .overflow ⟨code, scope.registers⟩) result →
      RaisesOnly (Site.Refuses ⟨code, scope.registers⟩) result :=
    fun hcarries hraises => hraises.mono fun e he => he ▸ .overflow hcarries
  have hsum : ∀ {p : Polynomial}, code.polynomial? = some p → code.Carries →
      (∀ id ∈ code.operands ++ code.targets, id.isUsed = true) →
      RaisesOnly (Site.Refuses ⟨code, scope.registers⟩)
        (lower ⟨code, scope.registers⟩ offset pool) := by
    intro p hp hcarries hused
    have hdecl := declares_of_used hvalid hused
    rw [lower_sum_eq hp]
    refine .bind (hoverflow hcarries (raises_splitPolynomial hs fun id hid => hdecl id ?_))
      fun codes later _ => .of_ok rfl
    exact List.mem_append.2 ((List.mem_append.1 hid).imp_left fun hid => registers_subset hp hid)
  have hcompare : ∀ {left : List RegId} {right : Option (List RegId)} {constant distance : Nat},
      code.Compares left right constant distance →
      RaisesOnly (Site.Refuses ⟨code, scope.registers⟩)
        (lower ⟨code, scope.registers⟩ offset pool) := by
    intro left right constant distance hcompares
    have hdecl := fun id hid => hknown id (List.mem_append_left _
      (hcompares.subset_reads (hcompares.used hcomplete) hid))
    rw [List.forall_mem_append] at hdecl
    rw [hcompares.lower_eq]
    refine raises_splitComparison hs (hcompares.sides_lt hrun hsize).1 hdecl.1 fun ids hids => ?_
    refine ⟨fun id hid => hdecl.2 id ?_, ((hcompares.rule_iff hsized).1 hrule).1.1 ids hids⟩
    rwa [hids]
  cases code with
  | assign targets rhs => exact hsum rfl trivial hcomplete
  | add targets sources constant => exact hsum rfl trivial hcomplete
  | mul targets sources constant => exact hsum rfl trivial hcomplete
  | sub targets sources constant =>
    have hdecl := declares_of_used hvalid hcomplete
    obtain ⟨-, minuend, subtrahends, pivot, rfl, hsub⟩ := hrule
    exact .bind (hoverflow trivial (raises_splitSubtraction hs hsize hdecl hsub.pivot_eq))
      fun codes later _ => .of_ok rfl
  | cast targets source width =>
    exact raises_splitCast hs hsize (declares_of_used hvalid hcomplete) hrun.1 hrun.2
  | div quotient remainder witness dividend divisor =>
    have hlimb : ∀ id ∈ [dividend, divisor] ++ [quotient, remainder, witness],
        FailsOnly (Site.Refuses ⟨.div quotient remainder witness dividend divisor,
          scope.registers⟩)
          (pool.onlyLimb ⟨.div quotient remainder witness dividend divisor,
            scope.registers⟩ id) := by
      intro id hid e he
      rw [hs.failsOnly_onlyLimb (knows_of_known hknown id hid) e he]
      exact .division quotient remainder witness dividend divisor scope.registers
    simp only [List.cons_append, List.nil_append, List.forall_mem_cons] at hlimb
    obtain ⟨hdividend, hdivisor, hquotient, hremainder, hwitness, -⟩ := hlimb
    unfold lower
    refine .asking ?_
    exact hquotient.bind fun _ _ => hremainder.bind fun _ _ => hwitness.bind fun _ _ =>
      hdividend.bind fun _ _ => hdivisor.bind fun _ _ => .of_ok rfl
  | skip left right constant distance => exact hcompare (.skip left right constant distance)
  | skipIf left right constant distance => exact hcompare (.skipIf left right constant distance)
  | call bus targets sources =>
    have hdecl : ∀ id ∈ sources ++ targets, scope.registers.declares id = true :=
      declares_of_used hvalid hcomplete
    rw [List.forall_mem_append] at hdecl
    obtain ⟨limbs, hlimbs⟩ := hs.flatten_succeeds hdecl.1
    obtain ⟨others, hothers⟩ := hs.flatten_succeeds hdecl.2
    unfold lower
    refine .asking ?_
    exact .bind (.of_ok hothers) fun _ _ => .bind (.of_ok hlimbs) fun _ _ => .of_ok rfl
  | jmp target => exact .of_ok rfl
  | ret => exact .of_ok rfl
  | fail => exact .of_ok rfl

/-- An accepted microcode is refused only as a division or for a carry or borrow. -/
theorem expand_refuses (hlegal : code.Legal scope) (hs : pool.Splits scope.registers)
    (hsize : ∀ id, scope.registers.widthOf id < Word.modulus) :
    RaisesOnly (Site.Refuses ⟨code, scope.registers⟩)
      (code.expand scope.registers offset pool) := by
  unfold expand
  have hsingle : FailsOnly (Site.Refuses ⟨code, scope.registers⟩) (pool.isSingle code) :=
    hs.failsOnly_isSingle (validate_ok_iff.1 hlegal.valid).1
  refine .bind (.asking hsingle) fun single mid hask => ?_
  obtain ⟨-, rfl⟩ := Pool.asking_ok.1 hask
  refine .ite (fun _ => .of_ok rfl) fun _ => ?_
  exact lower_refuses hlegal.valid hlegal.complete hlegal.sized hs hsize

end Microcode

end LimbMachine
