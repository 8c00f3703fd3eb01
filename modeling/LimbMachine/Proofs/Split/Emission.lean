import LimbMachine.Proofs.Check.Bandwidth
import LimbMachine.Proofs.Split.Polynomials
import LimbMachine.Proofs.Split.Renaming

/-!
# What splitting emits

The microcodes that sums, subtractions and casts are made of are written so that they pass the
checks: their registers are declared, their targets are distinct and no inputs, and what they store
fits (`Microcode.Proper`). A list of them reads what is there at first or what an earlier one wrote,
writes each of its targets once, and apart from these only registers that were allocated for it
(`Pool.Emits`). Such lists can be put one after the other (`Pool.Emits.append`). A carry is as wide
as it can get, which is no wider than the limbs after it where nothing overflows
(`LimbEquation.chain_max_lt`).
-/

namespace LimbMachine

theorem bitLength_two_pow_sub_one (width : Nat) : bitLength (2 ^ width - 1) = width := by
  apply Nat.le_antisymm
  · rw [bitLength_le_iff]
    exact bitMask_lt width
  · have hlt := lt_two_pow_bitLength (2 ^ width - 1)
    exact (Nat.pow_le_pow_iff_right (by decide)).1 (Nat.le_of_pred_lt hlt)

theorem RegisterFile.isInput_mono {rs later : RegisterFile} {id : RegId} (h : rs <+: later)
    (hid : rs.declares id = true) : later.isInput id = rs.isInput id := by
  rw [isInput, isInput, find?_mono h hid]

theorem RegisterFile.declares_of_widthOf_pos {rs : RegisterFile} {id : RegId}
    (h : 0 < rs.widthOf id) : rs.declares id = true := by
  by_contra hnot
  rw [widthOf_of_not_declares (Bool.eq_false_iff.2 hnot)] at h
  exact Nat.lt_irrefl 0 h

/-- Allocated registers are no inputs. -/
theorem Pool.Extends.isInput_new {pool later : Pool} {id : RegId} (h : pool.Extends later)
    (hid : pool.registers.declares id = false) : later.registers.isInput id = false := by
  obtain ⟨extra, hregs, htemp⟩ := h.grown
  cases id with
  | unused => rfl
  | reg i =>
    have hlen : pool.registers.length ≤ i := by
      rw [← Nat.not_lt, ← RegisterFile.declares_reg, hid]
      exact Bool.false_ne_true
    rw [RegisterFile.isInput, RegisterFile.find?, hregs, List.getElem?_append_right hlen]
    cases hr : extra[i - pool.registers.length]? with
    | none => rfl
    | some r => simp [Register.isInput, (htemp r (List.mem_of_getElem? hr)).1]

theorem RegId.nodup_listed (id : RegId) : id.listed.Nodup := by
  cases id with
  | unused => exact .nil
  | reg i => exact List.nodup_singleton _

/-- A register that was allocated is declared, no input, and new. -/
theorem Pool.Allocated.of_listed {pool later : Pool} {width : Nat} {id id' : RegId}
    (h : pool.Allocated width id later) (hid' : id' ∈ id.listed) :
    later.registers.declares id' = true ∧ later.registers.isInput id' = false ∧
      pool.registers.declares id' = false := by
  obtain ⟨rfl, hused⟩ := RegId.mem_listed.1 hid'
  exact ⟨h.known hused, h.grows.isInput_new h.fresh, h.fresh⟩

/-- Declared registers keep their ids while registers are added. -/
theorem RegisterFile.renames_id {rs later : RegisterFile} {ids : List RegId} (h : rs <+: later)
    (hids : ∀ id ∈ ids, rs.declares id = true) : rs.Renames later id ids where
  unused := rfl
  declares _ hid _ := declares_mono h (hids _ hid)
  widthOf_eq _ hid := widthOf_mono h (hids _ hid)
  inj _ _ _ _ heq := heq

theorem Polynomial.width_mono {p : Polynomial} {rs later : RegisterFile} (h : rs <+: later)
    (hp : ∀ id ∈ p.registers, rs.declares id = true) : p.width later = p.width rs := by
  unfold width
  congr 1
  refine sideValue_congr fun m hm id hid => ?_
  exact (RegisterFile.Knows.of_declares (hp id (mem_registers.2 ⟨m, hm, hid⟩))).maxOf_eq h

theorem Polynomial.registers_var (id : RegId) : (var id).registers = [id] := rfl

theorem Polynomial.width_var (rs : RegisterFile) (id : RegId) :
    (var id).width rs = rs.widthOf id := by
  have hmax : (var id).maxValue rs = 2 ^ rs.widthOf id - 1 := by
    simp [maxValue, eval, var, Monomial.eval, RegisterFile.maxOf_eq]
  rw [width, hmax, bitLength_two_pow_sub_one]

namespace Microcode

variable {rs later : RegisterFile} {scope : Scope} {code : Microcode}
    {codes codes' : List Microcode}
  {known known' : List RegId}

/-! ## One microcode -/

/-- What a microcode stores fits its targets. -/
def Balanced (rs : RegisterFile) : Microcode → Prop
  | assign targets rhs => rhs.width rs ≤ (rs.widths targets).sum
  | sub targets sources constant => ∃ minuend subtrahends pivot,
    sources = minuend :: subtrahends ∧
    subPivot targets rs (rs.widthOf minuend) = some pivot ∧
    bitLength (borrowsFor (constant + (subtrahends.map rs.maxOf).sum) (rs.widthOf minuend)) ≤
      (rs.widths (targets.drop pivot)).sum
  | cast targets source width => width ≤ rs.widthOf source ∧ width ≤ (rs.widths targets).sum
  | _ => False

/-- An assignment, subtraction or cast that passes the checks but for the bandwidth of a field. -/
structure Proper (rs : RegisterFile) (code : Microcode) : Prop where
  declared : ∀ id ∈ code.operands ++ code.targets, rs.declares id = true
  notInput : ∀ id ∈ code.targets, rs.isInput id = false
  nodup : code.targets.Nodup
  size : (rs.widths code.targets).sum < Word.modulus
  balanced : code.Balanced rs

theorem Balanced.mono (h : code.Balanced rs) (hpre : rs <+: later)
    (hdecl : ∀ id ∈ code.operands ++ code.targets, rs.declares id = true) :
    code.Balanced later := by
  have hoperands : ∀ id ∈ code.operands, rs.declares id = true := fun id hid =>
    hdecl id (List.mem_append_left _ hid)
  have htargets : ∀ id ∈ code.targets, rs.declares id = true := fun id hid =>
    hdecl id (List.mem_append_right _ hid)
  have hwidths : ∀ {ids : List RegId}, ids ⊆ code.targets →
      later.widths ids = rs.widths ids :=
    fun hsub => RegisterFile.widths_mono hpre fun id hid => htargets id (hsub hid)
  cases code with
  | assign targets rhs =>
    rw [Balanced, Polynomial.width_mono hpre hoperands, hwidths (List.Subset.refl targets)]
    exact h
  | sub targets sources constant =>
    obtain ⟨minuend, subtrahends, pivot, rfl, hpivot, hborrow⟩ := h
    refine ⟨minuend, subtrahends, pivot, rfl, ?_, ?_⟩
    · rw [RegisterFile.widthOf_mono hpre (hoperands minuend List.mem_cons_self), ← hpivot]
      have hmap := (RegisterFile.renames_id hpre htargets).subPivot_map (rs.widthOf minuend)
      rwa [List.map_id] at hmap
    · have hmax : subtrahends.map later.maxOf = subtrahends.map rs.maxOf :=
        List.map_congr_left fun id hid => (RegisterFile.Knows.of_declares
          (hoperands id (List.mem_cons_of_mem _ hid))).maxOf_eq hpre
      rw [RegisterFile.widthOf_mono hpre (hoperands minuend List.mem_cons_self), hmax,
        hwidths (List.drop_subset pivot targets)]
      exact hborrow
  | cast targets source width =>
    rw [Balanced, RegisterFile.widthOf_mono hpre (hoperands source List.mem_cons_self),
      hwidths (List.Subset.refl targets)]
    exact h
  | _ => exact h.elim

theorem Proper.mono (h : code.Proper rs) (hpre : rs <+: later) : code.Proper later where
  declared id hid := RegisterFile.declares_mono hpre (h.declared id hid)
  notInput id hid := by
    rw [RegisterFile.isInput_mono hpre (h.declared id (List.mem_append_right _ hid))]
    exact h.notInput id hid
  nodup := h.nodup
  size := by
    rw [RegisterFile.widths_mono hpre fun id hid => h.declared id (List.mem_append_right _ hid)]
    exact h.size
  balanced := h.balanced.mono hpre h.declared

theorem Proper.reads_eq (h : code.Proper rs) : code.reads = code.operands :=
  List.filter_eq_self.2 fun id hid =>
    RegisterFile.isUsed_of_declares (h.declared id (List.mem_append_left _ hid))

theorem Proper.writes_eq (h : code.Proper rs) : code.writes = code.targets :=
  List.filter_eq_self.2 fun id hid =>
    RegisterFile.isUsed_of_declares (h.declared id (List.mem_append_right _ hid))

/-- A proper microcode is refused at most for the bandwidth of a field. -/
theorem Proper.acceptable (h : code.Proper scope.registers) : code.Acceptable scope := by
  have hknown : ∀ id ∈ code.reads ++ code.writes, scope.registers.declares id = true := by
    rw [h.reads_eq, h.writes_eq]
    exact h.declared
  have hbalanced := h.balanced
  have htotal := RegisterFile.totalWidth_eq h.size
  cases code with
  | assign targets rhs =>
    refine ⟨rhs.width scope.registers,
      validate_ok_iff.2 ⟨hknown, ⟨h.notInput, h.nodup⟩, ?_, ?_⟩⟩
    · exact hbalanced.trans_eq htotal.symm
    · exact Nat.le_refl _
  | sub targets sources constant =>
    obtain ⟨minuend, subtrahends, pivot, rfl, hpivot, hborrow⟩ := hbalanced
    refine ⟨bitLength (scope.registers.maxOf minuend +
      borrowsFor (constant + (subtrahends.map scope.registers.maxOf).sum)
        (scope.registers.widthOf minuend) <<< scope.registers.widthOf minuend),
      validate_ok_iff.2 ⟨hknown, ⟨h.notInput, h.nodup⟩, minuend, subtrahends, pivot, rfl,
        hpivot, ?_, Nat.le_refl _⟩⟩
    have hhigh : (scope.registers.widths (targets.drop pivot)).sum < Word.modulus :=
      Nat.lt_of_le_of_lt (((List.drop_sublist pivot targets).map _).sum_le_sum fun _ _ =>
        Nat.zero_le _)
        h.size
    exact hborrow.trans_eq (RegisterFile.totalWidth_eq hhigh).symm
  | cast targets source width =>
    refine ⟨width, validate_ok_iff.2 ⟨hknown, ⟨h.notInput, h.nodup⟩,
      hbalanced.1, ?_, ?_⟩⟩
    · exact hbalanced.2.trans_eq htotal.symm
    · exact Nat.le_refl _
  | _ => exact hbalanced.elim

/-- A register is copied to one that is wide enough. -/
theorem Proper.copy {id target : RegId} (hid : rs.declares id = true)
    (ht : rs.declares target = true) (hinput : rs.isInput target = false)
    (hwidth : rs.widthOf id ≤ rs.widthOf target) (hsize : rs.widthOf target < Word.modulus) :
    (assign [target] (.var id)).Proper rs where
  declared := by simp [operands, targets, Polynomial.registers_var, hid, ht]
  notInput := by simpa [targets] using hinput
  nodup := List.nodup_singleton target
  size := by simpa [targets] using hsize
  balanced := by
    rw [Balanced, Polynomial.width_var]
    simpa using hwidth

/-! ## Reading and writing in order -/

/-- The registers that microcodes write, in order. -/
abbrev allWrites (codes : List Microcode) : List RegId := codes.flatMap writes

/-- Every microcode reads only what is known at first or what an earlier one wrote. -/
def Ordered : List RegId → List Microcode → Prop
  | _, [] => True
  | known, code :: rest => code.reads ⊆ known ∧ Ordered (known ++ code.writes) rest

theorem Ordered.mono (h : Ordered known codes) (hsub : known ⊆ known') :
    Ordered known' codes := by
  induction codes generalizing known known' with
  | nil => trivial
  | cons code rest ih =>
    refine ⟨List.Subset.trans h.1 hsub, ih h.2 ?_⟩
    exact List.append_subset.2 ⟨List.subset_append_of_subset_left _ hsub,
      List.subset_append_right _ _⟩

theorem Ordered.append (h : Ordered known codes) (h' : Ordered (known ++ allWrites codes) codes') :
    Ordered known (codes ++ codes') := by
  induction codes generalizing known with
  | nil => simpa using h'
  | cons code rest ih =>
    refine ⟨h.1, ih h.2 ?_⟩
    rwa [List.append_assoc]

/-- A microcode reads what was known at first or what one of those before it wrote. -/
theorem Ordered.reads_subset (h : Ordered known codes) {k : Nat} (hcode : codes[k]? = some code) :
    code.reads ⊆ known ++ allWrites (codes.take k) := by
  induction codes generalizing known k with
  | nil => cases hcode
  | cons first rest ih =>
    cases k with
    | zero =>
      cases hcode
      simpa using h.1
    | succ k =>
      have hrest := ih h.2 hcode
      rwa [List.append_assoc] at hrest

end Microcode

open Microcode (allWrites Ordered)

/-! ## Emitted microcodes -/

/-- Microcodes emitted while the pool grew from `pool` to `later`: they read only `reads` and what
they write themselves, and write each of `targets` and otherwise only new registers, none of them
twice. -/
structure Pool.Emits (pool later : Pool) (reads targets : List RegId) (codes : List Microcode) :
    Prop where
  grows : pool.Extends later
  proper : ∀ code ∈ codes, code.Proper later.registers
  ordered : Ordered reads codes
  nodup : (allWrites codes).Nodup
  all : targets ⊆ allWrites codes
  only : ∀ id ∈ allWrites codes, id ∈ targets ∨ pool.registers.declares id = false

namespace Pool.Emits

variable {pool mid later : Pool} {reads reads' targets targets' : List RegId}
  {codes codes' : List Microcode} {code : Microcode}

theorem nil (pool : Pool) (reads : List RegId) : pool.Emits pool reads [] [] where
  grows := .refl pool
  proper := by simp
  ordered := trivial
  nodup := .nil
  all := List.nil_subset _
  only := by simp

theorem single (hgrows : pool.Extends later) (hproper : code.Proper later.registers)
    (hreads : code.operands ⊆ reads) (hall : targets ⊆ code.targets)
    (honly : ∀ id ∈ code.targets, id ∈ targets ∨ pool.registers.declares id = false) :
    pool.Emits later reads targets [code] := by
  have hwritten : allWrites [code] = code.targets := by
    rw [allWrites, List.flatMap_singleton, hproper.writes_eq]
  refine ⟨hgrows, ?_, ⟨?_, trivial⟩, ?_, ?_, ?_⟩
  · simpa using hproper
  · rwa [hproper.reads_eq]
  · exact hwritten ▸ hproper.nodup
  · exact hwritten ▸ hall
  · exact hwritten ▸ honly

theorem mono_reads (h : pool.Emits later reads targets codes) (hsub : reads ⊆ reads') :
    pool.Emits later reads' targets codes :=
  { h with ordered := h.ordered.mono hsub }

/-- The order in which targets are listed does not matter. -/
theorem retarget (h : pool.Emits later reads targets codes) (hsub : targets' ⊆ targets)
    (hsup : targets ⊆ targets') : pool.Emits later reads targets' codes :=
  { h with
    all := List.Subset.trans hsub h.all
    only := fun id hid => (h.only id hid).imp_left fun hmem => hsup hmem }

/-- Targets that are new need not be listed. -/
theorem of_fresh (h : mid.Emits mid reads targets codes) (hgrows : pool.Extends mid)
    (hfresh : ∀ id ∈ targets, pool.registers.declares id = false) :
    pool.Emits mid reads [] codes where
  grows := hgrows
  proper := h.proper
  ordered := h.ordered
  nodup := h.nodup
  all := List.nil_subset _
  only id hid := .inr ((h.only id hid).elim (hfresh id)
    (RegisterFile.not_declares_mono hgrows.registers))

/-- Everything written is declared in the end. -/
theorem declares (h : pool.Emits later reads targets codes) :
    ∀ id ∈ allWrites codes, later.registers.declares id = true := by
  intro id hid
  obtain ⟨code, hcode, hid⟩ := List.mem_flatMap.1 hid
  exact (h.proper code hcode).declared id (List.mem_append_right _ (List.mem_filter.1 hid).1)

/-- What comes later may read what was written before; its targets are others. -/
theorem append (h : pool.Emits mid reads targets codes)
    (h' : mid.Emits later reads' targets' codes') (hreads : reads' ⊆ reads ++ allWrites codes)
    (hdisjoint : targets.Disjoint targets')
    (hdecl : ∀ id ∈ targets', pool.registers.declares id = true) :
    pool.Emits later reads (targets ++ targets') (codes ++ codes') := by
  have happend : allWrites (codes ++ codes') = allWrites codes ++ allWrites codes' :=
    List.flatMap_append
  refine ⟨h.grows.trans h'.grows, ?_, h.ordered.append (h'.ordered.mono hreads), ?_, ?_, ?_⟩
  · intro code hcode
    rcases List.mem_append.1 hcode with hcode | hcode
    · exact (h.proper code hcode).mono h'.grows.registers
    · exact h'.proper code hcode
  · rw [happend]
    refine h.nodup.append h'.nodup fun id hid hid' => ?_
    -- what was written before is not new any more, so it would be a target of both
    rcases h'.only id hid' with htarget' | hfresh
    · rcases h.only id hid with htarget | hfresh
      · exact hdisjoint htarget htarget'
      · exact Bool.false_ne_true (hfresh.symm.trans (hdecl id htarget'))
    · exact Bool.false_ne_true (hfresh.symm.trans (h.declares id hid))
  · rw [happend]
    exact List.append_subset.2 ⟨List.subset_append_of_subset_left _ h.all,
      List.subset_append_of_subset_right _ h'.all⟩
  · intro id hid
    rw [happend] at hid
    rcases List.mem_append.1 hid with hid | hid
    · exact (h.only id hid).imp_left (List.mem_append_left _)
    · exact (h'.only id hid).imp (List.mem_append_right _)
        (RegisterFile.not_declares_mono h.grows.registers)

end Pool.Emits

/-! ## Chains of equations -/

namespace LimbEquation

variable {pool later : Pool} {codes : List Microcode} {eqs : List LimbEquation} {carry : RegId}
  {site : Site} {ids : List RegId} {copies : List (RegId × RegId)}

/-- The registers that some equations read. -/
abbrev vars (eqs : List LimbEquation) : List RegId :=
  eqs.flatMap fun eq => eq.terms.flatMap Monomial.vars

theorem registers_rhs {eq : LimbEquation} {id : RegId} :
    id ∈ (eq.rhs carry).registers ↔ id ∈ eq.terms.flatMap Monomial.vars ∨
      id ∈ carry.listed := by
  rw [Polynomial.mem_registers, rhs]
  cases hused : carry.isUsed with
  | true => simp [RegId.listed, hused, or_and_right, exists_or]
  | false => simp [RegId.listed, hused]

theorem copy_cons_ok {id : RegId} (h : copy (id :: ids) pool = .ok copies later) :
    ∃ saved mid rest, Pool.allocate "tmp" (pool.registers.widthOf id) pool = .ok saved mid ∧
      copy ids mid = .ok rest later ∧ copies = (id, saved) :: rest := by
  unfold copy at h
  rw [estate_get_bind] at h
  obtain ⟨saved, mid, halloc, h⟩ := estate_bind_ok.1 h
  obtain ⟨rest, later', hrest, h⟩ := estate_bind_ok.1 h
  obtain ⟨rfl, rfl⟩ := estate_pure_ok.1 h
  exact ⟨saved, mid, rest, halloc, hrest, rfl⟩

/-- Copies go to new registers. -/
theorem copy_emits (h : copy ids pool = .ok copies later)
    (hids : ∀ id ∈ ids, 0 < pool.registers.widthOf id ∧
      pool.registers.widthOf id < Word.modulus) :
    pool.Emits later ids [] (copies.map save) ∧ copies.map Prod.fst = ids ∧
      ∀ pair ∈ copies, pair.2 ∈ allWrites (copies.map save) := by
  induction ids generalizing pool copies with
  | nil =>
    obtain ⟨rfl, rfl⟩ := estate_pure_ok.1 h
    exact ⟨.nil pool [], rfl, by simp⟩
  | cons id ids ih =>
    obtain ⟨saved, mid, rest, halloc, hcopy, rfl⟩ := copy_cons_ok h
    have halloc := Pool.allocate_ok halloc
    obtain ⟨hpos, hsize⟩ := hids id List.mem_cons_self
    have hid := RegisterFile.declares_of_widthOf_pos hpos
    have hproper : (save (id, saved)).Proper mid.registers := by
      refine .copy (RegisterFile.declares_mono halloc.grows.registers hid)
        (halloc.known (halloc.used_iff.2 hpos)) (halloc.grows.isInput_new halloc.fresh) ?_ ?_
      · rw [halloc.widthOf_eq, RegisterFile.widthOf_mono halloc.grows.registers hid]
      · rwa [halloc.widthOf_eq]
    have hfirst : pool.Emits mid (id :: ids) [] [save (id, saved)] := by
      refine .single halloc.grows hproper ?_ (List.nil_subset _) ?_
      · simp [Microcode.operands, Polynomial.registers_var]
      · intro id' hid'
        rw [List.mem_singleton.1 hid']
        exact .inr halloc.fresh
    obtain ⟨hemits, hfst, hmem⟩ := ih hcopy fun id' hid' => by
      have hid'' := hids id' (List.mem_cons_of_mem _ hid')
      rwa [RegisterFile.widthOf_mono halloc.grows.registers
        (RegisterFile.declares_of_widthOf_pos hid''.1)]
    refine ⟨hfirst.append hemits (by simp) (by simp) (by simp), by rw [List.map_cons, hfst], ?_⟩
    intro pair hpair
    rw [List.map_cons, allWrites, List.flatMap_cons, hproper.writes_eq]
    rcases List.mem_cons.1 hpair with rfl | hpair
    · exact List.mem_append_left _ List.mem_cons_self
    · exact List.mem_append_right _ (hmem pair hpair)

/-- A chain that does not overflow has room for the most its sum can be, whatever its carries: a
carry that is passed on is as wide as it can get, and the last equation has no carry. -/
theorem chain_max_lt (h : chain site carry eqs pool = .ok codes later) (hne : eqs ≠ [])
    (hknown : ∀ eq ∈ eqs, ∀ m ∈ eq.terms, ∀ id ∈ m.vars, pool.registers.Knows id) :
    total pool.registers.maxOf eqs + pool.registers.maxOf carry <
      2 ^ (eqs.map fun eq => eq.limb.width).sum := by
  induction eqs generalizing carry pool codes with
  | nil => exact absurd rfl hne
  | cons eq rest ih =>
    have hmax : (eq.rhs carry).maxValue pool.registers =
        sideValue pool.registers.maxOf eq.terms + pool.registers.maxOf carry :=
          eval_rhs rfl eq carry
    have hbits := lt_two_pow_bitLength ((eq.rhs carry).maxValue pool.registers)
    rcases chain_cons_ok h with ⟨hempty, hfit, -, -⟩ | ⟨hrest, next, mid, codes', halloc,
      hchain, -⟩
    · have hsum : Limb.total (eq.limb :: rest.map limb) ≤
          ((eq :: rest).map fun eq => eq.limb.width).sum := by
        refine (Nat.mod_le _ _).trans (Nat.le_of_eq ?_)
        simp [Function.comp_def]
      rw [total_cons, total_eq_zero hempty, Nat.mul_zero, Nat.add_zero, ← hmax]
      exact bitLength_le_iff.1 (hfit.trans hsum)
    · have halloc := Pool.allocate_ok halloc
      have hrestKnown : ∀ eq ∈ rest, ∀ m ∈ eq.terms, ∀ id ∈ m.vars,
          pool.registers.Knows id :=
        fun eq' heq' => hknown eq' (List.mem_cons_of_mem _ heq')
      have htotal : total mid.registers.maxOf rest = total pool.registers.maxOf rest :=
        total_congr fun eq' heq' m hm id hid =>
          (hrestKnown eq' heq' m hm id hid).maxOf_eq halloc.grows.registers
      have hlater := ih hchain hrest fun eq' heq' m hm id hid =>
        (hrestKnown eq' heq' m hm id hid).mono halloc.grows.registers
      rw [htotal, RegisterFile.maxOf_eq, halloc.widthOf_eq] at hlater
      have hcarry := Nat.two_pow_pos ((eq.rhs carry).width pool.registers - eq.limb.width)
      calc total pool.registers.maxOf (eq :: rest) + pool.registers.maxOf carry
          = (eq.rhs carry).maxValue pool.registers +
              2 ^ eq.limb.width * total pool.registers.maxOf rest := by
            rw [total_cons, hmax]
            omega
        _ < 2 ^ eq.limb.width * 2 ^ ((eq.rhs carry).width pool.registers - eq.limb.width) +
              2 ^ eq.limb.width * total pool.registers.maxOf rest := by
            refine Nat.add_lt_add_right (hbits.trans_le ?_) _
            rw [← Nat.pow_add]
            exact Nat.pow_le_pow_right (by decide) le_add_tsub
        _ ≤ 2 ^ eq.limb.width * 2 ^ (rest.map fun eq => eq.limb.width).sum := by
            rw [← Nat.mul_add]
            exact Nat.mul_le_mul_left _ (by omega)
        _ = 2 ^ ((eq :: rest).map fun eq => eq.limb.width).sum := by
            rw [← Nat.pow_add, List.map_cons, List.sum_cons]

/-- So no right-hand side is wider than the limbs from its own on. -/
theorem width_rhs_le {eq : LimbEquation} (h : chain site carry (eq :: eqs) pool = .ok codes later)
    (hknown : ∀ eq' ∈ eq :: eqs, ∀ m ∈ eq'.terms, ∀ id ∈ m.vars,
      pool.registers.Knows id) :
    (eq.rhs carry).width pool.registers ≤ ((eq :: eqs).map fun eq => eq.limb.width).sum := by
  have hmax : (eq.rhs carry).maxValue pool.registers =
      sideValue pool.registers.maxOf eq.terms + pool.registers.maxOf carry := eval_rhs rfl eq carry
  refine bitLength_le_iff.2 (Nat.lt_of_le_of_lt ?_ (chain_max_lt h (List.cons_ne_nil _ _) hknown))
  rw [hmax, total_cons]
  omega

section Equation

variable {eq : LimbEquation} {rest : List LimbEquation} {next : RegId}
  (hready : Ready pool.registers (eq :: rest))
  (hinput : ∀ eq' ∈ eq :: rest, pool.registers.isInput eq'.limb.id = false)
  (hreads : ∀ id ∈ (eq.rhs carry).registers, pool.registers.declares id = true)

include hready hinput hreads

theorem last_proper (hfit : (eq.rhs carry).width pool.registers ≤
      Limb.total (eq.limb :: rest.map limb)) :
    (Microcode.assign (written (eq :: rest)) (eq.rhs carry)).Proper pool.registers := by
  refine ⟨fun id hid => ?_, fun id hid => ?_, hready.nodup, ?_, ?_⟩
  · rcases List.mem_append.1 hid with hid | hid
    · exact hreads id hid
    · obtain ⟨eq', heq', rfl⟩ := List.mem_map.1 hid
      exact hready.declared eq' heq'
  · obtain ⟨eq', heq', rfl⟩ := List.mem_map.1 hid
    exact hinput eq' heq'
  · exact hready.widths_written ▸ hready.size
  · refine hfit.trans ?_
    rw [hready.widths_written]
    refine (Nat.mod_le _ _).trans (Nat.le_of_eq ?_)
    simp [Function.comp_def]

theorem first_proper
    (halloc : pool.Allocated ((eq.rhs carry).width pool.registers - eq.limb.width) next later)
    (hle : (eq.rhs carry).width pool.registers ≤ ((eq :: rest).map fun eq => eq.limb.width).sum) :
    (Microcode.assign (eq.limb.id :: next.listed) (eq.rhs carry)).Proper later.registers := by
  have hmem : eq ∈ eq :: rest := List.mem_cons_self
  have hlimb := hready.declared eq hmem
  have hpre := halloc.grows.registers
  have hsum : (later.registers.widths (eq.limb.id :: next.listed)).sum =
      eq.limb.width + ((eq.rhs carry).width pool.registers - eq.limb.width) := by
    rw [RegisterFile.widths_cons, List.sum_cons, RegisterFile.sum_widths_listed,
      halloc.widthOf_eq, RegisterFile.widthOf_mono hpre hlimb, ← hready.width_eq eq hmem]
  refine ⟨fun id hid => ?_, fun id hid => ?_, ?_, ?_, ?_⟩
  · rcases List.mem_append.1 hid with hid | hid
    · exact RegisterFile.declares_mono hpre (hreads id hid)
    · rcases List.mem_cons.1 hid with rfl | hid
      · exact RegisterFile.declares_mono hpre hlimb
      · exact (halloc.of_listed hid).1
  · rcases List.mem_cons.1 hid with rfl | hid
    · rw [RegisterFile.isInput_mono hpre hlimb]
      exact hinput eq hmem
    · exact (halloc.of_listed hid).2.1
  · refine List.nodup_cons.2 ⟨fun hid => ?_, next.nodup_listed⟩
    exact Bool.false_ne_true ((halloc.of_listed hid).2.2.symm.trans hlimb)
  · have hsize := hready.size
    rw [List.map_cons, List.sum_cons] at hle hsize
    rw [Microcode.targets, hsum]
    omega
  · rw [Microcode.Balanced, Polynomial.width_mono hpre hreads, hsum]
    omega

end Equation

/-- Every equation stores into its limb, and into a carry if one is needed. -/
theorem chain_emits (h : chain site carry eqs pool = .ok codes later)
    (hready : Ready pool.registers eqs)
    (hinput : ∀ eq ∈ eqs, pool.registers.isInput eq.limb.id = false)
    (hvars : ∀ id ∈ vars eqs, pool.registers.declares id = true)
    (hcarry : pool.registers.Knows carry) :
    pool.Emits later (carry.listed ++ vars eqs) (written eqs) codes := by
  induction eqs generalizing carry pool codes with
  | nil =>
    obtain ⟨rfl, rfl⟩ := estate_pure_ok.1 h
    exact .nil pool _
  | cons eq rest ih =>
    have hreads : (eq.rhs carry).registers ⊆ carry.listed ++ vars (eq :: rest) := by
      intro id hid
      rcases registers_rhs.1 hid with hid | hid
      · exact List.mem_append_right _ (List.mem_append_left _ hid)
      · exact List.mem_append_left _ hid
    have hreadsDecl : ∀ id ∈ (eq.rhs carry).registers, pool.registers.declares id = true := by
      intro id hid
      rcases List.mem_append.1 (hreads hid) with hid | hid
      · obtain ⟨rfl, hused⟩ := RegId.mem_listed.1 hid
        exact hcarry hused
      · exact hvars id hid
    rcases chain_cons_ok h with ⟨-, hfit, rfl, rfl⟩ |
      ⟨-, next, mid, codes', halloc, hchain, rfl⟩
    · have hids : Limb.ids (eq.limb :: rest.map limb) = written (eq :: rest) := by
        simp [Limb.ids, written]
      rw [hids]
      exact .single (.refl later) (last_proper hready hinput hreadsDecl hfit) hreads
        (List.Subset.refl _) fun id hid => .inl hid
    · have halloc := Pool.allocate_ok halloc
      have hpre := halloc.grows.registers
      have hproper := first_proper hready hinput hreadsDecl halloc (width_rhs_le h hready.known)
      have hfirst : pool.Emits mid (carry.listed ++ vars (eq :: rest)) [eq.limb.id]
          [.assign (eq.limb.id :: next.listed) (eq.rhs carry)] := by
        refine .single halloc.grows hproper hreads (by simp [Microcode.targets]) fun id hid => ?_
        rcases List.mem_cons.1 hid with rfl | hid
        · exact .inl List.mem_cons_self
        · exact .inr (halloc.of_listed hid).2.2
      have hrestDecl : ∀ eq' ∈ rest, pool.registers.declares eq'.limb.id = true :=
        fun eq' heq' =>
        hready.declared eq' (List.mem_cons_of_mem _ heq')
      have hrest := ih hchain (hready.tail.mono hpre)
        (fun eq' heq' => by
          rw [RegisterFile.isInput_mono hpre (hrestDecl eq' heq')]
          exact hinput eq' (List.mem_cons_of_mem _ heq'))
        (fun id hid => RegisterFile.declares_mono hpre (hvars id (List.mem_append_right _ hid)))
        halloc.known
      refine hfirst.append hrest (fun id hid => ?_) ?_ ?_
      · rcases List.mem_append.1 hid with hid | hid
        · refine List.mem_append_right _ ?_
          rw [allWrites, List.flatMap_singleton, hproper.writes_eq]
          exact List.mem_cons_of_mem _ hid
        · exact List.mem_append_left _ (List.mem_append_right _ (List.mem_append_right _ hid))
      · exact List.singleton_disjoint.2 (List.nodup_cons.1 hready.nodup).1
      · intro id hid
        obtain ⟨eq', heq', rfl⟩ := List.mem_map.1 hid
        exact hrestDecl eq' heq'

theorem copy_widths (h : copy ids pool = .ok copies later)
    (hids : ∀ id ∈ ids, pool.registers.declares id = true) :
    ∀ pair ∈ copies, later.registers.widthOf pair.2 = pool.registers.widthOf pair.1 := by
  induction ids generalizing pool copies with
  | nil =>
    obtain ⟨rfl, rfl⟩ := estate_pure_ok.1 h
    simp
  | cons id ids ih =>
    obtain ⟨saved, mid, rest, halloc, hcopy, rfl⟩ := copy_cons_ok h
    have halloc := Pool.allocate_ok halloc
    have hpre := halloc.grows.registers
    rw [List.forall_mem_cons] at hids
    have hdecl : ∀ id ∈ ids, mid.registers.declares id = true := fun id' hid' =>
      RegisterFile.declares_mono hpre (hids.2 id' hid')
    obtain ⟨hgrows, hfst, -, -⟩ := copy_runs hcopy hdecl
    refine List.forall_mem_cons.2 ⟨?_, fun pair hpair => ?_⟩
    · rw [halloc.known.widthOf_eq hgrows.registers, halloc.widthOf_eq]
    · have hin : pair.1 ∈ ids := hfst ▸ List.mem_map_of_mem hpair
      rw [ih hcopy hdecl pair hpair, RegisterFile.widthOf_mono hpre (hids.2 _ hin)]

theorem hazards_vars {id : RegId} {before : List RegId} (h : id ∈ hazards before eqs) :
    id ∈ vars eqs := by
  induction eqs generalizing before with
  | nil => cases h
  | cons eq rest ih =>
    rcases List.mem_append.1 h with h | h
    · exact List.mem_append_left _ (List.mem_filter.1 h).1
    · exact List.mem_append_right _ (ih h)

/-- A limb is read where it is or where it was copied to. -/
theorem reading_cases (copies : List (RegId × RegId)) (id : RegId) :
    reading copies id = id ∨ (id, reading copies id) ∈ copies := by
  unfold reading
  cases hlookup : copies.lookup id with
  | none => exact .inl rfl
  | some saved => exact .inr (mem_of_lookup hlookup)

end LimbEquation

section Distribute

variable {site : Site} {terms : List Term} {layout : List Limb} {pool later : Pool}
  {codes : List Microcode}

/-- The registers that weighted terms read. -/
abbrev Term.reads (terms : List Term) : List RegId := terms.flatMap fun term => term.monomial.vars

theorem LimbEquation.vars_ofTerms_subset (layout : List Limb) (terms : List Term) :
    vars (ofTerms layout terms) ⊆ Term.reads terms := by
  intro id hid
  obtain ⟨eq, heq, hid⟩ := List.mem_flatMap.1 hid
  obtain ⟨m, hm, hid⟩ := List.mem_flatMap.1 hid
  obtain ⟨term, hterm, hvars⟩ := vars_ofTerms heq hm
  exact List.mem_flatMap.2 ⟨term, hterm, hvars ▸ hid⟩

/-- A sum is stored into each limb once. -/
theorem distribute_emits (h : distribute site terms layout pool = .ok codes later)
    (hplaced : Limb.Placed pool.registers layout)
    (hinput : ∀ id ∈ Limb.ids layout, pool.registers.isInput id = false)
    (hterms : ∀ id ∈ Term.reads terms, 0 < pool.registers.widthOf id) :
    pool.Emits later (Term.reads terms) (Limb.ids layout) codes := by
  obtain ⟨copies, mid, chained, hcopy, hchain, rfl⟩ := distribute_ok h
  have hvars := LimbEquation.vars_ofTerms_subset layout terms
  have hlimbs := LimbEquation.map_limb_ofTerms layout terms
  have hdecl : ∀ id ∈ Term.reads terms, pool.registers.declares id = true := fun id hid =>
    RegisterFile.declares_of_widthOf_pos (hterms id hid)
  have hhazards : (LimbEquation.hazards [] (LimbEquation.ofTerms layout terms)).eraseDups ⊆
      Term.reads terms := fun id hid => hvars (LimbEquation.hazards_vars (List.mem_eraseDups.1 hid))
  obtain ⟨hcopies, hfst, hsaved⟩ := LimbEquation.copy_emits hcopy fun id hid =>
    ⟨hterms id (hhazards hid),
      hplaced.width_lt id (LimbEquation.hazards_layout layout terms id hid)⟩
  have hpre := hcopies.grows.registers
  have hready := LimbEquation.ready_moved hpre hplaced
    (fun term hterm id hid =>
      .of_declares (hdecl id (List.mem_flatMap.2 ⟨term, hterm, hid⟩))) hfst
    fun pair hpair => ⟨.of_declares (hcopies.declares _ (hsaved pair hpair)),
      (hcopies.only _ (hsaved pair hpair)).resolve_left (List.not_mem_nil)⟩
  -- the moved equations read the terms' registers and the copies
  have hmoved : LimbEquation.vars ((LimbEquation.ofTerms layout terms).map fun eq =>
      { eq with terms := eq.terms.map (Monomial.mapVars (LimbEquation.reading copies)) }) ⊆
        Term.reads terms ++ allWrites (copies.map LimbEquation.save) := by
    intro id hid
    obtain ⟨moved, hmoved, hid⟩ := List.mem_flatMap.1 hid
    obtain ⟨eq, heq, rfl⟩ := List.mem_map.1 hmoved
    obtain ⟨m', hm', hid⟩ := List.mem_flatMap.1 hid
    obtain ⟨m, hm, rfl⟩ := List.mem_map.1 hm'
    obtain ⟨id₀, hid₀, rfl⟩ := List.mem_map.1 hid
    rcases LimbEquation.reading_cases copies id₀ with hsame | hcopy
    · rw [hsame]
      exact List.mem_append_left _ (hvars (List.mem_flatMap.2 ⟨eq, heq,
        List.mem_flatMap.2 ⟨m, hm, hid₀⟩⟩))
    · exact List.mem_append_right _ (hsaved _ hcopy)
  have hchained := LimbEquation.chain_emits hchain hready ?_ ?_ fun hu => (nomatch hu)
  · rw [LimbEquation.written_moved] at hchained
    exact (hcopies.mono_reads hhazards).append hchained hmoved (List.disjoint_nil_left _)
      hplaced.declared
  · intro moved hmoved
    obtain ⟨eq, heq, rfl⟩ := List.mem_map.1 hmoved
    have hmem : eq.limb.id ∈ Limb.ids layout :=
      List.mem_map_of_mem (hlimbs ▸ List.mem_map_of_mem heq)
    rw [RegisterFile.isInput_mono hpre (hplaced.declared _ hmem)]
    exact hinput _ hmem
  · intro id hid
    rcases List.mem_append.1 (hmoved hid) with hid | hid
    · exact RegisterFile.declares_mono hpre (hdecl id hid)
    · exact hcopies.declares id hid

/-- A sum that is stored into limbs fits them, whatever its registers hold. -/
theorem distribute_max_lt (h : distribute site terms layout pool = .ok codes later)
    (hcont : Limb.Contiguous pool.registers 0 layout)
    (hlayout : ∀ id ∈ Limb.ids layout, pool.registers.declares id = true) (hne : layout ≠ [])
    (hknown : ∀ term ∈ terms, ∀ id ∈ term.monomial.vars, pool.registers.Knows id) :
    (terms.map (Term.value pool.registers.maxOf)).sum < 2 ^ (layout.map Limb.width).sum := by
  obtain ⟨copies, mid, chained, hcopy, hchain, rfl⟩ := distribute_ok h
  have hdecl : ∀ id ∈ (LimbEquation.hazards [] (LimbEquation.ofTerms layout terms)).eraseDups,
      pool.registers.declares id = true := fun id hid =>
    hlayout id (LimbEquation.hazards_layout layout terms id hid)
  obtain ⟨hgrows, hfst, hcopied, -⟩ := LimbEquation.copy_runs hcopy hdecl
  have hmoved := LimbEquation.knows_moved layout hgrows.registers hknown fun pair hpair =>
    (hcopied pair hpair).1
  have hlimbs := LimbEquation.map_limb_ofTerms layout terms
  have hnil : LimbEquation.ofTerms layout terms ≠ [] := by
    rintro hnil
    rw [hnil] at hlimbs
    exact hne hlimbs.symm
  have hlt := LimbEquation.chain_max_lt hchain (by simpa using hnil) hmoved
  -- copies are as wide as what they were copied from
  have hread : ∀ eq ∈ LimbEquation.ofTerms layout terms, ∀ m ∈ eq.terms, ∀ id ∈ m.vars,
      mid.registers.maxOf (LimbEquation.reading copies id) = pool.registers.maxOf id := by
    intro eq heq m hm id hid
    rcases LimbEquation.reading_cases copies id with hsame | hcopy'
    · obtain ⟨term, hterm, hvars⟩ := LimbEquation.vars_ofTerms heq hm
      rw [hsame]
      exact (hknown term hterm id (hvars ▸ hid)).maxOf_eq hgrows.registers
    · rw [RegisterFile.maxOf_eq, RegisterFile.maxOf_eq,
        LimbEquation.copy_widths hcopy hdecl _ hcopy']
  have hwidths : ((LimbEquation.ofTerms layout terms).map fun eq => eq.limb.width) =
      layout.map Limb.width := by
    conv_rhs => rw [← hlimbs, List.map_map]
    rfl
  rw [LimbEquation.total_moved hread, LimbEquation.total_ofTerms _ hne hcont,
    List.map_map] at hlt
  rw [← hwidths]
  exact Nat.lt_of_le_of_lt (Nat.le_add_right _ _) hlt

end Distribute

end LimbMachine
