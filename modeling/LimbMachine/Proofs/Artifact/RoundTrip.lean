import LimbMachine.Artifact
import LimbMachine.Proofs.Artifact.Readers

/-!
# Reading an artifact gives the routine it was written from

The parts of a routine are read back in any surroundings, part by part in the order of the format
(`recovers_routine`). The header is checked against the payload it was computed from
(`Digest.open?_header`), whatever the digest is. Together they make up `decode_encode`.

A routine can be written when its numbers are sizes (`Routine.Encodable`). Numbers that are no sizes
may be arbitrarily large: constants, coefficients and initial values are written digit by digit.
-/

namespace LimbMachine

/-- The id is left out, or its index is a size and is not the one that stands for a left-out id. -/
def RegId.Encodable : RegId → Prop
  | .unused => True
  | .reg i => i < Word.top

/-- The sizes that a microcode is written with, besides its operands. -/
def Microcode.sizes : Microcode → List Nat
  | cast _ _ width => [width]
  | skip _ _ _ distance | skipIf _ _ _ distance => [distance]
  | call bus _ _ => [bus]
  | jmp target => [target]
  | _ => []

structure Microcode.Encodable (code : Microcode) : Prop where
  ids : ∀ id ∈ code.targets ++ code.operands, id.Encodable
  sizes : ∀ n ∈ code.sizes, n < Word.modulus

structure Bus.Encodable (bus : Bus) : Prop where
  id : ∀ id ∈ bus.id, id < Word.modulus
  lines : ∀ line ∈ bus.lines, line.Encodable

/-- Ids, widths, distances and numbers of buses and instructions are sizes, and so is the length of
the payload. The latter is no shorter than any list or text in it. -/
structure Routine.Encodable (f : Routine) : Prop where
  widths : ∀ r ∈ f.registers, r.width < Word.modulus
  buses : ∀ bus ∈ f.buses, bus.Encodable
  code : ∀ instruction ∈ f.code, ∀ code ∈ instruction, code.Encodable
  payload : (Artifact.putRoutine f).length < Word.modulus

instance (id : RegId) : Decidable id.Encodable :=
  match id with
  | .unused => inferInstanceAs (Decidable True)
  | .reg i => inferInstanceAs (Decidable (i < Word.top))

instance (code : Microcode) : Decidable code.Encodable :=
  decidable_of_iff ((∀ id ∈ code.targets ++ code.operands, id.Encodable) ∧
    ∀ n ∈ code.sizes, n < Word.modulus) ⟨fun ⟨h, h'⟩ => ⟨h, h'⟩,
      fun ⟨h, h'⟩ => ⟨h, h'⟩⟩

instance (bus : Bus) : Decidable bus.Encodable :=
  decidable_of_iff ((∀ id ∈ bus.id, id < Word.modulus) ∧
    ∀ line ∈ bus.lines, line.Encodable)
    ⟨fun ⟨h, h'⟩ => ⟨h, h'⟩, fun ⟨h, h'⟩ => ⟨h, h'⟩⟩

namespace Artifact

/-! ## Operands and registers -/

theorem ofIndex_index {id : RegId} (h : id.Encodable) : RegId.ofIndex id.index = id := by
  cases id with
  | unused => rfl
  | reg i => exact if_neg (Nat.ne_of_lt h)

theorem reads_regId {id : RegId} (h : id.Encodable) : Reads getRegId (putRegId id) id := by
  have hindex : id.index < Word.modulus := by
    cases id with
    | unused => decide
    | reg i => exact Nat.lt_of_lt_of_le h (Nat.sub_le _ _)
  have hid := (reads_size hindex).bind_pure RegId.ofIndex
  rwa [ofIndex_index h] at hid

theorem recovers_regIds {ids : List RegId} (h : ∀ id ∈ ids, id.Encodable) :
    Recovers putRegIds getRegIds ids :=
  recovers_list (fun _ => List.cons_ne_nil _ _) fun id hid _ => reads_regId (h id hid)

theorem reads_kind (kind : RegKind) : Reads getKind (putKind kind) kind := by
  cases kind with
  | input => exact (reads_tag (by decide)).bind_nil (Reads.pure _)
  | output => exact (reads_tag (by decide)).bind_nil (Reads.pure _)
  | temp => exact (reads_tag (by decide)).bind_nil (Reads.pure _)
  | const => exact (reads_tag (by decide)).bind_nil (Reads.pure _)

theorem recovers_register {r : Register} (h : r.width < Word.modulus) :
    Recovers putRegister getRegister r := by
  intro hsize
  simp only [putRegister, List.append_assoc, List.length_append] at hsize ⊢
  exact (reads_kind r.kind).bind ((recovers_text r.name (by omega)).bind ((reads_size h).bind
    ((recovers_nat r.pad (by omega)).bind_pure _)))

theorem recovers_bus {bus : Bus} (h : bus.Encodable) : Recovers putBus getBus bus := by
  intro hsize
  simp only [putBus, List.append_assoc, List.length_append] at hsize ⊢
  have hid : Recovers (putOption putSize) (getOption getSize) bus.id :=
    recovers_option fun id hid _ => reads_size (h.id id hid)
  have haddress := recovers_regIds fun line hline => h.lines line (List.mem_append_left _ hline)
  have hdata := recovers_regIds fun line hline => h.lines line (List.mem_append_right _ hline)
  exact (recovers_text bus.name (by omega)).bind ((hid (by omega)).bind
    ((haddress (by omega)).bind ((hdata (by omega)).bind_pure _)))

/-! ## Microcodes -/

theorem recovers_monomial {m : Monomial} (h : ∀ id ∈ m.vars, id.Encodable) :
    Recovers putMonomial getMonomial m := by
  intro hsize
  simp only [putMonomial, List.length_append] at hsize ⊢
  exact (recovers_nat m.coefficient (by omega)).bind
    ((recovers_regIds h (by omega)).bind_pure _)

theorem recovers_polynomial {p : Polynomial} (h : ∀ id ∈ p.registers, id.Encodable) :
    Recovers putPolynomial getPolynomial p := by
  intro hsize
  have hvars : ∀ m ∈ p.terms, ∀ id ∈ m.vars, id.Encodable := by
    intro m hm id hid
    exact h id (List.mem_eraseDups.2 (List.mem_flatMap.2 ⟨m, hm, hid⟩))
  have hput : ∀ m, putMonomial m ≠ [] := fun m => List.cons_ne_nil _ _
  exact (recovers_list hput (fun m hm => recovers_monomial (hvars m hm)) hsize).bind_pure _

theorem reads_chain {make : List RegId → List RegId → Nat → Microcode}
    {targets sources : List RegId} {constant : Nat} (ht : ∀ id ∈ targets, id.Encodable)
    (hs : ∀ id ∈ sources, id.Encodable)
    (hsize : (putChain targets sources constant).length < Word.modulus) :
    Reads (getChain make) (putChain targets sources constant) (make targets sources constant) := by
  simp only [putChain, List.append_assoc, List.length_append] at hsize ⊢
  exact (recovers_regIds ht (by omega)).bind ((recovers_regIds hs (by omega)).bind
    ((recovers_nat constant (by omega)).bind_pure _))

theorem recovers_microcode {code : Microcode} (h : code.Encodable) :
    Recovers putMicrocode getMicrocode code := by
  intro hsize
  obtain ⟨hids, hsizes⟩ := h
  rw [List.forall_mem_append] at hids
  obtain ⟨htargets, hoperands⟩ := hids
  -- a tag selects the reader of what follows it
  cases code with
  | assign targets rhs =>
    simp only [putMicrocode, List.append_assoc, List.length_append] at hsize ⊢
    have htargets : Recovers putRegIds getRegIds targets := recovers_regIds htargets
    exact (reads_tag (by decide)).bind ((htargets (by omega)).bind
      ((recovers_polynomial hoperands (by omega)).bind_pure _))
  | add targets sources constant =>
    simp only [putMicrocode, List.length_append] at hsize ⊢
    exact (reads_tag (by decide)).bind (reads_chain htargets hoperands (by omega))
  | sub targets sources constant =>
    simp only [putMicrocode, List.length_append] at hsize ⊢
    exact (reads_tag (by decide)).bind (reads_chain htargets hoperands (by omega))
  | mul targets sources constant =>
    simp only [putMicrocode, List.length_append] at hsize ⊢
    exact (reads_tag (by decide)).bind (reads_chain htargets hoperands (by omega))
  | cast targets source width =>
    simp only [putMicrocode, List.append_assoc, List.length_append] at hsize ⊢
    have htargets : Recovers putRegIds getRegIds targets := recovers_regIds htargets
    exact (reads_tag (by decide)).bind ((htargets (by omega)).bind
      ((reads_regId (hoperands source List.mem_cons_self)).bind
        ((reads_size (hsizes width List.mem_cons_self)).bind_pure _)))
  | div quotient remainder witness dividend divisor =>
    simp only [Microcode.targets, Microcode.operands, List.forall_mem_cons] at htargets hoperands
    simp only [putMicrocode, List.append_assoc]
    exact (reads_tag (by decide)).bind ((reads_regId htargets.1).bind
      ((reads_regId htargets.2.1).bind ((reads_regId htargets.2.2.1).bind
        ((reads_regId hoperands.1).bind ((reads_regId hoperands.2.1).bind_pure _)))))
  | skip left right constant distance =>
    simp only [Microcode.operands, List.forall_mem_cons] at hoperands
    simp only [putMicrocode, List.append_assoc, List.length_append] at hsize ⊢
    exact (reads_tag (by decide)).bind ((reads_regId hoperands.1).bind
      ((reads_regId hoperands.2.1).bind ((recovers_nat constant (by omega)).bind
        ((reads_size (hsizes distance List.mem_cons_self)).bind_pure _))))
  | skipIf left right constant distance =>
    simp only [putMicrocode, List.append_assoc, List.length_append] at hsize ⊢
    obtain ⟨hleft, hright⟩ := List.forall_mem_append.1 hoperands
    exact (reads_tag (by decide)).bind ((recovers_regIds hleft (by omega)).bind
      ((recovers_regIds hright (by omega)).bind ((recovers_nat constant (by omega)).bind
        ((reads_size (hsizes distance List.mem_cons_self)).bind_pure _))))
  | call bus targets sources =>
    simp only [putMicrocode, List.append_assoc, List.length_append] at hsize ⊢
    have htargets : Recovers putRegIds getRegIds targets := recovers_regIds htargets
    have hsources : Recovers putRegIds getRegIds sources := recovers_regIds hoperands
    exact (reads_tag (by decide)).bind ((reads_size (hsizes bus List.mem_cons_self)).bind
      ((htargets (by omega)).bind ((hsources (by omega)).bind_pure _)))
  | jmp target =>
    exact (reads_tag (by decide)).bind ((reads_size (hsizes target List.mem_cons_self)).bind_pure _)
  | ret => exact (reads_tag (by decide)).bind_nil (Reads.pure _)
  | fail => exact (reads_tag (by decide)).bind_nil (Reads.pure _)

theorem putMicrocode_ne_nil (code : Microcode) : putMicrocode code ≠ [] := by
  cases code <;> exact List.cons_ne_nil _ _

/-! ## Routines -/

theorem putRegister_ne_nil (r : Register) : putRegister r ≠ [] := by
  unfold putRegister putKind
  cases r.kind <;> exact List.cons_ne_nil _ _

theorem recovers_routine {f : Routine} (h : f.Encodable) : Recovers putRoutine getRoutine f := by
  intro hsize
  simp only [putRoutine, List.append_assoc, List.length_append] at hsize ⊢
  have hregisters := recovers_list putRegister_ne_nil fun r hr => recovers_register (h.widths r hr)
  have hbuses : Recovers (putList putBus) (getList getBus) f.buses :=
    recovers_list (fun _ => List.cons_ne_nil _ _) fun bus hbus => recovers_bus (h.buses bus hbus)
  have hcode : Recovers (putList putInstruction) (getList getInstruction) f.code :=
    recovers_list (fun _ => List.cons_ne_nil _ _) fun instruction hi =>
      recovers_list putMicrocode_ne_nil fun code hc =>
        recovers_microcode (h.code instruction hi code hc)
  exact (recovers_text f.name (by omega)).bind ((hregisters (by omega)).bind
    ((hbuses (by omega)).bind ((hcode (by omega)).bind_pure _)))

/-! ## Artifacts -/

theorem foldr_putWord {count n : Nat} (h : n < 256 ^ count) :
    (putWord count n).foldr (fun b n => b.toNat + 256 * n) 0 = n := by
  induction count generalizing n with
  | zero =>
    obtain rfl : n = 0 := by simpa using h
    rfl
  | succ count ih =>
    have hhigh : n / 256 < 256 ^ count := Nat.div_lt_of_lt_mul (Nat.pow_succ' ▸ h)
    rw [putWord, List.foldr_cons, ih hhigh, UInt8.toNat_ofNat']
    exact Nat.mod_add_div n 256

/-- A word is found behind as many bytes as stand before it. -/
theorem wordAt_append {count n : Nat} (h : n < 256 ^ count) (before after : Bytes) :
    wordAt (before ++ (putWord count n ++ after)) before.length count = n := by
  have htake : (putWord count n ++ after).take count = putWord count n := by
    rw [List.take_left' (length_putWord count n)]
  rw [wordAt, List.drop_left, htake, foldr_putWord h]

theorem Digest.length_header (d : Digest) (payload : Bytes) :
    (d.header payload).length = headerSize := by
  simp [header, putSize, length_putWord, d.length_of, headerSize]

/-- The header of a payload is accepted, and the payload is what stands behind it. -/
theorem Digest.open?_header (d : Digest) {payload : Bytes} (h : payload.length < Word.modulus) :
    d.open? (d.header payload ++ payload) = .ok payload := by
  have hlength := d.length_header payload
  have hpayload : (d.header payload ++ payload).drop headerSize = payload := by
    rw [← hlength, List.drop_left]
  have hbytes : d.header payload ++ payload = putWord 4 magic ++ (putWord 4 version ++
      (putWord 8 payload.length ++ (d.of payload ++ payload))) := by
    simp only [header, putSize, List.append_assoc]
  have hmagic : wordAt (d.header payload ++ payload) 0 4 = magic := by
    rw [hbytes]
    exact wordAt_append (by decide) [] _
  have hversion : wordAt (d.header payload ++ payload) 4 4 = version := by
    rw [hbytes]
    exact wordAt_append (by decide) (putWord 4 magic) _
  have hsize : wordAt (d.header payload ++ payload) 8 8 = payload.length := by
    rw [hbytes, ← List.append_assoc]
    exact wordAt_append h (putWord 4 magic ++ putWord 4 version) _
  have hdigest : ((d.header payload ++ payload).drop 16).take 32 = d.of payload := by
    have hdrop : (d.header payload ++ payload).drop 16 = d.of payload ++ payload := by
      rw [hbytes, ← List.append_assoc, ← List.append_assoc]
      exact List.drop_left' (by simp [length_putWord])
    rw [hdrop, List.take_left' (d.length_of payload)]
  unfold open?
  rw [hpayload, hmagic, hversion, hsize, hdigest]
  simp [hlength]

/-- **Artifacts round trip**, with any digest: a routine whose registers are in order and whose
numbers are sizes is read back from its artifact, whatever its names, constants and initial values
are. -/
theorem decode_encode (d : Digest) {f : Routine} (hord : f.registers.isOrdered = true)
    (h : f.Encodable) : d.decode (d.encode f) = .ok f := by
  have hread : getRoutine (putRoutine f) = some (f, []) := by
    have hread := recovers_routine h h.payload []
    rwa [List.append_nil] at hread
  have horder : f.checkOrder = .ok () := if_pos hord
  unfold Digest.decode Digest.encode
  rw [d.open?_header h.payload]
  simp only [bind, Except.bind, hread, horder, Except.mapError]
  rfl

/-- Has registers of all roles, a linked and an unlinked bus, all microcodes, left-out operands, and
numbers from zero to some that are no sizes. -/
def assorted : Routine where
  name := "ὅλα"
  registers := [⟨.input, "α", 40, 0⟩, ⟨.output, "", 40, 2 ^ 70 + 1⟩,
    ⟨.temp, "t", 0, 0⟩, ⟨.const, "k", 2 ^ 64 - 1, 7⟩]
  buses := [⟨"callee", some 1, [.reg 0], [.reg 1, .unused]⟩, ⟨"open", none, [], []⟩]
  code :=
    [[.assign [.reg 1] ⟨[⟨2 ^ 100, [.reg 0, .reg 3]⟩, ⟨0, []⟩]⟩,
      .add [.reg 1] [.reg 0] 0, .sub [.reg 1, .reg 2] [.reg 0, .unused] (2 ^ 64),
      .mul [] [.reg 3] 1],
     [.cast [.reg 1] (.reg 0) 12, .div (.reg 1) (.reg 2) .unused (.reg 0) (.reg 3),
      .skip (.reg 0) .unused 5 0, .skipIf [.reg 0] [.reg 1, .reg 2] 0 (2 ^ 64 - 1),
      .call 1 [.reg 1] [.reg 0], .jmp 1, .ret, .fail], []]

theorem decode_encode_assorted : decode (encode assorted) = .ok assorted := by
  have hpayload : (putRoutine assorted).length < Word.modulus := by decide +kernel
  exact decode_encode sha256 (by decide) ⟨by decide, by decide, by decide, hpayload⟩

end Artifact

end LimbMachine
