import LimbMachine.Proofs.Artifact.RoundTrip

/-!
# What readers accept

`Yields get P` says that a reader only accepts input with bytes in front that it reads in any
surroundings, and that `P` holds of the value and of how many bytes these are. The bytes behind them
are not looked at. A sequence yields what its parts yield one after the other (`Yields.bind`).

The value need not be written as the bytes it was read from, since a number may be given with
needless zero digits. But it can be written, and in no more bytes (`Regains`). A routine that is
read therefore has numbers that are sizes, whatever the bytes were (`regains_routine`).
-/

namespace LimbMachine.Artifact

variable {α β : Type} {get : Reader α} {put : α → Bytes} {P Q : α → Nat → Prop}
    {Good : α → Prop}

/-- What the reader accepts starts with bytes that it reads whatever follows them; `P` holds of the
value and of the number of these bytes. -/
def Yields (get : Reader α) (P : α → Nat → Prop) : Prop :=
  ∀ input a rest, get input = some (a, rest) →
    ∃ bytes, input = bytes ++ rest ∧ Reads get bytes a ∧ P a bytes.length

/-- What the reader accepts is one of `Good` and takes no more bytes to write. -/
def Regains (put : α → Bytes) (get : Reader α) (Good : α → Prop) : Prop :=
  Yields get fun a n => Good a ∧ (put a).length ≤ n

theorem Yields.imp (h : Yields get P) (hPQ : ∀ a n, P a n → Q a n) : Yields get Q := by
  intro input a rest heq
  obtain ⟨bytes, hinput, hreads, ha⟩ := h input a rest heq
  exact ⟨bytes, hinput, hreads, hPQ a _ ha⟩

theorem Yields.pure {a : α} (h : P a 0) : Yields (pure a) P := by
  intro input b rest heq
  cases heq
  exact ⟨[], rfl, Reads.pure a, h⟩

theorem Yields.failure : Yields failure P := fun _ _ _ heq => nomatch heq

theorem Yields.bind {next : α → Reader β} {R : β → Nat → Prop} (hget : Yields get P)
    (hnext : ∀ a n, P a n → Yields (next a) fun b m => R b (n + m)) :
    Yields (get >>= next) R := by
  intro input b rest heq
  obtain ⟨⟨a, mid⟩, hfirst, hsecond⟩ := Option.bind_eq_some_iff.1 heq
  obtain ⟨bytes, rfl, hreads, ha⟩ := hget _ _ _ hfirst
  obtain ⟨bytes', rfl, hreads', hb⟩ := hnext a _ ha _ _ _ hsecond
  refine ⟨bytes ++ bytes', (List.append_assoc ..).symm, hreads.bind hreads', ?_⟩
  rw [List.length_append]
  exact hb

theorem Regains.bind {next : α → Reader β} {R : β → Nat → Prop}
    (hget : Regains put get Good)
    (hnext : ∀ a n, Good a → (put a).length ≤ n → Yields (next a) fun b m => R b (n + m)) :
    Yields (get >>= next) R :=
  Yields.bind hget fun a n h => hnext a n h.1 h.2

/-! ## Words -/

theorem yields_byte : Yields getByte fun _ n => n = 1 := by
  intro input b rest heq
  cases input with
  | nil => cases heq
  | cons =>
    cases heq
    exact ⟨[b], rfl, reads_byte b, rfl⟩

theorem yields_word (count : Nat) :
    Yields (getWord count) fun w n => w < 256 ^ count ∧ n = count := by
  induction count with
  | zero => exact .pure ⟨by decide, rfl⟩
  | succ count ih =>
    refine yields_byte.bind fun low n hn => ih.bind fun high m ⟨hhigh, hm⟩ =>
      .pure ⟨?_, by omega⟩
    have hlow := low.toNat_lt
    rw [Nat.pow_succ]
    omega

theorem yields_size : Yields getSize fun w n => w < Word.modulus ∧ n = 8 := yields_word 8

theorem yields_tag : Yields getTag fun _ n => n = 4 := (yields_word 4).imp fun _ _ h => h.2

theorem length_putSize (n : Nat) : (putSize n).length = 8 := length_putWord 8 n

theorem length_putTag (n : Nat) : (putTag n).length = 4 := length_putWord 4 n

/-! ## Lists, optional values, texts -/

theorem yields_items (h : Regains put get Good) (count : Nat) : Yields (getItems get count)
    fun items n => (∀ a ∈ items, Good a) ∧ (items.flatMap put).length ≤ n := by
  induction count with
  | zero => exact .pure ⟨by simp, Nat.le_refl 0⟩
  | succ count ih =>
    refine h.bind fun a n ha hn => ih.bind fun items m ⟨hitems, hm⟩ => .pure ⟨?_, ?_⟩
    · exact List.forall_mem_cons.2 ⟨ha, hitems⟩
    · rw [List.flatMap_cons, List.length_append]
      omega

theorem regains_list (h : Regains put get Good) :
    Regains (putList put) (getList get) fun items => ∀ a ∈ items, Good a := by
  refine yields_size.bind fun count n ⟨_, hn⟩ =>
    (yields_items h count).imp fun items m ⟨hitems, hm⟩ => ⟨hitems, ?_⟩
  rw [putList, List.length_append, length_putSize]
  omega

theorem regains_option (h : Regains put get Good) :
    Regains (putOption put) (getOption get) fun value => ∀ a ∈ value, Good a := by
  refine yields_byte.bind fun b n hn => ?_
  split
  · exact .pure ⟨by simp, by simp [putOption, hn]⟩
  · refine h.bind fun a m ha hm => .pure ⟨by simpa using ha, ?_⟩
    rw [putOption, List.length_cons]
    omega
  · exact .failure

theorem regains_text : Regains putText getText fun _ => True := by
  have hbyte : Regains (fun b => [b]) getByte fun _ => True :=
    yields_byte.imp fun b n hn => ⟨trivial, by simp [hn]⟩
  refine (regains_list hbyte).bind fun bytes n _ hn => ?_
  cases htext : String.fromUTF8? ⟨bytes.toArray⟩ with
  | none => exact .failure
  | some text =>
    refine .pure ⟨trivial, ?_⟩
    obtain ⟨_, htext⟩ := Option.dite_none_right_eq_some.1 htext
    obtain rfl := Option.some.inj htext
    exact hn

/-! ## Numbers of any size -/

theorem ofDigits_lt {ds : List Nat} (h : ∀ d ∈ ds, d < 2 ^ 32) :
    ofDigits ds < 2 ^ (32 * ds.length) := by
  induction ds with
  | nil => exact Nat.one_pos
  | cons d ds ih =>
    rw [List.forall_mem_cons] at h
    have hrest := ih h.2
    rw [ofDigits, List.length_cons, Nat.mul_succ, Nat.add_comm, Nat.pow_add, Nat.mul_comm]
    have hstep : (ofDigits ds + 1) * 2 ^ 32 ≤ 2 ^ (32 * ds.length) * 2 ^ 32 :=
      Nat.mul_le_mul_right _ hrest
    rw [Nat.succ_mul] at hstep
    omega

/-- A number needs no more digits than it is given with. -/
theorem digitCount_ofDigits_le {ds : List Nat} (h : ∀ d ∈ ds, d < 2 ^ 32) :
    digitCount (ofDigits ds) ≤ ds.length := by
  have hbits := bitLength_le_iff.2 (ofDigits_lt h)
  unfold digitCount
  omega

theorem length_digits (count n : Nat) : (digits count n).length = count := by
  induction count generalizing n with
  | zero => rfl
  | succ count ih => rw [digits, List.length_cons, ih]

theorem length_putList_word (ds : List Nat) :
    (putList (putWord 4) ds).length = 8 + 4 * ds.length := by
  rw [putList, List.length_append, length_putSize, List.length_flatMap]
  simp [length_putWord, Nat.mul_comm]

theorem regains_nat : Regains putNat getNat fun _ => True := by
  have hword : Regains (putWord 4) (getWord 4) fun d => d < 2 ^ 32 :=
    (yields_word 4).imp fun d n ⟨hd, hn⟩ => ⟨hd, by rw [length_putWord, hn]⟩
  refine (regains_list hword).bind fun ds n hds hn => .pure ⟨trivial, ?_⟩
  have hcount := digitCount_ofDigits_le hds
  rw [length_putList_word] at hn
  rw [putNat, length_putList_word, length_digits]
  omega

/-! ## Operands and registers -/

theorem regains_size : Regains putSize getSize fun n => n < Word.modulus :=
  yields_size.imp fun n m ⟨hn, hm⟩ => ⟨hn, by rw [length_putSize, hm]⟩

theorem encodable_ofIndex {i : Nat} (h : i < Word.modulus) : (RegId.ofIndex i).Encodable := by
  unfold RegId.ofIndex
  split
  · trivial
  · rename_i hne
    have htop : Word.top + 1 = Word.modulus := rfl
    show i < Word.top
    omega

theorem regains_regId : Regains putRegId getRegId RegId.Encodable :=
  yields_size.bind fun i n ⟨hi, hn⟩ =>
    .pure ⟨encodable_ofIndex hi, by rw [putRegId, length_putSize, hn]⟩

theorem regains_regIds : Regains putRegIds getRegIds fun ids => ∀ id ∈ ids, id.Encodable :=
  regains_list regains_regId

theorem length_putKind (kind : RegKind) : (putKind kind).length = 4 := by
  cases kind <;> rfl

theorem regains_kind : Regains putKind getKind fun _ => True := by
  have hkind : ∀ kind n, n = 4 → True ∧ (putKind kind).length ≤ n + 0 := by
    intro kind n hn
    exact ⟨trivial, by rw [length_putKind, hn]⟩
  refine yields_tag.bind fun tag n hn => ?_
  split
  · exact .pure (hkind .input n hn)
  · exact .pure (hkind .output n hn)
  · exact .pure (hkind .temp n hn)
  · exact .pure (hkind .const n hn)
  · exact .failure

theorem regains_register : Regains putRegister getRegister fun r => r.width < Word.modulus := by
  refine regains_kind.bind fun kind _ _ hkind => regains_text.bind fun name _ _ hname =>
    regains_size.bind fun width _ hwidth hsize => regains_nat.bind fun pad _ _ hpad =>
      .pure ⟨hwidth, ?_⟩
  simp only [putRegister, List.length_append]
  omega

theorem regains_bus : Regains putBus getBus Bus.Encodable := by
  refine regains_text.bind fun name _ _ hname =>
    (regains_option regains_size).bind fun id _ hid hlink =>
      regains_regIds.bind fun address _ haddress hlow =>
        regains_regIds.bind fun data _ hdata hhigh => .pure ⟨⟨hid, ?_⟩, ?_⟩
  · exact List.forall_mem_append.2 ⟨haddress, hdata⟩
  · simp only [putBus, List.length_append]
    omega

/-! ## Microcodes -/

theorem regains_monomial :
    Regains putMonomial getMonomial fun m => ∀ id ∈ m.vars, id.Encodable := by
  refine regains_nat.bind fun coefficient _ _ hcoefficient =>
    regains_regIds.bind fun vars _ hvars hlength => .pure ⟨hvars, ?_⟩
  simp only [putMonomial, List.length_append]
  omega

theorem regains_polynomial :
    Regains putPolynomial getPolynomial fun p => ∀ id ∈ p.registers, id.Encodable := by
  refine (regains_list regains_monomial).bind fun terms _ hterms hlength =>
    .pure ⟨fun id hid => ?_, hlength⟩
  obtain ⟨m, hm, hvar⟩ := List.mem_flatMap.1 (List.mem_eraseDups.1 hid)
  exact hterms m hm id hvar

/-- The common parts of sums, differences and products, behind the tag of one of them. -/
theorem regains_chain {make : List RegId → List RegId → Nat → Microcode} (tag : Nat)
    (hput : ∀ targets sources constant,
      putMicrocode (make targets sources constant) = putTag tag ++
        putChain targets sources constant)
    (hmake : ∀ targets sources constant, (∀ id ∈ targets ++ sources, id.Encodable) →
      (make targets sources constant).Encodable) :
    Yields (getChain make) fun code n => code.Encodable ∧
      (putMicrocode code).length ≤ 4 + n := by
  refine regains_regIds.bind fun targets _ htargets ht =>
    regains_regIds.bind fun sources _ hsources hs =>
      regains_nat.bind fun constant _ _ hc => .pure ⟨hmake _ _ _ ?_, ?_⟩
  · exact List.forall_mem_append.2 ⟨htargets, hsources⟩
  · simp only [hput, putChain, List.length_append, length_putTag]
    omega

theorem regains_microcode : Regains putMicrocode getMicrocode Microcode.Encodable := by
  have hnone : ∀ n ∈ ([] : List Nat), n < Word.modulus := by simp
  have hone : ∀ {w : Nat}, w < Word.modulus → ∀ n ∈ [w], n < Word.modulus := by simp
  -- the tag selects the microcode, whose parts follow
  refine yields_tag.bind fun tag n hn => ?_
  subst hn
  split
  · refine regains_regIds.bind fun targets _ htargets ht =>
      regains_polynomial.bind fun rhs _ hrhs hr => .pure ⟨⟨?_, hnone⟩, ?_⟩
    · exact List.forall_mem_append.2 ⟨htargets, hrhs⟩
    · simp only [putMicrocode, List.length_append, length_putTag]
      omega
  · exact regains_chain 1 (fun _ _ _ => rfl) fun _ _ _ hids => ⟨hids, hnone⟩
  · exact regains_chain 2 (fun _ _ _ => rfl) fun _ _ _ hids => ⟨hids, hnone⟩
  · exact regains_chain 3 (fun _ _ _ => rfl) fun _ _ _ hids => ⟨hids, hnone⟩
  · refine regains_regIds.bind fun targets _ htargets ht =>
      regains_regId.bind fun source _ hsource hs =>
        regains_size.bind fun width _ hwidth hw => .pure ⟨⟨?_, hone hwidth⟩, ?_⟩
    · exact List.forall_mem_append.2 ⟨htargets, by simpa [Microcode.operands] using hsource⟩
    · simp only [putMicrocode, List.length_append, length_putTag]
      omega
  · refine regains_regId.bind fun quotient _ hquotient hq =>
      regains_regId.bind fun remainder _ hremainder hr =>
        regains_regId.bind fun witness _ hwitness hw =>
          regains_regId.bind fun dividend _ hdividend hd =>
            regains_regId.bind fun divisor _ hdivisor hv => .pure ⟨⟨?_, hnone⟩, ?_⟩
    · simp [Microcode.targets, Microcode.operands, hquotient, hremainder, hwitness, hdividend,
        hdivisor]
    · simp only [putMicrocode, List.length_append, length_putTag]
      omega
  · refine regains_regId.bind fun left _ hleft hl => regains_regId.bind fun right _ hright hr =>
      regains_nat.bind fun constant _ _ hc =>
        regains_size.bind fun distance _ hdistance hd => .pure ⟨⟨?_, hone hdistance⟩, ?_⟩
    · simp [Microcode.targets, Microcode.operands, hleft, hright]
    · simp only [putMicrocode, List.length_append, length_putTag]
      omega
  · refine regains_regIds.bind fun left _ hleft hl =>
      regains_regIds.bind fun right _ hright hr =>
        regains_nat.bind fun constant _ _ hc =>
          regains_size.bind fun distance _ hdistance hd => .pure ⟨⟨?_, hone hdistance⟩, ?_⟩
    · show ∀ id ∈ left ++ right, id.Encodable
      exact List.forall_mem_append.2 ⟨hleft, hright⟩
    · simp only [putMicrocode, List.length_append, length_putTag]
      omega
  · refine regains_size.bind fun bus _ hbus hb =>
      regains_regIds.bind fun targets _ htargets ht =>
        regains_regIds.bind fun sources _ hsources hs => .pure ⟨⟨?_, hone hbus⟩, ?_⟩
    · exact List.forall_mem_append.2 ⟨htargets, hsources⟩
    · simp only [putMicrocode, List.length_append, length_putTag]
      omega
  · refine regains_size.bind fun target _ htarget ht => .pure ⟨⟨?_, hone htarget⟩, ?_⟩
    · simp [Microcode.targets, Microcode.operands]
    · simp only [putMicrocode, List.length_append, length_putTag]
      omega
  · exact .pure ⟨⟨by simp [Microcode.targets, Microcode.operands], hnone⟩, Nat.le_refl 4⟩
  · exact .pure ⟨⟨by simp [Microcode.targets, Microcode.operands], hnone⟩, Nat.le_refl 4⟩
  · exact .failure

/-! ## Routines -/

theorem regains_routine : Regains putRoutine getRoutine fun f =>
    (∀ r ∈ f.registers, r.width < Word.modulus) ∧ (∀ bus ∈ f.buses, bus.Encodable) ∧
      ∀ instruction ∈ f.code, ∀ code ∈ instruction, code.Encodable := by
  have hinstruction : Regains putInstruction getInstruction fun instruction =>
      ∀ code ∈ instruction, code.Encodable := regains_list regains_microcode
  refine regains_text.bind fun name _ _ hname =>
    (regains_list regains_register).bind fun registers _ hregisters hr =>
      (regains_list regains_bus).bind fun buses _ hbuses hb =>
        (regains_list hinstruction).bind fun code _ hcode hc =>
          .pure ⟨⟨hregisters, hbuses, hcode⟩, ?_⟩
  simp only [putRoutine, List.length_append]
  omega

/-- A routine that is read can be written, and was read without looking at the bytes behind it. -/
theorem encodable_of_read {input rest : Bytes} {f : Routine} (h : getRoutine input = some (f, rest))
    (hsize : input.length < Word.modulus) :
    f.Encodable ∧ ∃ bytes, input = bytes ++ rest ∧ Reads getRoutine bytes f := by
  obtain ⟨bytes, rfl, hreads, ⟨hwidths, hbuses, hcode⟩, hlength⟩ := regains_routine _ _ _ h
  rw [List.length_append] at hsize
  exact ⟨⟨hwidths, hbuses, hcode, by omega⟩, bytes, rfl, hreads⟩

end LimbMachine.Artifact
