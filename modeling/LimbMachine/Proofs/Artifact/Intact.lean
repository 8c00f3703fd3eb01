import LimbMachine.Proofs.Artifact.Accepted
import LimbMachine.Proofs.Check.Rules
import LimbMachine.Proofs.Failure

/-!
# Artifacts are accepted exactly when they are intact

A header is accepted in front of the payload it was computed from and nowhere else (`open?_ok_iff`):
its four fields are compared, and nothing else stands in it. The digest may be any one of 32 bytes.
The length of the payload is one of the fields, so no artifact is the beginning of another one
(`eq_of_sealed_prefix`), which is why a cut or a longer artifact is refused without a look at its
payload.
-/

namespace LimbMachine.Artifact

variable {d : Digest} {bytes payload payload' : Bytes} {f : Routine}

/-! ## Headers -/

/-- The number that bytes make up is written as these bytes. -/
theorem putWord_foldr (bs : Bytes) :
    putWord bs.length (bs.foldr (fun b n => b.toNat + 256 * n) 0) = bs := by
  induction bs with
  | nil => rfl
  | cons b bs ih =>
    have hlow : UInt8.ofNat (b.toNat + 256 * bs.foldr (fun b n => b.toNat + 256 * n) 0) = b := by
      apply UInt8.toNat_inj.1
      rw [UInt8.toNat_ofNat', Nat.add_mul_mod_self_left, Nat.mod_eq_of_lt b.toNat_lt]
    have hhigh : (b.toNat + 256 * bs.foldr (fun b n => b.toNat + 256 * n) 0) / 256 =
        bs.foldr (fun b n => b.toNat + 256 * n) 0 := by
      rw [Nat.add_mul_div_left _ _ (by decide), Nat.div_eq_of_lt b.toNat_lt, Nat.zero_add]
    rw [List.length_cons, List.foldr_cons, putWord, hlow, hhigh, ih]

theorem foldr_bytes_lt (bs : Bytes) :
    bs.foldr (fun b n => b.toNat + 256 * n) 0 < 256 ^ bs.length := by
  induction bs with
  | nil => exact Nat.one_pos
  | cons b bs ih =>
    have hb := b.toNat_lt
    rw [List.foldr_cons, List.length_cons, Nat.pow_succ]
    omega

theorem wordAt_lt (bytes : Bytes) (start count : Nat) : wordAt bytes start count < 256 ^ count := by
  refine Nat.lt_of_lt_of_le (foldr_bytes_lt _) (Nat.pow_le_pow_right (by decide) ?_)
  exact List.length_take_le count _

/-- The bytes that a word was found in. -/
theorem putWord_wordAt {start count : Nat} (h : start + count ≤ bytes.length) :
    putWord count (wordAt bytes start count) = (bytes.drop start).take count := by
  have hlength : ((bytes.drop start).take count).length = count := by
    rw [List.length_take, List.length_drop]
    omega
  have hword := putWord_foldr ((bytes.drop start).take count)
  rwa [hlength] at hword

/-- Bytes are the four fields of a header and what stands behind them. -/
theorem fields_append (bytes : Bytes) :
    (bytes.drop 0).take 4 ++ (bytes.drop 4).take 4 ++ (bytes.drop 8).take 8 ++
      (bytes.drop 16).take 32 ++ bytes.drop headerSize = bytes := by
  have hstep : ∀ start count,
      (bytes.drop start).take count ++ bytes.drop (start + count) = bytes.drop start := by
    intro start count
    rw [← List.drop_drop, List.take_append_drop]
  have hlast : (bytes.drop 16).take 32 ++ bytes.drop headerSize = bytes.drop 16 := hstep 16 32
  rw [List.append_assoc, List.append_assoc, List.append_assoc, hlast, hstep 8 8, hstep 4 4,
    hstep 0 4]
  rfl

/-- A header is accepted exactly in front of its own payload. -/
theorem open?_ok_iff : d.open? bytes = .ok payload ↔
    payload.length < Word.modulus ∧ bytes = d.header payload ++ payload := by
  constructor
  · intro h
    unfold Digest.open? at h
    simp only [except_guard_ok, Except.ok.injEq] at h
    obtain ⟨hlong, hmagic, hversion, hsize, hdigest, rfl⟩ := h
    rw [not_not] at hmagic hversion hsize hdigest
    have hlong : 48 ≤ bytes.length := Nat.not_lt.1 hlong
    refine ⟨hsize ▸ wordAt_lt bytes 8 8, ?_⟩
    have hbytes := fields_append bytes
    rw [← putWord_wordAt (by omega), ← putWord_wordAt (by omega),
      ← putWord_wordAt (by omega), hmagic, hversion, ← hsize, hdigest] at hbytes
    exact hbytes.symm
  · rintro ⟨hsize, rfl⟩
    exact d.open?_header hsize

/-- A header is refused for its form. -/
theorem failsOnly_open? (bytes : Bytes) :
    FailsOnly (fun e => e.isFormat = true) (d.open? bytes) := by
  unfold Digest.open?
  exact .guard rfl (.guard rfl (.guard rfl (.guard rfl (.guard rfl (.of_ok rfl)))))

/-- No artifact is the beginning of another one. -/
theorem eq_of_sealed_prefix (hsize : payload.length < Word.modulus)
    (hsize' : payload'.length < Word.modulus)
    (h : d.header payload ++ payload <+: d.header payload' ++ payload') : payload = payload' := by
  obtain ⟨more, hmore⟩ := h
  rw [List.append_assoc] at hmore
  obtain ⟨hheader, hpayload⟩ :=
    List.append_inj hmore ((d.length_header payload).trans (d.length_header payload').symm)
  -- the headers agree on the length of the payload
  have hfields := (List.append_inj hheader (by simp [putSize, length_putWord])).1
  have hsizes := (List.append_inj hfields (by simp [length_putWord])).2
  have hvalue := congrArg (List.foldr (fun b n => UInt8.toNat b + 256 * n) 0) hsizes
  rw [putSize, putSize, foldr_putWord hsize, foldr_putWord hsize'] at hvalue
  have hnil : more = [] := by
    have hlength := congrArg List.length hpayload
    rw [List.length_append] at hlength
    exact List.length_eq_zero_iff.1 (by omega)
  rw [← hpayload, hnil, List.append_nil]

/-! ## Artifacts -/

/-- The bytes are a header and the payload it was computed from, and a routine is read from the
front of the payload, whatever follows it there. -/
def Digest.Carries (d : Digest) (bytes : Bytes) (f : Routine) : Prop :=
  ∃ own rest, (own ++ rest).length < Word.modulus ∧
    bytes = d.header (own ++ rest) ++ (own ++ rest) ∧ Reads getRoutine own f

theorem carries_iff : d.Carries bytes f ↔
    ∃ payload rest, d.open? bytes = .ok payload ∧ getRoutine payload = some (f, rest) := by
  constructor
  · rintro ⟨own, rest, hsize, hbytes, hreads⟩
    exact ⟨own ++ rest, rest, open?_ok_iff.2 ⟨hsize, hbytes⟩, hreads rest⟩
  · rintro ⟨payload, rest, hopen, hread⟩
    obtain ⟨hsize, hbytes⟩ := open?_ok_iff.1 hopen
    obtain ⟨-, own, rfl, hreads⟩ := encodable_of_read hread hsize
    exact ⟨own, rest, hsize, hbytes, hreads⟩

theorem carries_encode (h : f.Encodable) : d.Carries (d.encode f) f := by
  refine ⟨putRoutine f, [], ?_, ?_, recovers_routine h h.payload⟩
  · rw [List.append_nil]
    exact h.payload
  · rw [List.append_nil]
    rfl

theorem decode_of_read {rest : Bytes} (hopen : d.open? bytes = .ok payload)
    (hread : getRoutine payload = some (f, rest)) :
    d.decode bytes = (f.checkOrder.mapError .routine).map fun _ => f := by
  unfold Digest.decode
  rw [hopen, except_ok_bind]
  simp only [hread]
  cases f.checkOrder with
  | error e => rfl
  | ok u => rfl

theorem decode_ok_iff :
    d.decode bytes = .ok f ↔ d.Carries bytes f ∧ f.registers.isOrdered = true := by
  rw [carries_iff]
  constructor
  · intro h
    obtain ⟨payload, hopen, hrest⟩ := except_bind_ok.1 h
    cases hread : getRoutine payload with
    | none =>
      rw [hread] at hrest
      cases hrest
    | some result =>
      obtain ⟨g, rest⟩ := result
      rw [decode_of_read hopen hread] at h
      obtain ⟨_, horder, rfl⟩ := except_map_ok.1 h
      rw [except_mapError_ok] at horder
      exact ⟨⟨payload, rest, hopen, hread⟩, Routine.checkOrder_ok_iff.1 horder⟩
  · rintro ⟨⟨payload, rest, hopen, hread⟩, hord⟩
    rw [decode_of_read hopen hread, Routine.checkOrder_ok_iff.2 hord]
    rfl

/-- What is refused has the wrong form, or carries a routine whose registers are out of order. -/
theorem failsOnly_decode (bytes : Bytes) : FailsOnly (fun e => e.isFormat = true ∨ ∃ f,
    d.Carries bytes f ∧ f.registers.isOrdered = false ∧ e = .routine (.registerOrder f.name))
      (d.decode bytes) := by
  intro e he
  cases hopen : d.open? bytes with
  | error reason =>
    unfold Digest.decode at he
    rw [hopen] at he
    cases he
    exact .inl (failsOnly_open? bytes _ hopen)
  | ok payload =>
    cases hread : getRoutine payload with
    | none =>
      unfold Digest.decode at he
      rw [hopen, except_ok_bind, hread] at he
      cases he
      exact .inl rfl
    | some result =>
      obtain ⟨f, rest⟩ := result
      rw [decode_of_read hopen hread] at he
      refine .inr ⟨f, carries_iff.2 ⟨payload, rest, hopen, hread⟩, ?_⟩
      cases hord : f.registers.isOrdered with
      | true =>
        rw [Routine.checkOrder_ok_iff.2 hord] at he
        cases he
      | false =>
        rw [Routine.checkOrder, hord] at he
        cases he
        exact ⟨rfl, rfl⟩

/-- Other bytes than the original ones: cut off, longer, or with another header of the same
length. -/
inductive Damaged (original : Bytes) : Bytes → Prop
  | cut {bytes : Bytes} (beginning : bytes <+: original) (ne : bytes ≠ original) :
    Damaged original bytes
  | longer {more : Bytes} (ne : more ≠ []) : Damaged original (original ++ more)
  | altered {bytes : Bytes} (length_eq : bytes.length = original.length)
    (behind : bytes.drop headerSize = original.drop headerSize) (ne : bytes ≠ original) :
    Damaged original bytes

/-- Damage is seen before the payload is looked at. -/
theorem Damaged.open?_error (h : Damaged (d.header payload ++ payload) bytes)
    (hsize : payload.length < Word.modulus) : ∃ e, d.open? bytes = .error e := by
  cases hopen : d.open? bytes with
  | error e => exact ⟨e, rfl⟩
  | ok payload' =>
    exfalso
    obtain ⟨hsize', hbytes⟩ := open?_ok_iff.1 hopen
    cases h with
    | cut beginning ne =>
      rw [hbytes] at beginning
      obtain rfl := eq_of_sealed_prefix hsize' hsize beginning
      exact ne hbytes
    | @longer more ne =>
      have hprefix : d.header payload ++ payload <+: d.header payload' ++ payload' :=
        ⟨more, hbytes⟩
      obtain rfl := eq_of_sealed_prefix hsize hsize' hprefix
      exact ne (List.append_right_eq_self.1 hbytes)
    | altered length_eq behind ne =>
      rw [hbytes, ← d.length_header payload', List.drop_left] at behind
      rw [d.length_header payload', ← d.length_header payload, List.drop_left] at behind
      exact ne (behind ▸ hbytes)

/-- **Artifacts are accepted exactly when intact**, with any digest: a routine is read from bytes
that are the header of a payload and this payload, with the routine in front, if its registers are
in order. What is refused has the wrong form unless it is just that order, and the artifact of a
routine is refused for its form once it is cut off, made longer or changed in its header. -/
theorem decode_exact (d : Digest) :
    (∀ bytes f, d.decode bytes = .ok f ↔ d.Carries bytes f ∧ f.registers.isOrdered = true) ∧
    (∀ bytes e, d.decode bytes = .error e → e.isFormat = true ∨ ∃ f, d.Carries bytes f ∧
      f.registers.isOrdered = false ∧ e = .routine (.registerOrder f.name)) ∧
    ∀ f, (d.encode f).length < Word.modulus → ∀ bytes, Damaged (d.encode f) bytes →
      ∃ e, d.decode bytes = .error e ∧ e.isFormat = true := by
  refine ⟨fun bytes f => decode_ok_iff, fun bytes => failsOnly_decode bytes, ?_⟩
  intro f hsize bytes hdamaged
  have hpayload : (putRoutine f).length < Word.modulus := by
    rw [Digest.encode, List.length_append] at hsize
    omega
  obtain ⟨e, he⟩ := hdamaged.open?_error hpayload
  refine ⟨e, ?_, failsOnly_open? bytes e he⟩
  rw [Digest.decode, he]
  rfl

theorem decode_exact_assorted :
    ((encode assorted).length < Word.modulus ∧ decode (encode assorted) = .ok assorted) ∧
    (∃ e, decode ((encode assorted).take 47) = .error e ∧ e.isFormat = true) ∧
    (∃ e, decode (encode assorted ++ [0]) = .error e ∧ e.isFormat = true) ∧
    ∃ e, decode (0 :: (encode assorted).tail) = .error e ∧ e.isFormat = true := by
  have hpayload : (putRoutine assorted).length < 2 ^ 32 := by decide +kernel
  have hmodulus : 2 ^ 32 + headerSize < Word.modulus := by decide
  have hencodable : assorted.Encodable := ⟨by decide, by decide, by decide, by omega⟩
  have hlength : (encode assorted).length = headerSize + (putRoutine assorted).length := by
    rw [encode, Digest.encode, List.length_append, Digest.length_header]
  have hheader : headerSize = 48 := rfl
  obtain ⟨hiff, -, hdamaged⟩ := decode_exact sha256
  have hsize : (encode assorted).length < Word.modulus := by omega
  have hrefused : ∀ bytes, Damaged (encode assorted) bytes →
      ∃ e, decode bytes = .error e ∧ e.isFormat = true := hdamaged assorted hsize
  refine ⟨⟨hsize, (hiff _ _).2 ⟨carries_encode hencodable, rfl⟩⟩, hrefused _ (.cut ?_ ?_),
    hrefused _ (.longer (by simp)), hrefused _ (.altered ?_ rfl ?_)⟩
  · exact List.take_prefix 47 _
  · intro h
    have hcut := congrArg List.length h
    rw [List.length_take] at hcut
    omega
  · rw [List.length_cons, List.length_tail]
    omega
  · intro h
    exact absurd (congrArg List.head? h) (by decide)

end LimbMachine.Artifact
