import Mathlib.Data.List.Nodup
import OctoLift.Instr.Encode
import OctoLift.Proofs.Numerals
import OctoLift.Proofs.Words

/-!
# Machine code and its text

Taken apart from its start, machine code falls into instructions that lie one behind the other, and
what is left over is too short for an instruction. There is one way only to divide code like this.
The text of an instruction can be assembled: it gives back the bytes. So two instructions at one
address with the same text are the same bytes.
-/

namespace OctoLift.Cosmac

section Code

/-- No whole instruction stands at the start of the bytes: there are none, or fewer than the first
one demands. -/
def Incomplete (bytes : List UInt8) : Prop :=
  bytes = [] ∨ ∃ op rest, bytes = op :: rest ∧ bytes.length < 1 + (opcode op).operand.size

/-- The instructions lie one behind the other from an address on, across the end of memory if need
be. -/
def Consecutive : Address → List MachineInstr → Prop
  | _, [] => True
  | here, i :: rest => i.address = here ∧ Consecutive (here + UInt16.ofNat i.size) rest

theorem decode_bytes_append (i : MachineInstr) (rest : List UInt8) :
    decode (i.bytes ++ rest) i.address = some i := by
  obtain ⟨address, op, operands, complete⟩ := i
  have hsize : (opcode op).operand.size ≤ (operands ++ rest).length := by
    rw [List.length_append]
    omega
  rw [MachineInstr.bytes, List.cons_append, decode, dif_pos hsize]
  simp only [← complete, List.take_left]

variable {bytes : List UInt8} {here : Address}

theorem eq_append_of_decode {i : MachineInstr} (h : decode bytes here = some i) :
    i.address = here ∧ bytes = i.bytes ++ bytes.drop i.size := by
  cases bytes with
  | nil => cases h
  | cons op rest =>
    rw [decode] at h
    split at h
    · cases h
      refine ⟨rfl, ?_⟩
      rw [MachineInstr.bytes, MachineInstr.size, Nat.add_comm, List.drop_succ_cons,
        List.cons_append, List.take_append_drop]
    · cases h

theorem decode_eq_none_iff : decode bytes here = none ↔ Incomplete bytes := by
  cases bytes with
  | nil => exact iff_of_true rfl (Or.inl rfl)
  | cons op rest =>
    have hshort : Incomplete (op :: rest) ↔ ¬ (opcode op).operand.size ≤ rest.length := by
      simp only [Incomplete, List.cons_ne_nil, List.cons.injEq, List.length_cons, false_or]
      constructor
      · rintro ⟨_, _, ⟨rfl, rfl⟩, h⟩
        omega
      · intro h
        exact ⟨op, rest, ⟨rfl, rfl⟩, by omega⟩
    rw [decode, hshort]
    by_cases h : (opcode op).operand.size ≤ rest.length
    · rw [dif_pos h]
      exact iff_of_false (Option.some_ne_none _) (not_not_intro h)
    · rw [dif_neg h]
      exact iff_of_true rfl h

theorem sweep_of_incomplete (h : Incomplete bytes) : sweep bytes here = ([], bytes) := by
  rw [sweep]
  split
  · rfl
  · next i hi =>
    rw [decode_eq_none_iff.2 h] at hi
    cases hi

theorem sweep_bytes_append (i : MachineInstr) (bytes : List UInt8) :
    sweep (i.bytes ++ bytes) i.address =
      (i :: (sweep bytes (i.address + UInt16.ofNat i.size)).1,
        (sweep bytes (i.address + UInt16.ofNat i.size)).2) := by
  rw [sweep]
  split
  · next hi =>
    rw [decode_bytes_append] at hi
    cases hi
  · next j hj =>
    rw [decode_bytes_append] at hj
    cases hj
    rw [← i.length_bytes, List.drop_left]

/-- What is decoded one after the other divides the bytes into consecutive instructions and an
incomplete rest. -/
theorem sweep_divides (bytes : List UInt8) (start : Address) :
    (sweep bytes start).1.flatMap MachineInstr.bytes ++ (sweep bytes start).2 = bytes ∧
      Consecutive start (sweep bytes start).1 ∧ Incomplete (sweep bytes start).2 := by
  induction hn : bytes.length using Nat.strongRecOn generalizing bytes start with
  | ind n ih =>
    cases hi : decode bytes start with
    | none =>
      have hshort := decode_eq_none_iff.1 hi
      rw [sweep_of_incomplete hshort]
      exact ⟨rfl, trivial, hshort⟩
    | some i =>
      obtain ⟨rfl, hbytes⟩ := eq_append_of_decode hi
      have hsize := size_le_of_decode hi
      have hpos : 0 < i.size := by
        rw [MachineInstr.size]
        omega
      obtain ⟨hconcat, hplaced, hrest⟩ := ih (bytes.drop i.size).length
        (by rw [List.length_drop]; omega) (bytes.drop i.size)
        (i.address + UInt16.ofNat i.size) rfl
      rw [hbytes, sweep_bytes_append]
      refine ⟨?_, ⟨rfl, hplaced⟩, hrest⟩
      rw [List.flatMap_cons, List.append_assoc, hconcat]

theorem sweep_of_consecutive {instrs : List MachineInstr} {rest : List UInt8} {start : Address}
    (hplaced : Consecutive start instrs) (hrest : Incomplete rest) :
    sweep (instrs.flatMap MachineInstr.bytes ++ rest) start = (instrs, rest) := by
  induction instrs generalizing start with
  | nil => exact sweep_of_incomplete hrest
  | cons i instrs ih =>
    obtain ⟨rfl, hplaced⟩ := hplaced
    rw [List.flatMap_cons, List.append_assoc, sweep_bytes_append, ih hplaced]

theorem sweep_eq_iff {instrs : List MachineInstr} {rest : List UInt8} {start : Address} :
    sweep bytes start = (instrs, rest) ↔
      instrs.flatMap MachineInstr.bytes ++ rest = bytes ∧ Consecutive start instrs ∧
        Incomplete rest := by
  constructor
  · intro h
    have hdivides := sweep_divides bytes start
    rwa [h] at hdivides
  · rintro ⟨rfl, hplaced, hrest⟩
    exact sweep_of_consecutive hplaced hrest

end Code

section Opcodes

/-- How many opcodes from each multiple of this number on can share a mnemonic. -/
def Operand.block : Operand → Nat
  | register => 16
  | device => 8
  | implied | immediate | shortBranch | longBranch => 1

/-- The first opcode that differs from the given one at most in its register or device. -/
def leader (op : UInt8) : UInt8 :=
  let operand := (opcode op).operand
  let first := UInt8.ofNat (op.toNat / operand.block * operand.block)
  if (opcode first).operand = operand then first else first + 1

/-- All opcodes of one mnemonic stand in one block. -/
structure SameFamily (a b : UInt8) : Prop where
  opcode_eq : opcode a = opcode b
  block_eq : a.toNat / (opcode b).operand.block = b.toNat / (opcode b).operand.block

private theorem leader_of_byte : ∀ n < 256,
    let op := UInt8.ofNat n
    opcode (leader op) = opcode op ∧
      (leader op).toNat / (opcode op).operand.block = op.toNat / (opcode op).operand.block ∧
      leader (leader op) = leader op := by
  decide +kernel

private def leaders : List UInt8 :=
  ((List.range 256).map UInt8.ofNat).filter fun op => leader op = op

private theorem nodup_mnemonic_leaders : (leaders.map fun op => (opcode op).mnemonic).Nodup := by
  decide +kernel

private theorem isWord_mnemonic_leaders :
    ∀ op ∈ leaders, op = 0x68 ∨
      isWord (opcode op).mnemonic = true ∧ (opcode op).mnemonic ≠ "db" := by
  decide +kernel

theorem sameFamily_leader (op : UInt8) : SameFamily (leader op) op := by
  have h := leader_of_byte op.toNat op.toNat_lt
  rw [UInt8.ofNat_toNat] at h
  exact ⟨h.1, h.2.1⟩

private theorem leader_mem_leaders (op : UInt8) : leader op ∈ leaders := by
  have h := (leader_of_byte op.toNat op.toNat_lt).2.2
  rw [UInt8.ofNat_toNat] at h
  refine List.mem_filter.2 ⟨?_, by simpa using h⟩
  exact List.mem_map.2 ⟨(leader op).toNat, List.mem_range.2 (leader op).toNat_lt,
    UInt8.ofNat_toNat⟩

theorem sameFamily_of_mnemonic_eq {a b : UInt8}
    (h : (opcode a).mnemonic = (opcode b).mnemonic) : SameFamily a b := by
  have ha := sameFamily_leader a
  have hb := sameFamily_leader b
  have hleader : leader a = leader b := by
    apply List.inj_on_of_nodup_map nodup_mnemonic_leaders (leader_mem_leaders a)
      (leader_mem_leaders b)
    rw [ha.opcode_eq, hb.opcode_eq, h]
  have hop : opcode a = opcode b := by
    rw [← ha.opcode_eq, hleader, hb.opcode_eq]
  refine ⟨hop, ?_⟩
  rw [← hb.block_eq, ← hleader, ← hop, ha.block_eq]

/-- Every mnemonic is a word of its own, but for that of `68`, which means nothing. -/
theorem isWord_mnemonic {op : UInt8} (h : op ≠ 0x68) :
    isWord (opcode op).mnemonic = true ∧ (opcode op).mnemonic ≠ "db" := by
  have hop := (sameFamily_leader op).opcode_eq
  rcases isWord_mnemonic_leaders (leader op) (leader_mem_leaders op) with h68 | hword
  · rw [h68] at hop
    have hsame := (sameFamily_of_mnemonic_eq (congrArg Opcode.mnemonic hop)).block_eq
    have hblock : (opcode 0x68).operand.block = 1 := by decide
    rw [← hop, hblock, Nat.div_one, Nat.div_one] at hsame
    exact absurd (UInt8.toNat_inj.1 hsame.symm) h
  · rwa [hop] at hword

def firstOpcode (mnemonic : String) : UInt8 :=
  (((List.range 256).map UInt8.ofNat).find? fun op => (opcode op).mnemonic == mnemonic).getD 0

theorem sameFamily_firstOpcode (op : UInt8) :
    SameFamily (firstOpcode (opcode op).mnemonic) op := by
  have hmem : op ∈ (List.range 256).map UInt8.ofNat :=
    List.mem_map.2 ⟨op.toNat, List.mem_range.2 op.toNat_lt, UInt8.ofNat_toNat⟩
  apply sameFamily_of_mnemonic_eq
  rw [firstOpcode]
  cases hfind : ((List.range 256).map UInt8.ofNat).find?
      fun b => (opcode b).mnemonic == (opcode op).mnemonic with
  | none => exact absurd (beq_self_eq_true _) (List.find?_eq_none.1 hfind op hmem)
  | some b => simpa using List.find?_some hfind

end Opcodes

section Text

/-- The number that an operand is written as: digits behind `0x`, behind the `r` of a register, or
alone. -/
def operandValue (w : String) : Nat :=
  match w.toList with
  | '0' :: 'x' :: digits | 'r' :: digits | digits => Numeral.hexValue digits

/-- The bytes of an instruction of the family of `op` with the operand `n`. -/
def encodeOperand (op : UInt8) (n : Nat) : List UInt8 :=
  match (opcode op).operand with
  | .implied => [op]
  | .register => [UInt8.ofNat (op.toNat / 16 * 16 + n)]
  | .device => [UInt8.ofNat (op.toNat / 8 * 8 + n)]
  | .immediate | .shortBranch => [op, UInt8.ofNat n]
  | .longBranch => op :: wordBytes (UInt16.ofNat n)

/-- The bytes of the instruction that some words say. -/
def assembleWords : List String → List UInt8
  | [mnemonic] => [firstOpcode mnemonic]
  | [mnemonic, w] =>
    if mnemonic = "db" then [UInt8.ofNat (operandValue w)]
    else encodeOperand (firstOpcode mnemonic) (operandValue w)
  | _ => []

def assemble (text : String) : List UInt8 :=
  assembleWords (sourceWords text)

theorem operandValue_hexUpper (width n : Nat) : operandValue (Numeral.hexUpper width n) = n := by
  rw [operandValue, Numeral.toList_hexUpper]
  exact Numeral.hexValue_map_hexDigits Numeral.digitValue_toUpper_digitChar width n

theorem operandValue_device : ∀ k < 8, operandValue (Numeral.decimal k) = k := by
  decide

/-- The name of a register behind a mnemonic. -/
def registerWord (k : Nibble) : String :=
  "r" ++ String.ofList [(Nat.digitChar k.val).toUpper]

theorem operandValue_registerWord : ∀ k, operandValue (registerWord k) = k.val := by
  decide

theorem isWord_registerWord : ∀ k, isWord (registerWord k) = true := by
  decide

theorem SameFamily.encodeOperand_eq {a b : UInt8} (h : SameFamily a b) (n : Nat) :
    encodeOperand a n = encodeOperand b n := by
  have hblock := h.block_eq
  have heq (hone : (opcode b).operand.block = 1) : a = b := by
    rw [hone, Nat.div_one, Nat.div_one] at hblock
    exact UInt8.toNat_inj.1 hblock
  unfold encodeOperand
  rw [h.opcode_eq]
  cases hkind : (opcode b).operand with
  | register =>
    rw [hkind, Operand.block] at hblock
    simp only [hblock]
  | device =>
    rw [hkind, Operand.block] at hblock
    simp only [hblock]
  | implied => simp only [heq (by rw [hkind, Operand.block])]
  | immediate => simp only [heq (by rw [hkind, Operand.block])]
  | shortBranch => simp only [heq (by rw [hkind, Operand.block])]
  | longBranch => simp only [heq (by rw [hkind, Operand.block])]

theorem assemble_intercalate {ws : List String} (h : ∀ w ∈ ws, isWord w = true) :
    assemble (" ".intercalate ws) = assembleWords ws := by
  have hindent : ∀ c ∈ ("" : String).toList, isBlank c = true := by simp
  have hread := sourceWords_eq hindent h (Or.inl rfl)
  rw [String.empty_append, String.append_empty] at hread
  rw [assemble, hread]

section Assemble

variable {op : UInt8} (h : op ≠ 0x68)

include h

theorem assemble_mnemonic (hkind : (opcode op).operand = .implied) :
    assemble (opcode op).mnemonic = [op] := by
  have hwords : ∀ v ∈ [(opcode op).mnemonic], isWord v = true := by simp [(isWord_mnemonic h).1]
  have hread := assemble_intercalate hwords
  have hblock := (sameFamily_firstOpcode op).block_eq
  rw [hkind, Operand.block, Nat.div_one, Nat.div_one] at hblock
  rwa [String.intercalate_singleton, assembleWords, UInt8.toNat_inj.1 hblock] at hread

theorem assemble_operand {w : String} (hw : isWord w = true) :
    assemble ((opcode op).mnemonic ++ " " ++ w) = encodeOperand op (operandValue w) := by
  obtain ⟨hword, hdb⟩ := isWord_mnemonic h
  have hwords : ∀ v ∈ [(opcode op).mnemonic, w], isWord v = true := by simp [hword, hw]
  have hread := assemble_intercalate hwords
  rwa [String.intercalate_cons_cons, String.intercalate_singleton, assembleWords, if_neg hdb,
    (sameFamily_firstOpcode op).encodeOperand_eq] at hread

end Assemble

namespace MachineInstr

/-- Only the low byte of a short branch target stands in the code. -/
theorem toUInt8_shortTarget (i : MachineInstr) (low : UInt8) :
    UInt8.ofNat (i.shortTarget low).toNat = low := by
  have hpage : (0xFF00 : UInt16).toUInt8 = 0 := by decide
  rw [UInt8.ofNat_uInt16ToNat, shortTarget, UInt16.toUInt8_or, UInt16.toUInt8_and, hpage,
    UInt8.and_zero, UInt8.zero_or, UInt8.toUInt8_toUInt16]

theorem assemble_text (i : MachineInstr) : assemble i.text = i.bytes := by
  obtain ⟨address, op, operands, complete⟩ := i
  rw [bytes]
  by_cases h68 : op = 0x68
  · subst h68
    obtain rfl : operands = [] := List.length_eq_zero_iff.1 complete
    have hop : opcode 0x68 = ⟨"db 0x68", .implied⟩ := by decide
    have htext : text ⟨address, 0x68, [], complete⟩ = "db 0x68" := by
      simp only [text, hop]
    have hbyte : assemble "db 0x68" = [0x68] := by decide +kernel
    rw [htext, hbyte]
  cases hkind : (opcode op).operand with
  | implied =>
    obtain rfl : operands = [] := List.length_eq_zero_iff.1 (by rw [complete, hkind]; rfl)
    have htext : text ⟨address, op, [], complete⟩ = (opcode op).mnemonic := by
      simp only [text, hkind]
    rw [htext, assemble_mnemonic h68 hkind]
  | register =>
    obtain rfl : operands = [] := List.length_eq_zero_iff.1 (by rw [complete, hkind]; rfl)
    have htext : text ⟨address, op, [], complete⟩ =
        (opcode op).mnemonic ++ " " ++ registerWord (lowNibble op) := by
      simp only [text, hkind, registerWord, String.append_assoc]
      rfl
    rw [htext, assemble_operand h68 (isWord_registerWord _), operandValue_registerWord]
    simp only [encodeOperand, hkind, lowNibble, Nat.div_add_mod', UInt8.ofNat_toNat]
  | device =>
    obtain rfl : operands = [] := List.length_eq_zero_iff.1 (by rw [complete, hkind]; rfl)
    have htext : text ⟨address, op, [], complete⟩ =
        (opcode op).mnemonic ++ " " ++ Numeral.decimal ((lowNibble op).val % 8) := by
      simp only [text, hkind]
    have hlow : op.toNat / 8 * 8 + (lowNibble op).val % 8 = op.toNat := by
      change op.toNat / 8 * 8 + op.toNat % 16 % 8 = op.toNat
      omega
    rw [htext, assemble_operand h68 (isWord_decimal _),
      operandValue_device _ (Nat.mod_lt _ (by decide))]
    simp only [encodeOperand, hkind, hlow, UInt8.ofNat_toNat]
  | immediate =>
    obtain ⟨b, rfl⟩ := List.length_eq_one_iff.1 (complete.trans (by rw [hkind]; rfl))
    have htext : text ⟨address, op, [b], complete⟩ =
        (opcode op).mnemonic ++ " " ++ Numeral.hexUpper 2 b.toNat := by
      simp only [text, hkind, Numeral.byte]
    rw [htext, assemble_operand h68 (isWord_hexUpper _ _), operandValue_hexUpper]
    simp only [encodeOperand, hkind, UInt8.ofNat_toNat]
  | shortBranch =>
    obtain ⟨b, rfl⟩ := List.length_eq_one_iff.1 (complete.trans (by rw [hkind]; rfl))
    have htext : text ⟨address, op, [b], complete⟩ =
        (opcode op).mnemonic ++ " " ++
          Numeral.hexUpper 4 (shortTarget ⟨address, op, [b], complete⟩ b).toNat := by
      simp only [text, hkind]
    rw [htext, assemble_operand h68 (isWord_hexUpper _ _), operandValue_hexUpper]
    simp only [encodeOperand, hkind, toUInt8_shortTarget]
  | longBranch =>
    obtain ⟨hi, lo, rfl⟩ := List.length_eq_two.1 (complete.trans (by rw [hkind]; rfl))
    have htext : text ⟨address, op, [hi, lo], complete⟩ =
        (opcode op).mnemonic ++ " " ++ Numeral.hexUpper 4 (wordOfBytes hi lo).toNat := by
      simp only [text, hkind]
    rw [htext, assemble_operand h68 (isWord_hexUpper _ _), operandValue_hexUpper]
    simp only [encodeOperand, hkind, UInt16.ofNat_toNat, wordBytes_wordOfBytes]

theorem eq_of_bytes_eq {i j : MachineInstr} (ha : i.address = j.address)
    (h : i.bytes = j.bytes) : i = j := by
  obtain ⟨_, op, operands, _⟩ := i
  obtain ⟨_, _, _, _⟩ := j
  cases ha
  cases h
  rfl

end MachineInstr

end Text

/-- Machine code is divided into consecutive instructions and a rest that is too short for one, in
the only way there is; and at one address, instructions with the same text have the same bytes. -/
theorem disassembly_lossless :
    (∀ (code : List UInt8) (start : Address) (instrs : List MachineInstr) (rest : List UInt8),
      sweep code start = (instrs, rest) ↔
        instrs.flatMap MachineInstr.bytes ++ rest = code ∧ Consecutive start instrs ∧
          (rest = [] ∨ ∃ op tail, rest = op :: tail ∧
            rest.length < 1 + (opcode op).operand.size)) ∧
      ∀ (here : Address) (p q : List UInt8) (i j : MachineInstr),
        decode p here = some i → decode q here = some j →
          (i.text = j.text ↔ i.bytes = j.bytes) := by
  refine ⟨fun code start instrs rest => sweep_eq_iff, ?_⟩
  intro here p q i j hi hj
  constructor
  · intro h
    rw [← i.assemble_text, h, j.assemble_text]
  · intro h
    obtain ⟨rfl, -⟩ := eq_append_of_decode hi
    obtain ⟨hj, -⟩ := eq_append_of_decode hj
    rw [MachineInstr.eq_of_bytes_eq hj.symm h]

/-- A short branch at the end of a page, whose operand and target lie on the next one, before a long
branch that is cut off. -/
theorem disassembly_lossless_across_page :
    ∃ i j, decode [0x3A, 0x10, 0xC0, 0x12] 0x1FF = some i ∧ decode [0x3A, 0x11] 0x1FF = some j ∧
      sweep [0x3A, 0x10, 0xC0, 0x12] 0x1FF = ([i], [0xC0, 0x12]) ∧
      i.text = "bnz 0x0210" ∧ i.text ≠ j.text := by
  let i : MachineInstr := ⟨0x1FF, 0x3A, [0x10], rfl⟩
  let j : MachineInstr := ⟨0x1FF, 0x3A, [0x11], rfl⟩
  have hi : decode [0x3A, 0x10, 0xC0, 0x12] 0x1FF = some i := by rfl
  have hj : decode [0x3A, 0x11] 0x1FF = some j := by rfl
  obtain ⟨hdivide, htext⟩ := disassembly_lossless
  refine ⟨i, j, hi, hj, ?_, by decide +kernel, ?_⟩
  · refine (hdivide _ _ _ _).2 ⟨rfl, ⟨rfl, trivial⟩, Or.inr ⟨0xC0, [0x12], rfl, by decide⟩⟩
  · intro h
    have hbytes := (htext _ _ _ _ _ hi hj).1 h
    exact absurd hbytes (by decide)

end OctoLift.Cosmac
