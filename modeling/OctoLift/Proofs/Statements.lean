import OctoLift.Instr.Encode
import OctoLift.Proofs.Indifference
import OctoLift.Proofs.Names
import OctoLift.Proofs.Numerals
import OctoLift.Proofs.Source

/-!
# Reading statements back

A statement tells its instruction: it is read back, word by word, to keywords and operands, and
these to the instruction. A name stands for the address that has it, so this works under every
naming in which no two addresses share a name. As an instruction tells its bytes in turn, two byte
strings have the same statement exactly if they begin with the same instruction, byte for byte. In
a listing the statement is read off its line, or off the remark where it had to be split.
-/

namespace OctoLift

/-- What a word of a statement stands for. -/
inductive Piece where
  | keyword (w : String)
  | register (x : Nibble)
  /-- A decimal numeral. -/
  | number (b : UInt8)
  /-- A name or a hexadecimal literal, which may also be a byte. -/
  | address (a : Address)

namespace SymbolTable

/-- No two addresses share a name. -/
def Unambiguous (t : SymbolTable) : Prop :=
  ∀ (a b : Address) (s : Symbol), t.Gives a s → t.Gives b s → a = b

/-- Whether an address has a name of a given text. -/
def isCalled (t : SymbolTable) (w : String) (a : Address) : Bool :=
  [SymbolKind.label, .subroutine, .native].any fun kind =>
    (t.name? kind a).any fun s => s.text == w

theorem isCalled_iff {t : SymbolTable} {w : String} {a : Address} :
    t.isCalled w a = true ↔ ∃ s, t.Gives a s ∧ s.text = w := by
  simp only [isCalled, List.any_eq_true, Option.any_eq_true, beq_iff_eq, Gives]
  constructor
  · rintro ⟨kind, -, s, hs, hw⟩
    exact ⟨s, ⟨kind, hs⟩, hw⟩
  · rintro ⟨s, ⟨kind, hs⟩, hw⟩
    exact ⟨kind, by cases kind <;> simp, s, hs, hw⟩

/-- The address with a name of a given text. -/
def addressOf (t : SymbolTable) (w : String) : Address :=
  (AddressMap.addresses.find? (t.isCalled w)).getD 0

theorem addressOf_text {t : SymbolTable} (ht : t.Unambiguous) {a : Address} {s : Symbol}
    (h : t.Gives a s) : t.addressOf s.text = a := by
  cases hfind : AddressMap.addresses.find? (t.isCalled s.text) with
  | none =>
    have hnot := List.find?_eq_none.1 hfind a (AddressMap.mem_addresses a)
    exact absurd (isCalled_iff.2 ⟨s, h, rfl⟩) hnot
  | some b =>
    obtain ⟨s', hb, htext⟩ := isCalled_iff.1 (List.find?_some hfind)
    rw [Symbol.text_injective htext] at hb
    rw [addressOf, hfind, Option.getD_some, ht a b s h hb]

theorem unambiguous_ofReferences (r : References) : (ofReferences r).Unambiguous :=
  fun _ _ _ => gives_inj

/-- The table without names. -/
def empty : SymbolTable :=
  ⟨.const none, .const none, .const none⟩

theorem name?_empty (kind : SymbolKind) (a : Address) : empty.name? kind a = none := by
  cases kind <;> exact AddressMap.getElem_const _ _

theorem unambiguous_empty : empty.Unambiguous := by
  rintro a b s ⟨kind, h⟩
  rw [name?_empty] at h
  cases h

theorem naming_empty : empty.naming = .none := by
  simp [naming, empty, Naming.none]

end SymbolTable

namespace Piece

/-- What a word stands for. -/
def ofWord (t : SymbolTable) (w : String) : Piece :=
  if isName w then address (t.addressOf w)
  else if w.toList.all Char.isDigit then number (UInt8.ofNat (Nat.ofDigitChars 10 w.toList 0))
  else
    match w.toList with
    | '0' :: 'x' :: digits => address (UInt16.ofNat (Numeral.hexValue digits))
    | ['v', digit] => register (Fin.ofNat 16 (Numeral.digitValue digit))
    | _ => keyword w

/-- Whether a word stands for itself. -/
def isKeyword (w : String) : Bool :=
  !isName w && !w.toList.all Char.isDigit && w.toList.take 2 != ['0', 'x'] &&
    (w.toList.head? != some 'v' || w.toList.length != 2)

section OfWord

variable {t : SymbolTable}

theorem ofWord_decimal (n : Nat) :
    ofWord t (Numeral.decimal n) = number (UInt8.ofNat n) := by
  have hname := (isPlain_iff.1 (isPlain_decimal n)).2.1
  have hdigits : (Numeral.decimal n).toList.all Char.isDigit = true :=
    List.all_eq_true.2 fun c hc => isDigit_of_mem_decimal hc
  rw [ofWord, hname, hdigits, toList_decimal, Nat.ofDigitChars_toDigits (by decide) (by decide)]
  rfl

theorem ofWord_hexUpper (width n : Nat) :
    ofWord t (Numeral.hexUpper width n) = address (UInt16.ofNat n) := by
  have hname := (isPlain_iff.1 (isPlain_hexUpper width n)).2.1
  rw [ofWord, hname, Numeral.toList_hexUpper]
  have hvalue := Numeral.hexValue_map_hexDigits Numeral.digitValue_toUpper_digitChar width n
  simp [hvalue]

theorem ofWord_registerName (x : Nibble) : ofWord t (registerName x) = register x := by
  have hname := (isPlain_iff.1 (isPlain_registerName x)).2.1
  have htext : (registerName x).toList = ['v', (Nat.digitChar x.val).toUpper] := by
    simp [registerName]
  rw [ofWord, hname, htext]
  have hvalue := Numeral.digitValue_toUpper_digitChar x.val x.isLt
  simp [hvalue]

theorem ofWord_name (ht : t.Unambiguous) {a : Address} {s : Symbol} (h : t.Gives a s) :
    ofWord t s.text = address a := by
  rw [ofWord, if_pos s.isName_text, SymbolTable.addressOf_text ht h]

theorem ofWord_keyword {w : String} (h : isKeyword w = true) : ofWord t w = keyword w := by
  simp only [isKeyword, Bool.and_eq_true, Bool.not_eq_true', bne_iff_ne, Bool.or_eq_true] at h
  obtain ⟨⟨⟨hname, hdigits⟩, hhex⟩, hregister⟩ := h
  rw [ofWord, hname, hdigits]
  simp only [Bool.false_eq_true, if_false]
  split
  · next hw => simp [hw] at hhex
  · next hw => simp [hw] at hregister
  · rfl

end OfWord

/-- The piece of a token. -/
def ofToken (t : SymbolTable) (tok : Token) : Piece :=
  ofWord t tok.text

section OfToken

variable {t : SymbolTable}

theorem ofToken_plain {w : String} (h : isPlain w = true) (hw : isKeyword w = true) :
    ofToken t (.plain w h) = keyword w :=
  ofWord_keyword hw

theorem ofToken_register (x : Nibble) : ofToken t (.register x) = register x :=
  ofWord_registerName x

theorem ofToken_decimal (n : Nat) : ofToken t (.decimal n) = number (UInt8.ofNat n) :=
  ofWord_decimal n

theorem ofToken_byte (b : UInt8) : ofToken t (.byte b) = address (UInt16.ofNat b.toNat) :=
  ofWord_hexUpper 2 b.toNat

theorem ofToken_literal (a : Address) : ofToken t (.literal a) = address a := by
  rw [ofToken, Token.text_literal, addressLiteral, ofWord_hexUpper, UInt16.ofNat_toNat]

theorem ofToken_target (ht : t.Unambiguous) (kind : SymbolKind) {names : NameMap} {a : Address}
    (h : names[a] = t.name? kind a) : ofToken t (.target names a) = address a := by
  unfold Token.target
  cases hs : names[a] with
  | none => exact ofToken_literal a
  | some s => exact ofWord_name ht ⟨kind, h.symm.trans hs⟩

end OfToken

end Piece

namespace Instr
open Piece

/-- The instruction that a statement is made of. Two bytes are the word of no instruction, if a
remark calls it bad, and else the word where a program stops. -/
def ofPieces (remarked : Bool) : List Piece → Option Instr
  | [address hi, address lo] =>
    some (if remarked then invalid (wordOfBytes hi.toUInt8 lo.toUInt8) else halt)
  | [keyword "scroll-down", number n] => some (scrollDown (lowNibble n))
  | [keyword "scroll-up", number n] => some (scrollUp (lowNibble n))
  | [keyword "clear"] => some clear
  | [keyword "return"] => some ret
  | [keyword "scroll-right"] => some scrollRight
  | [keyword "scroll-left"] => some scrollLeft
  | [keyword "exit"] => some exit
  | [keyword "lores"] => some lores
  | [keyword "hires"] => some hires
  | [keyword "native", address a] => some (native a)
  | [keyword "jump", address a] => some (jump a)
  | [address a] => some (call a)
  | [keyword ":call", address a] => some (call a)
  | [keyword "if", register x, keyword "!=", number n, keyword "then"] =>
    some (skip (.eqImm x n))
  | [keyword "if", register x, keyword "==", number n, keyword "then"] =>
    some (skip (.neImm x n))
  | [keyword "if", register x, keyword "!=", register y, keyword "then"] =>
    some (skip (.eqReg x y))
  | [keyword "if", register x, keyword "==", register y, keyword "then"] =>
    some (skip (.neReg x y))
  | [keyword "if", register x, keyword "-key", keyword "then"] => some (skip (.keyDown x))
  | [keyword "if", register x, keyword "key", keyword "then"] => some (skip (.keyUp x))
  | [keyword "save", register x, keyword "-", register y] => some (saveRange x y)
  | [keyword "load", register x, keyword "-", register y] => some (loadRange x y)
  | [register x, keyword ":=", number n] => some (loadImm x n)
  | [register x, keyword "+=", number n] => some (addImm x n)
  | [register x, keyword ":=", register y] => some (alu .set x y)
  | [register x, keyword "|=", register y] => some (alu .or x y)
  | [register x, keyword "&=", register y] => some (alu .and x y)
  | [register x, keyword "^=", register y] => some (alu .xor x y)
  | [register x, keyword "+=", register y] => some (carry .add x y)
  | [register x, keyword "-=", register y] => some (carry .sub x y)
  | [register x, keyword ">>=", register y] => some (carry .shr x y)
  | [register x, keyword "=-", register y] => some (carry .subRev x y)
  | [register x, keyword "<<=", register y] => some (carry .shl x y)
  | [keyword "i", keyword ":=", address a] => some (setIndex a)
  | [keyword "jump0", address a] => some (jumpOffset a)
  | [register x, keyword ":=", keyword "random", number n] => some (random x n)
  | [keyword "sprite", register x, register y, number n] => some (sprite x y (lowNibble n))
  | [keyword "i", keyword ":=", keyword "long", address a] => some (longIndex a)
  | [keyword "plane", number n] => some (plane (lowNibble n))
  | [keyword "audio"] => some audio
  | [register x, keyword ":=", keyword "delay"] => some (getDelay x)
  | [register x, keyword ":=", keyword "key"] => some (waitKey x)
  | [keyword "delay", keyword ":=", register x] => some (setDelay x)
  | [keyword "buzzer", keyword ":=", register x] => some (setBuzzer x)
  | [keyword "i", keyword "+=", register x] => some (addIndex x)
  | [keyword "i", keyword ":=", keyword "hex", register x] => some (hexFont x)
  | [keyword "i", keyword ":=", keyword "bighex", register x] => some (bigHexFont x)
  | [keyword "bcd", register x] => some (bcd x)
  | [keyword "pitch", keyword ":=", register x] => some (pitch x)
  | [keyword "save", register x] => some (save x)
  | [keyword "load", register x] => some (load x)
  | [keyword "saveflags", register x] => some (saveFlags x)
  | [keyword "loadflags", register x] => some (loadFlags x)
  | _ => none

/-- Whether a remark stands behind the statement. -/
def isRemarked : Instr → Bool
  | invalid _ => true
  | _ => false

theorem lowNibble_ofNat (n : Nibble) : lowNibble (UInt8.ofNat n.val) = n := by
  revert n
  decide

theorem wordOfBytes_of_word (w : UInt16) :
    wordOfBytes (UInt16.ofNat (w >>> 8).toUInt8.toNat).toUInt8
      (UInt16.ofNat w.toUInt8.toNat).toUInt8 = w := by
  apply UInt16.toNat_inj.1
  have hw := w.toNat_lt
  simp [wordOfBytes, Nat.shiftRight_eq_div_pow]
  omega

/-- The tokens of a statement stand for pieces that make up its instruction. -/
theorem ofPieces_tokens {t : SymbolTable} (ht : t.Unambiguous) (i : Instr) :
    ofPieces i.isRemarked ((i.tokens t).map (ofToken t)) = some i := by
  have hlabel (a : Address) : ofToken t (.target t.labels a) = address a :=
    ofToken_target ht .label rfl
  have hnative (a : Address) : ofToken t (.target t.natives a) = address a :=
    ofToken_target ht .native rfl
  cases i
  case skip c =>
    cases c <;>
      simp (disch := decide +kernel) only [tokens, Condition.tokens, List.cons_append,
        List.nil_append, List.map_cons, List.map_nil, ofToken_plain, ofToken_register,
        ofToken_decimal, UInt8.ofNat_toNat] <;>
      rfl
  case alu op x y =>
    cases op <;>
      simp (disch := decide +kernel) only [tokens, AluOp.token, List.map_cons, List.map_nil,
        ofToken_plain, ofToken_register] <;>
      rfl
  case carry op x y =>
    cases op <;>
      simp (disch := decide +kernel) only [tokens, CarryOp.token, List.map_cons, List.map_nil,
        ofToken_plain, ofToken_register] <;>
      rfl
  case call a =>
    simp only [tokens]
    cases hs : t.subroutines[a] with
    | none =>
      simp (disch := decide +kernel) only [List.map_cons, List.map_nil, ofToken_plain,
        ofToken_literal]
      rfl
    | some s =>
      rw [List.map_singleton, ofToken, Token.text_name, ofWord_name ht ⟨.subroutine, hs⟩]
      rfl
  all_goals
    simp (disch := decide +kernel) only [tokens, List.map_cons, List.map_nil, ofToken_plain,
      ofToken_register, ofToken_decimal, ofToken_byte, UInt8.ofNat_toNat, hlabel, hnative]
  case invalid w => exact congrArg (some ∘ invalid) (wordOfBytes_of_word w)
  case scrollDown n => exact congrArg (some ∘ scrollDown) (lowNibble_ofNat n)
  case scrollUp n => exact congrArg (some ∘ scrollUp) (lowNibble_ofNat n)
  case plane n => exact congrArg (some ∘ plane) (lowNibble_ofNat n)
  case sprite x y n => exact congrArg (some ∘ sprite x y) (lowNibble_ofNat n)
  all_goals rfl

/-- The instruction that a statement says. -/
def ofText (t : SymbolTable) (text : String) : Option Instr :=
  ofPieces (text.toList.contains '#') ((sourceWords text).map (Piece.ofWord t))

theorem sourceWords_text (t : SymbolTable) (i : Instr) :
    sourceWords (i.text t.naming) = (i.tokens t).map Token.text := by
  have hwords : ∀ w ∈ (i.tokens t).map Token.text, isWord w = true :=
    fun _ hw => Token.isWord_of_mem_map_text hw
  have hremark : i.remark = "" ∨ ∃ text, i.remark = " # " ++ text :=
    i.isTrail_remark.imp_right fun ⟨text, h, _⟩ => ⟨text, h⟩
  have hindent : ∀ c ∈ "".toList, isBlank c = true := by simp
  have hread := sourceWords_eq hindent hwords hremark
  rwa [String.empty_append, ← text_eq] at hread

theorem contains_hash_text (t : SymbolTable) (i : Instr) :
    (i.text t.naming).toList.contains '#' = i.isRemarked := by
  have hwords : (" ".intercalate ((i.tokens t).map Token.text)).toList.contains '#' = false := by
    simpa using hash_notMem_intercalate fun _ hw => Token.isWord_of_mem_map_text hw
  rw [text_eq, String.toList_append, List.contains_append, hwords, Bool.false_or]
  cases i with
  | invalid w =>
    have hremark : " # bad opcode?".toList.contains '#' = true := by decide
    exact hremark
  | _ => rfl

/-- A statement is read back as its instruction, under every naming without doubles. -/
theorem ofText_text {t : SymbolTable} (ht : t.Unambiguous) (i : Instr) :
    ofText t (i.text t.naming) = some i := by
  rw [ofText, contains_hash_text, sourceWords_text, List.map_map]
  exact ofPieces_tokens ht i

theorem text_injective {t : SymbolTable} (ht : t.Unambiguous) :
    Function.Injective (text t.naming) := by
  intro i j h
  have hread := ofText_text ht i
  rw [h, ofText_text ht j] at hread
  exact (Option.some.inj hread).symm

section Bytes

variable (p q : List UInt8)

/-- The bytes of the instruction at the start of a byte string are the first ones of this string. -/
theorem encode_ofBytes :
    (ofBytes p).encode = (List.range (ofBytes p).size).map fun k => p.getD k 0 := by
  have hencode := encode_decode (p.getD 0 0) (p.getD 1 0) (wordOfBytes (p.getD 2 0) (p.getD 3 0))
  rw [← ofBytes] at hencode
  rw [hencode]
  cases ofBytes p with
  | longIndex a =>
    rw [tailBytes, wordBytes_wordOfBytes]
    rfl
  | _ => rfl

theorem ofBytes_eq_iff :
    ofBytes p = ofBytes q ↔
      (ofBytes p).size = (ofBytes q).size ∧ ∀ k < (ofBytes p).size, p.getD k 0 = q.getD k 0 := by
  constructor
  · intro h
    refine ⟨by rw [h], ?_⟩
    have hbytes := encode_ofBytes p
    rw [h, encode_ofBytes q, List.map_inj_left] at hbytes
    intro k hk
    rw [h] at hk
    exact (hbytes k (List.mem_range.2 hk)).symm
  · rintro ⟨-, hbytes⟩
    have hsize := (ofBytes p).size_eq
    have hhi := hbytes 0 (by omega)
    have hlo := hbytes 1 (by omega)
    unfold ofBytes at hbytes ⊢
    rw [hhi, hlo] at hbytes ⊢
    -- the word behind the first one counts only where it belongs to the instruction
    rcases decode_tail (q.getD 0 0) (q.getD 1 0) (wordOfBytes (p.getD 2 0) (p.getD 3 0))
      (wordOfBytes (q.getD 2 0) (q.getD 3 0)) with h | ⟨h, -⟩
    · exact h
    · rw [h] at hbytes
      rw [hbytes 2 (by rw [size]; omega), hbytes 3 (by rw [size]; omega)]

end Bytes

/-- The statements at the start of two byte strings agree exactly if the instructions there are of
the same size and agree byte by byte, whatever has been referred to and so has a name, and also
where nothing has a name. -/
theorem text_eq_text_iff (r : References) (p q : List UInt8) :
    let names := (SymbolTable.ofReferences r).naming
    let alike := (ofBytes p).size = (ofBytes q).size ∧
      ∀ k < (ofBytes p).size, p.getD k 0 = q.getD k 0
    ((ofBytes p).text names = (ofBytes q).text names ↔ alike) ∧
      ((ofBytes p).text .none = (ofBytes q).text .none ↔ alike) := by
  dsimp only
  rw [← ofBytes_eq_iff, ← SymbolTable.naming_empty]
  exact ⟨(text_injective (SymbolTable.unambiguous_ofReferences r)).eq_iff,
    (text_injective SymbolTable.unambiguous_empty).eq_iff⟩

end Instr

theorem Indent.hash_notMem_at (indent : Indent) (depth : Nat) : '#' ∉ (indent.at depth).toList := by
  intro hmem
  rcases Indent.blank_at hmem with h | h
  · cases h
  · cases h

namespace Line

variable {t : SymbolTable} (ht : t.Unambiguous) (indent : Indent) (p : Program) (depth : Nat)
  (here : Address) (i : Instr)

include ht

theorem ofText_code :
    Instr.ofText t ((chunk depth here (.code i)).text indent p t.naming) = some i := by
  have hindent : (indent.at depth).toList.contains '#' = false := by
    simpa using indent.hash_notMem_at depth
  have hhash : ((chunk depth here (.code i)).text indent p t.naming).toList.contains '#' =
      i.isRemarked := by
    rw [text, Chunk.text, String.toList_append, List.contains_append, hindent,
      Instr.contains_hash_text, Bool.false_or]
  rw [Instr.ofText, hhash, sourceWords_chunk, Chunk.tokens, List.map_map]
  exact Instr.ofPieces_tokens ht i

theorem ofText_remarkOf_splitLong :
    Instr.ofText t (remarkOf ((chunk depth here (.splitLong i)).text indent p t.naming)) =
      some i := by
  let words := ((p.bytes here.toNat 2).map Token.byte).map Token.text
  have hwords : '#' ∉ (" ".intercalate words).toList :=
    hash_notMem_intercalate fun _ hw => Token.isWord_of_mem_map_text hw
  have hhash : '#' ∉ (indent.at depth ++ " ".intercalate words).toList := by
    rw [String.toList_append, List.mem_append]
    exact fun h => h.elim (indent.hash_notMem_at depth) hwords
  rw [text, Chunk.text_eq, Chunk.tokens, Chunk.remark, ← String.append_assoc,
    ← String.append_assoc, remarkOf_append hhash]
  exact Instr.ofText_text ht i

end Line
end OctoLift
