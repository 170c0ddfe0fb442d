import OctoLift.Instr.Decode

/-!
# Encoding

The bytes of an instruction. Decoding loses nothing: the instruction of a word, or of the two words
of a long index load, is encoded by the bytes that it was decoded from.
-/

namespace OctoLift

/-- The byte with two given hexadecimal digits. -/
def byteOfDigits (high low : Nat) : UInt8 :=
  UInt8.ofNat (high * 16 + low)

/-- The big-endian bytes of a word. -/
def wordBytes (w : UInt16) : List UInt8 :=
  [UInt8.ofNat (w.toNat / 256), UInt8.ofNat (w.toNat % 256)]

/-- A word that consists of a digit and the low twelve bits of an address. -/
def addressWord (digit : Nat) (a : Address) : List UInt8 :=
  [byteOfDigits digit (a.toNat / 256 % 16), UInt8.ofNat (a.toNat % 256)]

theorem byteOfDigits_eq {b : UInt8} {high low : Nat} (hhigh : (highNibble b).val = high)
    (hlow : (lowNibble b).val = low) : byteOfDigits high low = b := by
  subst hhigh
  subst hlow
  apply UInt8.toNat_inj.1
  have hb := b.toNat_lt
  simp only [byteOfDigits, highNibble, lowNibble, UInt8.toNat_ofNat']
  omega

theorem wordBytes_wordOfBytes (hi lo : UInt8) : wordBytes (wordOfBytes hi lo) = [hi, lo] := by
  have hhi := hi.toNat_lt
  have hlo := lo.toNat_lt
  have hword : (wordOfBytes hi lo).toNat = hi.toNat * 256 + lo.toNat := by
    simp only [wordOfBytes, UInt16.toNat_ofNat']
    omega
  have hhigh : (hi.toNat * 256 + lo.toNat) / 256 = hi.toNat := by omega
  have hlow : (hi.toNat * 256 + lo.toNat) % 256 = lo.toNat := by omega
  rw [wordBytes, hword, hhigh, hlow, UInt8.ofNat_toNat, UInt8.ofNat_toNat]

namespace Condition

def encode : Condition → List UInt8
  | eqImm x nn => [byteOfDigits 0x3 x.val, nn]
  | neImm x nn => [byteOfDigits 0x4 x.val, nn]
  | eqReg x y => [byteOfDigits 0x5 x.val, byteOfDigits y.val 0x0]
  | neReg x y => [byteOfDigits 0x9 x.val, byteOfDigits y.val 0x0]
  | keyDown x => [byteOfDigits 0xE x.val, 0x9E]
  | keyUp x => [byteOfDigits 0xE x.val, 0xA1]

end Condition

def AluOp.digit : AluOp → Nat
  | set => 0x0
  | or => 0x1
  | and => 0x2
  | xor => 0x3

def CarryOp.digit : CarryOp → Nat
  | add => 0x4
  | sub => 0x5
  | shr => 0x6
  | subRev => 0x7
  | shl => 0xE

namespace Instr

def encode : Instr → List UInt8
  | halt => [0x00, 0x00]
  | scrollDown n => [0x00, byteOfDigits 0xC n.val]
  | scrollUp n => [0x00, byteOfDigits 0xD n.val]
  | clear => [0x00, 0xE0]
  | ret => [0x00, 0xEE]
  | scrollRight => [0x00, 0xFB]
  | scrollLeft => [0x00, 0xFC]
  | exit => [0x00, 0xFD]
  | lores => [0x00, 0xFE]
  | hires => [0x00, 0xFF]
  | native a => addressWord 0x0 a
  | jump a => addressWord 0x1 a
  | call a => addressWord 0x2 a
  | skip c => c.encode
  | saveRange x y => [byteOfDigits 0x5 x.val, byteOfDigits y.val 0x2]
  | loadRange x y => [byteOfDigits 0x5 x.val, byteOfDigits y.val 0x3]
  | loadImm x nn => [byteOfDigits 0x6 x.val, nn]
  | addImm x nn => [byteOfDigits 0x7 x.val, nn]
  | alu op x y => [byteOfDigits 0x8 x.val, byteOfDigits y.val op.digit]
  | carry op x y => [byteOfDigits 0x8 x.val, byteOfDigits y.val op.digit]
  | setIndex a => addressWord 0xA a
  | jumpOffset a => addressWord 0xB a
  | random x mask => [byteOfDigits 0xC x.val, mask]
  | sprite x y n => [byteOfDigits 0xD x.val, byteOfDigits y.val n.val]
  | longIndex a => [0xF0, 0x00] ++ wordBytes a
  | plane mask => [byteOfDigits 0xF mask.val, 0x01]
  | audio => [0xF0, 0x02]
  | getDelay x => [byteOfDigits 0xF x.val, 0x07]
  | waitKey x => [byteOfDigits 0xF x.val, 0x0A]
  | setDelay x => [byteOfDigits 0xF x.val, 0x15]
  | setBuzzer x => [byteOfDigits 0xF x.val, 0x18]
  | addIndex x => [byteOfDigits 0xF x.val, 0x1E]
  | hexFont x => [byteOfDigits 0xF x.val, 0x29]
  | bigHexFont x => [byteOfDigits 0xF x.val, 0x30]
  | bcd x => [byteOfDigits 0xF x.val, 0x33]
  | pitch x => [byteOfDigits 0xF x.val, 0x3A]
  | save x => [byteOfDigits 0xF x.val, 0x55]
  | load x => [byteOfDigits 0xF x.val, 0x65]
  | saveFlags x => [byteOfDigits 0xF x.val, 0x75]
  | loadFlags x => [byteOfDigits 0xF x.val, 0x85]
  | invalid w => wordBytes w

theorem length_encode (i : Instr) : i.encode.length = i.size := by
  cases i with
  | skip c => cases c <;> rfl
  | _ => rfl

variable {hi lo : UInt8}

theorem addressWord_operandAddress {digit : Nat} (h : (highNibble hi).val = digit) :
    addressWord digit (operandAddress hi lo) = [hi, lo] := by
  have hdigit := (lowNibble hi).isLt
  have hlo := lo.toNat_lt
  have haddress : (operandAddress hi lo).toNat = (lowNibble hi).val * 256 + lo.toNat := by
    simp only [operandAddress, UInt16.toNat_ofNat']
    omega
  have hhigh : ((lowNibble hi).val * 256 + lo.toNat) / 256 % 16 = (lowNibble hi).val := by omega
  have hlow : ((lowNibble hi).val * 256 + lo.toNat) % 256 = lo.toNat := by omega
  rw [addressWord, haddress, hhigh, hlow, byteOfDigits_eq h rfl, UInt8.ofNat_toNat]

theorem ofNat_of_toNat_eq {b : UInt8} {n : Nat} (h : b.toNat = n) : UInt8.ofNat n = b := by
  rw [← h, UInt8.ofNat_toNat]

theorem encode_invalid : (invalid (wordOfBytes hi lo)).encode = [hi, lo] :=
  wordBytes_wordOfBytes hi lo

theorem encode_decodeSystem (h : (highNibble hi).val = 0x0) :
    (decodeSystem hi lo).encode = [hi, lo] := by
  have hnative : (native (operandAddress hi lo)).encode = [hi, lo] :=
    addressWord_operandAddress h
  unfold decodeSystem
  by_cases hzero : hi = 0
  · subst hzero
    rw [if_pos rfl]
    split
    case h_9 =>
      split
      · next hc => rw [encode, byteOfDigits_eq hc rfl]
      split
      · next hd => rw [encode, byteOfDigits_eq hd rfl]
      · exact hnative
    all_goals
      rename_i hlo
      rw [← ofNat_of_toNat_eq hlo]
      rfl
  · rw [if_neg hzero]
    exact hnative

theorem encode_decodePair (h : (highNibble hi).val = 0x5) :
    (decodePair hi lo).encode = [hi, lo] := by
  unfold decodePair
  split
  case h_4 => exact encode_invalid
  all_goals
    rename_i hlo
    simp only [encode, Condition.encode, byteOfDigits_eq h rfl, byteOfDigits_eq rfl hlo]

theorem encode_decodeArithmetic (h : (highNibble hi).val = 0x8) :
    (decodeArithmetic hi lo).encode = [hi, lo] := by
  unfold decodeArithmetic
  split
  case h_10 => exact encode_invalid
  all_goals
    rename_i hlo
    simp only [encode, AluOp.digit, CarryOp.digit, byteOfDigits_eq h rfl, byteOfDigits_eq rfl hlo]

theorem encode_decodeKey (h : (highNibble hi).val = 0xE) :
    (decodeKey hi lo).encode = [hi, lo] := by
  unfold decodeKey
  split
  case h_3 => exact encode_invalid
  all_goals
    rename_i hlo
    simp only [encode, Condition.encode, byteOfDigits_eq h rfl, ← ofNat_of_toNat_eq hlo]
    rfl

/-- What follows the first word. -/
def tailBytes (i : Instr) (tail : Address) : List UInt8 :=
  match i with
  | longIndex _ => wordBytes tail
  | _ => []

theorem encode_append_tailBytes {i : Instr} (h : i.encode = [hi, lo]) (tail : Address) :
    i.encode = [hi, lo] ++ i.tailBytes tail := by
  have hsize : i.size = 2 := by rw [← length_encode, h]; rfl
  have htail : i.tailBytes tail = [] := by
    cases i with
    | longIndex a => cases hsize
    | _ => rfl
  rw [h, htail, List.append_nil]

theorem encode_decodeMisc (h : (highNibble hi).val = 0xF) (tail : Address) :
    (decodeMisc hi lo tail).encode = [hi, lo] ++ (decodeMisc hi lo tail).tailBytes tail := by
  have hx {x : Nat} (hx : (lowNibble hi).val = x) : byteOfDigits 0xF x = hi := byteOfDigits_eq h hx
  unfold decodeMisc
  dsimp only
  split
  case h_1 hlo =>
    split
    · next hzero =>
      rw [← hx hzero, ← ofNat_of_toNat_eq hlo]
      rfl
    · exact encode_invalid
  case h_3 hlo =>
    split
    · next hzero =>
      rw [← hx hzero, ← ofNat_of_toNat_eq hlo]
      rfl
    · exact encode_invalid
  case h_17 => exact encode_invalid
  all_goals
    rename_i hlo
    simp only [encode, hx rfl, ← ofNat_of_toNat_eq hlo]
    rfl

/-- Decoding loses nothing. -/
theorem encode_decode (hi lo : UInt8) (tail : Address) :
    (decode hi lo tail).encode = [hi, lo] ++ (decode hi lo tail).tailBytes tail := by
  unfold decode
  dsimp only
  split
  case h_1 h => exact encode_append_tailBytes (encode_decodeSystem h) tail
  case h_2 h => rw [encode, addressWord_operandAddress h]; rfl
  case h_3 h => rw [encode, addressWord_operandAddress h]; rfl
  case h_4 h => rw [encode, Condition.encode, byteOfDigits_eq h rfl]; rfl
  case h_5 h => rw [encode, Condition.encode, byteOfDigits_eq h rfl]; rfl
  case h_6 h => exact encode_append_tailBytes (encode_decodePair h) tail
  case h_7 h => rw [encode, byteOfDigits_eq h rfl]; rfl
  case h_8 h => rw [encode, byteOfDigits_eq h rfl]; rfl
  case h_9 h => exact encode_append_tailBytes (encode_decodeArithmetic h) tail
  case h_10 h =>
    split
    · next hzero =>
      rw [encode, Condition.encode, byteOfDigits_eq h rfl, byteOfDigits_eq rfl hzero]
      rfl
    · exact encode_invalid
  case h_11 h => rw [encode, addressWord_operandAddress h]; rfl
  case h_12 h => rw [encode, addressWord_operandAddress h]; rfl
  case h_13 h => rw [encode, byteOfDigits_eq h rfl]; rfl
  case h_14 h => rw [encode, byteOfDigits_eq h rfl, byteOfDigits_eq rfl rfl]; rfl
  case h_15 h => exact encode_append_tailBytes (encode_decodeKey h) tail
  case h_16 =>
    have hlt := (highNibble hi).isLt
    have h : (highNibble hi).val = 0xF := by grind
    exact encode_decodeMisc h tail

end Instr
end OctoLift
