import OctoLift.Listing
import OctoLift.Proofs.Words

/-!
# Tokens

What the words of a line are: directives, names, or plain words, which can be mistaken for neither.
Statements and lines are taken apart into tokens, and the text of a listing is read back as these.
-/

namespace OctoLift

/-- Whether a word looks like a name. -/
def isName (w : String) : Bool :=
  w == "main" || ["label-", "sub-", "machine-"].any fun stem => stem.toList.isPrefixOf w.toList

/-- The words that a name is introduced by. -/
def directives : List String :=
  [":const", ":", ":next"]

def isPlain (w : String) : Bool :=
  isWord w && !isName w && !directives.contains w

theorem isWord_of_mem_directives : ∀ w ∈ directives, isWord w = true := by
  decide

theorem not_isName_of_mem_directives : ∀ w ∈ directives, isName w = false := by
  decide

section Symbols

theorem toList_decimal_inj {m n : Nat}
    (h : (Numeral.decimal m).toList = (Numeral.decimal n).toList) : m = n := by
  rw [toList_decimal, toList_decimal] at h
  rw [← Nat.ofDigitChars_toDigits (b := 10) (n := m) (by decide) (by decide), h,
    Nat.ofDigitChars_toDigits (by decide) (by decide)]

theorem Symbol.text_injective : Function.Injective Symbol.text := by
  intro s t h
  have hlist : s.text.toList = t.text.toList := by rw [h]
  cases s with
  | entry =>
    cases t with
    | entry => rfl
    | numbered kind n => cases kind <;> simp [text, SymbolKind.stem] at hlist
  | numbered kind m =>
    cases t with
    | entry => cases kind <;> simp [text, SymbolKind.stem] at hlist
    | numbered kind' n =>
      cases kind <;> cases kind' <;> simp [text, SymbolKind.stem] at hlist
      all_goals rw [toList_decimal_inj hlist]

theorem Symbol.isName_text (s : Symbol) : isName s.text = true := by
  cases s with
  | entry => rfl
  | numbered kind n => cases kind <;> simp [isName, text, SymbolKind.stem]

theorem Symbol.isWord_text (s : Symbol) : isWord s.text = true := by
  cases s with
  | entry => rfl
  | numbered kind n =>
    refine isWord_append (isWord_append ?_ rfl) (isWord_decimal n)
    cases kind <;> rfl

end Symbols

section Plain

theorem isPlain_iff {w : String} :
    isPlain w = true ↔ isWord w = true ∧ isName w = false ∧ w ∉ directives := by
  simp [isPlain, and_assoc]

/-- A word that starts with a digit is neither a name nor a directive. -/
theorem isPlain_of_digit {w : String} (h : isWord w = true) {c : Char} {rest : List Char}
    (hw : w.toList = c :: rest) (hc : c.isDigit = true) : isPlain w = true := by
  have hne (d : Char) (hd : d.isDigit = false) : c ≠ d := by
    rintro rfl
    rw [hd] at hc
    cases hc
  have hother (v : String) (d : Char) (rest' : List Char) (hv : v.toList = d :: rest')
      (hd : d.isDigit = false) : w ≠ v := by
    rintro rfl
    rw [hw] at hv
    exact hne d hd (List.cons.inj hv).1
  have hmain : w ≠ "main" := hother _ 'm' _ rfl rfl
  have hdirective : w ∉ directives := by
    simp only [directives, List.mem_cons, List.not_mem_nil, or_false, not_or]
    exact ⟨hother _ ':' _ rfl rfl, hother _ ':' _ rfl rfl, hother _ ':' _ rfl rfl⟩
  refine isPlain_iff.2 ⟨h, ?_, hdirective⟩
  simp [isName, hmain, hw, List.isPrefixOf, (hne 'l' rfl).symm, (hne 's' rfl).symm,
    (hne 'm' rfl).symm]

theorem isPlain_hexUpper (width n : Nat) : isPlain (Numeral.hexUpper width n) = true :=
  isPlain_of_digit (isWord_hexUpper width n)
    (Numeral.toList_hexUpper width n) rfl

theorem isPlain_decimal (n : Nat) : isPlain (Numeral.decimal n) = true := by
  cases hn : (Numeral.decimal n).toList with
  | nil => exact absurd hn (isWord_iff.1 (isWord_decimal n)).1
  | cons c rest =>
    refine isPlain_of_digit (isWord_decimal n) hn (isDigit_of_mem_decimal (n := n) ?_)
    rw [hn]
    exact List.mem_cons_self

theorem isPlain_registerName (x : Nibble) : isPlain (registerName x) = true := by
  revert x
  decide

end Plain

inductive Token where
  | directive (w : String) (h : w ∈ directives := by decide)
  | plain (w : String) (h : isPlain w = true := by decide)
  | name (s : Symbol)

namespace Token

def text : Token → String
  | directive w _ => w
  | plain w _ => w
  | name s => s.text

def register (x : Nibble) : Token :=
  plain (registerName x) (isPlain_registerName x)

def decimal (n : Nat) : Token :=
  plain (Numeral.decimal n) (isPlain_decimal n)

def byte (b : UInt8) : Token :=
  plain (Numeral.byte b) (isPlain_hexUpper 2 b.toNat)

def literal (a : Address) : Token :=
  plain (addressLiteral a) (isPlain_hexUpper 3 a.toNat)

/-- An address by its name, else as a literal. -/
def target (names : NameMap) (a : Address) : Token :=
  match names[a] with
  | some s => name s
  | none => literal a

theorem isWord_text (t : Token) : isWord t.text = true := by
  cases t with
  | directive w h => exact isWord_of_mem_directives w h
  | plain w h => exact (isPlain_iff.1 h).1
  | name s => exact s.isWord_text

@[simp] theorem text_directive (w : String) (h : w ∈ directives) : (directive w h).text = w := rfl

@[simp] theorem text_plain (w : String) (h : isPlain w = true) : (plain w h).text = w := rfl

@[simp] theorem text_name (s : Symbol) : (name s).text = s.text := rfl

@[simp] theorem text_register (x : Nibble) : (register x).text = registerName x := rfl

@[simp] theorem text_decimal (n : Nat) : (decimal n).text = Numeral.decimal n := rfl

@[simp] theorem text_byte (b : UInt8) : (byte b).text = Numeral.byte b := rfl

@[simp] theorem text_literal (a : Address) : (literal a).text = addressLiteral a := rfl

@[simp] theorem text_target (names : NameMap) (a : Address) :
    (target names a).text = addressText (names[a].map Symbol.text) a := by
  unfold target
  cases names[a] <;> rfl

theorem isWord_of_mem_map_text {ts : List Token} {w : String} (h : w ∈ ts.map text) :
    isWord w = true := by
  obtain ⟨t, _, rfl⟩ := List.mem_map.1 h
  exact t.isWord_text

theorem isLine_intercalate_text (ts : List Token) : IsLine (" ".intercalate (ts.map text)) :=
  isLine_intercalate fun _ hw => isWord_of_mem_map_text hw

theorem name_eq_target_iff {names : NameMap} {a : Address} {s : Symbol} :
    name s = target names a ↔ names[a] = some s := by
  unfold target
  cases names[a] with
  | none => simp [literal]
  | some s' => simp [eq_comm]

def isDirective : Token → Bool
  | directive _ _ => true
  | plain _ _ | name _ => false

@[simp] theorem isDirective_plain (w : String) (h : isPlain w = true) :
    (plain w h).isDirective = false := rfl

@[simp] theorem isDirective_name (s : Symbol) : (name s).isDirective = false := rfl

@[simp] theorem isDirective_register (x : Nibble) : (register x).isDirective = false := rfl

@[simp] theorem isDirective_decimal (n : Nat) : (decimal n).isDirective = false := rfl

@[simp] theorem isDirective_byte (b : UInt8) : (byte b).isDirective = false := rfl

@[simp] theorem isDirective_literal (a : Address) : (literal a).isDirective = false := rfl

@[simp] theorem isDirective_target (names : NameMap) (a : Address) :
    (target names a).isDirective = false := by
  unfold target
  cases names[a] <;> rfl

theorem text_mem_directives_iff {t : Token} : t.text ∈ directives ↔ t.isDirective = true := by
  cases t with
  | directive w h => simpa [isDirective] using h
  | plain w h => simpa [isDirective] using (isPlain_iff.1 h).2.2
  | name s =>
    simp only [text_name, isDirective, Bool.false_eq_true, iff_false]
    intro hs
    have hname := not_isName_of_mem_directives _ hs
    rw [s.isName_text] at hname
    cases hname

theorem text_eq_symbol_iff {t : Token} {s : Symbol} : t.text = s.text ↔ t = name s := by
  refine ⟨fun h => ?_, fun h => by rw [h]; rfl⟩
  have hname : isName t.text = true := by rw [h]; exact s.isName_text
  cases t with
  | directive w hw =>
    rw [text, not_isName_of_mem_directives w hw] at hname
    cases hname
  | plain w hw =>
    rw [text, (isPlain_iff.1 hw).2.1] at hname
    cases hname
  | name s' => rw [Symbol.text_injective h]

end Token

/-- The tokens of the condition under which the instruction after a skip runs. -/
def Condition.tokens : Condition → List Token
  | eqImm x nn => [.register x, .plain "!=", .decimal nn.toNat]
  | neImm x nn => [.register x, .plain "==", .decimal nn.toNat]
  | eqReg x y => [.register x, .plain "!=", .register y]
  | neReg x y => [.register x, .plain "==", .register y]
  | keyDown x => [.register x, .plain "-key"]
  | keyUp x => [.register x, .plain "key"]

def AluOp.token : AluOp → Token
  | set => .plain ":="
  | or => .plain "|="
  | and => .plain "&="
  | xor => .plain "^="

def CarryOp.token : CarryOp → Token
  | add => .plain "+="
  | sub => .plain "-="
  | shr => .plain ">>="
  | subRev => .plain "=-"
  | shl => .plain "<<="

namespace Instr

/-- The tokens of a statement before any remark. -/
def tokens (t : SymbolTable) : Instr → List Token
  | halt => [.byte 0, .byte 0]
  | scrollDown n => [.plain "scroll-down", .decimal n.val]
  | scrollUp n => [.plain "scroll-up", .decimal n.val]
  | clear => [.plain "clear"]
  | ret => [.plain "return"]
  | scrollRight => [.plain "scroll-right"]
  | scrollLeft => [.plain "scroll-left"]
  | exit => [.plain "exit"]
  | lores => [.plain "lores"]
  | hires => [.plain "hires"]
  | native a => [.plain "native", .target t.natives a]
  | jump a => [.plain "jump", .target t.labels a]
  | call a =>
    match t.subroutines[a] with
    | some s => [.name s]
    | none => [.plain ":call", .literal a]
  | skip c => .plain "if" :: c.tokens ++ [.plain "then"]
  | saveRange x y => [.plain "save", .register x, .plain "-", .register y]
  | loadRange x y => [.plain "load", .register x, .plain "-", .register y]
  | loadImm x nn => [.register x, .plain ":=", .decimal nn.toNat]
  | addImm x nn => [.register x, .plain "+=", .decimal nn.toNat]
  | alu op x y => [.register x, op.token, .register y]
  | carry op x y => [.register x, op.token, .register y]
  | setIndex a => [.plain "i", .plain ":=", .target t.labels a]
  | jumpOffset a => [.plain "jump0", .target t.labels a]
  | random x mask => [.register x, .plain ":=", .plain "random", .decimal mask.toNat]
  | sprite x y n => [.plain "sprite", .register x, .register y, .decimal n.val]
  | longIndex a => [.plain "i", .plain ":=", .plain "long", .target t.labels a]
  | plane mask => [.plain "plane", .decimal mask.val]
  | audio => [.plain "audio"]
  | getDelay x => [.register x, .plain ":=", .plain "delay"]
  | waitKey x => [.register x, .plain ":=", .plain "key"]
  | setDelay x => [.plain "delay", .plain ":=", .register x]
  | setBuzzer x => [.plain "buzzer", .plain ":=", .register x]
  | addIndex x => [.plain "i", .plain "+=", .register x]
  | hexFont x => [.plain "i", .plain ":=", .plain "hex", .register x]
  | bigHexFont x => [.plain "i", .plain ":=", .plain "bighex", .register x]
  | bcd x => [.plain "bcd", .register x]
  | pitch x => [.plain "pitch", .plain ":=", .register x]
  | save x => [.plain "save", .register x]
  | load x => [.plain "load", .register x]
  | saveFlags x => [.plain "saveflags", .register x]
  | loadFlags x => [.plain "loadflags", .register x]
  | invalid w => [.byte (w >>> 8).toUInt8, .byte w.toUInt8]

/-- The remark behind a statement. -/
def remark : Instr → String
  | invalid _ => " # bad opcode?"
  | _ => ""

theorem text_eq (t : SymbolTable) (i : Instr) :
    i.text t.naming = " ".intercalate ((i.tokens t).map Token.text) ++ i.remark := by
  apply String.toList_inj.1
  cases i with
  | skip c => cases c <;> simp [text, tokens, remark, Condition.negatedText, Condition.tokens]
  | alu op x y => cases op <;> simp [text, tokens, remark, AluOp.symbol, AluOp.token]
  | carry op x y => cases op <;> simp [text, tokens, remark, CarryOp.symbol, CarryOp.token]
  | call a =>
    simp only [text, tokens, SymbolTable.naming]
    cases t.subroutines[a] <;> simp [remark]
  | _ => simp [text, tokens, remark, wordText, SymbolTable.naming]

theorem isDirective_of_mem_tokens {t : SymbolTable} {i : Instr} :
    ∀ tok ∈ i.tokens t, tok.isDirective = false := by
  cases i with
  | skip c => cases c <;> simp [tokens, Condition.tokens]
  | alu op x y => cases op <;> simp [tokens, AluOp.token]
  | carry op x y => cases op <;> simp [tokens, CarryOp.token]
  | call a =>
    simp only [tokens]
    cases t.subroutines[a] <;> simp
  | _ => simp [tokens]

/-- The names in a statement are those that the tables give to what it refers to. -/
theorem name_mem_tokens_iff {t : SymbolTable} {i : Instr} {s : Symbol} :
    .name s ∈ i.tokens t ↔
      (∃ a, i.labelTarget = some a ∧ t.labels[a] = some s) ∨
        (∃ a, i.callTarget = some a ∧ t.subroutines[a] = some s) ∨
          ∃ a, i.nativeTarget = some a ∧ t.natives[a] = some s := by
  cases i with
  | skip c =>
    cases c <;> simp [tokens, Condition.tokens, Token.register, Token.decimal, labelTarget,
      callTarget, nativeTarget]
  | alu op x y =>
    cases op <;> simp [tokens, AluOp.token, Token.register, labelTarget, callTarget, nativeTarget]
  | carry op x y =>
    cases op <;> simp [tokens, CarryOp.token, Token.register, labelTarget, callTarget, nativeTarget]
  | call a =>
    simp only [tokens]
    cases ha : t.subroutines[a] <;>
      simp [ha, Token.literal, labelTarget, callTarget, nativeTarget, eq_comm]
  | _ =>
    simp [tokens, Token.register, Token.decimal, Token.byte, Token.name_eq_target_iff, labelTarget,
      callTarget, nativeTarget]

end Instr

namespace Chunk

/-- The tokens of a chunk before any remark. -/
def tokens (p : Program) (t : SymbolTable) (here : Address) : Chunk → List Token
  | again _ => [.plain "again"]
  | machine i => i.bytes.map .byte
  | code i => i.tokens t
  | splitLong _ | operand | selfModifying => (p.bytes here.toNat 2).map .byte
  | data | unused => (p.bytes here.toNat 1).map .byte

/-- The remark behind a chunk. -/
def remark (p : Program) (t : SymbolTable) (here : Address) : Chunk → String
  | machine i => " # " ++ i.text
  | code i => i.remark
  | splitLong i => " # " ++ i.text t.naming
  | selfModifying =>
    " # smc? " ++ (Instr.ofWord (p.byte here.toNat) (p.byte (here.toNat + 1))).text t.naming
  | unused => " # unused?"
  | again _ | operand | data => ""

theorem text_eq (p : Program) (t : SymbolTable) (here : Address) (c : Chunk) :
    c.text p t.naming here =
      " ".intercalate ((c.tokens p t here).map Token.text) ++ c.remark p t here := by
  have hword : p.bytes here.toNat 2 = [p.byte here.toNat, p.byte (here.toNat + 1)] := rfl
  have hbyte : p.bytes here.toNat 1 = [p.byte here.toNat] := rfl
  cases c with
  | machine i =>
    have hmap : (i.bytes.map Token.byte).map Token.text = i.bytes.map Numeral.byte := by
      rw [List.map_map]
      rfl
    rw [text, tokens, remark, hmap]
    simp only [String.append_assoc]
  | code i => exact i.text_eq t
  | _ =>
    apply String.toList_inj.1
    simp [text, text.word, text.high, text.low, tokens, remark, hword, hbyte, wordText]

end Chunk

end OctoLift
