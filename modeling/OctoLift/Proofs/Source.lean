import OctoLift.Proofs.Tokens
import OctoLift.Proofs.WalkStep

/-!
# Reading a listing back

The text of a listing falls into the texts of its lines, and the words of a line are its tokens. So
it can be told from the text alone which names a listing introduces and which it mentions.
-/

namespace OctoLift

theorem isLine_register (x : Nibble) : IsLine (String.ofList [(Nat.digitChar x.val).toUpper]) := by
  revert x
  decide

theorem Cosmac.isLine_mnemonic (b : UInt8) : IsLine (opcode b).mnemonic := by
  have hall : ∀ k : Fin 256, IsLine (opcode (UInt8.ofNat k.val)).mnemonic := by decide +kernel
  have hb := hall ⟨b.toNat, b.toNat_lt⟩
  rwa [UInt8.ofNat_toNat] at hb

theorem Cosmac.MachineInstr.isLine_text (i : MachineInstr) : IsLine i.text := by
  have hmnemonic := isLine_mnemonic i.op
  unfold MachineInstr.text
  dsimp only
  split
  · exact (hmnemonic.append (by decide)).append (isLine_register _)
  · exact (hmnemonic.append (by decide)).append (isLine_of_isWord (isWord_decimal _))
  · exact (hmnemonic.append (by decide)).append (isLine_of_isWord (isWord_hexUpper _ _))
  · exact (hmnemonic.append (by decide)).append (isLine_of_isWord (isWord_hexUpper _ _))
  · exact (hmnemonic.append (by decide)).append (isLine_of_isWord (isWord_hexUpper _ _))
  · exact hmnemonic

/-- What a line may end with: nothing, or a remark that does not go on to the next line. -/
def IsTrail (trail : String) : Prop :=
  trail = "" ∨ ∃ text, trail = " # " ++ text ∧ IsLine text

theorem IsTrail.isLine {trail : String} (h : IsTrail trail) : IsLine trail := by
  rcases h with rfl | ⟨text, rfl, htext⟩
  · decide
  · exact IsLine.append (by decide) htext

theorem Instr.isTrail_remark (i : Instr) : IsTrail i.remark := by
  cases i with
  | invalid w => exact Or.inr ⟨"bad opcode?", rfl, by decide⟩
  | _ => exact Or.inl rfl

theorem Instr.isLine_text (t : SymbolTable) (i : Instr) : IsLine (i.text t.naming) := by
  rw [i.text_eq]
  exact (Token.isLine_intercalate_text _).append i.isTrail_remark.isLine

theorem Indent.blank_at {indent : Indent} {depth : Nat} {c : Char}
    (h : c ∈ (indent.at depth).toList) : c = ' ' ∨ c = '\t' := by
  cases indent with
  | tab =>
    rw [Indent.at, String.toList_ofList] at h
    exact Or.inr (List.eq_of_mem_replicate h)
  | spaces width =>
    rw [Indent.at, String.toList_ofList] at h
    exact Or.inl (List.eq_of_mem_replicate h)

namespace Chunk

theorem isTrail_remark (p : Program) (t : SymbolTable) (here : Address) (c : Chunk) :
    IsTrail (c.remark p t here) := by
  cases c with
  | machine i => exact Or.inr ⟨_, rfl, i.isLine_text⟩
  | code i => exact i.isTrail_remark
  | splitLong i => exact Or.inr ⟨_, rfl, i.isLine_text t⟩
  | selfModifying =>
    have hguess := (Instr.ofWord (p.byte here.toNat) (p.byte (here.toNat + 1))).isLine_text t
    refine Or.inr ⟨_, ?_, IsLine.append (u := "smc? ") (by decide) hguess⟩
    rw [← String.append_assoc]
    rfl
  | unused => exact Or.inr ⟨"unused?", rfl, by decide⟩
  | _ => exact Or.inl rfl

end Chunk

namespace Line

/-- The tokens of a line before any remark. -/
def tokens (p : Program) (t : SymbolTable) : Line → List Token
  | remark _ | blank => []
  | const s target => [.directive ":const", .name s, .literal target]
  | name s => [.directive ":", .name s]
  | next s => [.directive ":next", .name s]
  | loop _ _ => [.plain "loop"]
  | chunk _ here c => c.tokens p t here

variable (indent : Indent) (p : Program) (t : SymbolTable) {l : Line}

theorem exists_text_eq (h : ∀ text, l ≠ remark text) :
    ∃ margin trail : String, (∀ c ∈ margin.toList, c = ' ' ∨ c = '\t') ∧ IsTrail trail ∧
      l.text indent p t.naming =
        margin ++ " ".intercalate ((l.tokens p t).map Token.text) ++ trail := by
  cases l with
  | remark text => exact absurd rfl (h text)
  | loop depth head =>
    refine ⟨indent.at depth, "", fun c hc => Indent.blank_at hc, Or.inl rfl, ?_⟩
    apply String.toList_inj.1
    simp [text, tokens]
  | chunk depth here c =>
    refine ⟨indent.at depth, c.remark p t here, fun c hc => Indent.blank_at hc,
      c.isTrail_remark p t here, ?_⟩
    rw [text, c.text_eq, tokens, String.append_assoc]
  | _ =>
    refine ⟨"", "", fun c hc => by simp at hc, Or.inl rfl, ?_⟩
    apply String.toList_inj.1
    simp [text, tokens]

/-- Whether a line, if it is a remark, is a single line without words. -/
def Readable (l : Line) : Prop :=
  ∀ text, l = remark text → sourceWords text = [] ∧ IsLine text

theorem readable_of_ne (h : ∀ text, l ≠ remark text) : l.Readable :=
  fun text htext => absurd htext (h text)

/-- The words of a line are its tokens. -/
theorem sourceWords_text (h : l.Readable) :
    sourceWords (l.text indent p t.naming) = (l.tokens p t).map Token.text := by
  by_cases hremark : ∃ text, l = remark text
  · obtain ⟨text, rfl⟩ := hremark
    exact (h text rfl).1
  · obtain ⟨margin, trail, hmargin, htrail, htext⟩ :=
      exists_text_eq indent p t (not_exists.1 hremark)
    rw [htext]
    refine sourceWords_eq (fun c hc => ?_) (fun _ hw => Token.isWord_of_mem_map_text hw) ?_
    · rcases hmargin c hc with rfl | rfl
      · rfl
      · rfl
    · exact htrail.imp_right fun ⟨text, htext, _⟩ => ⟨text, htext⟩

theorem sourceWords_chunk (depth : Nat) (here : Address) (c : Chunk) :
    sourceWords ((chunk depth here c).text indent p t.naming) =
      (c.tokens p t here).map Token.text :=
  sourceWords_text indent p t (readable_of_ne (by simp))

theorem isLine_text (h : l.Readable) : IsLine (l.text indent p t.naming) := by
  by_cases hremark : ∃ text, l = remark text
  · obtain ⟨text, rfl⟩ := hremark
    exact (h text rfl).2
  · obtain ⟨margin, trail, hmargin, htrail, htext⟩ :=
      exists_text_eq indent p t (not_exists.1 hremark)
    have hleft : IsLine margin := by
      intro hc
      rcases hmargin '\n' hc with h | h
      · cases h
      · cases h
    rw [htext]
    exact (hleft.append (Token.isLine_intercalate_text _)).append htrail.isLine

end Line

theorem Dialect.mem_remarks {d : Dialect} {l : Line} (h : l ∈ d.remarks) :
    (∃ text, l = .remark text) ∧ l.Readable := by
  obtain ⟨shiftsInPlace, keepsIndex, flagFirst⟩ := d
  simp only [Dialect.remarks, List.mem_append] at h
  rcases h with (h | h) | h
  all_goals
    split at h
    · rw [List.mem_singleton.1 h]
      refine ⟨⟨_, rfl⟩, fun text htext => ?_⟩
      cases htext
      exact ⟨by decide +kernel, by decide⟩
    · cases h

/-- The name that a line of source introduces. -/
def introduced (line : String) : Option String :=
  match sourceWords line with
  | d :: w :: _ => if d ∈ directives then some w else none
  | _ => none

/-- Whether a line of source says a word, other than to introduce it. -/
def Mentions (line : String) (w : String) : Prop :=
  introduced line = none ∧ w ∈ sourceWords line

/-- The name that a line introduces. -/
def Line.introduces : Line → Option Symbol
  | const s _ | name s | next s => some s
  | _ => none

section Source

variable {indent : Indent} {p : Program} {t : SymbolTable} {l : Line}

theorem introduced_of_tokens {line : String} {ts : List Token}
    (hline : sourceWords line = ts.map Token.text) (h : ∀ tok ∈ ts, tok.isDirective = false) :
    introduced line = none := by
  rw [introduced, hline]
  match ts with
  | [] => rfl
  | [_] => rfl
  | d :: w :: rest =>
    have hd : d.text ∉ directives := by
      rw [Token.text_mem_directives_iff, h d (by simp)]
      simp
    simp [hd]

theorem Chunk.isDirective_of_mem_tokens {here : Address} {c : Chunk} :
    ∀ tok ∈ c.tokens p t here, tok.isDirective = false := by
  cases c with
  | code i => exact i.isDirective_of_mem_tokens
  | _ => simp [tokens]

theorem Chunk.name_mem_tokens_iff {here : Address} {c : Chunk} {s : Symbol} :
    .name s ∈ c.tokens p t here ↔ ∃ i, c = .code i ∧ .name s ∈ i.tokens t := by
  cases c with
  | code i => simp [tokens]
  | _ => simp [tokens, Token.byte]

theorem Line.introduced_text (h : l.Readable) :
    introduced (l.text indent p t.naming) = l.introduces.map Symbol.text := by
  have hwords := sourceWords_text indent p t h
  cases l with
  | const s target => rw [introduced, hwords]; rfl
  | name s => rw [introduced, hwords]; rfl
  | next s => rw [introduced, hwords]; rfl
  | chunk depth here c => exact introduced_of_tokens hwords c.isDirective_of_mem_tokens
  | _ => exact introduced_of_tokens hwords (by simp [tokens])

/-- Names are mentioned by statements only. -/
theorem Line.mentions_text_iff (h : l.Readable) {s : Symbol} :
    Mentions (l.text indent p t.naming) s.text ↔
      ∃ depth here i, l = .chunk depth here (.code i) ∧ .name s ∈ i.tokens t := by
  have hmem (ts : List Token) : s.text ∈ ts.map Token.text ↔ .name s ∈ ts := by
    simp [Token.text_eq_symbol_iff]
  rw [Mentions, introduced_text h, sourceWords_text indent p t h, hmem]
  cases l with
  | chunk depth here c => simp [introduces, tokens, Chunk.name_mem_tokens_iff, and_assoc]
  | _ => simp [introduces, tokens]

end Source

namespace Analysis

variable (a : Analysis) (layout : Layout) (length : Nat)

theorem ne_remark_of_mem_run {stop : Nat} {l : Line}
    (h : l ∈ (Walk.start.run a stop).lines.toList) : ∀ text, l ≠ .remark text := by
  rintro text rfl
  rcases Walk.mem_lines_run h with hstart | ⟨w, _, hw⟩
  · cases hstart
  · rcases w.mem_written a stop hw with hheader | hnext | hchunk | hblank
    · rcases mem_headerLines hheader with h | ⟨_, h⟩ | ⟨_, h⟩ | ⟨_, h, _⟩ <;> cases h
    · obtain ⟨_, h, _⟩ := w.mem_nextLines a stop hnext
      cases h
    · cases hchunk
    · cases hblank

theorem readable_of_mem_lines {l : Line} (h : l ∈ (a.lines layout length).toList) :
    l.Readable := by
  rw [toList_lines, List.mem_append] at h
  rcases h with hopening | hrun
  · rcases mem_opening hopening with hremark | rfl | ⟨s, target, rfl⟩
    · exact (Dialect.mem_remarks hremark).2
    · exact Line.readable_of_ne (by simp)
    · exact Line.readable_of_ne (by simp)
  · exact Line.readable_of_ne (a.ne_remark_of_mem_run hrun)

/-- The lines of the source are the texts of the lines of the listing. -/
theorem linesOf_source :
    linesOf (a.source layout length) =
      (a.lines layout length).toList.map (Line.text layout.indent a.program a.symbols.naming) ++
        [""] := by
  rw [source, ← Array.foldl_toList]
  exact linesOf_foldl fun l hl => Line.isLine_text _ _ _ (a.readable_of_mem_lines layout length hl)

end Analysis

end OctoLift
