import OctoLift.Proofs.Introductions

/-!
# Names that are mentioned

Whether every name that a listing mentions is introduced once. It is not when the last chunk goes
beyond the end of the listing, when the second location of a chunk has two names, and when a label
is left out in favour of loops although other statements mention it.
-/

namespace OctoLift

namespace Analysis

variable {a : Analysis} {here t : Address} {s : Symbol}

/-- The last chunk goes beyond the end of the listing, and gives the location there the name that a
constant gives it as well. -/
def Spilled (a : Analysis) (layout : Layout) (length : Nat) (s : Symbol) : Prop :=
  ∃ (depth : Nat) (here : Address) (c : Chunk),
    .chunk depth here c ∈ (a.lines layout length).toList ∧ 1 < c.size ∧
      here.toNat + 1 = stopAfter length ∧ a.nameOf (here + 1) = some s

/-- The second location of a chunk has another name in a table that comes before the one with this
name. -/
def Shadowed (a : Analysis) (layout : Layout) (length : Nat) (s : Symbol) : Prop :=
  ∃ (depth : Nat) (here : Address) (c : Chunk),
    .chunk depth here c ∈ (a.lines layout length).toList ∧ 1 < c.size ∧
      here.toNat + 1 < stopAfter length ∧ a.symbols.Gives (here + 1) s ∧
      a.nameOf (here + 1) ≠ some s

/-- All that refers to the label is written as the end of a loop, and so the label is left out. -/
def Looped (a : Analysis) (layout : Layout) (length : Nat) (s : Symbol) : Prop :=
  ∃ (depth : Nat) (here : Address) (c : Chunk),
    .chunk depth here c ∈ (a.lines layout length).toList ∧ here ≠ entryPoint ∧
      a.symbols.labels[here] = some s ∧
      ∀ source ∈ a.references.labels.refs here,
        a.isLoopTail here source (stopAfter length) = true

section Listing

variable {layout : Layout} {length : Nat}

theorem exists_mentions {depth : Nat} {i : Instr}
    (hmem : .chunk depth here (.code i) ∈ (a.lines layout length).toList)
    (hname : .name s ∈ i.tokens a.symbols) :
    ∃ line ∈ linesOf (a.source layout length), Mentions line s.text := by
  have hline : (Line.chunk depth here (.code i)).text layout.indent a.program a.symbols.naming ∈
      linesOf (a.source layout length) := by
    rw [linesOf_source, List.mem_append]
    exact Or.inl (List.mem_map_of_mem hmem)
  have hreadable := a.readable_of_mem_lines layout length hmem
  exact ⟨_, hline, (Line.mentions_text_iff hreadable).2 ⟨depth, here, i, rfl, hname⟩⟩

variable (hnames : a.symbols = .ofReferences a.references)

include hnames

theorem within_of_begins (h : (a.lines layout length).toList.any (Line.begins t) = true) :
    Within (stopAfter length) t := by
  obtain ⟨depth, c, hmem⟩ := any_begins_iff.1 h
  exact within_of_mem hnames hmem

/-- A name that is mentioned belongs to a target. -/
theorem exists_target_of_mentions
    (h : ∃ line ∈ linesOf (a.source layout length), Mentions line s.text) :
    entryPoint.toNat < stopAfter length ∧ ∃ t, a.symbols.Gives t s ∧
      (t = entryPoint ∨ a.references.contains t = true) := by
  obtain ⟨line, hline, hmentions⟩ := h
  rw [linesOf_source, List.mem_append, List.mem_map] at hline
  rcases hline with ⟨l, hl, rfl⟩ | hline
  · rw [Line.mentions_text_iff (a.readable_of_mem_lines layout length hl)] at hmentions
    obtain ⟨depth, here, i, rfl, hname⟩ := hmentions
    obtain ⟨hge, hlt⟩ := within_of_mem hnames hl
    refine ⟨Nat.lt_of_le_of_lt hge hlt, ?_⟩
    have hgives : ∃ t, a.symbols.Gives t s := by
      rcases Instr.name_mem_tokens_iff.1 hname with ⟨t, -, h⟩ | ⟨t, -, h⟩ | ⟨t, -, h⟩
      · exact ⟨t, .label, h⟩
      · exact ⟨t, .subroutine, h⟩
      · exact ⟨t, .native, h⟩
    obtain ⟨t, hs⟩ := hgives
    refine ⟨t, hs, ?_⟩
    obtain ⟨kind, h⟩ := hs
    rw [hnames] at h
    rcases SymbolTable.name?_eq_some h with ⟨ht, -⟩ | ⟨-, ht, -⟩
    · exact Or.inl ht
    · exact Or.inr (References.contains_iff.2 ⟨kind, ht⟩)
  · rw [List.mem_singleton.1 hline] at hmentions
    exact absurd hmentions.2 (List.not_mem_nil)

variable (hs : a.symbols.Gives t s)

include hs

theorem spilled_iff :
    a.Spilled layout length s ↔
      (a.lines layout length).toList.any (Line.spans t) = true ∧
        ¬ Within (stopAfter length) t ∧ a.nameOf t = some s := by
  rw [any_spans_iff]
  constructor
  · rintro ⟨depth, here, c, hmem, hsize, hend, hname⟩
    obtain rfl := gives_inj hnames (gives_of_nameOf hname) hs
    refine ⟨⟨depth, here, c, hmem, hsize, rfl⟩, ?_, hname⟩
    rw [toNat_succ_of_mem hnames hmem rfl]
    omega
  · rintro ⟨⟨depth, here, c, hmem, hsize, hnext⟩, hout, hname⟩
    have hlt := (within_of_mem hnames hmem).2
    rw [toNat_succ_of_mem hnames hmem hnext] at hout
    exact ⟨depth, here, c, hmem, hsize, by omega, by rw [hnext, hname]⟩

theorem shadowed_iff :
    a.Shadowed layout length s ↔
      (a.lines layout length).toList.any (Line.spans t) = true ∧
        Within (stopAfter length) t ∧ a.nameOf t ≠ some s := by
  rw [any_spans_iff]
  constructor
  · rintro ⟨depth, here, c, hmem, hsize, hlt, hgives, hname⟩
    obtain rfl := gives_inj hnames hgives hs
    exact ⟨⟨depth, here, c, hmem, hsize, rfl⟩, (toNat_succ_of_mem hnames hmem rfl).2 hlt, hname⟩
  · rintro ⟨⟨depth, here, c, hmem, hsize, hnext⟩, hin, hname⟩
    subst hnext
    exact ⟨depth, here, c, hmem, hsize, (toNat_succ_of_mem hnames hmem rfl).1 hin, hs, hname⟩

theorem looped_iff :
    a.Looped layout length s ↔
      (a.lines layout length).toList.any (Line.begins t) = true ∧
        a.loopsOnly (stopAfter length) t s = true := by
  rw [any_begins_iff]
  constructor
  · rintro ⟨depth, here, c, hmem, hne, hname, hall⟩
    obtain rfl := gives_inj hnames ⟨.label, hname⟩ hs
    refine ⟨⟨depth, c, hmem⟩, ?_⟩
    simpa [loopsOnly, hne, SymbolTable.name?, hname] using hall
  · rintro ⟨⟨depth, c, hmem⟩, hloops⟩
    have hloops : (t ≠ entryPoint ∧ a.symbols.labels[t] = some s) ∧
        ∀ source ∈ a.references.labels.refs t, a.isLoopTail t source (stopAfter length) = true := by
      simpa [loopsOnly, SymbolTable.name?] using hloops
    exact ⟨depth, t, c, hmem, hloops.1.1, hloops.1.2, hloops.2⟩

theorem count_of_spilled (hstop : entryPoint.toNat < stopAfter length)
    (h : a.Spilled layout length s) :
    (introducedBy (a.lines layout length).toList).count s = 2 := by
  obtain ⟨hspans, hout, hname⟩ := (spilled_iff hnames hs).1 h
  rw [count_lines hnames hs hstop, if_neg hout, if_neg (not_begins_of_spans hnames hspans),
    if_pos ⟨hspans, hname⟩]

theorem count_of_shadowed (hstop : entryPoint.toNat < stopAfter length)
    (h : a.Shadowed layout length s) :
    (introducedBy (a.lines layout length).toList).count s = 0 := by
  obtain ⟨hspans, hin, hname⟩ := (shadowed_iff hnames hs).1 h
  rw [count_lines hnames hs hstop, if_pos hin, if_neg (not_begins_of_spans hnames hspans),
    if_neg fun hand => hname hand.2]

theorem count_of_looped (hstop : entryPoint.toNat < stopAfter length)
    (h : a.Looped layout length s) : (introducedBy (a.lines layout length).toList).count s = 0 := by
  obtain ⟨hbegins, hloops⟩ := (looped_iff hnames hs).1 h
  have hspans := not_begins_and_spans hnames hbegins
  rw [count_lines hnames hs hstop, if_pos (within_of_begins hnames hbegins), if_pos hbegins,
    if_pos hloops, hspans]
  rfl

theorem count_of_none (ht : t = entryPoint ∨ a.references.contains t = true)
    (hstop : entryPoint.toNat < stopAfter length) (hspilled : ¬ a.Spilled layout length s)
    (hshadowed : ¬ a.Shadowed layout length s) (hlooped : ¬ a.Looped layout length s) :
    (introducedBy (a.lines layout length).toList).count s = 1 := by
  rw [spilled_iff hnames hs] at hspilled
  rw [shadowed_iff hnames hs] at hshadowed
  rw [looped_iff hnames hs] at hlooped
  rw [count_lines hnames hs hstop]
  by_cases hin : Within (stopAfter length) t
  · rcases begins_or_spans hnames ht hin with hbegins | hspans
    · have hloops : ¬ a.loopsOnly (stopAfter length) t s = true := fun h => hlooped ⟨hbegins, h⟩
      have hspans := not_begins_and_spans hnames hbegins
      rw [if_pos hin, if_pos hbegins, if_neg hloops, hspans]
      rfl
    · have hname : a.nameOf t = some s := by
        by_contra hname
        exact hshadowed ⟨hspans, hin, hname⟩
      rw [if_pos hin, if_neg (not_begins_of_spans hnames hspans), if_pos ⟨hspans, hname⟩]
  · have hbegins : ¬ (a.lines layout length).toList.any (Line.begins t) = true :=
      fun hb => hin (within_of_begins hnames hb)
    rw [if_neg hin, if_neg hbegins, if_neg fun hand => hspilled ⟨hand.1, hin, hand.2⟩]

end Listing

/-- How often the source of a listing introduces a name that it mentions: once, unless the name
belongs to the location where the last chunk goes beyond the end, or to the second location of a
chunk that has another name before it, or to a label that only loops lead to. -/
theorem introductions_of_mentioned {rom : Array UInt8} (hfits : rom.size ≤ maxRomSize)
    (d : Dialect) :
    ∃ a, Analysis.ofRom rom d = .ok a ∧ ∀ (layout : Layout) (length : Nat) (s : Symbol),
      (∃ line ∈ linesOf (a.source layout length), Mentions line s.text) →
        let count := (introductions (a.source layout length)).count s.text
        (count = 1 ↔ ¬ a.Spilled layout length s ∧ ¬ a.Shadowed layout length s ∧
          ¬ a.Looped layout length s) ∧
        (a.Spilled layout length s → count = 2) ∧
        (a.Shadowed layout length s ∨ a.Looped layout length s → count = 0) := by
  obtain ⟨a, -, -, hofRom⟩ := Analysis.exists_ofRom hfits d
  have hnames := a.found_symbols
  refine ⟨a.found, hofRom, fun layout length s hmentioned => ?_⟩
  obtain ⟨hstop, t, hs, ht⟩ := exists_target_of_mentions hnames hmentioned
  dsimp only
  rw [count_introductions]
  have hspilled (h : a.found.Spilled layout length s) := count_of_spilled hnames hs hstop h
  have hshadowed (h : a.found.Shadowed layout length s) := count_of_shadowed hnames hs hstop h
  have hlooped (h : a.found.Looped layout length s) := count_of_looped hnames hs hstop h
  refine ⟨⟨fun hone => ⟨?_, ?_, ?_⟩, fun ⟨h1, h2, h3⟩ => count_of_none hnames hs ht hstop h1 h2 h3⟩,
    hspilled, fun h => h.elim hshadowed hlooped⟩
  · exact fun h => absurd (hone.symm.trans (hspilled h)) (by decide)
  · exact fun h => absurd (hone.symm.trans (hshadowed h)) (by decide)
  · exact fun h => absurd (hone.symm.trans (hlooped h)) (by decide)

end Analysis

section SharedByte

def Chunk.instr? : Chunk → Option Instr
  | code i => some i
  | _ => none

theorem Chunk.eq_code_of_instr? {c : Chunk} {i : Instr} (h : c.instr? = some i) : c = .code i := by
  cases c with
  | code j =>
    cases h
    rfl
  | _ => cases h

/-- The second byte of `exit` is referred to as a label and as machine code. -/
def sharedByte : Program where
  rom := #[0xA2, 0x05, 0x02, 0x05, 0x00, 0xFD]
  fits := by decide

def sharedByteFound : Analysis :=
  ((Analyzer.start sharedByte {}).step 3).found

private theorem at_rest_sharedByte : ((Analyzer.start sharedByte {}).step 3).isDone = true := by
  decide +kernel

private theorem targets_sharedByte :
    sharedByteFound.references.labels.contains 0x205 = true ∧
      sharedByteFound.references.natives.contains 0x205 = true := by
  decide +kernel

private theorem chunks_sharedByte :
    let first := Walk.start.step sharedByteFound 518
    let second := first.step sharedByteFound 518
    (Walk.start.location = 512 ∧ first.location = 514 ∧ second.location = 516) ∧
      (Walk.start.chunkHere sharedByteFound 518).instr? = some (.setIndex 0x205) ∧
      (first.chunkHere sharedByteFound 518).instr? = some (.native 0x205) ∧
      (second.chunkHere sharedByteFound 518).instr? = some .exit := by
  decide +kernel

private theorem lines_sharedByte :
    (∃ depth, .chunk depth 0x200 (.code (.setIndex 0x205)) ∈ (sharedByteFound.lines {} 6).toList) ∧
      (∃ depth, .chunk depth 0x202 (.code (.native 0x205)) ∈ (sharedByteFound.lines {} 6).toList) ∧
      ∃ depth, .chunk depth 0x204 (.code .exit) ∈ (sharedByteFound.lines {} 6).toList := by
  obtain ⟨⟨h0, h1, h2⟩, hc0, hc1, hc2⟩ := chunks_sharedByte
  have hmem (w : Walk) (a : Address) (i : Instr) (ha : w.here = a)
      (hi : (w.chunkHere sharedByteFound 518).instr? = some i)
      (hrun : Walk.start.run sharedByteFound 518 =
        (w.step sharedByteFound 518).run sharedByteFound 518) :
      ∃ depth, .chunk depth a (.code i) ∈ (sharedByteFound.lines {} 6).toList := by
    have hstop : Analysis.stopAfter 6 = 518 := rfl
    have hchunk := w.chunk_mem_step sharedByteFound 518
    rw [ha, Chunk.eq_code_of_instr? hi] at hchunk
    rw [Analysis.toList_lines, hstop, hrun]
    exact ⟨_, List.mem_append_right _ (Walk.mem_run_of_mem hchunk)⟩
  have hrun0 := Walk.run_of_lt sharedByteFound (show Walk.start.location < 518 by omega)
  have hrun1 := hrun0.trans (Walk.run_of_lt sharedByteFound (by omega))
  have hrun2 := hrun1.trans (Walk.run_of_lt sharedByteFound (by omega))
  refine ⟨hmem _ _ _ rfl hc0 hrun0, hmem _ _ _ ?_ hc1 hrun1, hmem _ _ _ ?_ hc2 hrun2⟩
  · rw [Walk.here, h1]
    rfl
  · rw [Walk.here, h2]
    rfl

private theorem names_sharedByte :
    ∃ m n, sharedByteFound.symbols.name? .label 0x205 = some (.numbered .label m) ∧
      sharedByteFound.symbols.name? .native 0x205 = some (.numbered .native n) := by
  have hnames : sharedByteFound.symbols = .ofReferences sharedByteFound.references :=
    Analyzer.found_symbols _
  have hne : (0x205 : Address) ≠ entryPoint := by decide
  obtain ⟨hlabel, hnative⟩ := targets_sharedByte
  rw [hnames]
  have hlabel : (sharedByteFound.references.table .label).contains 0x205 = true := hlabel
  have hnative : (sharedByteFound.references.table .native).contains 0x205 = true := hnative
  obtain ⟨m, hm⟩ := SymbolTable.exists_name hne hlabel
  obtain ⟨n, hn⟩ := SymbolTable.exists_name hne hnative
  exact ⟨m, n, hm, hn⟩

private theorem mentioned_sharedByte {m n : Nat}
    (hlabel : sharedByteFound.symbols.name? .label 0x205 = some (.numbered .label m))
    (hnative : sharedByteFound.symbols.name? .native 0x205 = some (.numbered .native n)) :
    (∃ line ∈ linesOf (sharedByteFound.source {} 6),
        Mentions line (Symbol.numbered .label m).text) ∧
      ∃ line ∈ linesOf (sharedByteFound.source {} 6),
        Mentions line (Symbol.numbered .native n).text := by
  obtain ⟨⟨_, hset⟩, ⟨_, hrun⟩, -⟩ := lines_sharedByte
  constructor
  · exact Analysis.exists_mentions hset (Instr.name_mem_tokens_iff.2 (Or.inl ⟨_, rfl, hlabel⟩))
  · exact Analysis.exists_mentions hrun
      (Instr.name_mem_tokens_iff.2 (Or.inr (Or.inr ⟨_, rfl, hnative⟩)))

private theorem nameOf_sharedByte {m : Nat}
    (hlabel : sharedByteFound.symbols.name? .label 0x205 = some (.numbered .label m)) :
    sharedByteFound.nameOf 0x205 = some (.numbered .label m) := by
  rw [Analysis.nameOf, if_pos targets_sharedByte.1]
  exact hlabel

private theorem label_sharedByte {m : Nat}
    (hlabel : sharedByteFound.symbols.name? .label 0x205 = some (.numbered .label m)) :
    ¬ sharedByteFound.Spilled {} 6 (.numbered .label m) ∧
      ¬ sharedByteFound.Shadowed {} 6 (.numbered .label m) ∧
        ¬ sharedByteFound.Looped {} 6 (.numbered .label m) := by
  have hnames : sharedByteFound.symbols = .ofReferences sharedByteFound.references :=
    Analyzer.found_symbols _
  have hs : sharedByteFound.symbols.Gives 0x205 (.numbered .label m) := ⟨.label, hlabel⟩
  obtain ⟨-, -, depth, hexit⟩ := lines_sharedByte
  have hspans : (sharedByteFound.lines {} 6).toList.any (Line.spans 0x205) = true :=
    any_spans_iff.2 ⟨depth, 0x204, .code .exit, hexit, by decide, by decide⟩
  rw [Analysis.spilled_iff hnames hs, Analysis.shadowed_iff hnames hs,
    Analysis.looped_iff hnames hs]
  exact ⟨fun h => h.2.1 (by decide), fun h => h.2.2 (nameOf_sharedByte hlabel),
    fun h => Analysis.not_begins_of_spans hnames hspans h.1⟩

private theorem shadowed_sharedByte {m n : Nat}
    (hlabel : sharedByteFound.symbols.name? .label 0x205 = some (.numbered .label m))
    (hnative : sharedByteFound.symbols.name? .native 0x205 = some (.numbered .native n)) :
    sharedByteFound.Shadowed {} 6 (.numbered .native n) := by
  obtain ⟨-, -, depth, hexit⟩ := lines_sharedByte
  have hnext : (0x204 + 1 : Address) = 0x205 := by decide
  refine ⟨depth, 0x204, .code .exit, hexit, by decide, by decide, ?_, ?_⟩
  · rw [hnext]
    exact ⟨.native, hnative⟩
  · rw [hnext, nameOf_sharedByte hlabel]
    simp

/-- The name of the second byte of `exit` as machine code is mentioned and never introduced. -/
theorem Analysis.second_name_not_introduced :
    ∃ a, Analysis.ofRom sharedByte.rom {} = .ok a ∧ ∃ s : Symbol,
      (∃ line ∈ linesOf (a.source {} 6), Mentions line s.text) ∧
        (introductions (a.source {} 6)).count s.text = 0 := by
  obtain ⟨m, n, hlabel, hnative⟩ := names_sharedByte
  have hnames : sharedByteFound.symbols = .ofReferences sharedByteFound.references :=
    Analyzer.found_symbols _
  refine ⟨sharedByteFound, Analysis.ofRom_of_isDone sharedByte.fits {} at_rest_sharedByte,
    .numbered .native n, (mentioned_sharedByte hlabel hnative).2, ?_⟩
  rw [Analysis.count_introductions]
  exact Analysis.count_of_shadowed hnames ⟨.native, hnative⟩ (by decide)
    (shadowed_sharedByte hlabel hnative)

theorem Analysis.introductions_of_shared_byte :
    sharedByte.rom.size ≤ maxRomSize ∧ ∃ a, Analysis.ofRom sharedByte.rom {} = .ok a ∧
      ∃ s s' : Symbol,
        ((∃ line ∈ linesOf (a.source {} 6), Mentions line s.text) ∧
          (introductions (a.source {} 6)).count s.text = 1) ∧
        (∃ line ∈ linesOf (a.source {} 6), Mentions line s'.text) ∧
          (introductions (a.source {} 6)).count s'.text = 0 := by
  obtain ⟨a, ha, hcount⟩ := Analysis.introductions_of_mentioned sharedByte.fits {}
  have hfound := Analysis.ofRom_of_isDone sharedByte.fits {} at_rest_sharedByte
  obtain rfl : a = sharedByteFound := Except.ok.inj (ha.symm.trans hfound)
  obtain ⟨m, n, hlabel, hnative⟩ := names_sharedByte
  obtain ⟨hfirst, hsecond⟩ := mentioned_sharedByte hlabel hnative
  obtain ⟨hspilled, hshadowed, hlooped⟩ := label_sharedByte hlabel
  exact ⟨sharedByte.fits, sharedByteFound, ha, .numbered .label m, .numbered .native n,
    ⟨hfirst, (hcount {} 6 _ hfirst).1.2 ⟨hspilled, hshadowed, hlooped⟩⟩,
    hsecond, (hcount {} 6 _ hsecond).2.2 (Or.inl (shadowed_sharedByte hlabel hnative))⟩

end SharedByte

end OctoLift
