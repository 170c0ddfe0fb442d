import OctoLift.Proofs.Loops

/-!
# Well bracketed listings

Read as brackets, the loops of a listing are sound exactly if none is skipped and no two cross.
-/

namespace OctoLift

/-- Every `again` closes the loop to whose head the program jumps there, and no loop stays open. -/
structure WellBracketed (p : Program) (lines : List Line) : Prop where
  matched : Matched p lines
  closed : openHeads lines = []

section Chunks

variable {a : Analysis} {stop : Nat} {xs ys : List Line}
  (h : ∀ depth here c, .chunk depth here c ∈ xs ↔ .chunk depth here c ∈ ys)

include h

theorem begun_congr : Begun xs = Begun ys := by
  funext t
  simp only [Begun, h]

theorem begunWord_congr : Analysis.BegunWord xs = Analysis.BegunWord ys := by
  funext t
  simp only [Analysis.BegunWord, h]

theorem recovers_congr : a.Recovers stop xs = a.Recovers stop ys := by
  have hbegun := begun_congr h
  funext head tail
  apply propext
  constructor
  · intro hrec
    exact ⟨hbegun ▸ hrec.begun, hrec.refers, hrec.isTail⟩
  · intro hrec
    exact ⟨hbegun ▸ hrec.begun, hrec.refers, hrec.isTail⟩

theorem skipped_congr : a.Skipped stop xs ↔ a.Skipped stop ys := by
  rw [Analysis.Skipped, Analysis.Skipped, recovers_congr h, begun_congr h]

theorem crossed_congr : a.Crossed stop xs ↔ a.Crossed stop ys := by
  rw [Analysis.Crossed, Analysis.Crossed, recovers_congr h]

theorem derailed_congr : a.Derailed stop xs ↔ a.Derailed stop ys := by
  simp only [Analysis.Derailed, Analysis.PartsAt, recovers_congr h, begunWord_congr h]

end Chunks

namespace Analysis

section Listing

variable {a : Analysis} {layout : Layout} {length : Nat}

theorem isLoop_of_mem_opening {l : Line} (h : l ∈ a.opening layout (stopAfter length)) :
    l.isLoop = false := by
  rcases mem_opening h with hremark | rfl | ⟨s, target, rfl⟩
  · obtain ⟨text, rfl⟩ := (Dialect.mem_remarks hremark).1
    rfl
  · rfl
  · rfl

theorem openHeads_lines : openHeads (a.lines layout length).toList =
    openHeads (a.walked (stopAfter length)) := by
  rw [toList_lines]
  exact openHeads_quiet_append (fun l hl => size_of_mem_opening hl)
    fun l hl => isLoop_of_mem_opening hl

theorem atEnds_lines {ask : Address → List Nat → Prop} :
    AtEnds ask (a.lines layout length).toList ↔
      AtEnds ask (a.walked (stopAfter length)) := by
  rw [toList_lines]
  exact atEnds_quiet_append (fun l hl => size_of_mem_opening hl)
    fun l hl => isLoop_of_mem_opening hl

theorem chunk_mem_lines (depth : Nat) (here : Address) (c : Chunk) :
    .chunk depth here c ∈ (a.lines layout length).toList ↔
      .chunk depth here c ∈ a.walked (stopAfter length) := by
  rw [toList_lines, List.mem_append]
  constructor
  · intro h
    refine h.resolve_left ?_
    intro hopening
    exact absurd (size_of_mem_opening hopening) (Nat.pos_iff_ne_zero.1 c.size_pos)
  · exact Or.inr

variable (hentry : a.symbols.labels[entryPoint] = some .entry)

include hentry

theorem atEnds_open_lines : AtEnds (fun _ heads => heads ≠ []) (a.lines layout length).toList := by
  have hstop := (stopAfter_le length).2
  rw [atEnds_lines]
  refine (Walk.run_induction (P := fun v => Walk.OnWay a (stopAfter length) v ∧
    AtEnds (fun _ heads => heads ≠ []) v.lines.toList) ?_
    ⟨Walk.onWay_start a _, throughout_nil⟩).1.2
  intro v hlt hv
  obtain ⟨hway, hopen⟩ := hv
  have hhere : v.here.toNat = v.location := Walk.toNat_here (by omega)
  refine ⟨hway.step hentry hstop hlt, (Walk.atEnds_step_iff hway.sound).2 ⟨hopen, ?_⟩⟩
  intro hagain
  rcases hway.nested.chunkHere_isAgain hway.sound hhere with ⟨-, l, hl, -⟩ | ⟨hnot, -⟩
  · rw [← List.length_pos_iff, hway.nested.length_headsHere]
    exact List.length_pos_of_mem hl
  · rw [hagain] at hnot
    cases hnot

theorem wellBracketed_lines_iff :
    WellBracketed a.program (a.lines layout length).toList ↔
      ¬ a.Skipped (stopAfter length) (a.lines layout length).toList ∧
        ¬ a.Crossed (stopAfter length) (a.lines layout length).toList := by
  have hstop := (stopAfter_le length).2
  rw [skipped_congr chunk_mem_lines, crossed_congr chunk_mem_lines]
  constructor
  · intro h
    obtain ⟨hmatched, hclosed⟩ := h
    rw [openHeads_lines, Walk.openHeads_run_eq_nil_iff hentry hstop] at hclosed
    exact ⟨hclosed, Walk.not_crossed_of_matched hentry hstop (atEnds_lines.1 hmatched) hclosed⟩
  · intro h
    obtain ⟨hskipped, hcrossed⟩ := h
    have hmatched := Walk.matched_of_not_crossed hentry hstop hskipped hcrossed
    refine ⟨atEnds_lines.2 hmatched, ?_⟩
    rw [openHeads_lines, Walk.openHeads_run_eq_nil_iff hentry hstop]
    exact hskipped

theorem derailed_lines
    (h : a.Skipped (stopAfter length) (a.lines layout length).toList ∨
      a.Crossed (stopAfter length) (a.lines layout length).toList) :
    a.Derailed (stopAfter length) (a.lines layout length).toList := by
  have hstop := (stopAfter_le length).2
  rw [skipped_congr chunk_mem_lines, crossed_congr chunk_mem_lines] at h
  rw [derailed_congr chunk_mem_lines]
  rcases h with h | h
  · exact Walk.derailed_of_skipped hentry hstop h
  · exact Walk.derailed_of_crossed hentry hstop h

end Listing

theorem sourceWords_brackets {a : Analysis} {layout : Layout} {length : Nat} {l : Line}
    (h : l ∈ (a.lines layout length).toList) :
    let words := sourceWords (l.text layout.indent a.program a.symbols.naming)
    (l.isLoop = true → words = ["loop"]) ∧ (l.isAgain = true → words = ["again"]) ∧
      (l.isLoop = false → l.isAgain = false → "loop" ∉ words ∧ "again" ∉ words) := by
  have hnot : ∀ l : Line, l.isLoop = true → l.isAgain = false := by
    intro l hl
    cases l with
    | loop depth head => rfl
    | _ => cases hl
  dsimp only
  rw [Line.sourceWords_text _ _ _ (a.readable_of_mem_lines layout length h)]
  rcases l.tokens_brackets a.program a.symbols with
    ⟨hloop, hwords⟩ | ⟨hagain, hwords⟩ | ⟨hloop, hagain, htokens⟩
  · simp [hloop, hwords, hnot l hloop]
  · have hloop : l.isLoop = false := by
      cases hl : l.isLoop with
      | false => rfl
      | true =>
        rw [hnot l hl] at hagain
        cases hagain
    simp [hagain, hwords, hloop]
  · have hwords : ∀ w ∈ brackets, w ∉ (l.tokens a.program a.symbols).map Token.text := by
      intro w hw hmem
      obtain ⟨tok, htok, rfl⟩ := List.mem_map.1 hmem
      have hno := htokens tok htok
      rw [Token.isBracket, List.contains_iff_mem.2 hw] at hno
      cases hno
    have hnone : "loop" ∉ (l.tokens a.program a.symbols).map Token.text ∧
        "again" ∉ (l.tokens a.program a.symbols).map Token.text :=
      ⟨hwords "loop" (by decide), hwords "again" (by decide)⟩
    simp only [hloop, hagain, Bool.false_eq_true, false_implies, true_and]
    intro _ _
    exact hnone

/-- The loops of a source are read as brackets: a `loop` opens one at its location, an `again`
closes the innermost that is open, and there always is one. Every `again` closes the loop to whose
head its jump leads, and no loop stays open, exactly if no recovered loop is skipped and no two
cross. Either needs the scan of a recovered loop to leave the course of the walk. -/
theorem loops_well_bracketed_iff {rom : Array UInt8} (hfits : rom.size ≤ maxRomSize) (d : Dialect) :
    ∃ a, Analysis.ofRom rom d = .ok a ∧ ∀ (layout : Layout) (length : Nat),
      let stop := stopAfter length
      let lines := (a.lines layout length).toList
      let text := Line.text layout.indent a.program a.symbols.naming
      linesOf (a.source layout length) = lines.map text ++ [""] ∧
        (∀ l ∈ lines, (l.isLoop = true → sourceWords (text l) = ["loop"]) ∧
          (l.isAgain = true → sourceWords (text l) = ["again"]) ∧
          (l.isLoop = false → l.isAgain = false →
            "loop" ∉ sourceWords (text l) ∧ "again" ∉ sourceWords (text l))) ∧
        AtEnds (fun _ heads => heads ≠ []) lines ∧
        (WellBracketed a.program lines ↔ ¬ a.Skipped stop lines ∧ ¬ a.Crossed stop lines) ∧
        (a.Skipped stop lines ∨ a.Crossed stop lines → a.Derailed stop lines) := by
  obtain ⟨a, -, -, hofRom⟩ := Analysis.exists_ofRom hfits d
  have hentry := entry_name a.found_symbols
  refine ⟨a.found, hofRom, ?_⟩
  intro layout length
  exact ⟨linesOf_source _ layout length, fun l hl => sourceWords_brackets hl,
    atEnds_open_lines hentry, wellBracketed_lines_iff hentry, derailed_lines hentry⟩

section Words

variable {a : Analysis} {stop : Nat} {lines : List Line}

/-- Where there are no long index loads, the scan and the walk cannot part before the end of
memory. -/
theorem not_derailed_of_words (h : ∀ here, (a.program.instr here).size = 2)
    (hstop : stop ≤ 0xFFFF) : ¬ a.Derailed stop lines := by
  intro hderailed
  obtain ⟨head, tail, here, hrec, -, hlt, hparts⟩ := hderailed
  have htail := lt_stop_of_isLoopTail hrec.isTail
  rw [UInt16.lt_iff_toNat_lt] at hlt
  rw [PartsAt, h here] at hparts
  omega

end Words

end Analysis

theorem Program.size_instr_of_byte {p : Program} {here : Address}
    (h : p.byte here.toNat ≠ 0xF0) : (p.instr here).size = 2 := by
  have hencode := p.encode_instr here
  cases hi : p.instr here with
  | longIndex t =>
    rw [hi] at hencode
    exact absurd (List.cons.inj hencode).1.symm h
  | _ => rfl

section Tails

/-- A loop without a way out. -/
def endlessClear : Program where
  rom := #[0x00, 0xE0, 0x12, 0x00]
  fits := by decide

def endlessClearFound : Analysis :=
  ((Analyzer.start endlessClear {}).step 2).found

theorem size_instr_endlessClear (here : Address) : (endlessClear.instr here).size = 2 := by
  apply Program.size_instr_of_byte
  have hrom : ∀ k, endlessClear.rom.getD k 0 ≠ 0xF0 := by
    intro k
    match k with
    | 0 | 1 | 2 | 3 => decide
    | k + 4 => simp [endlessClear]
  rw [Program.byte]
  split
  · exact hrom _
  · decide

private theorem again_endlessClear :
    ((Analyzer.start endlessClear {}).step 2).isDone = true ∧
      (Walk.start.step endlessClearFound 516).location = 514 ∧
      ((Walk.start.step endlessClearFound 516).chunkHere endlessClearFound 516).isAgain =
        true := by
  decide +kernel

/-- Two loops open at `0x202`. The walk passes over the first tail, at `0x206`, within the long
index load at `0x204`. -/
def overlappedTail : Program where
  rom := #[0xF0, 0x00, 0xF0, 0x00, 0xF0, 0x00, 0x12, 0x02, 0x12, 0x02]
  fits := by decide

def overlappedTailFound : Analysis :=
  ((Analyzer.start overlappedTail {}).step 6).found

private theorem walk_overlappedTail :
    let first := Walk.start.step overlappedTailFound 522
    let second := first.step overlappedTailFound 522
    let third := second.step overlappedTailFound 522
    let fourth := third.step overlappedTailFound 522
    ((Analyzer.start overlappedTail {}).step 6).isDone = true ∧
      (first.location = 514 ∧ second.location = 516 ∧ third.location = 520 ∧
        fourth.location = 522) ∧ fourth.openLoops.length = 1 := by
  decide +kernel

private theorem openHeads_overlappedTail :
    openHeads (overlappedTailFound.lines {} 10).toList ≠ [] := by
  have hentry : overlappedTailFound.symbols.labels[entryPoint] = some .entry :=
    Analysis.entry_name (Analyzer.found_symbols _)
  obtain ⟨-, ⟨h1, h2, h3, h4⟩, hopen⟩ := walk_overlappedTail
  have hstop : Analysis.stopAfter 10 = 522 := rfl
  have hrun := Walk.run_of_lt overlappedTailFound (show Walk.start.location < 522 by decide)
  replace hrun := hrun.trans (Walk.run_of_lt _ (by omega))
  replace hrun := hrun.trans (Walk.run_of_lt _ (by omega))
  replace hrun := hrun.trans (Walk.run_of_lt _ (by omega))
  replace hrun := hrun.trans (Walk.run_of_le _ (by omega))
  have hlength := (Walk.onWay_run hentry (show 522 ≤ 65536 by decide)).nested.length_eq
  rw [hrun, hopen] at hlength
  rw [Analysis.openHeads_lines, hstop, Analysis.walked, hrun, ← List.length_pos_iff, hlength]
  decide

/-- One of the two loops stays open. -/
theorem Analysis.loop_left_open :
    ∃ a, Analysis.ofRom overlappedTail.rom {} = .ok a ∧
      ¬ WellBracketed a.program (a.lines {} 10).toList := by
  have hrest := walk_overlappedTail.1
  refine ⟨overlappedTailFound, Analysis.ofRom_of_isDone overlappedTail.fits {} hrest, ?_⟩
  intro h
  exact openHeads_overlappedTail h.closed

/-- The endless loop is well bracketed; in the other program the scan of a loop is derailed. -/
theorem Analysis.loops_of_endless_clear :
    (endlessClear.rom.size ≤ maxRomSize ∧
      ∃ a, Analysis.ofRom endlessClear.rom {} = .ok a ∧
        (a.lines {} 4).toList.any Line.isAgain = true ∧
        WellBracketed a.program (a.lines {} 4).toList) ∧
      overlappedTail.rom.size ≤ maxRomSize ∧
        ∃ a, Analysis.ofRom overlappedTail.rom {} = .ok a ∧
          ¬ WellBracketed a.program (a.lines {} 10).toList ∧
          a.Derailed (stopAfter 10) (a.lines {} 10).toList := by
  constructor
  · obtain ⟨a, ha, hread⟩ := Analysis.loops_well_bracketed_iff endlessClear.fits {}
    obtain ⟨hrest, hlocation, hagain⟩ := again_endlessClear
    obtain rfl : a = endlessClearFound :=
      Except.ok.inj (ha.symm.trans (Analysis.ofRom_of_isDone endlessClear.fits {} hrest))
    obtain ⟨-, -, -, hiff, hderailed⟩ := hread {} 4
    have hprogram : endlessClearFound.program = endlessClear := Analysis.program_of_ofRom ha
    have hcourse : ¬ endlessClearFound.Derailed (stopAfter 4)
        (endlessClearFound.lines {} 4).toList := by
      apply not_derailed_of_words
      · rw [hprogram]
        exact size_instr_endlessClear
      · decide
    refine ⟨endlessClear.fits, endlessClearFound, ha, ?_, hiff.2 ⟨?_, ?_⟩⟩
    · have hrun := Walk.run_of_lt endlessClearFound (show Walk.start.location < 516 by decide)
      replace hrun := hrun.trans (Walk.run_of_lt _ (by omega))
      have hstop : stopAfter 4 = 516 := rfl
      rw [List.any_eq_true, toList_lines, hstop, hrun]
      exact ⟨_, List.mem_append_right _ (Walk.mem_run_of_mem (Walk.chunk_mem_step _ _ _)), hagain⟩
    · intro hskipped
      exact hcourse (hderailed (Or.inl hskipped))
    · intro hcrossed
      exact hcourse (hderailed (Or.inr hcrossed))
  · obtain ⟨a, ha, hread⟩ := Analysis.loops_well_bracketed_iff overlappedTail.fits {}
    have hrest := walk_overlappedTail.1
    obtain rfl : a = overlappedTailFound :=
      Except.ok.inj (ha.symm.trans (Analysis.ofRom_of_isDone overlappedTail.fits {} hrest))
    obtain ⟨-, -, -, hiff, hderailed⟩ := hread {} 10
    have hnot : ¬ WellBracketed overlappedTailFound.program
        (overlappedTailFound.lines {} 10).toList :=
      fun h => openHeads_overlappedTail h.closed
    refine ⟨overlappedTail.fits, overlappedTailFound, ha, hnot, hderailed ?_⟩
    by_contra hneither
    rw [not_or] at hneither
    exact hnot (hiff.2 hneither)

end Tails

end OctoLift
