import OctoLift.Proofs.WellBracketed

/-!
# Machine code in listings

The walk writes instructions of the host processor from where a program enters machine code on, as
long as it finds them at bytes about which nothing is known. It asks for the class of the first byte
of an instruction only, so the other bytes may themselves be executed or accessed. And the end of a
loop does not end machine code, so that it may go on behind one. These are the two ways in which a
line of machine code may not be what the entry leads to.
-/

namespace OctoLift

/-- Machine code goes on behind the line. -/
def Line.isInner : Line → Prop
  | chunk _ _ (.machine i) => i.returnsToInterpreter = false
  | chunk _ _ _ => False
  | _ => True

theorem Line.isInner_of_size {l : Line} (h : l.size = 0) : l.isInner := by
  cases l with
  | chunk depth here c => exact absurd h (Nat.pos_iff_ne_zero.1 c.size_pos)
  | _ => trivial

theorem Line.not_isInner_of_isAgain {l : Line} (h : l.isAgain = true) : ¬ l.isInner := by
  cases l with
  | chunk depth here c =>
    cases c with
    | again head => exact id
    | _ => cases h
  | _ => cases h

namespace Analysis

variable {a : Analysis} {lines xs : List Line}

/-- The program enters machine code at a location about which nothing else is known. -/
def EntersAt (a : Analysis) (k : Nat) : Prop :=
  ∃ t : Address, t.toNat = k ∧ a.references.natives.contains t = true ∧
    a.classes[t] = .unclassified

/-- From an entry on, the lines are those of machine code, and none of it returns. -/
def InRun (a : Analysis) (lines : List Line) : Prop :=
  ∃ start run, lines = start ++ run ∧ a.EntersAt (entryPoint.toNat + extent start) ∧
    ∀ l ∈ run, l.isInner

/-- From the end of a loop on, the lines are those of machine code, and there is no entry among
their locations. -/
def Resumed (a : Analysis) (lines : List Line) : Prop :=
  ∃ start l run, l.isAgain = true ∧ lines = start ++ l :: run ∧ (∀ m ∈ run, m.isInner) ∧
    ∀ pre post, run = pre ++ post → ¬ a.EntersAt (entryPoint.toNat + extent (start ++ l :: pre))

/-- A reached instruction takes up or accesses the location. -/
def Taken (a : Analysis) (k : Nat) : Prop :=
  ∃ (x : Address) (s : RegState), a.reaching[x] = some s ∧
    ((x.toNat ≤ k ∧ k < x.toNat + (a.program.instr x).size) ∨
      ∃ n, s.AccessLength (a.program.instr x) n ∧
        ∃ base ∈ s.get .index, base.toNat ≤ k ∧ k < base.toNat + n)

/-- A byte behind the first one of the `n` bytes at `here` is taken. -/
def Overruns (a : Analysis) (here : Address) (n : Nat) : Prop :=
  ∃ k, 0 < k ∧ k < n ∧ a.Taken (here.toNat + k)

structure Hosted (a : Analysis) (stop : Nat) (before : List Line) (here : Address)
    (i : Cosmac.MachineInstr) : Prop where
  start_le : entryPoint.toNat ≤ here.toNat
  le_stop : here.toNat + i.size ≤ stop
  unclassified : a.classes[here] = .unclassified
  named : ∀ k, 2 ≤ k → k < i.size → a.references.contains (here + UInt16.ofNat k) = false
  entered : a.InRun before ∨ a.Resumed before

theorem inRun_or_resumed_behind {start run : List Line} {l : Line} (hl : l.isAgain = true)
    (hrun : ∀ m ∈ run, m.isInner) :
    a.InRun (start ++ l :: run) ∨ a.Resumed (start ++ l :: run) := by
  by_cases hentry : ∃ pre post, run = pre ++ post ∧
      a.EntersAt (entryPoint.toNat + extent (start ++ l :: pre))
  · obtain ⟨pre, post, rfl, hat⟩ := hentry
    exact Or.inl ⟨start ++ l :: pre, post, by simp, hat, fun m hm => hrun m (by simp [hm])⟩
  · exact Or.inr ⟨start, l, run, hl, rfl, hrun,
      fun pre post hsplit hat => hentry ⟨pre, post, hsplit, hat⟩⟩

theorem inRun_or_resumed_append (h : a.InRun lines ∨ a.Resumed lines)
    (hxs : ∀ l ∈ xs, l.isInner) : a.InRun (lines ++ xs) ∨ a.Resumed (lines ++ xs) := by
  have hinner {run : List Line} (hrun : ∀ l ∈ run, l.isInner) : ∀ l ∈ run ++ xs, l.isInner :=
    fun l hl => (List.mem_append.1 hl).elim (hrun l) (hxs l)
  rcases h with ⟨start, run, rfl, hat, hrun⟩ | ⟨start, l, run, hl, rfl, hrun, -⟩
  · exact Or.inl ⟨start, run ++ xs, List.append_assoc _ _ _, hat, hinner hrun⟩
  · rw [List.append_assoc]
    exact inRun_or_resumed_behind hl (hinner hrun)

theorem InRun.quiet_append (h : a.InRun lines) (hxs : extent xs = 0) : a.InRun (xs ++ lines) := by
  obtain ⟨start, run, rfl, hat, hrun⟩ := h
  refine ⟨xs ++ start, run, (List.append_assoc _ _ _).symm, ?_, hrun⟩
  rwa [extent_append, hxs, Nat.zero_add]

theorem Resumed.quiet_append (h : a.Resumed lines) (hxs : extent xs = 0) :
    a.Resumed (xs ++ lines) := by
  obtain ⟨start, l, run, hl, rfl, hrun, hout⟩ := h
  refine ⟨xs ++ start, l, run, hl, (List.append_assoc _ _ _).symm, hrun, ?_⟩
  intro pre post hsplit
  rw [List.append_assoc, extent_append, hxs, Nat.zero_add]
  exact hout pre post hsplit

/-- The end of a loop would stand in the run, or the entry behind the end of the loop. -/
theorem InRun.not_resumed (h : a.InRun lines) : ¬ a.Resumed lines := by
  intro hresumed
  obtain ⟨start, run, rfl, hat, hrun⟩ := h
  obtain ⟨first, l, rest, hl, hsplit, -, hout⟩ := hresumed
  have hagain : l ∉ run := fun hmem => Line.not_isInner_of_isAgain hl (hrun l hmem)
  rcases List.append_eq_append_iff.1 hsplit with ⟨zs, -, rfl⟩ | ⟨zs, rfl, hrest⟩
  · exact hagain (by simp)
  · cases zs with
    | nil =>
      rw [List.nil_append] at hrest
      exact hagain (hrest ▸ List.mem_cons_self)
    | cons z zs =>
      obtain ⟨rfl, hbehind⟩ := List.cons.inj hrest
      exact hout zs run hbehind hat

end Analysis

namespace Walk

open Analysis

variable {a : Analysis} {stop : Nat} {w : Walk}

/-- Within machine code the lines so far end in a run of it, or behind a loop. -/
def Follows (a : Analysis) (w : Walk) : Prop :=
  w.inMachineCode = true → a.InRun w.lines.toList ∨ a.Resumed w.lines.toList

theorem Follows.beforeChunk (h : w.Follows a) (hw : Sound a stop w)
    (hhere : w.here.toNat = w.location) (hin : w.inMachineCodeHere a = true) :
    a.InRun (w.lines.toList ++ (w.header a stop ++ w.nextLines a stop)) ∨
      a.Resumed (w.lines.toList ++ (w.header a stop ++ w.nextLines a stop)) := by
  have hinner : ∀ l ∈ w.header a stop ++ w.nextLines a stop, l.isInner :=
    fun l hl => Line.isInner_of_size (size_of_mem_beforeChunk hl)
  rcases Bool.or_eq_true_iff.1 hin with hmode | hentry
  · exact inRun_or_resumed_append (h hmode) hinner
  · obtain ⟨hnative, hclass⟩ := Bool.and_eq_true_iff.1 hentry
    have hat : a.EntersAt (entryPoint.toNat + extent w.lines.toList) :=
      ⟨w.here, by rw [hhere, hw.location], hnative, of_decide_eq_true hclass⟩
    exact Or.inl ⟨_, _, rfl, hat, hinner⟩

theorem Follows.step (h : w.Follows a) (hw : Sound a stop w) (hhere : w.here.toNat = w.location) :
    (Walk.step a stop w).Follows a := by
  intro hmode
  have hblank : ∀ l ∈ w.blankAfter a stop, l.isInner :=
    fun l hl => Line.isInner_of_size (size_of_mem_blankAfter hl)
  rw [toList_lines_step, written, ← List.append_assoc]
  rcases w.chunkHere_choice a stop with
    ⟨l, -, -, hc, hsame⟩ | ⟨-, ⟨i, hin, -, hc, hreturns⟩ | ⟨-, -, hout⟩⟩
  · rw [hc]
    exact inRun_or_resumed_behind rfl hblank
  · refine inRun_or_resumed_append (h.beforeChunk hw hhere hin) ?_
    intro m hm
    rcases List.mem_cons.1 hm with rfl | hm
    · rw [hc]
      show i.returnsToInterpreter = false
      simpa [hmode] using hreturns
    · exact hblank m hm
  · rw [hout] at hmode
    cases hmode

theorem hosted_chunkHere (h : w.Follows a) (hw : Sound a stop w) (hlt : w.location < stop)
    (hhere : w.here.toNat = w.location) {i : Cosmac.MachineInstr}
    (hi : w.chunkHere a stop = .machine i) :
    Hosted a stop (w.lines.toList ++ (w.header a stop ++ w.nextLines a stop)) w.here i := by
  rcases w.chunkHere_choice a stop with
    ⟨l, -, -, hc, -⟩ | ⟨-, ⟨j, hin, hj, hc, -⟩ | ⟨-, hc, -⟩⟩
  · rw [hi] at hc
    cases hc
  · obtain rfl : i = j := by simpa [hi] using hc
    obtain ⟨-, hclass, hhides⟩ := machineInstrAt_eq_some hj
    have hle := (bytes_of_machineInstrAt hj).2
    have hstart := hw.start_le
    exact ⟨by omega, by omega, hclass, fun k h2 hk => not_contains_of_hidesTarget hhides h2 hk,
      h.beforeChunk hw hhere hin⟩
  · rw [hi] at hc
    split at hc
    · cases hc
    · rcases a.chunkByClass_cases stop w.here with hd | hd | hd | hd | ⟨hd, -⟩
      all_goals
        rw [hd] at hc
        cases hc

theorem hosted_of_run (hentry : a.symbols.labels[entryPoint] = some .entry) (hstop : stop ≤ 65536)
    {before after : List Line} {depth : Nat} {here : Address} {i : Cosmac.MachineInstr}
    (h : a.walked stop = before ++ .chunk depth here (.machine i) :: after) :
    Hosted a stop before here i := by
  refine ask_of_run (P := fun w => Sound a stop w ∧ w.Follows a)
    (fun before here c => ∀ i, c = .machine i → Hosted a stop before here i)
    ⟨sound_start a stop, fun h => by cases h⟩ ?_ ?_ h i rfl
  · intro w hlt hw
    exact ⟨hw.1.step hentry hlt hstop, hw.2.step hw.1 (toNat_here (by omega))⟩
  · intro w hlt hw i hi
    exact hosted_chunkHere hw.2 hw.1 hlt (toNat_here (by omega)) hi

theorem resumed_behind {v : Walk} (hv : v = step a stop w) (hw : Sound a stop v)
    (hagain : (w.chunkHere a stop).isAgain = true) (hout : ¬ a.EntersAt v.location) :
    a.Resumed (v.lines.toList ++ (v.header a stop ++ v.nextLines a stop)) := by
  have hlocation := hw.location
  have hquiet : ∀ l ∈ w.blankAfter a stop ++ (v.header a stop ++ v.nextLines a stop),
      l.size = 0 := by
    intro l hl
    exact (List.mem_append.1 hl).elim size_of_mem_blankAfter size_of_mem_beforeChunk
  have hlines : v.lines.toList = (w.lines.toList ++ (w.header a stop ++ w.nextLines a stop)) ++
      .chunk ((w.stillOpen a stop).length + 1) w.here (w.chunkHere a stop) ::
        w.blankAfter a stop := by
    rw [hv, toList_lines_step, written, ← List.append_assoc]
  rw [hlines, extent_append, extent_cons,
    extent_eq_zero fun l hl => size_of_mem_blankAfter hl] at hlocation
  rw [hlines, List.append_assoc, List.cons_append]
  refine ⟨_, .chunk _ _ _, _, hagain, rfl, fun m hm => Line.isInner_of_size (hquiet m hm), ?_⟩
  intro pre post hsplit
  rw [extent_append, extent_cons,
    extent_eq_zero fun l hl => hquiet l (hsplit ▸ List.mem_append_left _ hl), ← hlocation]
  exact hout

end Walk

namespace Analysis

variable {a : Analysis} {layout : Layout} {length : Nat}

theorem exists_split_lines (layout : Layout) (length : Nat) {stop : Nat}
    (hstop : stopAfter length = stop) {w : Walk} (hrun : Walk.start.run a stop = w.run a stop)
    (hlt : w.location < stop) :
    ∃ depth after, (a.lines layout length).toList =
      (a.opening layout stop ++ (w.lines.toList ++ (w.header a stop ++ w.nextLines a stop))) ++
        .chunk depth w.here (w.chunkHere a stop) :: after := by
  obtain ⟨rest, hrest⟩ := Walk.prefix_run a stop (w.step a stop)
  refine ⟨(w.stillOpen a stop).length + 1, w.blankAfter a stop ++ rest, ?_⟩
  rw [toList_lines, hstop, hrun, Walk.run_of_lt a hlt, ← hrest, Walk.toList_lines_step,
    Walk.written]
  simp only [List.append_assoc, List.cons_append]

theorem exists_split_walked {before after : List Line} {depth : Nat} {here : Address} {c : Chunk}
    (h : (a.lines layout length).toList = before ++ .chunk depth here c :: after) :
    ∃ walkedBefore, before = a.opening layout (stopAfter length) ++ walkedBefore ∧
      a.walked (stopAfter length) = walkedBefore ++ .chunk depth here c :: after := by
  rw [toList_lines] at h
  rcases List.append_eq_append_iff.1 h with ⟨zs, rfl, hwalked⟩ | ⟨zs, hopening, hrest⟩
  · exact ⟨zs, rfl, hwalked⟩
  · cases zs with
    | nil => exact ⟨[], by simpa using hopening.symm, by simpa using hrest.symm⟩
    | cons z zs =>
      obtain ⟨rfl, -⟩ := List.cons.inj hrest
      have hmem : .chunk depth here c ∈ a.opening layout (stopAfter length) := by simp [hopening]
      exact absurd (size_of_mem_opening hmem) (Nat.pos_iff_ne_zero.1 c.size_pos)

theorem hosted_of_lines (hentry : a.symbols.labels[entryPoint] = some .entry)
    {before after : List Line} {depth : Nat} {here : Address} {i : Cosmac.MachineInstr}
    (h : (a.lines layout length).toList = before ++ .chunk depth here (.machine i) :: after) :
    a.Hosted (stopAfter length) before here i := by
  obtain ⟨walkedBefore, rfl, hwalked⟩ := exists_split_walked h
  have hhosted := Walk.hosted_of_run hentry (stopAfter_le length).2 hwalked
  have hopening : extent (a.opening layout (stopAfter length)) = 0 :=
    extent_eq_zero fun l hl => size_of_mem_opening hl
  refine ⟨hhosted.start_le, hhosted.le_stop, hhosted.unclassified, hhosted.named, ?_⟩
  exact hhosted.entered.imp (InRun.quiet_append · hopening) (Resumed.quiet_append · hopening)

theorem classAt_found_eq_unclassified_iff {rom : Array UInt8} {d : Dialect} {a : Analyzer}
    (h : Analyzer.Reachable rom d a) (hd : a.isDone = true) {k : Nat} (hk : k < 65536) :
    a.found.classes.classAt k = .unclassified ↔ ¬ a.found.Taken k := by
  have hexec := h.isExecuted_iff hd (UInt16.ofNat k)
  have haccess := h.isAccessed_iff hd (UInt16.ofNat k)
  rw [ClassMap.getElem_eq_classAt, UInt16.toNat_ofNat', Nat.mod_eq_of_lt hk] at hexec haccess
  have htaken : a.found.Taken k ↔ a.Executes k ∨ a.Accesses k := by
    rw [Analyzer.accesses_iff]
    constructor
    · intro hx
      obtain ⟨x, s, hs, hin | ⟨n, hn, hbase⟩⟩ := hx
      · exact Or.inl ⟨x, s, hs, hin⟩
      · exact Or.inr ⟨x, s, n, hs, hn, hbase⟩
    · rintro (⟨x, s, hs, hin⟩ | ⟨x, s, n, hs, hn, hbase⟩)
      · exact ⟨x, s, hs, Or.inl hin⟩
      · exact ⟨x, s, hs, Or.inr ⟨n, hn, hbase⟩⟩
  rw [htaken, ← hexec, ← haccess]
  change a.classes.classAt k = .unclassified ↔ _
  cases a.classes.classAt k with
  | unclassified | code | data | selfModifying => decide

/-- The instructions of the host processor in a listing lie within it, begin at bytes about which
nothing is known, and hide no target behind their second byte. All their bytes are unclassified
exactly if none overruns a byte that is executed or accessed; and they come from an entry through
machine code that has not returned exactly if they have not been resumed behind a loop. -/
theorem machine_code_lines {rom : Array UInt8} (hfits : rom.size ≤ maxRomSize) (d : Dialect) :
    ∃ a, Analysis.ofRom rom d = .ok a ∧ ∀ (layout : Layout) (length : Nat),
      let stop := stopAfter length
      let lines := (a.lines layout length).toList
      linesOf (a.source layout length) =
          lines.map (Line.text layout.indent a.program a.symbols.naming) ++ [""] ∧
        ∀ before depth here i after,
          lines = before ++ .chunk depth here (.machine i) :: after →
            (entryPoint.toNat ≤ here.toNat ∧ here.toNat + i.size ≤ stop) ∧
            a.classes[here] = .unclassified ∧
            (∀ k, 2 ≤ k → k < i.size →
              a.references.contains (here + UInt16.ofNat k) = false) ∧
            ((∀ k, k < i.size → a.classes.classAt (here.toNat + k) = .unclassified) ↔
              ¬ a.Overruns here i.size) ∧
            (a.InRun before ↔ ¬ a.Resumed before) := by
  obtain ⟨a, ha, hd, hofRom⟩ := Analysis.exists_ofRom hfits d
  have hentry := entry_name a.found_symbols
  refine ⟨a.found, hofRom, ?_⟩
  intro layout length stop lines
  have hstop : stop ≤ 65536 := (stopAfter_le length).2
  refine ⟨linesOf_source _ layout length, ?_⟩
  intro before depth here i after hlines
  have h := hosted_of_lines hentry hlines
  have hclass {k : Nat} (hk : k < i.size) :
      a.found.classes.classAt (here.toNat + k) = .unclassified ↔
        ¬ a.found.Taken (here.toNat + k) :=
    classAt_found_eq_unclassified_iff ha hd (by have := h.le_stop; omega)
  refine ⟨⟨h.start_le, h.le_stop⟩, h.unclassified, h.named, ?_,
    InRun.not_resumed, h.entered.resolve_right⟩
  constructor
  · intro hall hover
    obtain ⟨k, -, hk, htaken⟩ := hover
    exact (hclass hk).1 (hall k hk) htaken
  · intro hnot k hk
    by_cases hzero : k = 0
    · rw [hzero, Nat.add_zero, ← ClassMap.getElem_eq_classAt]
      exact h.unclassified
    · exact (hclass hk).2 fun htaken => hnot ⟨k, Nat.pos_of_ne_zero hzero, hk, htaken⟩

end Analysis

def Chunk.isMachine : Chunk → Bool
  | machine _ => true
  | _ => false

theorem Chunk.exists_of_isMachine {c : Chunk} (h : c.isMachine = true) : ∃ i, c = .machine i := by
  cases c with
  | machine i => exact ⟨i, rfl⟩
  | _ => cases h

section LoopBetween

/-- Machine code is entered at `0x204`. The byte behind it begins an endless loop. -/
def loopBetween : Program where
  rom := #[0x02, 0x04, 0x12, 0x05, 0xC4, 0x12, 0x05, 0xC4]
  fits := by decide

def loopBetweenFound : Analysis :=
  ((Analyzer.start loopBetween {}).step 3).found

private theorem walk_loopBetween :
    let first := Walk.start.step loopBetweenFound 520
    let second := first.step loopBetweenFound 520
    let third := second.step loopBetweenFound 520
    let fourth := third.step loopBetweenFound 520
    ((Analyzer.start loopBetween {}).step 3).isDone = true ∧
      (first.location = 514 ∧ second.location = 516 ∧ third.location = 517 ∧
        fourth.location = 519) ∧
      (third.chunkHere loopBetweenFound 520).isAgain = true ∧
      (fourth.chunkHere loopBetweenFound 520).isMachine = true ∧
      loopBetweenFound.references.natives.contains 0x207 = false := by
  decide +kernel

/-- The byte behind the loop is written as an instruction of the host processor, although the last
entry lies before the loop. -/
theorem Analysis.machine_code_behind_loop :
    ∃ a, Analysis.ofRom loopBetween.rom {} = .ok a ∧ ∃ before depth here i after,
      (a.lines {} 8).toList = before ++ .chunk depth here (.machine i) :: after ∧
        ¬ a.InRun before := by
  obtain ⟨hrest, ⟨h1, h2, h3, h4⟩, hagain, hmachine, hnative⟩ := walk_loopBetween
  have hentry : loopBetweenFound.symbols.labels[entryPoint] = some .entry :=
    entry_name (Analyzer.found_symbols _)
  have hrun := Walk.run_of_lt loopBetweenFound (show Walk.start.location < 520 by decide)
  replace hrun := hrun.trans (Walk.run_of_lt _ (by omega))
  replace hrun := hrun.trans (Walk.run_of_lt _ (by omega))
  replace hrun := hrun.trans (Walk.run_of_lt _ (by omega))
  have hsound := (Walk.sound_start loopBetweenFound 520).step hentry (by decide) (by decide)
  replace hsound := hsound.step hentry (by omega) (by decide)
  replace hsound := hsound.step hentry (by omega) (by decide)
  replace hsound := hsound.step hentry (by omega) (by decide)
  obtain ⟨i, hi⟩ := Chunk.exists_of_isMachine hmachine
  have hout : ¬ loopBetweenFound.EntersAt 519 := by
    intro hat
    obtain ⟨t, ht, hcontains, -⟩ := hat
    obtain rfl : t = 0x207 := UInt16.toNat_inj.1 ht
    rw [hnative] at hcontains
    cases hcontains
  rw [← h4] at hout
  have hresumed := Walk.resumed_behind rfl hsound hagain hout
  have hopening : extent (loopBetweenFound.opening {} (stopAfter 8)) = 0 :=
    extent_eq_zero fun l hl => size_of_mem_opening hl
  have hstop : stopAfter 8 = 520 := rfl
  obtain ⟨depth, after, hsplit⟩ := exists_split_lines {} 8 hstop hrun (by omega)
  refine ⟨loopBetweenFound, Analysis.ofRom_of_isDone loopBetween.fits {} hrest, _, depth, _, i,
    after, hi ▸ hsplit, fun hin => hin.not_resumed (hresumed.quiet_append hopening)⟩

end LoopBetween

section OverrunJump

/-- Machine code is entered at `0x204`, where it would take two bytes. The second of them begins an
endless loop. -/
def overrunJump : Program where
  rom := #[0x02, 0x04, 0x12, 0x05, 0x30, 0x12, 0x05, 0x00]
  fits := by decide

def overrunJumpFound : Analysis :=
  ((Analyzer.start overrunJump {}).step 3).found

private theorem walk_overrunJump :
    let first := Walk.start.step overrunJumpFound 520
    let second := first.step overrunJumpFound 520
    ((Analyzer.start overrunJump {}).step 3).isDone = true ∧
      (first.location = 514 ∧ second.location = 516) ∧
      (second.chunkHere overrunJumpFound 520).isMachine = true ∧
      (second.chunkHere overrunJumpFound 520).size = 2 ∧
      (overrunJumpFound.reaching[(0x205 : Address)]).isSome = true := by
  decide +kernel

theorem Analysis.machine_code_over_jump :
    overrunJump.rom.size ≤ maxRomSize ∧ ∃ a, Analysis.ofRom overrunJump.rom {} = .ok a ∧
      ∃ before depth here i after,
        (a.lines {} 8).toList = before ++ .chunk depth here (.machine i) :: after ∧
          a.classes[here] = .unclassified ∧
          ¬ (∀ k, k < i.size → a.classes.classAt (here.toNat + k) = .unclassified) := by
  obtain ⟨hrest, ⟨h1, h2⟩, hmachine, hsize, hreached⟩ := walk_overrunJump
  obtain ⟨a, ha, hlines⟩ := Analysis.machine_code_lines overrunJump.fits {}
  obtain rfl : a = overrunJumpFound :=
    Except.ok.inj (ha.symm.trans (Analysis.ofRom_of_isDone overrunJump.fits {} hrest))
  have hrun := Walk.run_of_lt overrunJumpFound (show Walk.start.location < 520 by decide)
  replace hrun := hrun.trans (Walk.run_of_lt _ (by omega))
  obtain ⟨i, hi⟩ := Chunk.exists_of_isMachine hmachine
  have hhere := Walk.toNat_here (show _ < 65536 by rw [h2]; decide)
  have hstop : stopAfter 8 = 520 := rfl
  obtain ⟨depth, after, hsplit⟩ := exists_split_lines {} 8 hstop hrun (by omega)
  replace hsplit := hi ▸ hsplit
  rw [hi] at hsize
  obtain ⟨-, hfirst, -, hbytes, -⟩ := (hlines {} 8).2 _ _ _ _ _ hsplit
  refine ⟨overrunJump.fits, overrunJumpFound, ha, _, depth, _, i, after, hsplit, hfirst, ?_⟩
  intro hall
  obtain ⟨s, hs⟩ := Option.isSome_iff_exists.1 hreached
  refine hbytes.1 hall ⟨1, by decide, ?_, 0x205, s, hs, Or.inl ?_⟩
  · rw [Chunk.size] at hsize
    omega
  · have hat : (0x205 : Address).toNat = 517 := rfl
    have hpos := (overrunJumpFound.program.instr 0x205).size_pos
    rw [hhere, h2, hat]
    omega

end OverrunJump

end OctoLift
