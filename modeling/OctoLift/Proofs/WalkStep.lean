import OctoLift.Listing
import OctoLift.Proofs.Names

/-!
# One step of the walk

What a step of the walk writes and where it leads: the lines before the chunk, the chunk, and
perhaps a blank line; the chunk moves the walk on by its size, and its own loops are closed.
-/

namespace OctoLift

namespace Analysis

variable {a : Analysis} {here : Address} {s : Symbol}

theorem gives_of_nameOf (h : a.nameOf here = some s) : a.symbols.Gives here s := by
  unfold nameOf at h
  split at h
  · exact ⟨.label, h⟩
  split at h
  · exact ⟨.subroutine, h⟩
  split at h
  · exact ⟨.native, h⟩
  · cases h

theorem mem_nameLine {symbol : Option Symbol} {l : Line} (h : l ∈ nameLine symbol) :
    ∃ s, symbol = some s ∧ l = .name s := by
  unfold nameLine at h
  cases symbol with
  | none => cases h
  | some s => exact ⟨s, rfl, List.mem_singleton.1 h⟩

theorem mem_headerLines {depth : Nat} {tails others : List Address} {l : Line}
    (h : l ∈ a.headerLines here depth tails others) :
    l = .blank ∨ (∃ depth, l = .loop depth here) ∨ (here = entryPoint ∧ l = .name .entry) ∨
      ∃ s, l = .name s ∧ a.symbols.Gives here s := by
  simp only [headerLines, List.mem_append] at h
  rcases h with (((hsub | hmain) | hloop) | hlabel) | hroutine
  · split at hsub
    · split at hsub
      · next s hs =>
        rcases List.mem_cons.1 hsub with rfl | hsub
        · exact Or.inl rfl
        obtain rfl := List.mem_singleton.1 hsub
        exact Or.inr (Or.inr (Or.inr ⟨s, rfl, .subroutine, hs⟩))
      · cases hsub
    · cases hsub
  · split at hmain
    · next hentry => exact Or.inr (Or.inr (Or.inl ⟨hentry, List.mem_singleton.1 hmain⟩))
    · cases hmain
  · obtain ⟨k, _, rfl⟩ := List.mem_map.1 hloop
    exact Or.inr (Or.inl ⟨_, rfl⟩)
  · split at hlabel
    · obtain ⟨s, hs, rfl⟩ := mem_nameLine hlabel
      exact Or.inr (Or.inr (Or.inr ⟨s, rfl, .label, hs⟩))
    · cases hlabel
  · split at hroutine
    · obtain ⟨s, hs, rfl⟩ := mem_nameLine hroutine
      exact Or.inr (Or.inr (Or.inr ⟨s, rfl, .native, hs⟩))
    · cases hroutine

theorem loop_mem_headerLines {depth : Nat} {tails others : List Address} (h : tails ≠ []) :
    ∃ depth', .loop depth' here ∈ a.headerLines here depth tails others := by
  have hpos := List.length_pos_iff.2 h
  refine ⟨depth + 0 + 1, ?_⟩
  simp only [headerLines, List.mem_append]
  refine Or.inl (Or.inl (Or.inr (List.mem_map.2 ⟨0, List.mem_range.2 hpos, rfl⟩)))

end Analysis

namespace Walk

section Step

variable (a : Analysis) (stop : Nat) (w : Walk)

def here : Address :=
  UInt16.ofNat w.location

def tails : List Address :=
  (a.splitRefs stop w.here).1

/-- The label references that are not written as the ends of loops. -/
def others : List Address :=
  (a.splitRefs stop w.here).2

def opened : List OpenLoop :=
  (w.tails a stop).map (OpenLoop.mk w.here) ++ w.openLoops

def stillOpen : List OpenLoop :=
  (w.opened a stop).filter (·.tail != w.here)

def chunkHere : Chunk :=
  (choose a stop w.here (w.opened a stop)
    (w.inMachineCode ||
      (a.references.natives.contains w.here && a.classes[w.here] = .unclassified))
    w.operandEnd).1

def header : List Line :=
  a.headerLines w.here w.openLoops.length (w.tails a stop) (w.others a stop)

def nextLines : List Line :=
  match a.nameOf (w.here + 1) with
  | some s => if 1 < (w.chunkHere a stop).size then [.next s] else []
  | none => []

/-- The blank line behind the chunk, if there is one. -/
def blankAfter : List Line :=
  let sameClass := a.classes.classAt w.location =
    a.classes.classAt (w.location + (w.chunkHere a stop).size)
  let returns :=
    match w.chunkHere a stop with
    | .machine i => i.returnsToInterpreter
    | _ => false
  if !sameClass || returns then [.blank] else []

/-- Where the operand of the last split load ends, once the chunk here is written. -/
def operandEndBehind : Nat :=
  match w.chunkHere a stop with
  | .splitLong i => w.location + i.size
  | _ => w.operandEnd

def written : List Line :=
  w.header a stop ++ w.nextLines a stop ++
    .chunk ((w.stillOpen a stop).length + 1) w.here (w.chunkHere a stop) :: w.blankAfter a stop

theorem mem_tails {tail : Address} :
    tail ∈ w.tails a stop ↔
      tail ∈ a.references.labels.refs w.here ∧ a.isLoopTail w.here tail stop = true := by
  rw [tails, Analysis.splitRefs, List.partition_eq_filter_filter]
  exact List.mem_filter

theorem mem_opened {l : OpenLoop} :
    l ∈ w.opened a stop ↔ (l.head = w.here ∧ l.tail ∈ w.tails a stop) ∨ l ∈ w.openLoops := by
  rw [opened, List.mem_append, List.mem_map]
  refine or_congr_left ⟨?_, ?_⟩
  · rintro ⟨tail, htail, rfl⟩
    exact ⟨rfl, htail⟩
  · rintro ⟨hhead, htail⟩
    exact ⟨l.tail, htail, by rw [← hhead]⟩

theorem location_step : (step a stop w).location = w.location + (w.chunkHere a stop).size :=
  rfl

theorem openLoops_step : (step a stop w).openLoops = w.stillOpen a stop :=
  rfl

theorem operandEnd_step : (step a stop w).operandEnd = w.operandEndBehind a stop :=
  rfl

theorem operandEndBehind_of_splitLong {i : Instr} (h : w.chunkHere a stop = .splitLong i) :
    w.operandEndBehind a stop = w.location + i.size := by
  rw [operandEndBehind, h]

theorem operandEndBehind_of_ne (h : ∀ i, w.chunkHere a stop ≠ .splitLong i) :
    w.operandEndBehind a stop = w.operandEnd := by
  rw [operandEndBehind]
  cases hc : w.chunkHere a stop with
  | splitLong i => exact absurd hc (h i)
  | _ => rfl

theorem toList_lines_step :
    (step a stop w).lines.toList = w.lines.toList ++ w.written a stop := by
  have hnext (xs : Array Line) :
      (match a.nameOf (w.here + 1) with
        | some s => if 1 < (w.chunkHere a stop).size then xs.push (.next s) else xs
        | none => xs).toList = xs.toList ++ w.nextLines a stop := by
    rw [nextLines]
    cases a.nameOf (w.here + 1) with
    | none => simp
    | some s =>
      dsimp only
      split
      · simp
      · simp
  have hblank (b : Bool) (xs : Array Line) :
      (if b then xs.push .blank else xs).toList =
        xs.toList ++ (if b then [Line.blank] else []) := by
    cases b <;> simp
  calc (step a stop w).lines.toList
      = ((w.lines ++ w.header a stop).toList ++ w.nextLines a stop ++
          [.chunk ((w.stillOpen a stop).length + 1) w.here (w.chunkHere a stop)]) ++
          w.blankAfter a stop := by
        rw [← hnext, ← Array.toList_push]
        exact hblank _ _
    _ = w.lines.toList ++ w.written a stop := by
        simp only [written, Array.toList_appendList, List.append_assoc, List.singleton_append]

theorem chunk_mem_step :
    .chunk ((w.stillOpen a stop).length + 1) w.here (w.chunkHere a stop) ∈
      (step a stop w).lines.toList := by
  rw [toList_lines_step, written]
  simp

theorem mem_nextLines {l : Line} (h : l ∈ w.nextLines a stop) :
    ∃ s, l = .next s ∧ a.nameOf (w.here + 1) = some s ∧ 1 < (w.chunkHere a stop).size := by
  unfold nextLines at h
  split at h
  · next s hs =>
    split at h
    · next hsize => exact ⟨s, List.mem_singleton.1 h, hs, hsize⟩
    · cases h
  · cases h

theorem mem_blankAfter {l : Line} (h : l ∈ w.blankAfter a stop) : l = .blank := by
  have hif (b : Bool) : l ∈ (if b then [Line.blank] else []) → l = .blank := by
    cases b <;> simp
  exact hif _ h

theorem mem_written {l : Line} (h : l ∈ w.written a stop) :
    l ∈ w.header a stop ∨ l ∈ w.nextLines a stop ∨
      l = .chunk ((w.stillOpen a stop).length + 1) w.here (w.chunkHere a stop) ∨ l = .blank := by
  simp only [written, List.mem_append, List.mem_cons] at h
  rcases h with (hheader | hnext) | hchunk | hblank
  · exact Or.inl hheader
  · exact Or.inr (Or.inl hnext)
  · exact Or.inr (Or.inr (Or.inl hchunk))
  · exact Or.inr (Or.inr (Or.inr (w.mem_blankAfter a stop hblank)))

/-- Whether the walk is within machine code at its location, where it may also enter some. -/
def inMachineCodeHere : Bool :=
  w.inMachineCode || (a.references.natives.contains w.here && a.classes[w.here] = .unclassified)

/-- What a step chooses to write and whether machine code goes on behind it: the end of a loop does
not matter to machine code, which otherwise ends at the first chunk of another kind. -/
theorem chunkHere_choice :
    (∃ l ∈ w.opened a stop, l.tail = w.here ∧ w.chunkHere a stop = .again l.head ∧
        (step a stop w).inMachineCode = w.inMachineCodeHere a) ∨
      (∀ l ∈ w.opened a stop, l.tail ≠ w.here) ∧
        ((∃ i, w.inMachineCodeHere a = true ∧ a.machineInstrAt stop w.here = some i ∧
            w.chunkHere a stop = .machine i ∧
            (step a stop w).inMachineCode = !i.returnsToInterpreter) ∨
          (w.inMachineCodeHere a = true → a.machineInstrAt stop w.here = none) ∧
            w.chunkHere a stop =
              (if w.here.toNat < w.operandEnd then .operand else a.chunkByClass stop w.here) ∧
            (step a stop w).inMachineCode = false) := by
  have hmode : (step a stop w).inMachineCode =
      ((choose a stop w.here (w.opened a stop) (w.inMachineCodeHere a) w.operandEnd).2 &&
        !(match w.chunkHere a stop with
          | .machine i => i.returnsToInterpreter
          | _ => false)) := rfl
  have hchunk : w.chunkHere a stop =
      (choose a stop w.here (w.opened a stop) (w.inMachineCodeHere a) w.operandEnd).1 := rfl
  unfold choose at hmode hchunk
  cases hfind : (w.opened a stop).find? (·.tail = w.here) with
  | some l =>
    have htail : l.tail = w.here := by simpa using List.find?_some hfind
    rw [hfind] at hmode hchunk
    rw [hchunk] at hmode
    exact Or.inl ⟨l, List.mem_of_find?_eq_some hfind, htail, hchunk, by simpa using hmode⟩
  | none =>
    refine Or.inr ⟨fun l hl => by simpa using List.find?_eq_none.1 hfind l hl, ?_⟩
    rw [hfind] at hmode hchunk
    dsimp only at hmode hchunk
    cases hinstr : (if w.inMachineCodeHere a then a.machineInstrAt stop w.here else none) with
    | some i =>
      rw [hinstr] at hmode hchunk
      rw [hchunk] at hmode
      refine Or.inl ⟨i, ?_, ?_, hchunk, by simpa using hmode⟩
      · by_contra hout
        simp [hout] at hinstr
      · split at hinstr
        · exact hinstr
        · cases hinstr
    | none =>
      rw [hinstr] at hmode hchunk
      exact Or.inr ⟨fun hin => by simpa [hin] using hinstr, hchunk, by simpa using hmode⟩

theorem chunkHere_cases :
    (∃ l ∈ w.opened a stop, l.tail = w.here ∧ w.chunkHere a stop = .again l.head) ∨
      (∀ l ∈ w.opened a stop, l.tail ≠ w.here) ∧
        ((∃ i, a.machineInstrAt stop w.here = some i ∧ w.chunkHere a stop = .machine i) ∨
          w.chunkHere a stop = .operand ∨
          w.chunkHere a stop = a.chunkByClass stop w.here) := by
  rcases w.chunkHere_choice a stop with
    ⟨l, hl, htail, hc, -⟩ | ⟨hnone, ⟨i, -, hi, hc, -⟩ | ⟨-, hc, -⟩⟩
  · exact Or.inl ⟨l, hl, htail, hc⟩
  · exact Or.inr ⟨hnone, Or.inl ⟨i, hi, hc⟩⟩
  · refine Or.inr ⟨hnone, Or.inr ?_⟩
    rw [hc]
    split
    · exact Or.inl rfl
    · exact Or.inr rfl

end Step

section Run

variable {a : Analysis} {stop : Nat} {P : Walk → Prop}

/-- What every step before `stop` keeps, a run keeps; it ends behind `stop`. -/
theorem run_induction (hstep : ∀ w, w.location < stop → P w → P (step a stop w)) {w : Walk}
    (h : P w) : P (run a stop w) ∧ stop ≤ (run a stop w).location := by
  fun_induction run a stop w with
  | case1 w hlt ih => exact ih (hstep w hlt h)
  | case2 w hge => exact ⟨h, Nat.not_lt.1 hge⟩

theorem mem_lines_run {w : Walk} {l : Line} (h : l ∈ (run a stop w).lines.toList) :
    l ∈ w.lines.toList ∨ ∃ w' : Walk, w'.location < stop ∧ l ∈ w'.written a stop := by
  revert h
  refine (run_induction (P := fun v => l ∈ v.lines.toList → l ∈ w.lines.toList ∨
    ∃ w' : Walk, w'.location < stop ∧ l ∈ w'.written a stop) ?_ Or.inl).1
  intro v hlt ih hmem
  rw [toList_lines_step, List.mem_append] at hmem
  rcases hmem with hold | hnew
  · exact ih hold
  · exact Or.inr ⟨v, hlt, hnew⟩

theorem run_of_lt (a : Analysis) {w : Walk} (h : w.location < stop) :
    run a stop w = run a stop (step a stop w) := by
  rw [run, if_pos h]

theorem mem_run_of_mem {w : Walk} {l : Line} (h : l ∈ w.lines.toList) :
    l ∈ (run a stop w).lines.toList := by
  refine (run_induction (P := fun v => l ∈ v.lines.toList) (fun v _ hv => ?_) h).1
  rw [toList_lines_step, List.mem_append]
  exact Or.inl hv

end Run

end Walk

namespace Analysis

variable {a : Analysis} {stop : Nat} {here : Address}

/-- What stands for a location outside of loops' tails, machine code and split loads. An
instruction of four bytes stands undivided only if it ends before `stop` and hides no target. -/
theorem chunkByClass_cases (a : Analysis) (stop : Nat) (here : Address) :
    a.chunkByClass stop here = .data ∨ a.chunkByClass stop here = .unused ∨
      a.chunkByClass stop here = .selfModifying ∨
      a.chunkByClass stop here = .splitLong (a.program.instr here) ∨
      a.chunkByClass stop here = .code (a.program.instr here) ∧ a.classes[here] = .code ∧
        ((a.program.instr here).size = 2 ∨ here.toNat + (a.program.instr here).size ≤ stop ∧
          a.hidesTarget here (a.program.instr here).size = false) := by
  unfold chunkByClass
  cases hclass : a.classes[here] with
  | data => exact Or.inl rfl
  | selfModifying => exact Or.inr (Or.inr (Or.inl rfl))
  | unclassified =>
    dsimp only
    split
    · exact Or.inr (Or.inr (Or.inl rfl))
    · exact Or.inr (Or.inl rfl)
  | code =>
    dsimp only
    split
    · exact Or.inr (Or.inr (Or.inl rfl))
    split
    · exact Or.inr (Or.inr (Or.inr (Or.inl rfl)))
    · next hwhole =>
      refine Or.inr (Or.inr (Or.inr (Or.inr ⟨rfl, rfl, ?_⟩)))
      rcases (a.program.instr here).size_eq with hsize | hsize
      · exact Or.inl hsize
      · refine Or.inr ⟨?_, ?_⟩
        · omega
        · rw [Bool.eq_false_iff]
          intro hhides
          exact hwhole ⟨by omega, Or.inr hhides⟩

theorem not_contains_of_hidesTarget {n : Nat} (h : a.hidesTarget here n = false) {k : Nat}
    (h2 : 2 ≤ k) (hk : k < n) : a.references.contains (here + UInt16.ofNat k) = false := by
  unfold hidesTarget at h
  have := List.any_eq_false.1 h k (List.mem_range.2 hk)
  simpa [h2] using this

theorem machineInstrAt_eq_some {i : Cosmac.MachineInstr}
    (h : a.machineInstrAt stop here = some i) :
    Cosmac.decode (a.program.bytes here.toNat (min 3 (stop - here.toNat))) here = some i ∧
      a.classes[here] = .unclassified ∧ a.hidesTarget here i.size = false := by
  unfold machineInstrAt at h
  split at h
  · next hclass =>
    obtain ⟨hdecode, hhides⟩ := Option.filter_eq_some_iff.1 h
    exact ⟨hdecode, hclass, by simpa using hhides⟩
  · cases h

def opening (a : Analysis) (layout : Layout) (stop : Nat) : List Line :=
  (if layout.remarks then a.dialect.remarks else []) ++ [.blank] ++
    constLines stop a.references.labels a.symbols.labels ++
    constLines stop a.references.subroutines a.symbols.subroutines ++
    constLines stop a.references.natives a.symbols.natives

theorem toList_lines (a : Analysis) (layout : Layout) (length : Nat) :
    (a.lines layout length).toList = a.opening layout (stopAfter length) ++
      (Walk.start.run a (stopAfter length)).lines.toList := by
  simp only [lines, opening, Array.toList_append]

theorem mem_constLines {table : RefTable} {names : NameMap} {l : Line} :
    l ∈ constLines stop table names ↔
      ∃ (target : Address) (s : Symbol), table.contains target = true ∧ names[target] = some s ∧
        ¬ (entryPoint.toNat ≤ target.toNat ∧ target.toNat < stop) ∧ l = .const s target := by
  constructor
  · intro h
    obtain ⟨target, htarget, hline⟩ := List.mem_filterMap.1 h
    split at hline
    · cases hline
    · next hout =>
      obtain ⟨s, hs, rfl⟩ := Option.map_eq_some_iff.1 hline
      exact ⟨target, s, AddressMap.mem_support.1 htarget, hs, hout, rfl⟩
  · rintro ⟨target, s, htarget, hs, hout, rfl⟩
    refine List.mem_filterMap.2 ⟨target, AddressMap.mem_support.2 htarget, ?_⟩
    rw [if_neg hout, hs]
    rfl

theorem mem_opening {layout : Layout} {l : Line} (h : l ∈ a.opening layout stop) :
    l ∈ a.dialect.remarks ∨ l = .blank ∨ ∃ s target, l = .const s target := by
  have hconst {table : RefTable} {names : NameMap} (h : l ∈ constLines stop table names) :
      ∃ s target, l = .const s target := by
    obtain ⟨target, s, _, _, _, hl⟩ := mem_constLines.1 h
    exact ⟨s, target, hl⟩
  simp only [opening, List.mem_append, List.mem_singleton] at h
  rcases h with (((hremark | hblank) | hlabel) | hsub) | hnative
  · split at hremark
    · exact Or.inl hremark
    · cases hremark
  · exact Or.inr (Or.inl hblank)
  · exact Or.inr (Or.inr (hconst hlabel))
  · exact Or.inr (Or.inr (hconst hsub))
  · exact Or.inr (Or.inr (hconst hnative))

end Analysis
end OctoLift
