import OctoLift.Instr.Encode
import OctoLift.Proofs.Source
import OctoLift.Proofs.Scan
import OctoLift.Proofs.Exactness
import OctoLift.Proofs.Termination

/-!
# Listings reproduce the program

Every chunk denotes bytes: raw chunks those that they print, a statement the encoding of its
instruction, the end of a loop the encoding of the jump back. The chunks of a listing follow one
another without gap or overlap, and what they denote is, in order, the program itself.
-/

namespace OctoLift

namespace Program

variable (p : Program)

@[simp] theorem length_bytes (k n : Nat) : (p.bytes k n).length = n := by
  simp [bytes]

theorem bytes_add (k m n : Nat) : p.bytes k (m + n) = p.bytes k m ++ p.bytes (k + m) n := by
  simp only [bytes, List.range_add, List.map_append, List.map_map]
  congr 1
  apply List.map_congr_left
  intro j _
  simp only [Function.comp_apply, Nat.add_assoc]

theorem take_bytes (k m n : Nat) : (p.bytes k n).take m = p.bytes k (min m n) := by
  simp only [bytes, ← List.map_take, List.take_range]

theorem encode_instr (here : Address) :
    (p.instr here).encode = p.bytes here.toNat (p.instr here).size := by
  have hword : p.bytes here.toNat 2 = [p.byte here.toNat, p.byte (here.toNat + 1)] := rfl
  have htail : p.bytes (here.toNat + 2) 2 =
      [p.byte (here.toNat + 2), p.byte (here.toNat + 3)] := rfl
  have hencode : (p.instr here).encode = p.bytes here.toNat 2 ++
      (p.instr here).tailBytes (wordOfBytes (p.byte (here.toNat + 2)) (p.byte (here.toNat + 3))) :=
    Instr.encode_decode _ _ _
  rw [hencode]
  cases hi : p.instr here with
  | longIndex a => rw [Instr.tailBytes, wordBytes_wordOfBytes, ← htail, Instr.size, ← bytes_add]
  | _ => exact List.append_nil _

end Program

namespace Cosmac

/-- A decoded machine instruction is the start of the bytes that it was decoded from. -/
theorem bytes_of_decode {bytes : List UInt8} {address : Address} {i : MachineInstr}
    (h : decode bytes address = some i) : i.bytes = bytes.take i.size := by
  cases bytes with
  | nil => cases h
  | cons op rest =>
    simp only [decode] at h
    split at h
    · cases h
      rw [MachineInstr.bytes, MachineInstr.size, Nat.add_comm, List.take_succ_cons]
    · cases h

end Cosmac

namespace Walk

variable (a : Analysis) (stop : Nat) (w : Walk)

theorem toNat_here {w : Walk} (h : w.location < 65536) : w.here.toNat = w.location := by
  rw [here, UInt16.toNat_ofNat']
  omega

end Walk

/-- The bytes that a chunk at a location denotes. -/
def Chunk.bytes (p : Program) (here : Address) : Chunk → List UInt8
  | again head => (Instr.jump head).encode
  | machine i => i.bytes
  | code i => i.encode
  | splitLong _ | operand | selfModifying => p.bytes here.toNat 2
  | data | unused => p.bytes here.toNat 1

/-- How many locations a line stands for. -/
def Line.size : Line → Nat
  | chunk _ _ c => c.size
  | _ => 0

/-- The bytes that a line denotes. -/
def Line.bytes (p : Program) : Line → List UInt8
  | chunk _ here c => c.bytes p here
  | _ => []

/-- How many locations successive lines stand for. -/
def extent : List Line → Nat
  | [] => 0
  | l :: rest => l.size + extent rest

section Extent

@[simp] theorem extent_nil : extent [] = 0 := rfl

@[simp] theorem extent_cons (l : Line) (rest : List Line) :
    extent (l :: rest) = l.size + extent rest :=
  rfl

@[simp] theorem extent_append (xs ys : List Line) : extent (xs ++ ys) = extent xs + extent ys := by
  induction xs with
  | nil => simp
  | cons l rest ih => rw [List.cons_append, extent_cons, extent_cons, ih, Nat.add_assoc]

theorem extent_eq_zero {xs : List Line} (h : ∀ l ∈ xs, l.size = 0) : extent xs = 0 := by
  induction xs with
  | nil => rfl
  | cons l rest ih =>
    rw [extent_cons, h l (by simp), ih fun m hm => h m (by simp [hm])]

theorem flatMap_bytes_eq_nil {p : Program} {xs : List Line} (h : ∀ l ∈ xs, l.size = 0) :
    xs.flatMap (Line.bytes p) = [] := by
  rw [List.flatMap_eq_nil_iff]
  intro l hl
  have hsize := h l hl
  cases l with
  | chunk depth here c => exact absurd hsize (Nat.pos_iff_ne_zero.1 c.size_pos)
  | _ => rfl

end Extent

/-- Every one of some lines is as asked for, given the lines before it. -/
def Throughout (ask : List Line → Line → Prop) (lines : List Line) : Prop :=
  ∀ before l after, lines = before ++ l :: after → ask before l

section Throughout

variable {ask : List Line → Line → Prop} {xs ys : List Line}

theorem throughout_nil : Throughout ask [] := by
  intro before l after h
  simp at h

theorem throughout_append :
    Throughout ask (xs ++ ys) ↔
      Throughout ask xs ∧ Throughout (fun before => ask (xs ++ before)) ys := by
  constructor
  · intro h
    refine ⟨fun before l after hx => ?_, fun before l after hy => ?_⟩
    · exact h before l (after ++ ys) (by rw [hx]; simp)
    · exact h (xs ++ before) l after (by rw [hy]; simp)
  · rintro ⟨hx, hy⟩ before l after h
    rcases List.append_eq_append_iff.1 h with ⟨zs, rfl, hys⟩ | ⟨zs, rfl, hys⟩
    · exact hy zs l after hys
    · cases zs with
      | nil => simpa using hy [] l after (by simpa using hys.symm)
      | cons z zs =>
        obtain ⟨rfl, -⟩ := List.cons.inj hys
        exact hx before l zs rfl

/-- Lines that stand for no location all stand at the same one. -/
theorem throughout_of_size_eq_zero (hsize : ∀ l ∈ xs, l.size = 0)
    (h : ∀ before, extent before = 0 → ∀ l ∈ xs, ask before l) : Throughout ask xs := by
  rintro before l after rfl
  exact h before (extent_eq_zero fun m hm => hsize m (by simp [hm])) l (by simp)

theorem throughout_singleton {l : Line} (h : ask [] l) : Throughout ask [l] := by
  intro before m after hl
  cases before with
  | nil =>
    obtain ⟨rfl, -⟩ := List.cons.inj hl
    exact h
  | cons k before => simp at hl

end Throughout

/-- What a line says is so: a chunk stands at its location and denotes the bytes there, the end of a
loop closes one that was opened for it, and a name belongs to the next location or, behind `:next`,
to the one after it. -/
def Analysis.Holds (a : Analysis) (stop : Nat) (before : List Line) : Line → Prop
  | .chunk _ here c =>
    here.toNat = entryPoint.toNat + extent before ∧ here.toNat < stop ∧
      c.bytes a.program here = a.program.bytes here.toNat c.size ∧
      ∀ head, c = .again head →
        a.isLoopTail head here stop = true ∧ ∃ depth, .loop depth head ∈ before
  | .name s =>
    ∃ t : Address, t.toNat = entryPoint.toNat + extent before ∧ a.symbols.Gives t s
  | .next s => a.symbols.Gives (UInt16.ofNat (entryPoint.toNat + extent before + 1)) s
  | _ => True

namespace Analysis

variable {a : Analysis} {stop : Nat} {here : Address}

theorem toNat_of_holds {lines before after : List Line} (h : Throughout (a.Holds stop) lines)
    {depth : Nat} {c : Chunk} (hlines : lines = before ++ .chunk depth here c :: after) :
    here.toNat = entryPoint.toNat + extent before :=
  (h before (.chunk depth here c) after hlines).1

/-- The chunks of a listing do not overlap. -/
theorem chunks_apart {lines : List Line} (h : Throughout (a.Holds stop) lines) {depth depth' : Nat}
    {x y : Address} {c d : Chunk} (hx : .chunk depth x c ∈ lines) (hy : .chunk depth' y d ∈ lines) :
    x = y ∨ x.toNat + c.size ≤ y.toNat ∨ y.toNat + d.size ≤ x.toNat := by
  obtain ⟨before, after, rfl⟩ := List.append_of_mem hx
  have hxat := toNat_of_holds h rfl
  rcases List.mem_append.1 hy with hy | hy
  · obtain ⟨first, second, rfl⟩ := List.append_of_mem hy
    have hyat := toNat_of_holds h (List.append_assoc _ _ _)
    rw [extent_append, extent_cons, Line.size] at hxat
    omega
  · rcases List.mem_cons.1 hy with hy | hy
    · cases hy
      exact Or.inl rfl
    · obtain ⟨first, second, rfl⟩ := List.append_of_mem hy
      have hsplit : before ++ .chunk depth x c :: (first ++ .chunk depth' y d :: second) =
          (before ++ .chunk depth x c :: first) ++ .chunk depth' y d :: second := by simp
      have hyat := toNat_of_holds h hsplit
      rw [extent_append, extent_cons, Line.size] at hyat
      omega

theorem bytes_of_machineInstrAt {i : Cosmac.MachineInstr}
    (h : a.machineInstrAt stop here = some i) :
    i.bytes = a.program.bytes here.toNat i.size ∧ here.toNat + i.size ≤ max here.toNat stop := by
  obtain ⟨hdecode, -, -⟩ := machineInstrAt_eq_some h
  have hsize := Cosmac.size_le_of_decode hdecode
  rw [Program.length_bytes] at hsize
  refine ⟨?_, by omega⟩
  rw [Cosmac.bytes_of_decode hdecode, Program.take_bytes, Nat.min_eq_left hsize]

theorem bytes_chunkByClass (a : Analysis) (stop : Nat) (here : Address) :
    (a.chunkByClass stop here).bytes a.program here =
      a.program.bytes here.toNat (a.chunkByClass stop here).size := by
  rcases a.chunkByClass_cases stop here with h | h | h | h | ⟨h, -⟩
  · rw [h]; rfl
  · rw [h]; rfl
  · rw [h]; rfl
  · rw [h]; rfl
  · rw [h]; exact a.program.encode_instr here

theorem size_chunkByClass_le (a : Analysis) (stop : Nat) (h : here.toNat < stop) :
    here.toNat + (a.chunkByClass stop here).size ≤ stop + 1 := by
  rcases a.chunkByClass_cases stop here with hc | hc | hc | hc | ⟨hc, -, hsize⟩
  all_goals
    rw [hc]
    simp only [Chunk.size]
    omega

end Analysis

namespace Walk

variable {a : Analysis} {stop : Nat} {w : Walk}

theorem bytes_chunkHere (hopened : ∀ l ∈ w.opened a stop, a.isLoopTail l.head l.tail stop = true) :
    (w.chunkHere a stop).bytes a.program w.here =
      a.program.bytes w.here.toNat (w.chunkHere a stop).size := by
  rcases w.chunkHere_cases a stop with ⟨l, hl, htail, hc⟩ | ⟨-, ⟨i, hi, hc⟩ | hc | hc⟩
  · have hi := Analysis.instr_of_isLoopTail (hopened l hl)
    have hbytes := a.program.encode_instr l.tail
    rw [hi, htail] at hbytes
    rw [hc]
    exact hbytes
  · rw [hc]
    exact (Analysis.bytes_of_machineInstrAt hi).1
  · rw [hc]
    rfl
  · rw [hc]
    exact a.bytes_chunkByClass stop w.here

/-- Only the tail of an open loop is written as its end. -/
theorem exists_opened_of_again {head : Address} (h : w.chunkHere a stop = .again head) :
    ∃ l ∈ w.opened a stop, l.tail = w.here ∧ l.head = head := by
  rcases w.chunkHere_cases a stop with ⟨l, hl, htail, hc⟩ | ⟨-, ⟨i, -, hc⟩ | hc | hc⟩
  · refine ⟨l, hl, htail, ?_⟩
    rw [h] at hc
    injection hc with hhead
    exact hhead.symm
  · rw [h] at hc
    cases hc
  · rw [h] at hc
    cases hc
  · rw [h] at hc
    rcases a.chunkByClass_cases stop w.here with hd | hd | hd | hd | ⟨hd, -⟩
    all_goals
      rw [hd] at hc
      cases hc

/-- A chunk goes at most one byte beyond the end of the listing. -/
theorem size_chunkHere_le (h : w.here.toNat < stop) :
    w.here.toNat + (w.chunkHere a stop).size ≤ stop + 1 := by
  rcases w.chunkHere_cases a stop with ⟨l, -, -, hc⟩ | ⟨-, ⟨i, hi, hc⟩ | hc | hc⟩
  · rw [hc, Chunk.size]
    omega
  · have hle := (Analysis.bytes_of_machineInstrAt hi).2
    rw [hc, Chunk.size]
    omega
  · rw [hc, Chunk.size]
    omega
  · rw [hc]
    exact a.size_chunkByClass_le stop h

theorem size_of_mem_header {l : Line} (h : l ∈ w.header a stop) : l.size = 0 := by
  rcases Analysis.mem_headerLines h with rfl | ⟨_, rfl⟩ | ⟨_, rfl⟩ | ⟨_, rfl, _⟩ <;> rfl

theorem size_of_mem_nextLines {l : Line} (h : l ∈ w.nextLines a stop) : l.size = 0 := by
  obtain ⟨s, rfl, -⟩ := w.mem_nextLines a stop h
  rfl

theorem size_of_mem_blankAfter {l : Line} (h : l ∈ w.blankAfter a stop) : l.size = 0 := by
  rw [w.mem_blankAfter a stop h]
  rfl

theorem size_of_mem_written {l : Line} (h : l ∈ w.written a stop) :
    l.size = 0 ∨ l = .chunk ((w.stillOpen a stop).length + 1) w.here (w.chunkHere a stop) := by
  rcases w.mem_written a stop h with hheader | hnext | hchunk | rfl
  · exact Or.inl (size_of_mem_header hheader)
  · exact Or.inl (size_of_mem_nextLines hnext)
  · exact Or.inr hchunk
  · exact Or.inl rfl

theorem extent_written : extent (w.written a stop) = (w.chunkHere a stop).size := by
  have hheader := extent_eq_zero fun l (hl : l ∈ w.header a stop) => size_of_mem_header hl
  have hnext := extent_eq_zero fun l (hl : l ∈ w.nextLines a stop) => size_of_mem_nextLines hl
  have hblank := extent_eq_zero fun l (hl : l ∈ w.blankAfter a stop) => size_of_mem_blankAfter hl
  rw [written, extent_append, extent_append, extent_cons, hheader, hnext, hblank]
  simp [Line.size]

theorem flatMap_bytes_written :
    (w.written a stop).flatMap (Line.bytes a.program) =
      (w.chunkHere a stop).bytes a.program w.here := by
  have hheader := flatMap_bytes_eq_nil (p := a.program)
    fun l (hl : l ∈ w.header a stop) => size_of_mem_header hl
  have hnext := flatMap_bytes_eq_nil (p := a.program)
    fun l (hl : l ∈ w.nextLines a stop) => size_of_mem_nextLines hl
  have hblank := flatMap_bytes_eq_nil (p := a.program)
    fun l (hl : l ∈ w.blankAfter a stop) => size_of_mem_blankAfter hl
  rw [written, List.flatMap_append, List.flatMap_append, List.flatMap_cons, hheader, hnext, hblank]
  simp [Line.bytes]

/-- What holds of a walk all along. -/
structure Sound (a : Analysis) (stop : Nat) (w : Walk) : Prop where
  start_le : entryPoint.toNat ≤ w.location
  le_stop : w.location ≤ max entryPoint.toNat (stop + 1)
  location : w.location = entryPoint.toNat + extent w.lines.toList
  bytes : w.lines.toList.flatMap (Line.bytes a.program) =
    a.program.bytes entryPoint.toNat (extent w.lines.toList)
  holds : Throughout (a.Holds stop) w.lines.toList
  opened : ∀ l ∈ w.openLoops, a.isLoopTail l.head l.tail stop = true ∧
    ∃ depth, .loop depth l.head ∈ w.lines.toList

theorem sound_start (a : Analysis) (stop : Nat) : Sound a stop start where
  start_le := Nat.le_refl _
  le_stop := Nat.le_max_left _ _
  location := rfl
  bytes := rfl
  holds := throughout_nil
  opened := fun l hl => by cases hl

theorem Sound.le_location (h : Sound a stop w) {depth : Nat} {here : Address} {c : Chunk}
    (hmem : .chunk depth here c ∈ w.lines.toList) :
    entryPoint.toNat ≤ here.toNat ∧ here.toNat < stop ∧ here.toNat + c.size ≤ w.location := by
  obtain ⟨before, after, hlines⟩ := List.append_of_mem hmem
  obtain ⟨hhere, hlt, -⟩ := h.holds _ _ _ hlines
  have hlocation := h.location
  rw [hlines, extent_append, extent_cons, Line.size] at hlocation
  omega

theorem Sound.loop_of_mem_opened (h : Sound a stop w) {l : OpenLoop} (hl : l ∈ w.opened a stop) :
    a.isLoopTail l.head l.tail stop = true ∧
      ∃ depth, .loop depth l.head ∈ w.lines.toList ++ w.header a stop := by
  rcases (w.mem_opened a stop).1 hl with ⟨hhead, htail⟩ | hl
  · rw [hhead]
    obtain ⟨depth, hloop⟩ := Analysis.loop_mem_headerLines (List.ne_nil_of_mem htail)
    exact ⟨((w.mem_tails a stop).1 htail).2, depth, List.mem_append_right _ hloop⟩
  · obtain ⟨htail, depth, hloop⟩ := h.opened l hl
    exact ⟨htail, depth, List.mem_append_left _ hloop⟩

/-- Lines that stand for no location leave the walk where it is. -/
theorem Sound.extent_eq_here (h : Sound a stop w) (hhere : w.here.toNat = w.location)
    {before : List Line} (hbefore : extent before = 0) :
    entryPoint.toNat + extent (w.lines.toList ++ before) = w.here.toNat := by
  rw [hhere, h.location, extent_append, hbefore, Nat.add_zero]

theorem holds_header (hentry : a.symbols.labels[entryPoint] = some .entry) (h : Sound a stop w)
    (hhere : w.here.toNat = w.location) :
    Throughout (fun before => a.Holds stop (w.lines.toList ++ before)) (w.header a stop) := by
  refine throughout_of_size_eq_zero (fun l hl => size_of_mem_header hl) ?_
  intro before hbefore l hl
  have hat := (h.extent_eq_here hhere hbefore).symm
  rcases Analysis.mem_headerLines hl with rfl | ⟨_, rfl⟩ | ⟨hmain, rfl⟩ | ⟨s, rfl, hs⟩
  · trivial
  · trivial
  · exact ⟨w.here, hat, by rw [hmain]; exact ⟨.label, hentry⟩⟩
  · exact ⟨w.here, hat, hs⟩

theorem holds_nextLines (h : Sound a stop w) (hhere : w.here.toNat = w.location) :
    Throughout (fun before => a.Holds stop (w.lines.toList ++ (w.header a stop ++ before)))
      (w.nextLines a stop) := by
  refine throughout_of_size_eq_zero (fun l hl => size_of_mem_nextLines hl) ?_
  intro before hbefore l hl
  obtain ⟨s, rfl, hs, -⟩ := w.mem_nextLines a stop hl
  have hextent : extent (w.header a stop ++ before) = 0 := by
    rw [extent_append, hbefore, extent_eq_zero fun l hl => size_of_mem_header hl]
  have haddress : UInt16.ofNat (w.here.toNat + 1) = w.here + 1 := by
    rw [UInt16.ofNat_add, UInt16.ofNat_toNat]
    rfl
  rw [Analysis.Holds, h.extent_eq_here hhere hextent, haddress]
  exact Analysis.gives_of_nameOf hs

theorem holds_chunkHere (h : Sound a stop w) (hhere : w.here.toNat = w.location)
    (hlt : w.location < stop) :
    a.Holds stop (w.lines.toList ++ (w.header a stop ++ w.nextLines a stop))
      (.chunk ((w.stillOpen a stop).length + 1) w.here (w.chunkHere a stop)) := by
  have hextent : extent (w.header a stop ++ w.nextLines a stop) = 0 := by
    rw [extent_append, extent_eq_zero fun l hl => size_of_mem_header hl,
      extent_eq_zero fun l hl => size_of_mem_nextLines hl]
  refine ⟨(h.extent_eq_here hhere hextent).symm, by omega,
    bytes_chunkHere fun l hl => (h.loop_of_mem_opened hl).1, ?_⟩
  intro head hc
  obtain ⟨l, hl, htail, rfl⟩ := exists_opened_of_again hc
  obtain ⟨hloop, depth, hmem⟩ := h.loop_of_mem_opened hl
  rw [htail] at hloop
  refine ⟨hloop, depth, ?_⟩
  rw [← List.append_assoc]
  exact List.mem_append_left _ hmem

theorem holds_written (hentry : a.symbols.labels[entryPoint] = some .entry) (h : Sound a stop w)
    (hlt : w.location < stop) (hstop : stop ≤ 65536) :
    Throughout (fun before => a.Holds stop (w.lines.toList ++ before)) (w.written a stop) := by
  have hhere : w.here.toNat = w.location := toNat_here (by omega)
  have hchunk := holds_chunkHere h hhere hlt
  rw [← List.append_nil (w.header a stop ++ w.nextLines a stop)] at hchunk
  have hblank : Throughout (fun before => a.Holds stop (w.lines.toList ++
      ((w.header a stop ++ w.nextLines a stop) ++ ([.chunk ((w.stillOpen a stop).length + 1) w.here
        (w.chunkHere a stop)] ++ before)))) (w.blankAfter a stop) := by
    refine throughout_of_size_eq_zero (fun l hl => size_of_mem_blankAfter hl) ?_
    intro before _ l hl
    rw [w.mem_blankAfter a stop hl]
    trivial
  rw [written, ← List.singleton_append, throughout_append, throughout_append, throughout_append]
  exact ⟨⟨holds_header hentry h hhere, holds_nextLines h hhere⟩, throughout_singleton hchunk,
    hblank⟩

theorem Sound.step (hentry : a.symbols.labels[entryPoint] = some .entry) (h : Sound a stop w)
    (hlt : w.location < stop) (hstop : stop ≤ 65536) : Sound a stop (step a stop w) := by
  have hhere : w.here.toNat = w.location := toNat_here (by omega)
  have hlines := w.toList_lines_step a stop
  have hbytes := bytes_chunkHere fun l hl => (h.loop_of_mem_opened hl).1
  have hle := size_chunkHere_le (a := a) (w := w) (by rw [hhere]; exact hlt)
  have hextent : extent (Walk.step a stop w).lines.toList =
      extent w.lines.toList + (w.chunkHere a stop).size := by
    rw [hlines, extent_append, extent_written]
  have hlocation := h.location
  refine ⟨?_, ?_, ?_, ?_, ?_, ?_⟩
  · rw [w.location_step a stop]
    exact Nat.le_trans h.start_le (Nat.le_add_right _ _)
  · rw [w.location_step a stop]
    omega
  · rw [w.location_step a stop, hextent, hlocation, Nat.add_assoc]
  · rw [hextent, Program.bytes_add, hlines, List.flatMap_append, h.bytes, flatMap_bytes_written,
      hbytes, hhere, hlocation]
  · rw [hlines, throughout_append]
    exact ⟨h.holds, holds_written hentry h hlt hstop⟩
  · intro l hl
    rw [w.openLoops_step a stop] at hl
    obtain ⟨htail, depth, hloop⟩ := h.loop_of_mem_opened (List.mem_of_mem_filter hl)
    refine ⟨htail, depth, ?_⟩
    rw [hlines, written, List.append_assoc, ← List.append_assoc]
    exact List.mem_append_left _ hloop

theorem sound_run (hentry : a.symbols.labels[entryPoint] = some .entry) (hstop : stop ≤ 65536) :
    Sound a stop (start.run a stop) ∧ stop ≤ (start.run a stop).location :=
  run_induction (fun _ hlt h => h.step hentry hlt hstop) (sound_start a stop)

end Walk

/-- Whether a chunk is written as bytes. -/
def Chunk.IsRaw : Chunk → Prop
  | again _ | code _ => False
  | _ => True

namespace Analysis

theorem stopAfter_le (length : Nat) :
    entryPoint.toNat ≤ stopAfter length ∧ stopAfter length ≤ 65536 := by
  have hentry : entryPoint.toNat = 512 := rfl
  rw [stopAfter, hentry]
  omega

section Listing

variable {a : Analysis} {layout : Layout} {length : Nat}

theorem size_of_mem_opening {l : Line} (h : l ∈ a.opening layout (stopAfter length)) :
    l.size = 0 := by
  rcases mem_opening h with hremark | rfl | ⟨s, target, rfl⟩
  · obtain ⟨text, rfl⟩ := (Dialect.mem_remarks hremark).1
    rfl
  · rfl
  · rfl

theorem Holds.append_left {stop : Nat} {xs before : List Line} {l : Line}
    (hxs : extent xs = 0) (h : a.Holds stop before l) : a.Holds stop (xs ++ before) l := by
  have hextent : extent (xs ++ before) = extent before := by
    rw [extent_append, hxs, Nat.zero_add]
  cases l with
  | chunk depth here c =>
    obtain ⟨hhere, hlt, hbytes, hagain⟩ := h
    refine ⟨by rw [hextent]; exact hhere, hlt, hbytes, fun head hc => ?_⟩
    obtain ⟨hloop, depth, hmem⟩ := hagain head hc
    exact ⟨hloop, depth, List.mem_append_right _ hmem⟩
  | name s => rw [Holds, hextent]; exact h
  | next s => rw [Holds, hextent]; exact h
  | _ => trivial

theorem throughout_lines (hentry : a.symbols.labels[entryPoint] = some .entry) :
    Throughout (a.Holds (stopAfter length)) (a.lines layout length).toList := by
  have hwalk := (Walk.sound_run hentry (stopAfter_le length).2).1
  have hextent := extent_eq_zero fun l (hl : l ∈ a.opening layout (stopAfter length)) =>
    size_of_mem_opening hl
  rw [toList_lines, throughout_append]
  constructor
  · refine throughout_of_size_eq_zero (fun l hl => size_of_mem_opening hl) fun before _ l hl => ?_
    rcases mem_opening hl with hremark | rfl | ⟨s, target, rfl⟩
    · obtain ⟨text, rfl⟩ := (Dialect.mem_remarks hremark).1
      trivial
    · trivial
    · trivial
  · exact fun before l after hlines => (hwalk.holds before l after hlines).append_left hextent

/-- A raw chunk shows its bytes. -/
theorem sourceWords_of_isRaw {depth : Nat} {here : Address} {c : Chunk} (h : c.IsRaw) :
    sourceWords ((Line.chunk depth here c).text layout.indent a.program a.symbols.naming) =
      (c.bytes a.program here).map Numeral.byte := by
  have hbyte (bs : List UInt8) : (bs.map Token.byte).map Token.text = bs.map Numeral.byte := by
    rw [List.map_map]
    rfl
  rw [Line.sourceWords_chunk]
  cases c with
  | again head => exact h.elim
  | code i => exact h.elim
  | _ => exact hbyte _

end Listing

end Analysis
end OctoLift
