import OctoLift.Proofs.Paths
import OctoLift.Proofs.Statements
import OctoLift.Proofs.WellBracketed

/-!
# Aligned listings

The walk knows nothing of the ways on which the exploration came to its addresses, only how each
byte is marked. Still it keeps to the boundaries of the instructions that were found, if these do
not overlap, do not change and are not left for machine code: it stands before an instruction, or
between the two words in which it writes one, or at a byte that none of them takes up. So each of
them can be read off the line that is written where it begins.
-/

namespace OctoLift

namespace Analysis

/-- The instruction at the reached address `x` takes up the location `k`. -/
def Occupies (a : Analysis) (x : Address) (k : Nat) : Prop :=
  (∃ s, a.reaching[x] = some s) ∧ x.toNat ≤ k ∧ k < x.toNat + (a.program.instr x).size

/-- Code of which a listing up to `stop` can keep every instruction apart. -/
structure Unmixed (a : Analysis) (stop : Nat) : Prop where
  /-- No location belongs to two instructions. -/
  apart : ∀ x y k, a.Occupies x k → a.Occupies y k → x = y
  /-- Nothing that is executed is read or written. -/
  constant : ∀ b : Address, a.classes[b] ≠ .selfModifying
  /-- No machine code of the host processor is entered. -/
  interpreted : ∀ t, Within stop t → a.references.natives.contains t = false

/-- Marks and label references are those of the reached instructions. -/
structure Marked (a : Analysis) : Prop where
  entry : ∃ s, a.reaching[entryPoint] = some s
  executed : ∀ b : Address, (a.classes[b]).isExecuted = true ↔ ∃ x, a.Occupies x b.toNat
  refers : ∀ head tail, tail ∈ a.references.labels.refs head → ∃ s, a.reaching[tail] = some s

section Occupies

variable {a : Analysis} {stop : Nat} {x y : Address} {k : Nat}

theorem occupies_self (h : ∃ s, a.reaching[x] = some s) : a.Occupies x x.toNat :=
  ⟨h, Nat.le_refl _, Nat.lt_add_of_pos_right (a.program.instr x).size_pos⟩

theorem toNat_of_occupies_succ (hcut : ∀ x, a.Occupies x k → ¬ a.Occupies x (k + 1))
    (h : a.Occupies y (k + 1)) : y.toNat = k + 1 := by
  by_contra hne
  have hbefore : a.Occupies y k := ⟨h.1, by have := h.2; omega, by have := h.2; omega⟩
  exact hcut y hbefore h

theorem Unmixed.toNat_of_occupies_behind (hu : a.Unmixed stop) (hx : a.Occupies x k)
    (hend : k + 1 = x.toNat + (a.program.instr x).size) (h : a.Occupies y (k + 1)) :
    y.toNat = k + 1 := by
  refine toNat_of_occupies_succ ?_ h
  intro z hz hnext
  obtain rfl := hu.apart z x k hz hx
  have := hnext.2
  omega

theorem Unmixed.classAt_ne (hu : a.Unmixed stop) (k : Nat) :
    a.classes.classAt k ≠ .selfModifying := by
  by_cases hk : k < 65536
  · have hclass := hu.constant (UInt16.ofNat k)
    rwa [ClassMap.getElem_eq_classAt, UInt16.toNat_ofNat', Nat.mod_eq_of_lt hk] at hclass
  · rw [ClassMap.classAt, dif_neg hk]
    simp

end Occupies

/-- What may stand for a location of unmixed code: an instruction, whole or as the end of a loop or
split in two words, the second of these words, or a byte that is not executed. -/
inductive Stands (a : Analysis) (stop : Nat) (here : Address) : Chunk → Prop
  | code (h : ∃ s, a.reaching[here] = some s) : Stands a stop here (.code (a.program.instr here))
  | split (h : ∃ s, a.reaching[here] = some s) (target : Address)
    (hi : a.program.instr here = .longIndex target) :
    Stands a stop here (.splitLong (.longIndex target))
  | again (h : ∃ s, a.reaching[here] = some s) (head : Address)
    (hloop : a.isLoopTail head here stop = true) : Stands a stop here (.again head)
  | operand (x : Address) (h : a.Occupies x here.toNat) (hbegins : x.toNat + 2 = here.toNat)
    (hend : x.toNat + (a.program.instr x).size = here.toNat + 2) : Stands a stop here .operand
  | data (h : ∀ x, ¬ a.Occupies x here.toNat) : Stands a stop here .data
  | unused (h : ∀ x, ¬ a.Occupies x here.toNat) : Stands a stop here .unused

section Chunks

variable {a : Analysis} {stop : Nat} {here : Address} (hm : a.Marked) (hu : a.Unmixed stop)

include hu

theorem chunkByClass_of_code (h : a.classes[here] = .code) :
    a.chunkByClass stop here = .code (a.program.instr here) ∨
      a.chunkByClass stop here = .splitLong (a.program.instr here) ∧
        2 < (a.program.instr here).size := by
  simp only [chunkByClass, h, if_neg (hu.classAt_ne _)]
  split
  · next hsplit => exact Or.inr ⟨rfl, hsplit.1⟩
  · exact Or.inl rfl

theorem chunkByClass_of_not_executed (h : (a.classes[here]).isExecuted = false) :
    a.chunkByClass stop here = .data ∨ a.chunkByClass stop here = .unused := by
  unfold chunkByClass
  cases hclass : a.classes[here] with
  | code | selfModifying =>
    rw [hclass] at h
    cases h
  | data => exact Or.inl rfl
  | unclassified =>
    dsimp only
    rw [if_neg (hu.classAt_ne _)]
    exact Or.inr rfl

include hm

theorem class_of_reached (h : ∃ s, a.reaching[here] = some s) : a.classes[here] = .code := by
  have hexec := (hm.executed here).2 ⟨here, occupies_self h⟩
  exact (Class.isExecuted_iff.1 hexec).resolve_right (hu.constant here)

theorem stands_chunkByClass_of_reached (h : ∃ s, a.reaching[here] = some s) :
    Stands a stop here (a.chunkByClass stop here) := by
  rcases chunkByClass_of_code hu (class_of_reached hm hu h) with hc | ⟨hc, hlong⟩
  · rw [hc]
    exact .code h
  · rw [hc]
    cases hi : a.program.instr here with
    | longIndex target => exact .split h target hi
    | _ =>
      rw [hi] at hlong
      exact absurd hlong (Nat.lt_irrefl 2)

theorem stands_chunkByClass_of_free (h : ∀ x, ¬ a.Occupies x here.toNat) :
    Stands a stop here (a.chunkByClass stop here) := by
  have hclass : (a.classes[here]).isExecuted = false := by
    rw [Bool.eq_false_iff]
    intro hexec
    obtain ⟨x, hx⟩ := (hm.executed here).1 hexec
    exact h x hx
  rcases chunkByClass_of_not_executed hu hclass with hc | hc
  · exact hc ▸ .data h
  · exact hc ▸ .unused h

end Chunks

namespace Stands

variable {a : Analysis} {stop : Nat} {here x : Address} {c : Chunk}

theorem owner (h : a.Stands stop here c) :
    (∃ x, ∀ k, here.toNat ≤ k → k < here.toNat + c.size → a.Occupies x k) ∨
      c.size = 1 ∧ ∀ x, ¬ a.Occupies x here.toNat := by
  cases h with
  | code h => exact Or.inl ⟨here, fun k hge hlt => ⟨h, hge, hlt⟩⟩
  | split h target hi =>
    refine Or.inl ⟨here, fun k hge hlt => ⟨h, hge, ?_⟩⟩
    rw [hi]
    exact Nat.lt_trans hlt (by simp [Chunk.size, Instr.size])
  | again h head hloop =>
    refine Or.inl ⟨here, fun k hge hlt => ⟨h, hge, ?_⟩⟩
    rw [instr_of_isLoopTail hloop]
    exact hlt
  | operand x hx hbegins hend =>
    refine Or.inl ⟨x, fun k hge hlt => ⟨hx.1, by omega, ?_⟩⟩
    simp only [Chunk.size] at hlt
    omega
  | data hfree | unused hfree => exact Or.inr ⟨rfl, hfree⟩

theorem eq_of_reached (h : a.Stands stop here c) (hu : a.Unmixed stop)
    (hx : ∃ s, a.reaching[x] = some s) (hge : here.toNat ≤ x.toNat)
    (hlt : x.toNat < here.toNat + c.size) : x = here := by
  rcases h.owner with ⟨y, hy⟩ | ⟨hsize, -⟩
  · obtain rfl := hu.apart x y _ (occupies_self hx) (hy x.toNat hge hlt)
    have hbegins := (hy here.toNat (Nat.le_refl _) (by omega)).2.1
    exact UInt16.toNat_inj.1 (Nat.le_antisymm hbegins hge)
  · exact UInt16.toNat_inj.1 (by omega)

theorem of_reached (h : a.Stands stop here c) (hu : a.Unmixed stop)
    (hreached : ∃ s, a.reaching[here] = some s) :
    c = .code (a.program.instr here) ∨
      (∃ target, a.program.instr here = .longIndex target ∧ c = .splitLong (.longIndex target)) ∨
      ∃ head, c = .again head ∧ a.program.instr here = .jump head := by
  have hself := occupies_self hreached
  cases h with
  | code h => exact Or.inl rfl
  | split h target hi => exact Or.inr (Or.inl ⟨target, hi, rfl⟩)
  | again h head hloop => exact Or.inr (Or.inr ⟨head, rfl, instr_of_isLoopTail hloop⟩)
  | operand x hx hbegins hend =>
    obtain rfl := hu.apart x here _ hx hself
    omega
  | data hfree | unused hfree => exact absurd hself (hfree here)

theorem free_of_not_executed (h : a.Stands stop here c) (hm : a.Marked)
    (hclass : (a.classes[here]).isExecuted = false) {k : Nat} (hge : here.toNat ≤ k)
    (hlt : k < here.toNat + c.size) (x : Address) : ¬ a.Occupies x k := by
  have hnone (y : Address) : ¬ a.Occupies y here.toNat := by
    intro hy
    rw [(hm.executed here).2 ⟨y, hy⟩] at hclass
    cases hclass
  rcases h.owner with ⟨y, hy⟩ | ⟨hsize, hfree⟩
  · exact absurd (hy here.toNat (Nat.le_refl _) (by omega)) (hnone y)
  · obtain rfl : k = here.toNat := by omega
    exact hfree x

end Stands

end Analysis

namespace Walk

open Analysis

variable {a : Analysis} {stop : Nat} {w : Walk}

/-- The walk stands where no instruction goes on, or between the two words in which it writes
one. -/
def InStep (a : Analysis) (w : Walk) : Prop :=
  (w.operandEnd ≤ w.location ∧ ∀ x, a.Occupies x w.location → x.toNat = w.location) ∨
    ∃ x, a.Occupies x w.location ∧ x.toNat + 2 = w.location ∧
      x.toNat + (a.program.instr x).size = w.location + 2 ∧ w.operandEnd = w.location + 2

/-- The walk keeps to the boundaries of the instructions. -/
structure Aligned (a : Analysis) (w : Walk) : Prop where
  interpreted : w.inMachineCode = false
  inStep : w.InStep a
  visited : ∀ x : Address, (∃ s, a.reaching[x] = some s) → entryPoint.toNat ≤ x.toNat →
    x.toNat < w.location → Begun w.lines.toList x

section Step

variable (hm : a.Marked) (hu : a.Unmixed stop) (hw : OnWay a stop w) (hlt : w.location < stop)
  (hstop : stop ≤ 65536)

/-- Outside of machine code, what is not the end of a loop is chosen by the class of the byte, unless
the second word of an instruction is due. -/
theorem chunkHere_of_interpreted (stop : Nat) (hin : w.inMachineCodeHere a = false) :
    (∃ l ∈ w.opened a stop, l.tail = w.here ∧ w.chunkHere a stop = .again l.head ∧
        (Walk.step a stop w).inMachineCode = false) ∨
      w.chunkHere a stop =
          (if w.here.toNat < w.operandEnd then .operand else a.chunkByClass stop w.here) ∧
        (Walk.step a stop w).inMachineCode = false := by
  rcases w.chunkHere_choice a stop with
    ⟨l, hl, htail, hc, hmode⟩ | ⟨-, ⟨i, htrue, -⟩ | ⟨-, hc, hmode⟩⟩
  · exact Or.inl ⟨l, hl, htail, hc, hmode.trans hin⟩
  · rw [hin] at htrue
    cases htrue
  · exact Or.inr ⟨hc, hmode⟩

include hm hu hw hlt hstop

/-- What the walk writes where it is aligned. It does not enter machine code, and a second word that
is due does not stay behind. -/
theorem Aligned.stands (h : Aligned a w) :
    a.Stands stop w.here (w.chunkHere a stop) ∧ (Walk.step a stop w).inMachineCode = false ∧
      w.operandEnd ≤ w.location + (w.chunkHere a stop).size := by
  have hhere : w.here.toNat = w.location := toNat_here (by omega)
  have hwithin : Within stop w.here := by
    rw [Within, hhere]
    exact ⟨hw.sound.start_le, hlt⟩
  have hin : w.inMachineCodeHere a = false := by
    simp [inMachineCodeHere, h.interpreted, hu.interpreted _ hwithin]
  rcases chunkHere_of_interpreted stop hin with ⟨l, hl, htail, hc, hmode⟩ | ⟨hc, hmode⟩
  · -- only a reached jump is the tail of a loop
    have hrec := ((hw.nested.mem_opened_iff hw.sound l hhere).1 hl).1
    have hreached := hm.refers _ _ hrec.refers
    have hloop := hrec.isTail
    rw [htail] at hreached hloop
    refine ⟨hc ▸ .again hreached l.head hloop, hmode, ?_⟩
    rw [hc, Chunk.size]
    rcases h.inStep with ⟨hend, -⟩ | ⟨x, -, -, -, hoperand⟩
    · omega
    · omega
  · rw [hc, hhere]
    rcases h.inStep with ⟨hend, hbegins⟩ | ⟨x, hx, hbegins, hend, hoperand⟩
    · rw [if_neg (Nat.not_lt.2 hend)]
      refine ⟨?_, hmode, Nat.le_add_right_of_le hend⟩
      by_cases hfree : ∃ x, a.Occupies x w.location
      · obtain ⟨x, hx⟩ := hfree
        obtain rfl : x = w.here := UInt16.toNat_inj.1 ((hbegins x hx).trans hhere.symm)
        exact stands_chunkByClass_of_reached hm hu hx.1
      · apply stands_chunkByClass_of_free hm hu
        rw [hhere]
        exact not_exists.1 hfree
    · rw [if_pos (by omega)]
      rw [← hhere] at hx hbegins hend
      exact ⟨.operand x hx hbegins hend, hmode, Nat.le_of_eq hoperand⟩

omit hm hw hlt hstop in
theorem inStep_behind {v : Walk} {c : Chunk} (h : a.Stands stop w.here c)
    (hhere : w.here.toNat = w.location) (hlocation : v.location = w.location + c.size)
    (hinner : (∀ i, c ≠ .splitLong i) → v.operandEnd ≤ v.location)
    (hsplit : ∀ i, c = .splitLong i → v.operandEnd = w.location + i.size) : v.InStep a := by
  have hwhole (x : Address) (hx : a.Occupies x (w.location + c.size - 1))
      (hend : x.toNat + (a.program.instr x).size = v.location) (y : Address)
      (hy : a.Occupies y v.location) : y.toNat = v.location := by
    have hpos := c.size_pos
    have hsucc : v.location = w.location + c.size - 1 + 1 := by omega
    rw [hsucc] at hend hy ⊢
    exact hu.toNat_of_occupies_behind hx hend.symm hy
  cases h with
  | code h =>
    have hsize := (a.program.instr w.here).size_pos
    refine Or.inl ⟨hinner (by simp), hwhole w.here ⟨h, ?_, ?_⟩ ?_⟩
    all_goals
      simp only [Chunk.size] at hlocation ⊢
      omega
  | again h head hloop =>
    have hi := instr_of_isLoopTail hloop
    have hsize : (a.program.instr w.here).size = 2 := by rw [hi]; rfl
    refine Or.inl ⟨hinner (by simp), hwhole w.here ⟨h, ?_, ?_⟩ ?_⟩
    all_goals
      simp only [Chunk.size] at hlocation ⊢
      omega
  | split h target hi =>
    have hsize : (a.program.instr w.here).size = 4 := by rw [hi]; rfl
    have hoperand : v.operandEnd = w.location + 4 := hsplit _ rfl
    simp only [Chunk.size] at hlocation
    exact Or.inr ⟨w.here, ⟨h, by omega, by omega⟩, by omega, by omega, by omega⟩
  | operand x hx hbegins hend =>
    refine Or.inl ⟨hinner (by simp), hwhole x ⟨hx.1, ?_, ?_⟩ ?_⟩
    all_goals
      simp only [Chunk.size] at hlocation ⊢
      omega
  | data hfree | unused hfree =>
    refine Or.inl ⟨hinner (by simp), ?_⟩
    rw [hlocation]
    refine fun y => toNat_of_occupies_succ fun x hx => ?_
    rw [← hhere] at hx
    exact absurd hx (hfree x)

theorem Aligned.step (h : Aligned a w) : Aligned a (Walk.step a stop w) := by
  have hhere : w.here.toNat = w.location := toNat_here (by omega)
  obtain ⟨hstands, hmode, hbehind⟩ := h.stands hm hu hw hlt hstop
  have hlocation := w.location_step a stop
  refine ⟨hmode, ?_, ?_⟩
  · refine inStep_behind hu hstands hhere hlocation ?_ ?_
    · intro hne
      rw [operandEnd_step, operandEndBehind_of_ne _ _ _ hne, hlocation]
      exact hbehind
    · intro i hi
      rw [operandEnd_step, operandEndBehind_of_splitLong _ _ _ hi]
  · intro x hx hge hbefore
    rw [begun_step_iff]
    by_cases hold : x.toNat < w.location
    · exact Or.inl (h.visited x hx hge hold)
    · exact Or.inr (hstands.eq_of_reached hu hx (by omega) (by omega)).symm

end Step

theorem aligned_start (hm : a.Marked) (hu : a.Unmixed stop) : Aligned a start := by
  refine ⟨rfl, Or.inl ⟨Nat.zero_le _, ?_⟩, fun x _ hge hlt => absurd hlt (Nat.not_lt.2 hge)⟩
  intro x hx
  rw [hu.apart x entryPoint _ hx (occupies_self hm.entry)]
  rfl

section Run

variable (hentry : a.symbols.labels[entryPoint] = some .entry) (hm : a.Marked)
  (hu : a.Unmixed stop) (hstop : stop ≤ 65536)

include hentry hm hu hstop

theorem begun_of_reached {x : Address} (hx : ∃ s, a.reaching[x] = some s) (hin : Within stop x) :
    Begun (a.walked stop) x := by
  obtain ⟨⟨-, haligned⟩, hend⟩ := run_induction
    (P := fun w => OnWay a stop w ∧ Aligned a w)
    (fun w hlt hw => ⟨hw.1.step hentry hstop hlt, hw.2.step hm hu hw.1 hlt hstop⟩)
    ⟨onWay_start a stop, aligned_start hm hu⟩
  exact haligned.visited x hx hin.1 (Nat.lt_of_lt_of_le hin.2 hend)

theorem stands_of_mem {depth : Nat} {here : Address} {c : Chunk}
    (h : .chunk depth here c ∈ a.walked stop) : a.Stands stop here c := by
  obtain ⟨before, after, hlines⟩ := List.append_of_mem h
  exact ask_of_run (P := fun w => OnWay a stop w ∧ Aligned a w)
    (fun _ here c => a.Stands stop here c) ⟨onWay_start a stop, aligned_start hm hu⟩
    (fun w hlt hw => ⟨hw.1.step hentry hstop hlt, hw.2.step hm hu hw.1 hlt hstop⟩)
    (fun w hlt hw => (hw.2.stands hm hu hw.1 hlt hstop).1) hlines

theorem operand_of_splitLong {depth : Nat} {here : Address} {i : Instr}
    (h : .chunk depth here (.splitLong i) ∈ a.walked stop) (hin : Within stop (here + 2)) :
    ∃ depth', .chunk depth' (here + 2) .operand ∈ a.walked stop := by
  obtain ⟨hsound, hend⟩ := sound_run hentry hstop
  obtain ⟨hge, hlt, -⟩ := hsound.le_location h
  have hlocation := hsound.location
  have hnext : (here + 2).toNat = here.toNat + 2 := by
    have hentryPoint : entryPoint.toNat = 512 := rfl
    have hadd := UInt16.toNat_add here 2
    have htwo : (2 : Address).toNat = 2 := rfl
    have hwithin := hin.1
    omega
  have hbelow := hin.2
  obtain ⟨depth', c, hmem⟩ := begun_behind hsound.holds h hnext (by omega)
  have hx : a.Occupies here (here + 2).toNat := by
    cases stands_of_mem hentry hm hu hstop h with
    | split hreached target hi =>
      refine ⟨hreached, by omega, ?_⟩
      rw [hi, hnext, Instr.size]
      omega
  have hself (hreached : ∃ s, a.reaching[here + 2] = some s) : False := by
    have heq := hu.apart here (here + 2) _ hx (occupies_self hreached)
    rw [← heq] at hnext
    omega
  refine ⟨depth', ?_⟩
  cases stands_of_mem hentry hm hu hstop hmem with
  | operand => exact hmem
  | code hreached | split hreached | again hreached => exact (hself hreached).elim
  | data hfree | unused hfree => exact absurd hx (hfree here)

end Run

end Walk

namespace Analysis

theorem marked_found {rom : Array UInt8} {d : Dialect} {a : Analyzer}
    (h : Analyzer.Reachable rom d a) (hd : a.isDone = true) : a.found.Marked := by
  constructor
  · obtain ⟨s, hs, -⟩ := h.entry
    exact ⟨s, hs⟩
  · intro b
    have hiff := h.isExecuted_iff hd b
    constructor
    · intro hexec
      obtain ⟨x, s, hs, hle, hlt⟩ := hiff.1 hexec
      exact ⟨x, ⟨s, hs⟩, hle, hlt⟩
    · intro hx
      obtain ⟨x, ⟨s, hs⟩, hle, hlt⟩ := hx
      exact hiff.2 ⟨x, s, hs, hle, hlt⟩
  · intro head tail href
    have hhas : a.references.labels.has head tail = true :=
      WordSet.mem_toList.1 href
    exact (h.grounded.labels head tail hhas).1

/-- In a listing of unmixed code every reached instruction gets a statement of its own: its line is
read back as the instruction, or it is the end of a loop that was opened for its jump, or it shows
the first word of a long index load, which its remark is read back as, and the second word stands
behind it. And nothing that is written for a byte that is not executed takes in one that is. -/
theorem statements_of_unmixed {rom : Array UInt8} (hfits : rom.size ≤ maxRomSize) (d : Dialect) :
    ∃ a, Analysis.ofRom rom d = .ok a ∧ ∀ (layout : Layout) (length : Nat),
      let stop := stopAfter length
      let lines := (a.lines layout length).toList
      let text := Line.text layout.indent a.program a.symbols.naming
      a.Unmixed stop →
        linesOf (a.source layout length) = lines.map text ++ [""] ∧
        (∀ here : Address, (∃ s, a.reaching[here] = some s) → Within stop here →
          ∃ depth c, .chunk depth here c ∈ lines) ∧
        ∀ before depth here c after, lines = before ++ .chunk depth here c :: after →
          let line := text (.chunk depth here c)
          ((∃ s, a.reaching[here] = some s) →
            c = .code (a.program.instr here) ∧
              Instr.ofText a.symbols line = some (a.program.instr here) ∨
            (∃ target, a.program.instr here = .longIndex target ∧
              c = .splitLong (.longIndex target) ∧
              sourceWords line = (a.program.bytes here.toNat 2).map Numeral.byte ∧
              Instr.ofText a.symbols (remarkOf line) = some (.longIndex target) ∧
              (Within stop (here + 2) → ∃ depth', .chunk depth' (here + 2) .operand ∈ lines ∧
                sourceWords (text (.chunk depth' (here + 2) .operand)) =
                  (a.program.bytes (here + 2).toNat 2).map Numeral.byte)) ∨
            ∃ head, c = .again head ∧ a.program.instr here = .jump head ∧
              sourceWords line = ["again"] ∧ a.isLoopTail head here stop = true ∧
              ∃ depth', .loop depth' head ∈ before ∧
                sourceWords (text (.loop depth' head)) = ["loop"]) ∧
          (a.classes[here] = .data ∨ a.classes[here] = .unclassified →
            ∀ k, here.toNat ≤ k → k < here.toNat + c.size → ∀ x, ¬ a.Occupies x k) := by
  obtain ⟨a, ha, hd, hofRom⟩ := Analysis.exists_ofRom hfits d
  have hentry := entry_name a.found_symbols
  have hm := marked_found ha hd
  have hnames : a.found.symbols.Unambiguous := by
    rw [a.found_symbols]
    exact SymbolTable.unambiguous_ofReferences _
  refine ⟨a.found, hofRom, ?_⟩
  intro layout length stop lines text hu
  have hstop : stop ≤ 65536 := (stopAfter_le length).2
  refine ⟨linesOf_source _ layout length, ?_, ?_⟩
  · intro here hreached hin
    obtain ⟨depth, c, hmem⟩ := Walk.begun_of_reached hentry hm hu hstop hreached hin
    exact ⟨depth, c, (chunk_mem_lines depth here c).2 hmem⟩
  · intro before depth here c after hlines
    have hmem : .chunk depth here c ∈ lines := by simp [hlines]
    replace hmem := (chunk_mem_lines depth here c).1 hmem
    have hstands := Walk.stands_of_mem hentry hm hu hstop hmem
    constructor
    · intro hreached
      rcases hstands.of_reached hu hreached with rfl | ⟨target, hi, rfl⟩ | ⟨head, rfl, hi⟩
      · exact Or.inl ⟨rfl, Line.ofText_code hnames _ _ _ _ _⟩
      · refine Or.inr (Or.inl ⟨target, hi, rfl, sourceWords_of_isRaw trivial,
          Line.ofText_remarkOf_splitLong hnames _ _ _ _ _, fun hin => ?_⟩)
        obtain ⟨depth', hnext⟩ := Walk.operand_of_splitLong hentry hm hu hstop hmem hin
        exact ⟨depth', (chunk_mem_lines depth' _ _).2 hnext, sourceWords_of_isRaw trivial⟩
      · obtain ⟨-, -, -, hagain⟩ := throughout_lines hentry _ _ _ hlines
        obtain ⟨hloop, depth', hopened⟩ := hagain head rfl
        exact Or.inr (Or.inr ⟨head, rfl, hi, Line.sourceWords_chunk _ _ _ _ _ _, hloop, depth',
          hopened, Line.sourceWords_text _ _ _ (Line.readable_of_ne (by simp))⟩)
    · intro hclass k hge hlt x
      have hidle : (a.found.classes[here]).isExecuted = false := by
        rcases hclass with hclass | hclass <;> simp [hclass, Class.isExecuted]
      exact hstands.free_of_not_executed hm hidle hge hlt x

end Analysis

section SplitLoop

/-- A loop around a long index load, which loads the address of its own second word. -/
def splitLoop : Program where
  rom := #[0xF0, 0x00, 0x02, 0x02, 0x12, 0x00]
  fits := by decide

private theorem instr_splitLoop :
    splitLoop.instr 0x200 = .longIndex 0x202 ∧ splitLoop.instr 0x204 = .jump 0x200 := by
  decide

/-- Only the load and the jump back are reached, whose extents are apart; and neither accesses
memory or leads to machine code. -/
private theorem reached_splitLoop {a : Analyzer} (h : Analyzer.Reachable splitLoop.rom {} a)
    {x : Address} (hx : ∃ s, a.reaching[x] = some s) :
    (x = 0x200 ∧ a.program.instr x = .longIndex 0x202) ∨
      (x = 0x204 ∧ a.program.instr x = .jump 0x200) := by
  obtain ⟨s, hs⟩ := hx
  have hpath : a.HasPath x := h.hasPath x s hs
  have hprogram : a.program = splitLoop := h.program_eq
  obtain ⟨hload, hjump⟩ := instr_splitLoop
  rw [hprogram]
  clear hs
  induction hpath with
  | refl => exact Or.inl ⟨rfl, hload⟩
  | tail _ hedge ih =>
    obtain ⟨u, -, hnext⟩ := hedge
    rw [Analyzer.nextAt, hprogram] at hnext
    rcases ih with ⟨rfl, hi⟩ | ⟨rfl, hi⟩
    · rw [hload] at hnext
      exact Or.inr ⟨List.mem_singleton.1 hnext, List.mem_singleton.1 hnext ▸ hjump⟩
    · rw [hjump] at hnext
      exact Or.inl ⟨List.mem_singleton.1 hnext, List.mem_singleton.1 hnext ▸ hload⟩

private theorem unmixed_splitLoop {a : Analyzer} (h : Analyzer.Reachable splitLoop.rom {} a)
    (stop : Nat) : a.found.Unmixed stop := by
  constructor
  · intro x y k hx hy
    have hload : (0x200 : Address).toNat = 512 := rfl
    have hjump : (0x204 : Address).toNat = 516 := rfl
    have hplace {x : Address} (hx : a.found.Occupies x k) :
        (x = 0x200 ∧ k < 516) ∨ (x = 0x204 ∧ 516 ≤ k) := by
      obtain ⟨hreached, hle, hlt⟩ := hx
      replace hlt : k < x.toNat + (a.program.instr x).size := hlt
      rcases reached_splitLoop h hreached with ⟨rfl, hi⟩ | ⟨rfl, hi⟩
      · rw [hi] at hlt
        exact Or.inl ⟨rfl, hlt⟩
      · exact Or.inr ⟨rfl, hle⟩
    rcases hplace hx with ⟨rfl, hxk⟩ | ⟨rfl, hxk⟩
    · rcases hplace hy with ⟨rfl, -⟩ | ⟨rfl, hyk⟩
      · rfl
      · omega
    · rcases hplace hy with ⟨rfl, hyk⟩ | ⟨rfl, -⟩
      · omega
      · rfl
  · intro b hclass
    have haccess : (a.classes.classAt b.toNat).isAccessed = true := by
      rw [← ClassMap.getElem_eq_classAt]
      exact Class.isAccessed_iff.2 (Or.inr hclass)
    obtain ⟨x, s, hs, base, -, hle, hlt⟩ := h.grounded.accessed _ haccess
    rcases reached_splitLoop h ⟨s, hs⟩ with ⟨-, hi⟩ | ⟨-, hi⟩
    · rw [hi] at hlt
      exact absurd hlt (Nat.not_lt.2 hle)
    · rw [hi] at hlt
      exact absurd hlt (Nat.not_lt.2 hle)
  · intro t _
    rw [Bool.eq_false_iff]
    intro hcontains
    obtain ⟨source, hsource⟩ := RefTable.exists_has hcontains
    obtain ⟨hreached, hnative⟩ := h.grounded.natives t source hsource
    rcases reached_splitLoop h hreached with ⟨-, hi⟩ | ⟨-, hi⟩
    · rw [hi] at hnative
      cases hnative
    · rw [hi] at hnative
      cases hnative

private theorem at_rest_splitLoop :
    ((Analyzer.start splitLoop {}).step 3).isDone = true ∧
      (((Analyzer.start splitLoop {}).step 3).reaching[(0x200 : Address)]).isSome = true ∧
      (((Analyzer.start splitLoop {}).step 3).reaching[(0x204 : Address)]).isSome = true := by
  decide +kernel

theorem Analysis.statements_of_split_loop :
    splitLoop.rom.size ≤ maxRomSize ∧ ∃ a, Analysis.ofRom splitLoop.rom {} = .ok a ∧
      a.Unmixed (stopAfter 6) ∧
      (∃ line ∈ linesOf (a.source {} 6),
        Instr.ofText a.symbols line = some (.longIndex 0x202) ∨
          Instr.ofText a.symbols (remarkOf line) = some (.longIndex 0x202)) ∧
      ∃ line ∈ linesOf (a.source {} 6),
        Instr.ofText a.symbols line = some (.jump 0x200) ∨ sourceWords line = ["again"] := by
  obtain ⟨hd, hload, hjump⟩ := at_rest_splitLoop
  have hr : Analyzer.Reachable splitLoop.rom {} ((Analyzer.start splitLoop {}).step 3) :=
    .step 3 (.start rfl)
  obtain ⟨a, ha, hstatements⟩ := Analysis.statements_of_unmixed splitLoop.fits {}
  have hfound := Analysis.ofRom_of_isDone splitLoop.fits {} hd
  generalize (Analyzer.start splitLoop {}).step 3 = b at hload hjump hr hfound
  obtain rfl : a = b.found := Except.ok.inj (ha.symm.trans hfound)
  have hu := unmixed_splitLoop hr (Analysis.stopAfter 6)
  obtain ⟨hsource, hvisited, hchunks⟩ := hstatements {} 6 hu
  have hprogram : b.found.program = splitLoop := Analysis.program_of_ofRom ha
  have hwritten {here : Address} (hreached : (b.found.reaching[here]).isSome = true)
      (hin : Within (stopAfter 6) here) : ∃ line ∈ linesOf (b.found.source {} 6),
        Instr.ofText b.found.symbols line = some (splitLoop.instr here) ∨
        (∃ target, splitLoop.instr here = .longIndex target ∧
          Instr.ofText b.found.symbols (remarkOf line) = some (.longIndex target)) ∨
        ∃ head, splitLoop.instr here = .jump head ∧ sourceWords line = ["again"] := by
    replace hreached := Option.isSome_iff_exists.1 hreached
    obtain ⟨depth, c, hmem⟩ := hvisited here hreached hin
    obtain ⟨before, after, hlines⟩ := List.append_of_mem hmem
    have hcases := (hchunks _ _ _ _ _ hlines).1 hreached
    rw [hprogram] at hcases hsource
    rw [hsource]
    refine ⟨_, List.mem_append_left _ (List.mem_map_of_mem hmem), ?_⟩
    rcases hcases with ⟨-, hread⟩ | ⟨target, hi, -, -, hread, -⟩ | ⟨head, -, hi, hread, -⟩
    · exact Or.inl hread
    · exact Or.inr (Or.inl ⟨target, hi, hread⟩)
    · exact Or.inr (Or.inr ⟨head, hi, hread⟩)
  obtain ⟨hfirst, hsecond⟩ := instr_splitLoop
  refine ⟨splitLoop.fits, b.found, ha, hu, ?_, ?_⟩
  · obtain ⟨line, hmem, hline⟩ := hwritten hload (by decide)
    rw [hfirst] at hline
    refine ⟨line, hmem, ?_⟩
    simpa using hline
  · obtain ⟨line, hmem, hline⟩ := hwritten hjump (by decide)
    rw [hsecond] at hline
    refine ⟨line, hmem, ?_⟩
    simpa using hline

end SplitLoop

end OctoLift
