import OctoLift.Proofs.Closed
import OctoLift.Proofs.Lockstep

/-!
# What an analysis does not depend on

Two things make no difference to an analysis: bytes that no reached instruction takes up and no
reached skip looks at, and a choice of the dialect that governs no reached instruction.
-/

namespace OctoLift

section Decoding

/-- The word after the first one matters to long index loads only. -/
theorem Instr.decode_tail (hi lo : UInt8) (tail tail' : Address) :
    decode hi lo tail = decode hi lo tail' ∨
      decode hi lo tail = .longIndex tail ∧ decode hi lo tail' = .longIndex tail' := by
  unfold decode
  dsimp only
  split
  case h_16 =>
    unfold decodeMisc
    dsimp only
    split
    case h_1 =>
      split
      · exact Or.inr ⟨rfl, rfl⟩
      · exact Or.inl rfl
    all_goals exact Or.inl rfl
  all_goals exact Or.inl rfl

variable {p q : Program} {here : Address}

theorem Program.instr_eq_decode {hi lo : UInt8} (hhi : p.byte here.toNat = hi)
    (hlo : p.byte (here.toNat + 1) = lo) :
    p.instr here = .decode hi lo
      (wordOfBytes (p.byte (here.toNat + 2)) (p.byte (here.toNat + 3))) := by
  subst hhi
  subst hlo
  rfl

theorem Program.size_instr_of_word (hhi : q.byte here.toNat = p.byte here.toNat)
    (hlo : q.byte (here.toNat + 1) = p.byte (here.toNat + 1)) :
    (q.instr here).size = (p.instr here).size := by
  rw [instr_eq_decode hhi hlo, instr_eq_decode (p := p) rfl rfl]
  rcases Instr.decode_tail (p.byte here.toNat) (p.byte (here.toNat + 1))
    (wordOfBytes (q.byte (here.toNat + 2)) (q.byte (here.toNat + 3)))
    (wordOfBytes (p.byte (here.toNat + 2)) (p.byte (here.toNat + 3))) with h | ⟨h, h'⟩
  · rw [h]
  · simp only [h, h', Instr.size]

theorem Program.instr_of_bytes
    (h : ∀ k, here.toNat ≤ k → k < here.toNat + (p.instr here).size → q.byte k = p.byte k) :
    q.instr here = p.instr here := by
  have hhi := h here.toNat (by omega) (by have := (p.instr here).size_eq; omega)
  have hlo := h (here.toNat + 1) (by omega) (by have := (p.instr here).size_eq; omega)
  rw [instr_eq_decode hhi hlo]
  rw [instr_eq_decode (p := p) rfl rfl] at h ⊢
  rcases Instr.decode_tail (p.byte here.toNat) (p.byte (here.toNat + 1))
    (wordOfBytes (q.byte (here.toNat + 2)) (q.byte (here.toNat + 3)))
    (wordOfBytes (p.byte (here.toNat + 2)) (p.byte (here.toNat + 3))) with he | ⟨-, he⟩
  · exact he
  · -- a long index load takes up the second word as well
    rw [he] at h
    have hsize : ∀ t, (Instr.longIndex t).size = 4 := fun _ => rfl
    rw [h (here.toNat + 2) (by omega) (by rw [hsize]; omega),
      h (here.toNat + 3) (by omega) (by rw [hsize]; omega)]

end Decoding

section Memory

/-- `q` has the bytes of the instruction that `p` has at `here`, and of the word after a skip. -/
structure Program.AgreesAt (p q : Program) (here : Address) : Prop where
  own : ∀ k, here.toNat ≤ k → k < here.toNat + (p.instr here).size → q.byte k = p.byte k
  ahead : ∀ c, p.instr here = .skip c →
    q.byte (here.toNat + 2) = p.byte (here.toNat + 2) ∧
      q.byte (here.toNat + 3) = p.byte (here.toNat + 3)

variable {p q : Program} {here : Address}

theorem Program.byte_below (p : Program) {k : Nat} (h : k < entryPoint.toNat) : p.byte k = 0 := by
  rw [byte, if_neg (by omega)]

/-- The word after a skip may wrap around to the start of memory, where no ROM reaches. -/
theorem Program.AgreesAt.skipTarget (h : p.AgreesAt q here) {c : Condition}
    (hc : p.instr here = .skip c) : q.skipTarget here = p.skipTarget here := by
  have hsize : (q.instr (here + 2)).size = (p.instr (here + 2)).size := by
    have hadd : (here + 2).toNat = (here.toNat + 2) % 65536 := UInt16.toNat_add here 2
    have hentry : entryPoint.toNat = 512 := rfl
    by_cases hfar : here.toNat + 2 < 65536
    · rw [Nat.mod_eq_of_lt hfar] at hadd
      apply Program.size_instr_of_word
      · rw [hadd]
        exact (h.ahead c hc).1
      · rw [hadd]
        exact (h.ahead c hc).2
    · have hlt := here.toNat_lt
      apply Program.size_instr_of_word
      · rw [q.byte_below (by omega), p.byte_below (by omega)]
      · rw [q.byte_below (by omega), p.byte_below (by omega)]
  rw [Program.skipTarget, Program.skipTarget, hsize]

theorem Program.successors_of_skipTarget {i : Instr}
    (h : ∀ c, i = .skip c → q.skipTarget here = p.skipTarget here) (s : RegState) :
    q.successors here i s = p.successors here i s := by
  cases i with
  | skip c =>
    unfold successors
    rw [h c rfl]
  | _ => rfl

theorem Program.AgreesAt.alike (h : p.AgreesAt q here) (hsize : q.rom.size = p.rom.size)
    (d : Dialect) : Alike p q d d here := by
  constructor
  · exact Program.instr_of_bytes h.own
  · intro s
    exact Program.successors_of_skipTarget (fun c hc => h.skipTarget hc) s
  · intro chase s
    have hlimit : q.pointerLimit = p.pointerLimit := by
      simp only [Program.pointerLimit, hsize]
    rw [hlimit]

end Memory

section Choices

/-- The dialects differ in no choice that governs the instruction. -/
structure Dialect.AgreesOn (d e : Dialect) (i : Instr) : Prop where
  shift : d.shiftsInPlace ≠ e.shiftsInPlace →
    ∀ op x y, i = .carry op x y → op.isShift = true → x = y
  index : d.keepsIndex ≠ e.keepsIndex → ∀ x, i ≠ .save x ∧ i ≠ .load x
  flag : d.flagFirst ≠ e.flagFirst → ∀ op x y, i = .carry op x y → x ≠ flagRegister

variable {d e : Dialect}

theorem RegState.setV_comm (s : RegState) {x y : Nibble} (h : x ≠ y) (values values' : WordSet) :
    (s.setV x values).setV y values' = (s.setV y values').setV x values := by
  apply RegState.ext
  intro r
  simp only [setV, get_set]
  by_cases hx : Register.v x = r
  · subst hx
    have hy : Register.v y ≠ Register.v x := fun hv => h (Register.v.inj hv).symm
    simp [hy]
  · simp [hx]

theorem RegState.applyCarry_of_agreesOn {op : CarryOp} {x y : Nibble}
    (h : d.AgreesOn e (.carry op x y)) (s : RegState) :
    s.applyCarry e op x y = s.applyCarry d op x y := by
  have hsource : (if op.isShift && e.shiftsInPlace then x else y) =
      if op.isShift && d.shiftsInPlace then x else y := by
    by_cases hsame : d.shiftsInPlace = e.shiftsInPlace
    · rw [hsame]
    · cases hop : op.isShift with
      | false => rfl
      | true =>
        have hxy := h.shift hsame op x y rfl hop
        rw [hxy, ite_self, ite_self]
  simp only [applyCarry, hsource]
  by_cases hsame : d.flagFirst = e.flagFirst
  · rw [hsame]
  · have hx := h.flag hsame op x y rfl
    rw [s.setV_comm (Ne.symm hx), ite_self, ite_self]

theorem RegState.advanceIndex_of_eq (h : d.keepsIndex = e.keepsIndex) (s : RegState)
    (limit : Address) (x : Nibble) : s.advanceIndex e limit x = s.advanceIndex d limit x := by
  rw [advanceIndex, advanceIndex, h]

theorem RegState.transfer_of_agreesOn {i : Instr} (h : d.AgreesOn e i) (limit here : Address)
    (chase : WordSet → WordSet) (s : RegState) :
    s.transfer e limit here chase i = s.transfer d limit here chase i := by
  cases i with
  | carry op x y => exact applyCarry_of_agreesOn h s
  | save x =>
    have hsame : d.keepsIndex = e.keepsIndex := by
      by_contra hne
      exact (h.index hne x).1 rfl
    exact advanceIndex_of_eq hsame s limit x
  | load x =>
    have hsame : d.keepsIndex = e.keepsIndex := by
      by_contra hne
      exact (h.index hne x).2 rfl
    exact advanceIndex_of_eq hsame _ limit x
  | _ => rfl

theorem Dialect.AgreesOn.alike {p : Program} {here : Address} (h : d.AgreesOn e (p.instr here)) :
    Alike p p d e here :=
  ⟨rfl, fun _ => rfl, fun chase s => RegState.transfer_of_agreesOn h _ here chase s⟩

end Choices

namespace Analyzer

variable {p q : Program} {d e : Dialect}

theorem program_run (p : Program) (d : Dialect) : (start p d).run.program = p :=
  (grows_step visitBound (start p d)).program

theorem dialect_run (p : Program) (d : Dialect) : (start p d).run.dialect = d :=
  (grows_step visitBound (start p d)).dialect

theorem found_program (a : Analyzer) : a.found.program = a.program :=
  rfl

theorem found_reaching (a : Analyzer) : a.found.reaching = a.reaching :=
  rfl

theorem alikeReached_run (h : ∀ (here : Address) (s : RegState),
    (start p d).run.found.reaching[here] = some s → Alike p q d e here) :
    (start p d).run.AlikeReached q e := by
  intro here s hs
  rw [program_run, dialect_run]
  rw [← found_reaching] at hs
  exact h here s hs

theorem AlikeReached.found_run (h : (start p d).run.AlikeReached q e) :
    (start q e).run.found.reaching = (start p d).run.found.reaching ∧
      (start q e).run.found.classes = (start p d).run.found.classes ∧
      (start q e).run.found.references = (start p d).run.found.references ∧
      (start q e).run.found.symbols = (start p d).run.found.symbols ∧
      (start q e).run.steps = (start p d).run.steps := by
  rw [h.run_start]
  generalize (start p d).run = a
  exact ⟨rfl, rfl, rfl, rfl, rfl⟩

end Analyzer

/-- Every register is as at power-on wherever execution arrives. -/
def powerOnAt (addresses : List Address) (t : Address) : Option RegState :=
  if t ∈ addresses then some .powerOn else none

/-- A program whose registers never change reaches no more than these addresses. -/
theorem closed_powerOnAt {p : Program} {d : Dialect} {addresses : List Address}
    (hentry : entryPoint ∈ addresses)
    (hnext : ∀ a ∈ addresses, ∀ t ∈ p.successors a (p.instr a) .powerOn, t ∈ addresses ∧
      RegState.powerOn.transfer d p.pointerLimit a (Analyzer.chase (powerOnAt addresses))
        (p.instr a) ⊆ .powerOn) :
    Closed p d (powerOnAt addresses) := by
  constructor
  · exact ⟨.powerOn, if_pos hentry, refl _⟩
  · intro a s hs t ht
    unfold powerOnAt at hs
    split at hs
    · next ha =>
      cases hs
      obtain ⟨htm, hout⟩ := hnext a ha t ht
      exact ⟨.powerOn, if_pos htm, hout⟩
    · cases hs

theorem Analysis.ofRom_eq_found {rom : Array UInt8} (hfits : rom.size ≤ maxRomSize) (d : Dialect) :
    Analysis.ofRom rom d = .ok (Analyzer.start ⟨rom, hfits⟩ d).run.found := by
  have hrest := (Analyzer.Reachable.start (Analyzer.ofRom_of_fits hfits d)).run_isDone
  exact Analysis.ofRom_of_isDone hfits d hrest

theorem Analysis.mem_of_closed_powerOnAt {p : Program} {d : Dialect} {found : Analysis}
    {addresses : List Address} (h : Analysis.ofRom p.rom d = .ok found)
    (hS : Closed p d (powerOnAt addresses)) {here : Address} {s : RegState}
    (hs : found.reaching[here] = some s) : here ∈ addresses := by
  obtain ⟨a, ha, -, hfound⟩ := exists_ofRom p.fits d
  rw [h, Except.ok.injEq] at hfound
  subst hfound
  have hprogram : a.program = p := program_of_ofRom h
  obtain ⟨u, hu, -⟩ := (ha.inside (hprogram ▸ hS)).reaching here s hs
  by_contra hn
  rw [powerOnAt, if_neg hn] at hu
  cases hu

/-- Bytes that are never executed do not influence the analysis. A ROM of the same length that has
the same bytes in every instruction reached in the first one, and in the word after every skip
reached there, is analysed with the same outcome in the same number of visits. -/
theorem unexecuted_bytes_inert {rom rom' : Array UInt8} (hfits : rom.size ≤ maxRomSize)
    (hsize : rom'.size = rom.size) (d : Dialect) :
    ∃ explorer explorer' found found',
      Analyzer.ofRom rom d = .ok explorer ∧ Analyzer.ofRom rom' d = .ok explorer' ∧
      Analysis.ofRom rom d = .ok found ∧ Analysis.ofRom rom' d = .ok found' ∧
      ((∀ (here : Address) (s : RegState), found.reaching[here] = some s →
          found.program.AgreesAt found'.program here) →
        found'.reaching = found.reaching ∧ found'.classes = found.classes ∧
          found'.references = found.references ∧ found'.symbols = found.symbols ∧
          explorer'.run.steps = explorer.run.steps) := by
  have hfits' : rom'.size ≤ maxRomSize := hsize.trans_le hfits
  refine ⟨_, _, _, _, Analyzer.ofRom_of_fits hfits d, Analyzer.ofRom_of_fits hfits' d,
    Analysis.ofRom_eq_found hfits d, Analysis.ofRom_eq_found hfits' d, ?_⟩
  intro hagrees
  rw [Analyzer.found_program, Analyzer.found_program, Analyzer.program_run,
    Analyzer.program_run] at hagrees
  apply Analyzer.AlikeReached.found_run
  apply Analyzer.alikeReached_run
  intro here s hs
  exact (hagrees here s hs).alike hsize d

/-- A program that skips a long index load of the given address and ends. -/
def skippedLoad (hi lo : UInt8) : Program where
  rom := #[0x30, 0x00, 0xF0, 0x00, hi, lo, 0x00, 0xFD]
  fits := show 8 ≤ maxRomSize by decide

theorem instr_skippedLoad : (skippedLoad 0x12 0x34).instr 0x200 = .skip (.eqImm 0 0) ∧
    (skippedLoad 0x12 0x34).instr 0x206 = .exit := by
  decide

theorem closed_skippedLoad :
    Closed (skippedLoad 0x12 0x34) {} (powerOnAt [0x200, 0x206]) := by
  obtain ⟨hskip, hexit⟩ := instr_skippedLoad
  have hnext : (skippedLoad 0x12 0x34).successors 0x200 (.skip (.eqImm 0 0)) .powerOn = [0x206] := by
    decide +kernel
  apply closed_powerOnAt
  · simp [entryPoint]
  · intro here hhere t ht
    simp only [List.mem_cons, List.not_mem_nil, or_false] at hhere
    rcases hhere with rfl | rfl
    · rw [hskip, hnext] at ht
      rw [hskip]
      exact ⟨List.mem_cons_of_mem _ ht, refl _⟩
    · rw [hexit] at ht
      exact absurd ht List.not_mem_nil

theorem agreesAt_skippedLoad : ∀ here ∈ [0x200, 0x206],
    (skippedLoad 0x12 0x34).AgreesAt (skippedLoad 0xAB 0xCD) here := by
  obtain ⟨hskip, hexit⟩ := instr_skippedLoad
  intro here hhere
  simp only [List.mem_cons, List.not_mem_nil, or_false] at hhere
  rcases hhere with rfl | rfl
  · constructor
    · intro k hle hlt
      rw [hskip] at hlt
      replace hle : 512 ≤ k := hle
      replace hlt : k < 514 := hlt
      obtain rfl | rfl : k = 512 ∨ k = 513 := by omega
      · rfl
      · rfl
    · intro c _
      exact ⟨rfl, rfl⟩
  · constructor
    · intro k hle hlt
      rw [hexit] at hlt
      replace hle : 518 ≤ k := hle
      replace hlt : k < 520 := hlt
      obtain rfl | rfl : k = 518 ∨ k = 519 := by omega
      · rfl
      · rfl
    · intro c hc
      rw [hexit] at hc
      cases hc

theorem skipped_address_inert :
    (skippedLoad 0x12 0x34).rom.size ≤ maxRomSize ∧
      (skippedLoad 0xAB 0xCD).rom.size = (skippedLoad 0x12 0x34).rom.size ∧
      ∃ explorer explorer' found found',
        Analyzer.ofRom (skippedLoad 0x12 0x34).rom {} = .ok explorer ∧
        Analyzer.ofRom (skippedLoad 0xAB 0xCD).rom {} = .ok explorer' ∧
        Analysis.ofRom (skippedLoad 0x12 0x34).rom {} = .ok found ∧
        Analysis.ofRom (skippedLoad 0xAB 0xCD).rom {} = .ok found' ∧
        (∀ (here : Address) (s : RegState), found.reaching[here] = some s →
          found.program.AgreesAt found'.program here) ∧
        found'.reaching = found.reaching ∧ found'.classes = found.classes ∧
          found'.references = found.references ∧ found'.symbols = found.symbols ∧
          explorer'.run.steps = explorer.run.steps := by
  have hfits := (skippedLoad 0x12 0x34).fits
  have hsize : (skippedLoad 0xAB 0xCD).rom.size = (skippedLoad 0x12 0x34).rom.size := rfl
  obtain ⟨explorer, explorer', found, found', ha, ha', hfound, hfound', hinert⟩ :=
    unexecuted_bytes_inert hfits hsize {}
  have hagrees : ∀ (here : Address) (s : RegState), found.reaching[here] = some s →
      found.program.AgreesAt found'.program here := by
    intro here s hs
    rw [Analysis.program_of_ofRom (p := skippedLoad 0x12 0x34) hfound,
      Analysis.program_of_ofRom (p := skippedLoad 0xAB 0xCD) hfound']
    exact agreesAt_skippedLoad here
      (Analysis.mem_of_closed_powerOnAt hfound closed_skippedLoad hs)
  exact ⟨hfits, hsize, explorer, explorer', found, found', ha, ha', hfound, hfound', hagrees,
    hinert hagrees⟩

/-- A choice of the dialect is inert unless an instruction that it governs is reached. -/
theorem ungoverned_choices_inert {rom : Array UInt8} (hfits : rom.size ≤ maxRomSize)
    (d e : Dialect) :
    ∃ explorer explorer' found found',
      Analyzer.ofRom rom d = .ok explorer ∧ Analyzer.ofRom rom e = .ok explorer' ∧
      Analysis.ofRom rom d = .ok found ∧ Analysis.ofRom rom e = .ok found' ∧
      ((∀ (here : Address) (s : RegState), found.reaching[here] = some s →
          d.AgreesOn e (found.program.instr here)) →
        found'.reaching = found.reaching ∧ found'.classes = found.classes ∧
          found'.references = found.references ∧ found'.symbols = found.symbols ∧
          explorer'.run.steps = explorer.run.steps) := by
  refine ⟨_, _, _, _, Analyzer.ofRom_of_fits hfits d, Analyzer.ofRom_of_fits hfits e,
    Analysis.ofRom_eq_found hfits d, Analysis.ofRom_eq_found hfits e, ?_⟩
  intro hagrees
  rw [Analyzer.found_program, Analyzer.program_run] at hagrees
  apply Analyzer.AlikeReached.found_run
  apply Analyzer.alikeReached_run
  intro here s hs
  exact (hagrees here s hs).alike

/-- A program that shifts `v1` into itself and ends. -/
def ownShift : Program where
  rom := #[0x81, 0x16, 0x00, 0xFD]
  fits := by decide

theorem instr_ownShift :
    ownShift.instr 0x200 = .carry .shr 1 1 ∧ ownShift.instr 0x202 = .exit := by
  decide

theorem closed_ownShift : Closed ownShift {} (powerOnAt [0x200, 0x202]) := by
  obtain ⟨hshift, hexit⟩ := instr_ownShift
  apply closed_powerOnAt
  · simp [entryPoint]
  · intro here hhere t ht
    simp only [List.mem_cons, List.not_mem_nil, or_false] at hhere
    rcases hhere with rfl | rfl
    · rw [hshift] at ht ⊢
      exact ⟨List.mem_cons_of_mem _ ht, by decide +kernel⟩
    · rw [hexit] at ht
      exact absurd ht List.not_mem_nil

theorem agreesOn_ownShift : ∀ here ∈ [0x200, 0x202],
    Dialect.AgreesOn {} ⟨true, true, true⟩ (ownShift.instr here) := by
  obtain ⟨hshift, hexit⟩ := instr_ownShift
  intro here hhere
  simp only [List.mem_cons, List.not_mem_nil, or_false] at hhere
  rcases hhere with rfl | rfl
  · rw [hshift]
    constructor
    · intro _ op x y hi _
      cases hi
      rfl
    · intro _ x
      exact ⟨nofun, nofun⟩
    · intro _ op x y hi
      cases hi
      decide
  · rw [hexit]
    exact ⟨fun _ _ _ _ hi => (nomatch hi), fun _ _ => ⟨nofun, nofun⟩,
      fun _ _ _ _ hi => (nomatch hi)⟩

theorem choices_inert_in_own_shift :
    ownShift.rom.size ≤ maxRomSize ∧
      ∃ explorer explorer' found found',
        Analyzer.ofRom ownShift.rom {} = .ok explorer ∧
        Analyzer.ofRom ownShift.rom ⟨true, true, true⟩ = .ok explorer' ∧
        Analysis.ofRom ownShift.rom {} = .ok found ∧
        Analysis.ofRom ownShift.rom ⟨true, true, true⟩ = .ok found' ∧
        (∀ (here : Address) (s : RegState), found.reaching[here] = some s →
          Dialect.AgreesOn {} ⟨true, true, true⟩ (found.program.instr here)) ∧
        found'.reaching = found.reaching ∧ found'.classes = found.classes ∧
          found'.references = found.references ∧ found'.symbols = found.symbols ∧
          explorer'.run.steps = explorer.run.steps := by
  obtain ⟨explorer, explorer', found, found', ha, ha', hfound, hfound', hinert⟩ :=
    ungoverned_choices_inert ownShift.fits {} ⟨true, true, true⟩
  have hagrees : ∀ (here : Address) (s : RegState), found.reaching[here] = some s →
      Dialect.AgreesOn {} ⟨true, true, true⟩ (found.program.instr here) := by
    intro here s hs
    rw [Analysis.program_of_ofRom (p := ownShift) hfound]
    exact agreesOn_ownShift here (Analysis.mem_of_closed_powerOnAt hfound closed_ownShift hs)
  exact ⟨ownShift.fits, explorer, explorer', found, found', ha, ha', hfound, hfound', hagrees,
    hinert hagrees⟩

end OctoLift
