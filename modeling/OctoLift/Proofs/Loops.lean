import OctoLift.Proofs.Brackets
import OctoLift.Proofs.Scan

/-!
# Loops that are skipped or cross

Loops are opened by what a scan of their span finds and closed by what the walk writes. A recovered
loop is skipped if its tail lies within a chunk, and two recovered loops cross if the one opens
inside the other and goes on behind its tail. Both need a long index load in the span of a loop
that is written in two words, or a span that ends with memory.
-/

namespace OctoLift

namespace Analysis

variable (a : Analysis) (stop : Nat) (lines : List Line)

/-- A loop is opened whose tail begins no chunk. -/
def Skipped : Prop :=
  ∃ head tail, a.Recovers stop lines head tail ∧ ¬ Begun lines tail

/-- A loop is opened inside another one and goes on behind its tail. -/
def Crossed : Prop :=
  ∃ head tail head' tail', a.Recovers stop lines head tail ∧
    a.Recovers stop lines head' tail' ∧ head < head' ∧ head' < tail ∧ tail < tail'

/-- Some line is a chunk of one word at the address. -/
def BegunWord (t : Address) : Prop :=
  ∃ depth c, .chunk depth t c ∈ lines ∧ c.size = 2

/-- A scan and the walk may part at an address: its instruction runs out of memory, or it is a long
index load that is written as one word, and no single word follows or a loop opens there. -/
def PartsAt (here : Address) : Prop :=
  0xFFFF < here.toNat + (a.program.instr here).size ∨
    (a.program.instr here).size = 4 ∧ BegunWord lines here ∧
      (¬ BegunWord lines (here + 2) ∨ ∃ tail, a.Recovers stop lines (here + 2) tail)

/-- The scan of a recovered loop comes to an address at which the walk may part from it. -/
def Derailed : Prop :=
  ∃ head tail here, a.Recovers stop lines head tail ∧ a.program.Scans head here ∧ here < tail ∧
    a.PartsAt stop lines here

end Analysis

theorem exists_begun_of_extent {lines : List Line} (h : 0 < extent lines) :
    ∃ before depth here c after, lines = before ++ .chunk depth here c :: after ∧
      extent before = 0 := by
  induction lines with
  | nil => cases h
  | cons l rest ih =>
    by_cases hsize : l.size = 0
    · rw [extent_cons, hsize, Nat.zero_add] at h
      obtain ⟨before, depth, here, c, after, rfl, hbefore⟩ := ih h
      exact ⟨l :: before, depth, here, c, after, rfl, by rw [extent_cons, hsize, hbefore]⟩
    · cases l with
      | chunk depth here c => exact ⟨[], depth, here, c, rest, rfl, rfl⟩
      | _ => exact absurd rfl hsize

theorem begun_behind {a : Analysis} {stop : Nat} {lines : List Line}
    (h : Throughout (a.Holds stop) lines) {depth : Nat} {here t : Address} {c : Chunk}
    (hmem : .chunk depth here c ∈ lines) (ht : t.toNat = here.toNat + c.size)
    (hlt : t.toNat < entryPoint.toNat + extent lines) : Begun lines t := by
  obtain ⟨before, after, rfl⟩ := List.append_of_mem hmem
  have hhere := Analysis.toNat_of_holds h rfl
  rw [extent_append, extent_cons, Line.size] at hlt
  have hafter : 0 < extent after := by omega
  obtain ⟨zs, depth', t', c', ys, rfl, hzs⟩ := exists_begun_of_extent hafter
  have hsplit : before ++ .chunk depth here c :: (zs ++ .chunk depth' t' c' :: ys) =
      (before ++ .chunk depth here c :: zs) ++ .chunk depth' t' c' :: ys := by simp
  have hnext := Analysis.toNat_of_holds h hsplit
  rw [extent_append, extent_cons, Line.size, hzs] at hnext
  obtain rfl : t' = t := UInt16.toNat_inj.1 (by omega)
  exact ⟨depth', c', by simp⟩

namespace Walk

variable {a : Analysis} {stop : Nat} {w : Walk}

theorem size_chunkHere_of_isExecuted (h : (a.classes[w.here]).isExecuted = true) :
    (w.chunkHere a stop).size = 2 ∨
      (w.chunkHere a stop).size = (a.program.instr w.here).size := by
  rcases w.chunkHere_cases a stop with ⟨l, -, -, hc⟩ | ⟨-, ⟨i, hi, hc⟩ | hc | hc⟩
  · exact Or.inl (by rw [hc]; rfl)
  · rw [(Analysis.machineInstrAt_eq_some hi).2.1] at h
    cases h
  · exact Or.inl (by rw [hc]; rfl)
  · rw [hc]
    unfold Analysis.chunkByClass
    cases hclass : a.classes[w.here] with
    | unclassified => rw [hclass] at h; cases h
    | data => rw [hclass] at h; cases h
    | selfModifying => exact Or.inl rfl
    | code =>
      dsimp only
      split
      · exact Or.inl rfl
      split
      · exact Or.inl rfl
      · exact Or.inr rfl

/-- What every step keeps and then grants to the chunk that it writes, all chunks of a walk have. -/
theorem ask_of_run {P : Walk → Prop} (ask : List Line → Address → Chunk → Prop) (hstart : P start)
    (hstep : ∀ w, w.location < stop → P w → P (step a stop w))
    (hask : ∀ w, w.location < stop → P w →
      ask (w.lines.toList ++ (w.header a stop ++ w.nextLines a stop)) w.here (w.chunkHere a stop))
    {before after : List Line} {depth : Nat} {here : Address} {c : Chunk}
    (h : (start.run a stop).lines.toList = before ++ .chunk depth here c :: after) :
    ask before here c := by
  let asked (before : List Line) (l : Line) : Prop :=
    ∀ depth here c, l = .chunk depth here c → ask before here c
  have hquiet (xs : List Line) (hxs : ∀ l ∈ xs, l.size = 0) (f : List Line → List Line) :
      Throughout (fun before => asked (f before)) xs := by
    refine throughout_of_size_eq_zero hxs fun before _ l hl depth here c hc => ?_
    have hsize := hxs l hl
    rw [hc] at hsize
    exact absurd hsize (Nat.pos_iff_ne_zero.1 c.size_pos)
  have hall : Throughout asked (start.run a stop).lines.toList := by
    refine (run_induction (P := fun v => P v ∧ Throughout asked v.lines.toList) ?_
      ⟨hstart, throughout_nil⟩).1.2
    intro v hlt hv
    obtain ⟨hv, hlines⟩ := hv
    refine ⟨hstep v hlt hv, ?_⟩
    rw [toList_lines_step, written, throughout_append, throughout_append, throughout_cons]
    refine ⟨hlines, hquiet _ (fun l hl => size_of_mem_beforeChunk hl) _, ?_,
      hquiet _ (fun l hl => size_of_mem_blankAfter hl) _⟩
    intro depth here c hc
    cases hc
    rw [List.append_nil]
    exact hask v hlt hv
  exact hall before _ after h depth here c rfl

theorem exists_chunkHere_of_mem_run {depth : Nat} {here : Address} {c : Chunk}
    (h : .chunk depth here c ∈ (start.run a stop).lines.toList) :
    ∃ w : Walk, w.here = here ∧ w.chunkHere a stop = c := by
  obtain ⟨before, after, hlines⟩ := List.append_of_mem h
  exact ask_of_run (P := fun _ => True)
    (fun _ here c => ∃ w : Walk, w.here = here ∧ w.chunkHere a stop = c) trivial
    (fun _ _ _ => trivial) (fun w _ _ => ⟨w, rfl, rfl⟩) hlines

theorem run_of_le (a : Analysis) {w : Walk} (h : stop ≤ w.location) : run a stop w = w := by
  rw [run, if_neg (Nat.not_lt.2 h)]

theorem prefix_run (a : Analysis) (stop : Nat) (w : Walk) :
    w.lines.toList <+: (run a stop w).lines.toList := by
  refine (run_induction (P := fun v => w.lines.toList <+: v.lines.toList) (fun v _ hv => ?_)
    (List.prefix_refl _)).1
  rw [toList_lines_step]
  exact hv.trans (List.prefix_append _ _)

theorem begun_of_run (hstop : stop ≤ 65536) {t : Address}
    (h : Begun (run a stop w).lines.toList t) :
    Begun w.lines.toList t ∨ w.location ≤ t.toNat := by
  revert h
  apply And.right
  refine (run_induction (P := fun v => w.location ≤ v.location ∧
    (Begun v.lines.toList t → Begun w.lines.toList t ∨ w.location ≤ t.toNat)) ?_
    ⟨Nat.le_refl _, Or.inl⟩).1
  intro v hlt hv
  obtain ⟨hle, hbegun⟩ := hv
  refine ⟨Nat.le_trans hle (Nat.le_of_lt (location_lt_step a stop v)), ?_⟩
  intro ht
  rcases begun_step_iff.1 ht with ht | rfl
  · exact hbegun ht
  · rw [toNat_here (by omega)]
    exact Or.inr hle

end Walk

abbrev Analysis.walked (a : Analysis) (stop : Nat) : List Line :=
  (Walk.start.run a stop).lines.toList

namespace Walk

variable {a : Analysis} {stop : Nat} {w : Walk}

/-- The walk stands somewhere on the way from the entry point. -/
structure OnWay (a : Analysis) (stop : Nat) (w : Walk) : Prop where
  sound : Sound a stop w
  nested : Nested a stop w
  run_lines : (run a stop w).lines.toList = a.walked stop

section Run

variable (hentry : a.symbols.labels[entryPoint] = some .entry) (hstop : stop ≤ 65536)

include hentry hstop

theorem OnWay.step (h : OnWay a stop w) (hlt : w.location < stop) :
    OnWay a stop (Walk.step a stop w) := by
  have hhere : w.here.toNat = w.location := toNat_here (by omega)
  exact ⟨h.sound.step hentry hlt hstop, h.nested.step h.sound hhere,
    by rw [← run_of_lt a hlt, h.run_lines]⟩

omit hentry hstop in
theorem onWay_start (a : Analysis) (stop : Nat) : OnWay a stop start :=
  ⟨sound_start a stop, nested_start a stop, rfl⟩

theorem onWay_run : OnWay a stop (start.run a stop) :=
  (run_induction (fun _ hlt h => h.step hentry hstop hlt) (onWay_start a stop)).1

theorem exists_onWay_of_begun {t : Address} (h : Begun (a.walked stop) t) :
    ∃ w, OnWay a stop w ∧ w.location < stop ∧ w.here = t := by
  revert h
  apply And.right
  refine (run_induction (P := fun v => OnWay a stop v ∧
    (Begun v.lines.toList t → ∃ w, OnWay a stop w ∧ w.location < stop ∧ w.here = t)) ?_
    ⟨onWay_start a stop, ?_⟩).1
  · intro v hlt hv
    obtain ⟨hway, hbegun⟩ := hv
    refine ⟨hway.step hentry hstop hlt, ?_⟩
    intro ht
    rcases begun_step_iff.1 ht with ht | ht
    · exact hbegun ht
    · exact ⟨v, hway, hlt, ht⟩
  · intro ht
    obtain ⟨_, _, hmem⟩ := ht
    cases hmem

theorem openHeads_run_eq_nil_iff : openHeads (a.walked stop) = [] ↔
    ¬ a.Skipped stop (a.walked stop) := by
  have hn := (onWay_run hentry hstop).nested
  rw [← List.length_eq_zero_iff, hn.length_eq, List.length_eq_zero_iff,
    List.eq_nil_iff_forall_not_mem]
  constructor
  · intro h hskipped
    obtain ⟨head, tail, hrec, hout⟩ := hskipped
    exact h ⟨head, tail⟩ ((hn.mem_iff _).2 ⟨hrec, hout⟩)
  · intro h l hl
    obtain ⟨hrec, hout⟩ := (hn.mem_iff l).1 hl
    exact h ⟨l.head, l.tail, hrec, hout⟩

theorem OnWay.recovers (h : OnWay a stop w) (hlt : w.location < stop) {l : OpenLoop}
    (hl : l ∈ w.opened a stop) :
    a.Recovers stop (a.walked stop) l.head l.tail ∧
      ¬ Begun w.lines.toList l.tail := by
  have hhere : w.here.toNat = w.location := toNat_here (by omega)
  obtain ⟨hrec, hout⟩ := (h.nested.mem_opened_iff h.sound l hhere).1 hl
  refine ⟨hrec.mono ?_, hout⟩
  rw [← (h.step hentry hstop hlt).run_lines]
  exact (prefix_run a stop _).subset

omit hentry in
theorem OnWay.mem_openLoops (h : OnWay a stop w) (hlt : w.location < stop) {l : OpenLoop}
    (hrec : a.Recovers stop (a.walked stop) l.head l.tail)
    (hhead : l.head < w.here) (htail : w.here ≤ l.tail) : l ∈ w.openLoops := by
  have hhere : w.here.toNat = w.location := toNat_here (by omega)
  rw [UInt16.lt_iff_toNat_lt] at hhead
  rw [UInt16.le_iff_toNat_le] at htail
  have hbegun := hrec.begun
  rw [← h.run_lines] at hbegun
  have hbefore := (begun_of_run hstop hbegun).resolve_right (by omega)
  refine (h.nested.mem_iff l).2 ⟨⟨hbefore, hrec.refers, hrec.isTail⟩, ?_⟩
  intro hout
  have hbehind := h.sound.lt_of_begun hout
  omega

/-- Where the walk ends a loop inside of which another one is still open, these two cross. -/
theorem OnWay.crosses (h : OnWay a stop w) (hlt : w.location < stop)
    (hskipped : ¬ a.Skipped stop (a.walked stop)) {l k : OpenLoop}
    (hl : l ∈ w.opened a stop) (htail : l.tail = w.here) (hk : k ∈ w.opened a stop)
    (hlk : l.head < k.head) : a.Crossed stop (a.walked stop) := by
  have hhere : w.here.toNat = w.location := toNat_here (by omega)
  obtain ⟨hlrec, -⟩ := h.recovers hentry hstop hlt hl
  obtain ⟨hkrec, hkout⟩ := h.recovers hentry hstop hlt hk
  have hkbegun : Begun (a.walked stop) k.tail := by
    by_contra hout
    exact hskipped ⟨k.head, k.tail, hkrec, hout⟩
  rw [← h.run_lines] at hkbegun
  have hbehind := (begun_of_run hstop hkbegun).resolve_left hkout
  have hjump := Analysis.instr_of_isLoopTail hlrec.isTail
  refine ⟨l.head, l.tail, k.head, k.tail, hlrec, hkrec, hlk, ?_, ?_⟩
  · rcases (w.mem_opened a stop).1 hk with ⟨hhead, -⟩ | hopen
    · -- no loop opens here, for the jump back leads beyond it
      rw [htail, ← hhead] at hjump
      have hback := Analysis.head_le_of_scans hkrec.isTail .start
        (Analysis.head_le_of_isLoopTail hkrec.isTail) hjump
      exact absurd hlk (UInt16.not_lt.2 hback)
    · have hbefore := h.sound.lt_of_begun ((h.nested.mem_iff k).1 hopen).1.begun
      rw [htail, UInt16.lt_iff_toNat_lt]
      omega
  · rw [htail, UInt16.lt_iff_toNat_lt]
    apply Nat.lt_of_le_of_ne (hhere ▸ hbehind)
    intro hsame
    have hsame : k.tail = l.tail := (UInt16.toNat_inj.1 hsame).symm.trans htail.symm
    have hheads := Analysis.head_eq_of_isLoopTail hlrec.isTail (hsame ▸ hkrec.isTail)
    rw [hheads] at hlk
    exact UInt16.lt_irrefl _ hlk

theorem matched_of_not_crossed
    (hskipped : ¬ a.Skipped stop (a.walked stop))
    (hcrossed : ¬ a.Crossed stop (a.walked stop)) :
    Matched a.program (a.walked stop) := by
  refine (run_induction (P := fun v => OnWay a stop v ∧ Matched a.program v.lines.toList) ?_
    ⟨onWay_start a stop, throughout_nil⟩).1.2
  intro v hlt hv
  obtain ⟨hway, hmatched⟩ := hv
  have hhere : v.here.toNat = v.location := toNat_here (by omega)
  refine ⟨hway.step hentry hstop hlt, (atEnds_step_iff hway.sound).2 ⟨hmatched, ?_⟩⟩
  intro hagain
  rcases hway.nested.chunkHere_isAgain hway.sound hhere with ⟨-, l, hl, htail, hjump⟩ | ⟨hnot, -⟩
  · refine ⟨l.head, hjump, (hway.nested.closes_iff hhere hmatched hl).2 ?_⟩
    intro k hk
    by_contra hlk
    exact hcrossed (hway.crosses hentry hstop hlt hskipped hl htail hk (UInt16.not_le.1 hlk))
  · rw [hagain] at hnot
    cases hnot

theorem not_crossed_of_matched
    (hmatched : Matched a.program (a.walked stop))
    (hskipped : ¬ a.Skipped stop (a.walked stop)) :
    ¬ a.Crossed stop (a.walked stop) := by
  intro h
  obtain ⟨head, tail, head', tail', hrec, hrec', hheads, hinside, htails⟩ := h
  have hbegun : Begun (a.walked stop) tail := by
    by_contra hout
    exact hskipped ⟨head, tail, hrec, hout⟩
  obtain ⟨w, hway, hlt, rfl⟩ := exists_onWay_of_begun hentry hstop hbegun
  have hhere : w.here.toNat = w.location := toNat_here (by omega)
  have hl : OpenLoop.mk head w.here ∈ w.opened a stop :=
    (w.mem_opened a stop).2 (Or.inr (hway.mem_openLoops hstop hlt hrec
      (UInt16.lt_trans hheads hinside) (UInt16.le_refl _)))
  have hk : OpenLoop.mk head' tail' ∈ w.opened a stop :=
    (w.mem_opened a stop).2 (Or.inr (hway.mem_openLoops hstop hlt hrec' hinside
      (UInt16.le_of_lt htails)))
  have hstep : Matched a.program (Walk.step a stop w).lines.toList := by
    obtain ⟨rest, hrest⟩ := prefix_run a stop (Walk.step a stop w)
    rw [(hway.step hentry hstop hlt).run_lines] at hrest
    rw [← hrest] at hmatched
    exact (throughout_append.1 hmatched).1
  obtain ⟨hbefore, hclose⟩ := (atEnds_step_iff hway.sound).1 hstep
  rcases hway.nested.chunkHere_isAgain hway.sound hhere with ⟨hagain, -⟩ | ⟨-, hkeep⟩
  · obtain ⟨target, hjump, hrest⟩ := hclose hagain
    obtain rfl : target = head :=
      Instr.jump.inj (hjump.symm.trans (Analysis.instr_of_isLoopTail hrec.isTail))
    have hle := (hway.nested.closes_iff hhere hbefore hl).1 hrest _ hk
    exact absurd hheads (UInt16.not_lt.2 hle)
  · rw [← hkeep, stillOpen, List.mem_filter] at hl
    simp at hl

omit hentry hstop in
/-- Where the two do not part, the walk writes an instruction whole or as two words, between which
no loop opens. -/
theorem whole_or_two_words {x : Address} (hexec : (a.classes[x]).isExecuted = true)
    (hbegun : Begun (a.walked stop) x)
    (hon : ¬ a.PartsAt stop (a.walked stop) x) :
    x.toNat + (a.program.instr x).size ≤ 0xFFFF ∧
      ((∃ depth c, .chunk depth x c ∈ a.walked stop ∧
          c.size = (a.program.instr x).size) ∨
        ((a.program.instr x).size = 4 ∧ (x + 2).toNat = x.toNat + 2 ∧
          Analysis.BegunWord (a.walked stop) x ∧
          Analysis.BegunWord (a.walked stop) (x + 2) ∧
          ∀ tail, ¬ a.Recovers stop (a.walked stop) (x + 2) tail)) := by
  rw [Analysis.PartsAt, not_or, Nat.not_lt] at hon
  obtain ⟨hmemory, hon⟩ := hon
  refine ⟨hmemory, ?_⟩
  obtain ⟨depth, c, hmem⟩ := hbegun
  obtain ⟨w, rfl, rfl⟩ := exists_chunkHere_of_mem_run hmem
  by_cases hwhole : (w.chunkHere a stop).size = (a.program.instr w.here).size
  · exact Or.inl ⟨depth, _, hmem, hwhole⟩
  · have hword := (size_chunkHere_of_isExecuted hexec).resolve_right hwhole
    have hlong : (a.program.instr w.here).size = 4 :=
      (a.program.instr w.here).size_eq.resolve_left fun h => hwhole (hword.trans h.symm)
    have htwo : (w.here + 2).toNat = w.here.toNat + 2 := by
      rw [UInt16.toNat_add]
      show (w.here.toNat + 2) % 65536 = _
      omega
    have hfirst : Analysis.BegunWord (a.walked stop) w.here :=
      ⟨depth, _, hmem, hword⟩
    refine Or.inr ⟨hlong, htwo, hfirst, ?_, ?_⟩
    · by_contra hnot
      exact hon ⟨hlong, hfirst, Or.inl hnot⟩
    · intro tail hrec
      exact hon ⟨hlong, hfirst, Or.inr ⟨tail, hrec⟩⟩

/-- The walk comes to everything that the scan of a recovered loop comes to up to the tail, unless
they part. -/
theorem begun_of_scans {head tail here : Address}
    (hrec : a.Recovers stop (a.walked stop) head tail)
    (hon : ∀ x, a.program.Scans head x → x < tail →
      ¬ a.PartsAt stop (a.walked stop) x)
    (hscan : a.program.Scans head here) (hle : here ≤ tail) :
    Begun (a.walked stop) here := by
  have hspans := Analysis.spans_of_isLoopTail hrec.isTail
  have hstoptail := Analysis.lt_stop_of_isLoopTail hrec.isTail
  obtain ⟨hsound, hend⟩ := sound_run hentry hstop
  have hlocation := hsound.location
  induction hscan with
  | start => exact hrec.begun
  | @next here hscan ih =>
    have hhere := UInt16.le_trans (Address.le_advance _ _) hle
    have hbegun := ih hhere
    obtain ⟨hexec, -, heq | ⟨hlt, -⟩⟩ :=
      Analysis.spans_cases (Analysis.spans_of_scans hspans hscan hhere)
    · rw [← heq] at hle
      rwa [UInt16.le_antisymm hle (Address.le_advance _ _)]
    · obtain ⟨hmemory, hchunks⟩ := whole_or_two_words hexec hbegun (hon here hscan hlt)
      have hnext : (Address.advance here (a.program.instr here).size).toNat =
          here.toNat + (a.program.instr here).size := by
        rw [Address.toNat_advance]
        omega
      rw [UInt16.le_iff_toNat_le] at hle
      rcases hchunks with ⟨depth, c, hmem, hsize⟩ | ⟨hlong, htwo, -, ⟨depth, c, hmem, hsize⟩, -⟩
      · exact begun_behind hsound.holds hmem (by omega) (by omega)
      · exact begun_behind hsound.holds hmem (by omega) (by omega)

theorem derailed_of_skipped (h : a.Skipped stop (a.walked stop)) :
    a.Derailed stop (a.walked stop) := by
  obtain ⟨head, tail, hrec, hout⟩ := h
  by_contra hnot
  apply hout
  have hspans := Analysis.spans_of_isLoopTail hrec.isTail
  refine begun_of_scans hentry hstop hrec ?_ (Analysis.scans_of_spans hspans) (UInt16.le_refl _)
  intro x hx hlt hparts
  exact hnot ⟨head, tail, x, hrec, hx, hlt, hparts⟩

theorem derailed_of_crossed (h : a.Crossed stop (a.walked stop)) :
    a.Derailed stop (a.walked stop) := by
  obtain ⟨head, tail, head', tail', hrec, hrec', hheads, hinside, htails⟩ := h
  have hspans := Analysis.spans_of_isLoopTail hrec.isTail
  obtain ⟨s, hs, hle, hlt⟩ :=
    Analysis.exists_scans_of_le hspans (UInt16.le_of_lt hheads) hinside
  have hstail : s < tail := UInt16.lt_of_le_of_lt hle hinside
  have hfit := Analysis.spans_of_scans hspans hs (UInt16.le_of_lt hstail)
  -- if the scan of the first loop came to the second head, that of the second would come to the
  -- first tail, where the program jumps back beyond its head
  have hne : s ≠ head' := by
    intro heq
    have hscan := Analysis.scans_of_spans hfit
    rw [heq] at hscan
    have hback := Analysis.head_le_of_scans hrec'.isTail hscan (UInt16.le_of_lt htails)
      (Analysis.instr_of_isLoopTail hrec.isTail)
    exact absurd hheads (UInt16.not_lt.2 hback)
  by_contra hnot
  have hon (x : Address) (hx : a.program.Scans head x) (hlt : x < tail) :
      ¬ a.PartsAt stop (a.walked stop) x :=
    fun hparts => hnot ⟨head, tail, x, hrec, hx, hlt, hparts⟩
  have hbegun := begun_of_scans hentry hstop hrec hon hs (UInt16.le_of_lt hstail)
  obtain ⟨-, hchunks⟩ := whole_or_two_words (Analysis.spans_cases hfit).1 hbegun (hon s hs hstail)
  obtain ⟨depth', c', hmem'⟩ := hrec'.begun
  have hapart {depth : Nat} {x : Address} {c : Chunk}
      (hmem : .chunk depth x c ∈ a.walked stop) :=
    Analysis.chunks_apart (sound_run hentry hstop).1.holds hmem hmem'
  have hpos := c'.size_pos
  rw [UInt16.le_iff_toNat_le] at hle
  rcases hchunks with ⟨depth, c, hmem, hsize⟩ | ⟨hlong, htwo, ⟨depth, c, hmem, hsize⟩,
    ⟨depth₂, c₂, hmem₂, hsize₂⟩, hfree⟩
  · have hwhole := (hapart hmem).resolve_left hne
    omega
  · have hfirst := (hapart hmem).resolve_left hne
    rcases hapart hmem₂ with heq | hsecond
    · rw [← heq] at hrec'
      exact hfree tail' hrec'
    · omega

end Run

end Walk

end OctoLift
