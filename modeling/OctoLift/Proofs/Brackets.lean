import Mathlib.Data.List.Nodup
import OctoLift.Proofs.Introductions
import OctoLift.Proofs.Potential

/-!
# Loops as brackets

A reader of a listing keeps a stack of open loops: `loop` puts the present location on top, `again`
takes the top away. The walk keeps its own list of open loops, each with the tail that it waits
for. The two have the same length all along, and as long as every `again` has closed the loop
that its jump leads to they hold the same heads.
-/

namespace OctoLift

/-- Whether a chunk is the end of a loop. -/
def Chunk.isAgain : Chunk → Bool
  | again _ => true
  | _ => false

namespace Line

/-- Whether a line opens a loop. -/
def isLoop : Line → Bool
  | loop _ _ => true
  | _ => false

/-- Whether a line ends a loop. -/
def isAgain : Line → Bool
  | chunk _ _ c => c.isAgain
  | _ => false

/-- The heads of the open loops, the innermost first, after a line at a location. -/
def leavesOpen (location : Nat) (heads : List Nat) (l : Line) : List Nat :=
  if l.isLoop then location :: heads else if l.isAgain then heads.tail else heads

end Line

/-- The heads of the open loops after some lines, the first of which stands at `location`. -/
def openAfter (location : Nat) (heads : List Nat) : List Line → List Nat
  | [] => heads
  | l :: rest => openAfter (location + l.size) (l.leavesOpen location heads) rest

/-- The heads of the loops that are open after the first lines of a listing. -/
def openHeads (lines : List Line) : List Nat :=
  openAfter entryPoint.toNat [] lines

/-- At every `again`, its address and the loops that are open before it are as asked for. -/
def AtEnds (ask : Address → List Nat → Prop) (lines : List Line) : Prop :=
  Throughout (fun before l => l.isAgain = true →
    ask (UInt16.ofNat (entryPoint.toNat + extent before)) (openHeads before)) lines

/-- Every `again` closes the loop to whose head the program jumps there. -/
def Matched (p : Program) (lines : List Line) : Prop :=
  AtEnds (fun here heads => ∃ head : Address, p.instr here = .jump head ∧
    ∃ rest, heads = head.toNat :: rest) lines

section Reading

variable {xs ys : List Line} {location : Nat} {heads : List Nat}

theorem openAfter_append : openAfter location heads (xs ++ ys) =
    openAfter (location + extent xs) (openAfter location heads xs) ys := by
  induction xs generalizing location heads with
  | nil => simp [openAfter]
  | cons l rest ih => rw [List.cons_append, openAfter, ih, openAfter, extent_cons, Nat.add_assoc]

theorem openHeads_append : openHeads (xs ++ ys) =
    openAfter (entryPoint.toNat + extent xs) (openHeads xs) ys :=
  openAfter_append

theorem Line.isAgain_of_size {l : Line} (h : l.size = 0) : l.isAgain = false := by
  cases l with
  | chunk depth here c => exact absurd h (Nat.pos_iff_ne_zero.1 c.size_pos)
  | _ => rfl

/-- Lines that stand for no location can only open loops, all with the same head. -/
theorem openAfter_of_size_eq_zero (h : ∀ l ∈ xs, l.size = 0) :
    openAfter location heads xs = List.replicate (xs.countP Line.isLoop) location ++ heads := by
  induction xs generalizing heads with
  | nil => rfl
  | cons l rest ih =>
    have hsize := h l (by simp)
    rw [openAfter, hsize, Nat.add_zero, ih fun m hm => h m (by simp [hm]), Line.leavesOpen,
      Line.isAgain_of_size hsize]
    cases hl : l.isLoop with
    | true => simp [hl, List.replicate_succ']
    | false => simp [hl]

theorem throughout_cons {ask : List Line → Line → Prop} {l : Line} :
    Throughout ask (l :: xs) ↔ ask [] l ∧ Throughout (fun before => ask (l :: before)) xs := by
  rw [← List.singleton_append, throughout_append]
  constructor
  · intro h
    exact ⟨h.1 [] l [] rfl, h.2⟩
  · intro h
    exact ⟨throughout_singleton h.1, h.2⟩

theorem throughout_isAgain_of_size {ask : List Line → Line → Prop} (h : ∀ l ∈ xs, l.size = 0) :
    Throughout (fun before l => l.isAgain = true → ask before l) xs := by
  refine throughout_of_size_eq_zero h fun before _ l hl hagain => ?_
  rw [Line.isAgain_of_size (h l hl)] at hagain
  cases hagain

/-- Lines that neither stand for a location nor open a loop do not matter to a reader. -/
theorem openHeads_quiet_append (hsize : ∀ l ∈ xs, l.size = 0) (hloop : ∀ l ∈ xs, l.isLoop = false) :
    openHeads (xs ++ ys) = openHeads ys := by
  have hcount : xs.countP Line.isLoop = 0 := by
    rw [List.countP_eq_zero]
    intro l hl
    simp [hloop l hl]
  rw [openHeads_append, extent_eq_zero hsize, openHeads, openAfter_of_size_eq_zero hsize, hcount]
  rfl

theorem atEnds_quiet_append {ask : Address → List Nat → Prop} (hsize : ∀ l ∈ xs, l.size = 0)
    (hloop : ∀ l ∈ xs, l.isLoop = false) : AtEnds ask (xs ++ ys) ↔ AtEnds ask ys := by
  have hquiet : AtEnds ask xs := throughout_isAgain_of_size hsize
  simp only [AtEnds, throughout_append, extent_append, extent_eq_zero hsize, Nat.zero_add,
    openHeads_quiet_append hsize hloop]
  exact ⟨fun h => h.2, fun h => ⟨hquiet, h⟩⟩

end Reading

section Words

/-- The words that open and end loops. -/
def brackets : List String :=
  ["loop", "again"]

namespace Token

/-- Whether a token opens or ends a loop. -/
def isBracket (t : Token) : Bool :=
  brackets.contains t.text

theorem not_mem_brackets_of_digit {w : String} {c : Char} {rest : List Char}
    (hw : w.toList = c :: rest) (hc : c.isDigit = true) : brackets.contains w = false := by
  have hother (v : String) (d : Char) (rest' : List Char) (hv : v.toList = d :: rest')
      (hd : d.isDigit = false) : w ≠ v := by
    intro heq
    rw [heq, hv] at hw
    rw [← (List.cons.inj hw).1, hd] at hc
    cases hc
  have hloop : w ≠ "loop" := hother "loop" 'l' _ rfl rfl
  have hagain : w ≠ "again" := hother "again" 'a' _ rfl rfl
  simp [brackets, hloop, hagain]

@[simp] theorem isBracket_directive (w : String) (h : w ∈ directives) :
    (directive w h).isBracket = false := by
  have hnot : ∀ w ∈ directives, brackets.contains w = false := by decide
  exact hnot w h

@[simp] theorem isBracket_plain (w : String) (h : isPlain w = true) :
    (plain w h).isBracket = brackets.contains w :=
  rfl

@[simp] theorem isBracket_name (s : Symbol) : (name s).isBracket = false := by
  have hname : ∀ w ∈ brackets, isName w = false := by decide
  rw [isBracket, Bool.eq_false_iff]
  intro hs
  have hmem := hname _ (List.contains_iff_mem.1 hs)
  rw [text_name, s.isName_text] at hmem
  cases hmem

@[simp] theorem isBracket_register (x : Nibble) : (register x).isBracket = false := by
  revert x
  decide

@[simp] theorem isBracket_decimal (n : Nat) : (decimal n).isBracket = false := by
  rw [isBracket, text_decimal]
  cases hn : (Numeral.decimal n).toList with
  | nil => exact absurd hn (isWord_iff.1 (isWord_decimal n)).1
  | cons c rest =>
    apply not_mem_brackets_of_digit hn
    apply isDigit_of_mem_decimal (n := n)
    simp [hn]

theorem not_mem_brackets_hexUpper (width n : Nat) :
    brackets.contains (Numeral.hexUpper width n) = false :=
  not_mem_brackets_of_digit (Numeral.toList_hexUpper width n) rfl

@[simp] theorem isBracket_byte (b : UInt8) : (byte b).isBracket = false :=
  not_mem_brackets_hexUpper 2 b.toNat

@[simp] theorem isBracket_literal (a : Address) : (literal a).isBracket = false :=
  not_mem_brackets_hexUpper 3 a.toNat

@[simp] theorem isBracket_target (names : NameMap) (a : Address) :
    (target names a).isBracket = false := by
  unfold target
  cases names[a] <;> simp

end Token

theorem Instr.isBracket_of_mem_tokens {t : SymbolTable} {i : Instr} :
    ∀ tok ∈ i.tokens t, tok.isBracket = false := by
  cases i with
  | skip c => cases c <;> simp [tokens, Condition.tokens, brackets]
  | alu op x y => cases op <;> simp [tokens, AluOp.token, brackets]
  | carry op x y => cases op <;> simp [tokens, CarryOp.token, brackets]
  | call a =>
    simp only [tokens]
    cases t.subroutines[a] <;> simp [brackets]
  | _ => simp [tokens, brackets]

/-- What the words `loop` and `again` of a line are: the word alone on a line of its kind, and no
word of any other line. -/
theorem Line.tokens_brackets (p : Program) (t : SymbolTable) (l : Line) :
    (l.isLoop = true ∧ (l.tokens p t).map Token.text = ["loop"]) ∨
      (l.isAgain = true ∧ (l.tokens p t).map Token.text = ["again"]) ∨
      (l.isLoop = false ∧ l.isAgain = false ∧ ∀ tok ∈ l.tokens p t, tok.isBracket = false) := by
  cases l with
  | loop depth head => exact Or.inl ⟨rfl, rfl⟩
  | chunk depth here c =>
    refine Or.inr ?_
    cases c with
    | again head => exact Or.inl ⟨rfl, rfl⟩
    | code i => exact Or.inr ⟨rfl, rfl, i.isBracket_of_mem_tokens⟩
    | _ => exact Or.inr ⟨rfl, rfl, by simp [tokens, Chunk.tokens]⟩
  | _ => exact Or.inr (Or.inr ⟨rfl, rfl, by simp [tokens]⟩)

end Words

namespace Analysis

theorem countP_isLoop_headerLines (a : Analysis) (here : Address) (depth : Nat)
    (tails others : List Address) :
    (a.headerLines here depth tails others).countP Line.isLoop = tails.length := by
  have hname (symbol : Option Symbol) : (nameLine symbol).countP Line.isLoop = 0 := by
    cases symbol <;> rfl
  have hloops : ((List.range tails.length).map fun k => Line.loop (depth + k + 1) here).countP
      Line.isLoop = tails.length := by
    rw [List.countP_eq_length.2, List.length_map, List.length_range]
    intro l hl
    obtain ⟨k, _, rfl⟩ := List.mem_map.1 hl
    rfl
  simp only [headerLines, List.countP_append, hloops]
  split
  · split <;> split <;> split <;> split <;> simp [hname, Line.isLoop]
  · split <;> split <;> split <;> simp [hname, Line.isLoop]

end Analysis

namespace Walk

variable {a : Analysis} {stop : Nat} {w : Walk}

/-- The heads of the open loops as a reader has them before the chunk that is written here. -/
def headsHere (a : Analysis) (stop : Nat) (w : Walk) : List Nat :=
  List.replicate (w.tails a stop).length w.location ++ openHeads w.lines.toList

theorem size_of_mem_beforeChunk {l : Line} (h : l ∈ w.header a stop ++ w.nextLines a stop) :
    l.size = 0 := by
  rcases List.mem_append.1 h with h | h
  · exact size_of_mem_header h
  · exact size_of_mem_nextLines h

theorem openHeads_beforeChunk (hw : Sound a stop w) :
    openHeads (w.lines.toList ++ (w.header a stop ++ w.nextLines a stop)) =
      w.headsHere a stop := by
  have hnext : (w.nextLines a stop).countP Line.isLoop = 0 := by
    rw [List.countP_eq_zero]
    intro l hl
    obtain ⟨s, rfl, -⟩ := w.mem_nextLines a stop hl
    simp [Line.isLoop]
  rw [openHeads_append, openAfter_of_size_eq_zero fun l hl => size_of_mem_beforeChunk hl,
    List.countP_append, hnext, header, Analysis.countP_isLoop_headerLines, headsHere, hw.location,
    Nat.add_zero]

theorem openHeads_step (hw : Sound a stop w) :
    openHeads (step a stop w).lines.toList =
      if (w.chunkHere a stop).isAgain then (w.headsHere a stop).tail else w.headsHere a stop := by
  have hblank : ∀ l ∈ w.blankAfter a stop, l.size = 0 := fun l hl => size_of_mem_blankAfter hl
  have hloop : (w.blankAfter a stop).countP Line.isLoop = 0 := by
    rw [List.countP_eq_zero]
    intro l hl
    rw [w.mem_blankAfter a stop hl]
    simp [Line.isLoop]
  rw [toList_lines_step, written, ← List.append_assoc, openHeads_append, openHeads_beforeChunk hw,
    openAfter, openAfter_of_size_eq_zero hblank, hloop]
  rfl

/-- A step adds at most one `again`, at its own address. -/
theorem atEnds_step_iff {ask : Address → List Nat → Prop} (hw : Sound a stop w) :
    AtEnds ask (step a stop w).lines.toList ↔
      AtEnds ask w.lines.toList ∧
        ((w.chunkHere a stop).isAgain = true → ask w.here (w.headsHere a stop)) := by
  have hextent : extent (w.header a stop ++ w.nextLines a stop) = 0 :=
    extent_eq_zero fun l hl => size_of_mem_beforeChunk hl
  have hhere : UInt16.ofNat (entryPoint.toNat +
      extent (w.lines.toList ++ (w.header a stop ++ w.nextLines a stop))) = w.here := by
    rw [extent_append, hextent, Nat.add_zero, ← hw.location]
    rfl
  have hopen := openHeads_beforeChunk hw
  have hquiet : ∀ l ∈ w.header a stop ++ w.nextLines a stop, l.size = 0 :=
    fun l hl => size_of_mem_beforeChunk hl
  rw [toList_lines_step, written]
  generalize w.header a stop ++ w.nextLines a stop = pre at hhere hopen hquiet ⊢
  rw [AtEnds, throughout_append, throughout_append, throughout_cons, List.append_nil, hhere, hopen]
  constructor
  · intro h
    exact ⟨h.1, h.2.2.1⟩
  · intro h
    exact ⟨h.1, throughout_isAgain_of_size hquiet, h.2,
      throughout_isAgain_of_size fun l hl => size_of_mem_blankAfter hl⟩

end Walk

/-- Some line is a chunk at the address. -/
def Begun (lines : List Line) (t : Address) : Prop :=
  ∃ depth c, .chunk depth t c ∈ lines

theorem Begun.mono {xs ys : List Line} {t : Address} (h : Begun xs t) (hsub : xs ⊆ ys) :
    Begun ys t := by
  obtain ⟨depth, c, hmem⟩ := h
  exact ⟨depth, c, hsub hmem⟩

namespace Analysis

/-- The jump at `tail` to a chunk at `head` is to be written as the end of a loop. -/
structure Recovers (a : Analysis) (stop : Nat) (lines : List Line) (head tail : Address) :
    Prop where
  begun : Begun lines head
  refers : tail ∈ a.references.labels.refs head
  isTail : a.isLoopTail head tail stop = true

theorem Recovers.mono {a : Analysis} {stop : Nat} {xs ys : List Line} {head tail : Address}
    (h : a.Recovers stop xs head tail) (hsub : xs ⊆ ys) : a.Recovers stop ys head tail :=
  ⟨h.begun.mono hsub, h.refers, h.isTail⟩

variable {a : Analysis} {stop : Nat} {head head' tail : Address}

theorem head_eq_of_isLoopTail (h : a.isLoopTail head tail stop = true)
    (h' : a.isLoopTail head' tail stop = true) : head = head' := by
  have hjump := instr_of_isLoopTail h
  rw [instr_of_isLoopTail h'] at hjump
  exact (Instr.jump.inj hjump).symm

theorem head_le_of_isLoopTail (h : a.isLoopTail head tail stop = true) : head ≤ tail := by
  simp only [isLoopTail, Bool.and_eq_true, decide_eq_true_eq] at h
  exact h.1.1.1

end Analysis

namespace Walk

variable {a : Analysis} {stop : Nat} {w : Walk} {t : Address}

theorem Sound.lt_of_begun (hw : Sound a stop w) (h : Begun w.lines.toList t) :
    t.toNat < w.location := by
  obtain ⟨depth, c, hmem⟩ := h
  have hle := hw.le_location hmem
  have hpos := c.size_pos
  omega

theorem begun_step_iff : Begun (step a stop w).lines.toList t ↔
    Begun w.lines.toList t ∨ w.here = t := by
  simp only [Begun, ← any_begins_iff]
  rw [toList_lines_step, List.any_append, any_begins_written]
  simp

/-- What a reader of the lines so far and the walk agree on. -/
structure Nested (a : Analysis) (stop : Nat) (w : Walk) : Prop where
  /-- A loop is open from its head until its tail is written. -/
  mem_iff : ∀ l : OpenLoop, l ∈ w.openLoops ↔
    a.Recovers stop w.lines.toList l.head l.tail ∧ ¬ Begun w.lines.toList l.tail
  nodup : (w.openLoops.map OpenLoop.tail).Nodup
  length_eq : (openHeads w.lines.toList).length = w.openLoops.length
  sorted : (openHeads w.lines.toList).Pairwise (· ≥ ·)
  lt_location : ∀ h ∈ openHeads w.lines.toList, h < w.location
  perm : Matched a.program w.lines.toList →
    (openHeads w.lines.toList).Perm (w.openLoops.map fun l => l.head.toNat)

theorem nested_start (a : Analysis) (stop : Nat) : Nested a stop start where
  mem_iff := by
    intro l
    constructor
    · intro hl
      cases hl
    · intro h
      obtain ⟨⟨⟨_, _, hmem⟩, -, -⟩, -⟩ := h
      cases hmem
  nodup := .nil
  length_eq := rfl
  sorted := .nil
  lt_location := fun h hh => by cases hh
  perm := fun _ => .nil

section Step

variable (hw : Sound a stop w) (hn : Nested a stop w)

include hw hn

theorem Nested.mem_opened_iff (l : OpenLoop) (hhere : w.here.toNat = w.location) :
    l ∈ w.opened a stop ↔
      a.Recovers stop (step a stop w).lines.toList l.head l.tail ∧
        ¬ Begun w.lines.toList l.tail := by
  have hnew : ∀ t, Begun w.lines.toList t → w.here ≠ t := by
    intro t ht heq
    have hlt := hw.lt_of_begun ht
    rw [← heq] at hlt
    omega
  rw [mem_opened, mem_tails, hn.mem_iff]
  constructor
  · intro h
    rcases h with ⟨hhead, href, htail⟩ | ⟨hrec, hout⟩
    · rw [← hhead] at href htail
      refine ⟨⟨begun_step_iff.2 (Or.inr hhead.symm), href, htail⟩, ?_⟩
      intro hbegun
      have hlt := hw.lt_of_begun hbegun
      have hle := UInt16.le_iff_toNat_le.1 (Analysis.head_le_of_isLoopTail htail)
      rw [hhead] at hle
      omega
    · exact ⟨⟨begun_step_iff.2 (Or.inl hrec.begun), hrec.refers, hrec.isTail⟩, hout⟩
  · intro h
    obtain ⟨hrec, hout⟩ := h
    rcases begun_step_iff.1 hrec.begun with hbegun | hhead
    · exact Or.inr ⟨⟨hbegun, hrec.refers, hrec.isTail⟩, hout⟩
    · rw [hhead]
      exact Or.inl ⟨rfl, hrec.refers, hrec.isTail⟩

theorem Nested.nodup_opened (hhere : w.here.toNat = w.location) :
    ((w.opened a stop).map OpenLoop.tail).Nodup := by
  have htails : (w.tails a stop).Nodup := by
    rw [tails, Analysis.splitRefs, List.partition_eq_filter_filter]
    exact (WordSet.nodup_toList _).filter _
  have hmap : (w.opened a stop).map OpenLoop.tail =
      w.tails a stop ++ w.openLoops.map OpenLoop.tail := by
    rw [opened, List.map_append, List.map_map]
    exact congrArg (· ++ _) (List.map_id _)
  rw [hmap, List.nodup_append]
  refine ⟨htails, hn.nodup, ?_⟩
  intro t ht t' ht' heq
  subst heq
  obtain ⟨l, hl, rfl⟩ := List.mem_map.1 ht'
  obtain ⟨hrec, -⟩ := (hn.mem_iff l).1 hl
  have hhead := Analysis.head_eq_of_isLoopTail hrec.isTail ((w.mem_tails a stop).1 ht).2
  have hlt := hw.lt_of_begun hrec.begun
  rw [hhead] at hlt
  omega

/-- An `again` closes one loop of the walk's list, the one that waits for the present location. -/
theorem Nested.perm_opened (hhere : w.here.toNat = w.location) {l : OpenLoop}
    (hl : l ∈ w.opened a stop) (htail : l.tail = w.here) :
    (w.opened a stop).Perm (l :: w.stillOpen a stop) := by
  have htails := hn.nodup_opened hw hhere
  have hopened : (w.opened a stop).Nodup := .of_map _ htails
  have hout : l ∉ w.stillOpen a stop := by
    simp [stillOpen, htail]
  have hrest : (l :: w.stillOpen a stop).Nodup :=
    List.nodup_cons.2 ⟨hout, hopened.filter _⟩
  rw [List.perm_ext_iff_of_nodup hopened hrest]
  intro k
  rw [List.mem_cons, stillOpen, List.mem_filter]
  constructor
  · intro hk
    by_cases hkt : k.tail = w.here
    · exact Or.inl (List.inj_on_of_nodup_map htails hk hl (hkt.trans htail.symm))
    · exact Or.inr ⟨hk, by simpa using hkt⟩
  · intro hk
    rcases hk with rfl | hk
    · exact hl
    · exact hk.1

omit hw in
theorem Nested.length_headsHere : (w.headsHere a stop).length = (w.opened a stop).length := by
  simp [headsHere, opened, hn.length_eq]

omit hw in
theorem Nested.sorted_headsHere : (w.headsHere a stop).Pairwise (· ≥ ·) := by
  rw [headsHere, List.pairwise_append]
  refine ⟨List.pairwise_replicate.2 (Or.inr (Nat.le_refl _)), hn.sorted, ?_⟩
  intro x hx y hy
  rw [List.eq_of_mem_replicate hx]
  exact Nat.le_of_lt (hn.lt_location y hy)

omit hw in
theorem Nested.le_location_of_mem_headsHere {h : Nat} (hh : h ∈ w.headsHere a stop) :
    h ≤ w.location := by
  rw [headsHere, List.mem_append] at hh
  rcases hh with hh | hh
  · rw [List.eq_of_mem_replicate hh]
  · exact Nat.le_of_lt (hn.lt_location h hh)

omit hw in
theorem Nested.perm_headsHere (hhere : w.here.toNat = w.location)
    (hm : Matched a.program w.lines.toList) :
    (w.headsHere a stop).Perm ((w.opened a stop).map fun l => l.head.toNat) := by
  have hnew : ((w.tails a stop).map (OpenLoop.mk w.here)).map (fun l => l.head.toNat) =
      List.replicate (w.tails a stop).length w.location := by
    rw [List.map_map, ← hhere]
    exact List.map_const'
  rw [headsHere, opened, List.map_append, hnew]
  exact (hn.perm hm).append_left _

omit hw in
/-- While all is matched, a reader closes the open loop with the greatest head next. -/
theorem Nested.closes_iff (hhere : w.here.toNat = w.location)
    (hm : Matched a.program w.lines.toList) {l : OpenLoop} (hl : l ∈ w.opened a stop) :
    (∃ rest, w.headsHere a stop = l.head.toNat :: rest) ↔
      ∀ k ∈ w.opened a stop, k.head ≤ l.head := by
  have hperm := hn.perm_headsHere hhere hm
  have hmem : ∀ k ∈ w.opened a stop, k.head.toNat ∈ w.headsHere a stop := by
    intro k hk
    exact hperm.mem_iff.2 (List.mem_map.2 ⟨k, hk, rfl⟩)
  have hsorted := hn.sorted_headsHere
  cases hheads : w.headsHere a stop with
  | nil =>
    have hnone := hmem l hl
    rw [hheads] at hnone
    cases hnone
  | cons top rest =>
    rw [hheads] at hmem hsorted hperm
    have htop : ∀ k ∈ w.opened a stop, k.head.toNat ≤ top := by
      intro k hk
      rcases List.mem_cons.1 (hmem k hk) with heq | hrest
      · exact Nat.le_of_eq heq
      · exact List.rel_of_pairwise_cons hsorted hrest
    constructor
    · intro h k hk
      obtain ⟨rest', heq⟩ := h
      rw [UInt16.le_iff_toNat_le, ← (List.cons.inj heq).1]
      exact htop k hk
    · intro h
      obtain ⟨k, hk, rfl⟩ := List.mem_map.1 (hperm.mem_iff.1 List.mem_cons_self)
      have hle := UInt16.le_iff_toNat_le.1 (h k hk)
      exact ⟨rest, by rw [Nat.le_antisymm hle (htop l hl)]⟩

/-- An `again` stands where the walk has an open loop to close, and nowhere else does the walk
close one. -/
theorem Nested.chunkHere_isAgain (hhere : w.here.toNat = w.location) :
    ((w.chunkHere a stop).isAgain = true ∧ ∃ l ∈ w.opened a stop, l.tail = w.here ∧
        a.program.instr w.here = .jump l.head) ∨
      ((w.chunkHere a stop).isAgain = false ∧ w.stillOpen a stop = w.opened a stop) := by
  have hkeep (h : ∀ l ∈ w.opened a stop, l.tail ≠ w.here) :
      w.stillOpen a stop = w.opened a stop := by
    rw [stillOpen, List.filter_eq_self]
    simpa using h
  rcases w.chunkHere_cases a stop with ⟨l, hl, htail, hc⟩ | ⟨hnone, ⟨i, -, hc⟩ | hc | hc⟩
  · have hrec := ((hn.mem_opened_iff hw l hhere).1 hl).1
    have hjump := Analysis.instr_of_isLoopTail hrec.isTail
    rw [htail] at hjump
    exact Or.inl ⟨by rw [hc]; rfl, l, hl, htail, hjump⟩
  · exact Or.inr ⟨by rw [hc]; rfl, hkeep hnone⟩
  · exact Or.inr ⟨by rw [hc]; rfl, hkeep hnone⟩
  · refine Or.inr ⟨?_, hkeep hnone⟩
    rw [hc]
    rcases a.chunkByClass_cases stop w.here with hd | hd | hd | hd | ⟨hd, -⟩
    all_goals
      rw [hd]
      rfl

theorem Nested.step (hhere : w.here.toNat = w.location) : Nested a stop (step a stop w) := by
  have hheads := openHeads_step hw
  have hlen := hn.length_headsHere
  have hsub : (openHeads (Walk.step a stop w).lines.toList).Sublist (w.headsHere a stop) := by
    rw [hheads]
    split
    · exact List.tail_sublist _
    · exact List.Sublist.refl _
  constructor
  · intro l
    rw [openLoops_step, stillOpen, List.mem_filter, hn.mem_opened_iff hw l hhere, begun_step_iff,
      not_or, and_assoc, bne_iff_ne, ne_comm]
  · rw [openLoops_step, stillOpen]
    exact ((List.filter_sublist).map _).nodup (hn.nodup_opened hw hhere)
  · rw [hheads, openLoops_step]
    rcases hn.chunkHere_isAgain hw hhere with ⟨hagain, l, hl, htail, -⟩ | ⟨hagain, hkeep⟩
    · have hperm := (hn.perm_opened hw hhere hl htail).length_eq
      rw [if_pos hagain, List.length_tail, hlen, hperm, List.length_cons, Nat.add_sub_cancel]
    · rw [hagain, hkeep]
      exact hlen
  · exact hn.sorted_headsHere.sublist hsub
  · intro h hh
    have hle := hn.le_location_of_mem_headsHere (hsub.subset hh)
    exact Nat.lt_of_le_of_lt hle (location_lt_step a stop w)
  · intro hm
    obtain ⟨hmatched, hclose⟩ := (atEnds_step_iff hw).1 hm
    have hperm := hn.perm_headsHere hhere hmatched
    rw [hheads, openLoops_step]
    rcases hn.chunkHere_isAgain hw hhere with ⟨hagain, l, hl, htail, hjump⟩ | ⟨hagain, hkeep⟩
    · obtain ⟨head, hhead, rest, hrest⟩ := hclose hagain
      obtain rfl : head = l.head := Instr.jump.inj (hhead.symm.trans hjump)
      have hopened := (hn.perm_opened hw hhere hl htail).map fun l => l.head.toNat
      rw [if_pos hagain, hrest, List.tail_cons]
      rw [hrest] at hperm
      exact (List.perm_cons _).1 (hperm.trans hopened)
    · rw [hagain, hkeep]
      exact hperm

end Step

end Walk

end OctoLift
