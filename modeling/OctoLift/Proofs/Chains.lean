import Mathlib.Data.List.Chain
import OctoLift.Proofs.Indifference
import OctoLift.Proofs.Paths
import OctoLift.Proofs.WellBracketed

/-!
# Chains of instructions

The scan of a span takes one turn after another until a turn gives the answer. The addresses it
visits are a chain of instructions each of which begins where the one before it ends, as long as
the end of memory is not passed: there the next address is held at the last byte of memory, and so
a tail at this byte is met although no instruction ends before it.
-/

namespace OctoLift

theorem Address.advance_eq_last {here : Address} {n : Nat} (h : 0xFFFF ≤ here.toNat + n) :
    Address.advance here n = 0xFFFF := by
  rw [← UInt16.toNat_inj, Address.toNat_advance]
  exact Nat.min_eq_right h

theorem Address.lt_advance {here tail : Address} (h : here < tail) (i : Instr) :
    here < Address.advance here i.size := by
  have hsize := i.size_pos
  have htail := tail.toNat_lt
  rw [UInt16.lt_iff_toNat_lt] at h ⊢
  rw [Address.toNat_advance]
  omega

namespace Analysis

section Turns

/-- One turn of the scan: the answer, or the address of the next turn. -/
def turn (a : Analysis) (head tail here : Address) : Bool ⊕ Address :=
  if here ≠ head ∧ a.references.subroutines.contains here = true then .inl false
  else if a.classes[here].isExecuted = false then .inl false
  else if a.jumpsBefore head here = true then .inl false
  else if tail ≤ here then .inl (here == tail)
  else .inr (Address.advance here (a.program.instr here).size)

/-- Turns from `here` on end with an answer, after the visit of some addresses. -/
inductive Scanned (a : Analysis) (head tail : Address) : Address → List Address → Bool → Prop
  | answers {here : Address} {b : Bool} (h : a.turn head tail here = .inl b) :
    Scanned a head tail here [here] b
  | goesOn {here next : Address} {visited : List Address} {b : Bool}
    (h : a.turn head tail here = .inr next) (rest : Scanned a head tail next visited b) :
    Scanned a head tail here (here :: visited) b

variable {a : Analysis} {head tail here : Address}

theorem turn_cases :
    a.turn head tail here = .inl (a.spans head tail here) ∧
        (here < tail → a.spans head tail here = false) ∨
      here < tail ∧
        a.turn head tail here = .inr (Address.advance here (a.program.instr here).size) ∧
        a.spans head tail here =
          a.spans head tail (Address.advance here (a.program.instr here).size) := by
  rw [turn, spans]
  split
  · exact Or.inl ⟨rfl, fun _ => rfl⟩
  split
  · exact Or.inl ⟨rfl, fun _ => rfl⟩
  split
  · exact Or.inl ⟨rfl, fun _ => rfl⟩
  split
  · next h => exact Or.inl ⟨rfl, fun hlt => absurd h (UInt16.not_le.2 hlt)⟩
  · next h => exact Or.inr ⟨UInt16.not_le.1 h, rfl, rfl⟩

theorem exists_scanned (a : Analysis) (head tail here : Address) :
    ∃ visited, a.Scanned head tail here visited (a.spans head tail here) := by
  induction hn : 65536 - here.toNat using Nat.strongRecOn generalizing here with
  | ind n ih =>
    rcases a.turn_cases with ⟨hturn, -⟩ | ⟨hlt, hturn, hspans⟩
    · exact ⟨_, .answers hturn⟩
    · have hnext := Address.lt_advance hlt (a.program.instr here)
      rw [UInt16.lt_iff_toNat_lt] at hnext
      have hhere := here.toNat_lt
      obtain ⟨visited, hvisited⟩ := ih
        (65536 - (Address.advance here (a.program.instr here).size).toNat) (by omega) _ rfl
      rw [hspans]
      exact ⟨_, .goesOn hturn hvisited⟩

namespace Scanned

variable {visited : List Address} {b : Bool}

theorem unique {visited' : List Address} {b' : Bool} (h : a.Scanned head tail here visited b)
    (h' : a.Scanned head tail here visited' b') : visited = visited' ∧ b = b' := by
  induction h generalizing visited' with
  | answers hturn =>
    cases h' with
    | answers hturn' =>
      rw [hturn] at hturn'
      cases hturn'
      exact ⟨rfl, rfl⟩
    | goesOn hturn' _ =>
      rw [hturn] at hturn'
      cases hturn'
  | goesOn hturn _ ih =>
    cases h' with
    | answers hturn' =>
      rw [hturn] at hturn'
      cases hturn'
    | goesOn hturn' rest' =>
      rw [hturn] at hturn'
      cases hturn'
      obtain ⟨rfl, rfl⟩ := ih rest'
      exact ⟨rfl, rfl⟩

theorem eq_spans (h : a.Scanned head tail here visited b) : b = a.spans head tail here := by
  obtain ⟨visited', h'⟩ := a.exists_scanned head tail here
  exact (h.unique h').2

theorem ne_nil (h : a.Scanned head tail here visited b) : visited ≠ [] := by
  cases h with
  | answers _ => exact List.cons_ne_nil _ _
  | goesOn _ _ => exact List.cons_ne_nil _ _

theorem head_eq (h : a.Scanned head tail here visited b) : visited.head? = some here := by
  cases h with
  | answers _ => rfl
  | goesOn _ _ => rfl

theorem goesOn_inv {next : Address} (h : a.turn head tail here = .inr next) :
    here < tail ∧ next = Address.advance here (a.program.instr here).size := by
  rcases a.turn_cases with ⟨hturn, -⟩ | ⟨hlt, hturn, -⟩
  · rw [h] at hturn
    cases hturn
  · rw [h] at hturn
    cases hturn
    exact ⟨hlt, rfl⟩

theorem cases_true (h : a.Scanned head tail here visited true) :
    (here = tail ∧ visited = [here]) ∨
      here < tail ∧ ∃ rest, visited = here :: rest ∧
        a.Scanned head tail (Address.advance here (a.program.instr here).size) rest true := by
  have hspans := h.eq_spans.symm
  cases h with
  | answers hturn =>
    refine Or.inl ⟨?_, rfl⟩
    refine (spans_iff.1 hspans).2.resolve_right ?_
    rintro ⟨hlt, -⟩
    rcases a.turn_cases with ⟨-, hrefused⟩ | ⟨-, hturn', -⟩
    · rw [hrefused hlt] at hspans
      cases hspans
    · rw [hturn] at hturn'
      cases hturn'
  | goesOn hturn rest =>
    obtain ⟨hlt, rfl⟩ := goesOn_inv hturn
    exact Or.inr ⟨hlt, _, rfl, rest⟩

theorem exists_of_mem (h : a.Scanned head tail here visited b) {x : Address} (hx : x ∈ visited) :
    ∃ before rest, visited = before ++ rest ∧ a.Scanned head tail x rest b := by
  induction h with
  | @answers here b hturn =>
    obtain rfl := List.mem_singleton.1 hx
    exact ⟨[], [x], rfl, .answers hturn⟩
  | @goesOn here next visited b hturn rest ih =>
    rcases List.mem_cons.1 hx with rfl | hx
    · exact ⟨[], x :: visited, rfl, .goesOn hturn rest⟩
    · obtain ⟨before, rest', rfl, hrest⟩ := ih hx
      exact ⟨here :: before, rest', rfl, hrest⟩

/-- Of two scans that accept their spans from one address on, the one with the tail ahead stops
within the other. -/
theorem exists_append {head' tail' : Address} {inner : List Address}
    (hinner : a.Scanned head' tail' here inner true) (h : a.Scanned head tail here visited true)
    (hlt : tail' < tail) : ∃ after, visited = inner ++ after ∧ after ≠ [] := by
  generalize hb : true = b at hinner
  induction hinner generalizing visited with
  | @answers here b hturn =>
    subst hb
    rcases (Scanned.answers hturn).cases_true with ⟨rfl, -⟩ | ⟨-, rest, hrest, hscan⟩
    · rcases h.cases_true with ⟨rfl, -⟩ | ⟨-, rest, rfl, hscan⟩
      · exact absurd hlt (UInt16.lt_irrefl _)
      · exact ⟨rest, rfl, hscan.ne_nil⟩
    · cases hrest
      exact absurd rfl hscan.ne_nil
  | @goesOn here next inner b hturn _ ih =>
    obtain ⟨htail', rfl⟩ := goesOn_inv hturn
    rcases h.cases_true with ⟨rfl, -⟩ | ⟨-, rest, rfl, hscan⟩
    · exact absurd (UInt16.lt_trans htail' hlt) (UInt16.lt_irrefl _)
    · obtain ⟨after, rfl, hafter⟩ := ih hscan hb
      exact ⟨after, rfl, hafter⟩

end Scanned

/-- Of two loops, one of which opens where the scan of the other comes by, the inner one ends first:
its scan is a part of the other, neither at its start nor at its end. -/
theorem nested_of_scanned {a : Analysis} {stop : Nat} {head tail head' tail' : Address}
    (h : a.isLoopTail head tail stop = true) (h' : a.isLoopTail head' tail' stop = true)
    (hlt : head < head') {visited : List Address} {b : Bool}
    (hscan : a.Scanned head tail head visited b) (hmem : head' ∈ visited) :
    tail' < tail ∧ ∃ before inner after, visited = before ++ inner ++ after ∧
      a.Scanned head' tail' head' inner true ∧ before ≠ [] ∧ after ≠ [] := by
  have hspans := spans_of_isLoopTail h
  obtain rfl : b = true := hscan.eq_spans.trans hspans
  obtain ⟨before, rest, rfl, hrest⟩ := hscan.exists_of_mem hmem
  have htail : tail' < tail := by
    -- otherwise the inner scan comes to the outer tail, from where the program jumps back too far
    refine UInt16.not_le.1 fun hle => ?_
    have hscans := scans_of_spans hrest.eq_spans.symm
    have hback := head_le_of_scans h' hscans hle (instr_of_isLoopTail h)
    exact absurd hlt (UInt16.not_lt.2 hback)
  obtain ⟨inner, hinner⟩ := a.exists_scanned head' tail' head'
  rw [spans_of_isLoopTail h'] at hinner
  obtain ⟨after, rfl, hafter⟩ := hinner.exists_append hrest htail
  refine ⟨htail, before, inner, after, by rw [List.append_assoc], hinner, ?_, hafter⟩
  rintro rfl
  have hfirst := hscan.head_eq
  rw [List.nil_append, hrest.head_eq] at hfirst
  cases hfirst
  exact UInt16.lt_irrefl _ hlt

/-- A loop that waits for a key, within one that clears the screen. -/
def keyWait : Program where
  rom := #[0x00, 0xE0, 0xE0, 0x9E, 0x12, 0x02, 0x12, 0x00]
  fits := by decide

theorem nested_of_scanned_keyWait : ∃ (a : Analysis) (visited : List Address) (b : Bool),
    Analysis.ofRom keyWait.rom {} = .ok a ∧ a.isLoopTail 0x200 0x206 0x208 = true ∧
      a.isLoopTail 0x202 0x204 0x208 = true ∧ a.Scanned 0x200 0x206 0x200 visited b ∧
      0x202 ∈ visited ∧ (0x204 : Address) < 0x206 ∧ ∃ before inner after,
        visited = before ++ inner ++ after ∧ a.Scanned 0x202 0x204 0x202 inner true ∧
          before ≠ [] ∧ after ≠ [] := by
  let a := ((Analyzer.start keyWait {}).step 5).found
  have hall : ((Analyzer.start keyWait {}).step 5).isDone = true ∧
      a.isLoopTail 0x200 0x206 0x208 = true ∧ a.isLoopTail 0x202 0x204 0x208 = true ∧
        a.turn 0x200 0x206 0x200 = .inr 0x202 := by
    decide +kernel
  obtain ⟨hdone, houter, hinner, hturn⟩ := hall
  obtain ⟨visited, hrest⟩ := a.exists_scanned 0x200 0x206 0x202
  have hmem := List.mem_cons_of_mem 0x200 (List.mem_of_head? hrest.head_eq)
  have hscan := Scanned.goesOn hturn hrest
  exact ⟨a, _, _, Analysis.ofRom_of_isDone keyWait.fits {} hdone, houter, hinner, hscan, hmem,
    nested_of_scanned houter hinner (by decide) hscan hmem⟩

end Turns

section Chains

/-- What makes the end of a loop before its span is looked at. -/
structure Closes (a : Analysis) (head tail : Address) (stop : Nat) : Prop where
  head_le : head ≤ tail
  lt_stop : tail.toNat < stop
  jumps : a.program.instr tail = .jump head

/-- Each instruction of a list begins where the one before it ends. -/
abbrev Adjacent (a : Analysis) (chain : List Address) : Prop :=
  chain.IsChain fun s t => t.toNat = s.toNat + (a.program.instr s).size

/-- A chain of instructions from the head of a loop on. All are executed, no subroutine begins
behind the head, and none jumps to an address below the head. -/
structure Chain (a : Analysis) (head : Address) (chain : List Address) : Prop where
  head_eq : chain.head? = some head
  adjacent : a.Adjacent chain
  executed : ∀ s ∈ chain, a.classes[s] = .code ∨ a.classes[s] = .selfModifying
  notEntered : ∀ s ∈ chain.tail, a.references.subroutines.contains s = false
  stays : ∀ s ∈ chain, ∀ t, a.program.instr s = .jump t → head ≤ t

def IsLoop (a : Analysis) (head tail : Address) (stop : Nat) : Prop :=
  a.Closes head tail stop ∧ ∃ chain, a.Chain head chain ∧ chain.getLast? = some tail

/-- The end of a loop stands at the last byte of memory, and a chain leads from the head to an
instruction that goes on beyond this byte. -/
structure HeldAtEnd (a : Analysis) (head tail : Address) (stop : Nat) : Prop where
  closes : a.Closes head tail stop
  tail_eq : tail = 0xFFFF
  executed : a.classes[tail] = .code ∨ a.classes[tail] = .selfModifying
  notEntered : a.references.subroutines.contains tail = false
  leadsOver : ∃ chain last, a.Chain head chain ∧ chain.getLast? = some last ∧ last < tail ∧
    0xFFFF < last.toNat + (a.program.instr last).size

variable {a : Analysis} {head tail here : Address} {stop : Nat}

theorem isLoopTail_iff :
    a.isLoopTail head tail stop = true ↔ a.Closes head tail stop ∧ a.spans head tail head = true := by
  simp only [isLoopTail, Bool.and_eq_true, decide_eq_true_eq, beq_iff_eq]
  constructor
  · rintro ⟨⟨⟨hle, hlt⟩, hjump⟩, hspans⟩
    exact ⟨⟨hle, hlt, hjump⟩, hspans⟩
  · rintro ⟨⟨hle, hlt, hjump⟩, hspans⟩
    exact ⟨⟨⟨hle, hlt⟩, hjump⟩, hspans⟩

theorem jumpsBefore_eq_false_iff :
    a.jumpsBefore head here = false ↔ ∀ t, a.program.instr here = .jump t → head ≤ t := by
  rw [jumpsBefore]
  cases a.program.instr here <;> simp

theorem Adjacent.lt {rest : List Address} (h : a.Adjacent (here :: rest)) {s : Address}
    (hs : s ∈ rest) : here < s := by
  have hascending : (here :: rest).IsChain (· < ·) := by
    refine h.imp fun s t hst => ?_
    have hsize := (a.program.instr s).size_pos
    rw [UInt16.lt_iff_toNat_lt]
    omega
  have htrans : IsTrans Address (· < ·) := ⟨fun _ _ _ => UInt16.lt_trans⟩
  exact List.rel_of_pairwise_cons (List.isChain_iff_pairwise.1 hascending) hs

theorem Adjacent.le {rest : List Address} (h : a.Adjacent (here :: rest)) {s : Address}
    (hs : s ∈ here :: rest) : here ≤ s := by
  rcases List.mem_cons.1 hs with rfl | hs
  · exact UInt16.le_refl _
  · exact UInt16.le_of_lt (h.lt hs)

theorem chain_iff {rest : List Address} :
    a.Chain head (head :: rest) ↔
      a.Adjacent (head :: rest) ∧ ∀ s ∈ head :: rest, a.FitAt head s := by
  constructor
  · intro h
    refine ⟨h.adjacent, fun s hs => ⟨Class.isExecuted_iff.2 (h.executed s hs), fun hne => ?_,
      jumpsBefore_eq_false_iff.2 (h.stays s hs)⟩⟩
    exact h.notEntered s ((List.mem_cons.1 hs).resolve_left hne)
  · rintro ⟨hadjacent, hfit⟩
    refine ⟨rfl, hadjacent, fun s hs => Class.isExecuted_iff.1 (hfit s hs).executed, fun s hs => ?_,
      fun s hs => jumpsBefore_eq_false_iff.1 (hfit s hs).stays⟩
    exact (hfit s (List.mem_cons_of_mem _ hs)).notEntered (UInt16.ne_of_lt (hadjacent.lt hs)).symm

theorem Chain.exists_eq {chain : List Address} (h : a.Chain head chain) :
    ∃ rest, chain = head :: rest := by
  have hhead := h.head_eq
  cases chain with
  | nil => cases hhead
  | cons s rest =>
    cases hhead
    exact ⟨rest, rfl⟩

theorem spans_of_adjacent {rest : List Address} {last : Address}
    (hadjacent : a.Adjacent (here :: rest)) (hfit : ∀ s ∈ here :: rest, a.FitAt head s)
    (hlast : (here :: rest).getLast? = some last) (hle : last ≤ tail)
    (h : a.spans head tail last = true) : a.spans head tail here = true := by
  induction rest generalizing here with
  | nil =>
    obtain rfl : here = last := by simpa using hlast
    exact h
  | cons next rest ih =>
    have hnext : Address.advance here (a.program.instr here).size = next := by
      have hstep := (List.isChain_cons_cons.1 hadjacent).1
      have hbound := next.toNat_lt
      rw [← UInt16.toNat_inj, Address.toNat_advance]
      omega
    rw [List.getLast?_cons_cons] at hlast
    have hhere : here < tail :=
      UInt16.lt_of_lt_of_le (hadjacent.lt (List.mem_of_getLast? hlast)) hle
    refine spans_iff.2 ⟨hfit here List.mem_cons_self, Or.inr ⟨hhere, ?_⟩⟩
    rw [hnext]
    exact ih (List.isChain_cons_cons.1 hadjacent).2 (fun s hs => hfit s (List.mem_cons_of_mem _ hs))
      hlast

/-- An accepted scan follows a chain to the tail, or over the end of memory. -/
theorem exists_adjacent_of_spans (h : a.spans head tail here = true) :
    ∃ rest last, a.Adjacent (here :: rest) ∧ (∀ s ∈ here :: rest, a.FitAt head s) ∧
      (here :: rest).getLast? = some last ∧
      (last = tail ∨ tail = 0xFFFF ∧ a.FitAt head tail ∧ last < tail ∧
        0xFFFF < last.toNat + (a.program.instr last).size) := by
  induction hn : 65536 - here.toNat using Nat.strongRecOn generalizing here with
  | ind n ih =>
    obtain ⟨hfit, hgoes⟩ := spans_iff.1 h
    rcases hgoes with rfl | ⟨hlt, hnext⟩
    · exact ⟨[], here, List.isChain_singleton _, by simpa using hfit, rfl, Or.inl rfl⟩
    have hlater := Address.lt_advance hlt (a.program.instr here)
    have hstep := Address.toNat_advance here (a.program.instr here).size
    rw [UInt16.lt_iff_toNat_lt] at hlater
    by_cases hend : here.toNat + (a.program.instr here).size ≤ 0xFFFF
    · have hhere := here.toNat_lt
      obtain ⟨rest, last, hadjacent, hall, hlast, hlands⟩ := ih
        (65536 - (Address.advance here (a.program.instr here).size).toNat) (by omega) hnext rfl
      refine ⟨Address.advance here (a.program.instr here).size :: rest, last, ?_, ?_, ?_, hlands⟩
      · exact List.isChain_cons_cons.2 ⟨by omega, hadjacent⟩
      · intro s hs
        rcases List.mem_cons.1 hs with rfl | hs
        · exact hfit
        · exact hall s hs
      · rw [List.getLast?_cons_cons, hlast]
    · -- the next address is held at the last byte of memory, where the scan must end
      rw [Address.advance_eq_last (by omega)] at hnext
      obtain ⟨hfit', htail⟩ := spans_iff.1 hnext
      have htail : tail = 0xFFFF := by
        rcases htail with htail | ⟨htail, -⟩
        · exact htail.symm
        · have hbound := tail.toNat_lt
          rw [UInt16.lt_iff_toNat_lt] at htail
          exact absurd htail (by simp; omega)
      subst htail
      exact ⟨[], here, List.isChain_singleton _, by simpa using hfit, rfl,
        Or.inr ⟨rfl, hfit', hlt, by omega⟩⟩

/-- From the first of their addresses on, a chain that goes on beyond the end of memory leaves no
room for one that ends at the last byte. -/
theorem Adjacent.not_over {rest rest' : List Address} {last : Address}
    (h : a.Adjacent (here :: rest)) (htail : (here :: rest).getLast? = some tail)
    (h' : a.Adjacent (here :: rest')) (hlast : (here :: rest').getLast? = some last)
    (hlt : last < tail) : ¬ 0xFFFF < last.toNat + (a.program.instr last).size := by
  induction rest generalizing here rest' with
  | nil =>
    obtain rfl : here = tail := by simpa using htail
    rcases List.mem_cons.1 (List.mem_of_getLast? hlast) with rfl | hmem
    · exact absurd hlt (UInt16.lt_irrefl _)
    · exact absurd (UInt16.lt_trans (h'.lt hmem) hlt) (UInt16.lt_irrefl _)
  | cons next rest ih =>
    obtain ⟨hstep, hadjacent⟩ := List.isChain_cons_cons.1 h
    have hbound := next.toNat_lt
    cases rest' with
    | nil =>
      obtain rfl : here = last := by simpa using hlast
      omega
    | cons next' rest' =>
      obtain ⟨hstep', hadjacent'⟩ := List.isChain_cons_cons.1 h'
      obtain rfl : next = next' := UInt16.toNat_inj.1 (hstep.trans hstep'.symm)
      rw [List.getLast?_cons_cons] at htail hlast
      exact ih hadjacent htail hadjacent' hlast

theorem spans_iff_chain (hclose : a.Closes head tail stop) :
    a.spans head tail head = true ↔ a.IsLoop head tail stop ∨ a.HeldAtEnd head tail stop := by
  constructor
  · intro h
    obtain ⟨rest, last, hadjacent, hfit, hlast, rfl | ⟨rfl, hend, hlt, hover⟩⟩ :=
      exists_adjacent_of_spans h
    · exact Or.inl ⟨hclose, _, chain_iff.2 ⟨hadjacent, hfit⟩, hlast⟩
    · have hle := hadjacent.le (List.mem_of_getLast? hlast)
      have hne : (0xFFFF : Address) ≠ head := (UInt16.ne_of_lt (UInt16.lt_of_le_of_lt hle hlt)).symm
      exact Or.inr ⟨hclose, rfl, Class.isExecuted_iff.1 hend.executed, hend.notEntered hne,
        ⟨_, last, chain_iff.2 ⟨hadjacent, hfit⟩, hlast, hlt, hover⟩⟩
  · rintro (⟨-, chain, hchain, hlast⟩ | ⟨-, rfl, hexecuted, hentered, ⟨chain, last, hchain, hlast,
      hlt, hover⟩⟩)
    · obtain ⟨rest, rfl⟩ := hchain.exists_eq
      obtain ⟨hadjacent, hfit⟩ := chain_iff.1 hchain
      refine spans_of_adjacent hadjacent hfit hlast (UInt16.le_refl _) ?_
      exact spans_iff.2 ⟨hfit _ (List.mem_of_getLast? hlast), Or.inl rfl⟩
    · obtain ⟨rest, rfl⟩ := hchain.exists_eq
      obtain ⟨hadjacent, hfit⟩ := chain_iff.1 hchain
      have hend : a.FitAt head 0xFFFF := by
        refine ⟨Class.isExecuted_iff.2 hexecuted, fun _ => hentered, ?_⟩
        refine jumpsBefore_eq_false_iff.2 fun t ht => ?_
        rw [hclose.jumps] at ht
        cases ht
        exact UInt16.le_refl _
      refine spans_of_adjacent hadjacent hfit hlast (UInt16.le_of_lt hlt) ?_
      refine spans_iff.2 ⟨hfit _ (List.mem_of_getLast? hlast), Or.inr ⟨hlt, ?_⟩⟩
      rw [Address.advance_eq_last (Nat.le_of_lt hover)]
      exact spans_iff.2 ⟨hend, Or.inl rfl⟩

theorem IsLoop.not_heldAtEnd (h : a.IsLoop head tail stop) : ¬ a.HeldAtEnd head tail stop := by
  intro hheld
  obtain ⟨-, chain, hchain, htail⟩ := h
  obtain ⟨chain', last, hchain', hlast, hlt, hover⟩ := hheld.leadsOver
  obtain ⟨rest, rfl⟩ := hchain.exists_eq
  obtain ⟨rest', rfl⟩ := hchain'.exists_eq
  exact (chain_iff.1 hchain).1.not_over htail (chain_iff.1 hchain').1 hlast hlt hover

/-- The scan comes to an end, with one answer. A jump ends a loop exactly if a chain leads to it from
the head, unless it stands at the last byte of memory and a chain leads over it: then the scan takes
it for the end of a loop. -/
theorem loop_scan_decides (a : Analysis) (head tail : Address) (stop : Nat) :
    (∃! result : List Address × Bool, a.Scanned head tail head result.1 result.2) ∧
      (a.isLoopTail head tail stop = true ↔
        a.IsLoop head tail stop ∨ a.HeldAtEnd head tail stop) ∧
      ((a.isLoopTail head tail stop = true ↔ a.IsLoop head tail stop) ↔
        ¬ a.HeldAtEnd head tail stop) := by
  have haccepted : a.isLoopTail head tail stop = true ↔
      a.IsLoop head tail stop ∨ a.HeldAtEnd head tail stop := by
    rw [isLoopTail_iff]
    constructor
    · rintro ⟨hclose, hspans⟩
      exact (spans_iff_chain hclose).1 hspans
    · intro h
      have hclose : a.Closes head tail stop := h.elim And.left HeldAtEnd.closes
      exact ⟨hclose, (spans_iff_chain hclose).2 h⟩
  refine ⟨?_, haccepted, ?_⟩
  · obtain ⟨visited, hscan⟩ := a.exists_scanned head tail head
    refine ⟨(visited, _), hscan, ?_⟩
    rintro ⟨visited', b⟩ hscan'
    obtain ⟨rfl, rfl⟩ := hscan.unique hscan'
    rfl
  · constructor
    · intro h hover
      exact (h.1 (haccepted.2 (Or.inr hover))).not_heldAtEnd hover
    · intro hover
      rw [haccepted, or_iff_left hover]

end Chains

end Analysis

section EndOfMemory

/-- All memory from the entry point on is executed: at `0x200` and at every even address behind it,
and at every odd one from `0x207` to the jump back to `0x200` that starts at the last byte. -/
def fullMemory : Program where
  rom := #[0xE0, 0x9E, 0x12, 0x07] ++ Array.replicate 65019 0x66 ++ #[0x12]
  fits := by simp [maxRomSize]

section Bytes

variable {k : Nat}

theorem byte_fullMemory (h : 516 ≤ k) (hlt : k < 65535) : fullMemory.byte k = 0x66 := by
  have hentry : entryPoint.toNat = 512 := rfl
  rw [Program.byte, hentry, if_pos (by omega), Array.getD_eq_getD_getElem?, fullMemory,
    Array.getElem?_append_left (by simp; omega), Array.getElem?_append_right (by simp; omega),
    Array.getElem?_replicate, if_pos (by simp; omega), Option.getD_some]

theorem byte_fullMemory_jump : fullMemory.byte 65535 = 0x12 ∧ fullMemory.byte 65536 = 0 := by
  simp [Program.byte, fullMemory, entryPoint, Array.getElem_push]

theorem byte_fullMemory_start : fullMemory.byte 512 = 0xE0 ∧ fullMemory.byte 513 = 0x9E ∧
    fullMemory.byte 514 = 0x12 ∧ fullMemory.byte 515 = 0x07 := by
  simp [Program.byte, fullMemory, entryPoint]

theorem byte_fullMemory_mem (k : Nat) :
    fullMemory.byte k ∈ [0x00, 0xE0, 0x9E, 0x12, 0x07, 0x66] := by
  rw [Program.byte, Array.getD_eq_getD_getElem?]
  split
  · cases hbyte : fullMemory.rom[k - entryPoint.toNat]? with
    | none => simp
    | some b =>
      have hmem := Array.mem_of_getElem? hbyte
      simp [fullMemory] at hmem
      simp
      grind
  · simp

end Bytes

theorem instr_fullMemory {here : Address} (h : 516 ≤ here.toNat) (hlt : here.toNat < 65535) :
    fullMemory.instr here = .loadImm 6 (fullMemory.byte (here.toNat + 1)) := by
  rw [Program.instr, byte_fullMemory h hlt]
  rfl

theorem instr_fullMemory_jumps : fullMemory.instr 0x200 = .skip (.keyDown 0) ∧
    fullMemory.instr 0x202 = .jump 0x207 ∧ fullMemory.instr 0xFFFF = .jump 0x200 := by
  obtain ⟨h0, h1, h2, h3⟩ := byte_fullMemory_start
  obtain ⟨hjump, hend⟩ := byte_fullMemory_jump
  rw [@Program.instr_eq_decode fullMemory 0x200 _ _ h0 h1,
    @Program.instr_eq_decode fullMemory 0x202 _ _ h2 h3,
    @Program.instr_eq_decode fullMemory 0xFFFF _ _ hjump hend]
  exact ⟨rfl, rfl, rfl⟩

theorem size_instr_fullMemory (here : Address) : (fullMemory.instr here).size = 2 := by
  apply Program.size_instr_of_byte
  have hmem := byte_fullMemory_mem here.toNat
  intro h
  rw [h] at hmem
  exact absurd hmem (by decide)

theorem not_call_fullMemory (here t : Address) : fullMemory.instr here ≠ .call t := by
  intro h
  have hencode := fullMemory.encode_instr here
  have hmem := byte_fullMemory_mem here.toNat
  rw [h] at hencode
  have hbyte : byteOfDigits 2 (t.toNat / 256 % 16) = fullMemory.byte here.toNat :=
    (List.cons.inj hencode).1
  have hdigit : ∀ d < 16, byteOfDigits 2 d ∉ [0x00, 0xE0, 0x9E, 0x12, 0x07, 0x66] := by decide
  rw [← hbyte] at hmem
  exact hdigit _ (Nat.mod_lt _ (by decide)) hmem

section Reached

variable {a : Analyzer} (hr : Analyzer.Reachable fullMemory.rom {} a) (hd : a.isDone = true)

include hr

theorem subroutines_fullMemory (t : Address) : a.references.subroutines.contains t = false := by
  rw [Bool.eq_false_iff]
  intro hcontains
  obtain ⟨source, hsource⟩ := RefTable.exists_has hcontains
  have hcall := (hr.grounded.subroutines t source hsource).2
  rw [hr.program_eq] at hcall
  cases hi : fullMemory.instr source with
  | call target => exact not_call_fullMemory source target hi
  | _ =>
    rw [hi] at hcall
    cases hcall

include hd

theorem reached_of_follows {x y : Address} (hx : ∃ s, a.reaching[x] = some s)
    (h : ∀ s, y ∈ fullMemory.successors x (fullMemory.instr x) s) :
    ∃ s, a.reaching[y] = some s := by
  obtain ⟨s, hs⟩ := hx
  refine hr.worklist.reached_of_leads hd ⟨s, hs, ?_⟩
  rw [Analyzer.nextAt, hr.program_eq]
  exact h s

theorem reached_run {x : Address} (hx : ∃ s, a.reaching[x] = some s) (hle : 516 ≤ x.toNat) (k : Nat)
    (hk : x.toNat + 2 * k ≤ 65535) :
    ∃ s, a.reaching[UInt16.ofNat (x.toNat + 2 * k)] = some s := by
  induction k with
  | zero => simpa using hx
  | succ k ih =>
    refine reached_of_follows hr hd (ih (by omega)) fun s => ?_
    have hhere : (UInt16.ofNat (x.toNat + 2 * k)).toNat = x.toNat + 2 * k := by
      rw [UInt16.toNat_ofNat']
      omega
    have hnext : UInt16.ofNat (x.toNat + 2 * (k + 1)) = UInt16.ofNat (x.toNat + 2 * k) + 2 := by
      rw [← UInt16.toNat_inj, UInt16.toNat_add, hhere, UInt16.toNat_ofNat']
      rfl
    rw [instr_fullMemory (by omega) (by omega), hnext]
    exact List.mem_singleton_self _

theorem reached_start : (∃ s, a.reaching[(0x202 : Address)] = some s) ∧
    (∃ s, a.reaching[(0x204 : Address)] = some s) ∧
    ∃ s, a.reaching[(0x207 : Address)] = some s := by
  obtain ⟨hskip, hjump, -⟩ := instr_fullMemory_jumps
  obtain ⟨s, hs, -⟩ := hr.entry
  have hentry : ∃ s, a.reaching[(0x200 : Address)] = some s := ⟨s, hs⟩
  have hfails : ∃ s, a.reaching[(0x202 : Address)] = some s := by
    refine reached_of_follows hr hd hentry fun s => ?_
    rw [hskip]
    exact Program.mem_successors_skip.2 (Or.inl ⟨rfl, rfl⟩)
  -- the key may also be found in the other state
  refine ⟨hfails, ?_, ?_⟩
  · refine reached_of_follows hr hd hentry fun s => ?_
    rw [hskip]
    refine Program.mem_successors_skip.2 (Or.inr ⟨rfl, ?_⟩)
    rw [Program.skipTarget, size_instr_fullMemory]
    rfl
  · refine reached_of_follows hr hd hfails fun s => ?_
    rw [hjump]
    exact List.mem_singleton_self _

theorem reached_fullMemory {x : Address} (h : x.toNat % 2 = 0 ∧ 512 ≤ x.toNat ∨ x = 0xFFFF) :
    ∃ s, a.reaching[x] = some s := by
  obtain ⟨hfails, hholds, hjumps⟩ := reached_start hr hd
  have hlt := x.toNat_lt
  rcases h with ⟨heven, hle⟩ | rfl
  · by_cases hrun : 516 ≤ x.toNat
    · have hstart : (0x204 : Address).toNat = 516 := rfl
      have hx : UInt16.ofNat ((0x204 : Address).toNat + 2 * ((x.toNat - 516) / 2)) = x := by
        rw [← UInt16.toNat_inj, UInt16.toNat_ofNat', hstart]
        omega
      rw [← hx]
      exact reached_run hr hd hholds (by decide) _ (by omega)
    · have hx : x = 0x200 ∨ x = 0x202 := by
        simp only [← UInt16.toNat_inj, UInt16.reduceToNat]
        omega
      rcases hx with rfl | rfl
      · obtain ⟨s, hs, -⟩ := hr.entry
        exact ⟨s, hs⟩
      · exact hfails
  · exact reached_run hr hd hjumps (by decide) 32508 (by decide)

theorem fitAt_fullMemory {x : Address} (h : x.toNat % 2 = 0 ∧ 512 ≤ x.toNat ∨ x = 0xFFFF) :
    a.found.FitAt 0x200 x := by
  obtain ⟨s, hs⟩ := reached_fullMemory hr hd h
  have hsize := (a.program.instr x).size_pos
  refine ⟨(hr.isExecuted_iff hd x).2 ⟨x, s, hs, Nat.le_refl _, by omega⟩,
    fun _ => subroutines_fullMemory hr x, ?_⟩
  refine Analysis.jumpsBefore_eq_false_iff.2 fun t ht => ?_
  have hinstr : fullMemory.instr x = .jump t := by
    rw [← hr.program_eq]
    exact ht
  obtain ⟨hskip, hjump, hback⟩ := instr_fullMemory_jumps
  have hlt := x.toNat_lt
  have hx : x = 0x200 ∨ x = 0x202 ∨ x = 0xFFFF ∨ 516 ≤ x.toNat ∧ x.toNat < 65535 := by
    simp only [← UInt16.toNat_inj, UInt16.reduceToNat] at h ⊢
    omega
  rcases hx with rfl | rfl | rfl | ⟨hle, hlt⟩
  · rw [hskip] at hinstr
    cases hinstr
  · rw [hjump] at hinstr
    cases hinstr
    decide
  · rw [hback] at hinstr
    cases hinstr
    decide
  · rw [instr_fullMemory hle hlt] at hinstr
    cases hinstr

theorem spans_fullMemory {x : Address} (heven : x.toNat % 2 = 0) (hle : 512 ≤ x.toNat) :
    a.found.spans 0x200 0xFFFF x = true := by
  induction hn : 65536 - x.toNat using Nat.strongRecOn generalizing x with
  | ind n ih =>
    have hlt := x.toNat_lt
    refine Analysis.spans_iff.2 ⟨fitAt_fullMemory hr hd (Or.inl ⟨heven, hle⟩), Or.inr ⟨?_, ?_⟩⟩
    · have hlast : (0xFFFF : Address).toNat = 65535 := rfl
      rw [UInt16.lt_iff_toNat_lt]
      omega
    have hsize : (a.found.program.instr x).size = 2 := by
      rw [Analyzer.found, hr.program_eq, size_instr_fullMemory]
    rw [hsize]
    by_cases hend : x.toNat + 2 ≤ 0xFFFF
    · have hnext := Address.toNat_advance x 2
      exact ih (65536 - (Address.advance x 2).toNat) (by omega) (by omega) (by omega) rfl
    · rw [Address.advance_eq_last (by omega)]
      exact Analysis.spans_iff.2 ⟨fitAt_fullMemory hr hd (Or.inr rfl), Or.inl rfl⟩

end Reached

theorem even_of_adjacent {a : Analysis} (hsize : ∀ s, (a.program.instr s).size = 2) {here : Address}
    {rest : List Address} (h : a.Adjacent (here :: rest)) (heven : here.toNat % 2 = 0) {s : Address}
    (hs : s ∈ here :: rest) : s.toNat % 2 = 0 := by
  induction rest generalizing here with
  | nil =>
    obtain rfl := List.mem_singleton.1 hs
    exact heven
  | cons next rest ih =>
    obtain ⟨hstep, hadjacent⟩ := List.isChain_cons_cons.1 h
    rw [hsize] at hstep
    rcases List.mem_cons.1 hs with rfl | hs
    · exact heven
    · exact ih hadjacent (by omega) hs

/-- The jump from the last byte of memory is taken for the end of a loop, although the instructions
from its head on lead over this byte and none of them ends before it. -/
theorem end_of_memory_taken_for_loop :
    ∃ a, Analysis.ofRom fullMemory.rom {} = .ok a ∧ a.isLoopTail 0x200 0xFFFF 65536 = true ∧
      ¬ a.IsLoop 0x200 0xFFFF 65536 := by
  obtain ⟨a, hr, hd, ha⟩ := Analysis.exists_ofRom fullMemory.fits {}
  have hprogram : a.found.program = fullMemory := hr.program_eq
  refine ⟨a.found, ha, ?_, ?_⟩
  · refine Analysis.isLoopTail_iff.2 ⟨⟨by decide, by decide, ?_⟩, ?_⟩
    · rw [hprogram]
      exact instr_fullMemory_jumps.2.2
    · exact spans_fullMemory hr hd (by decide) (by decide)
  · rintro ⟨-, chain, hchain, hlast⟩
    obtain ⟨rest, rfl⟩ := hchain.exists_eq
    have hsize (s : Address) : (a.found.program.instr s).size = 2 := by
      rw [hprogram, size_instr_fullMemory]
    have heven := even_of_adjacent hsize hchain.adjacent (by decide) (List.mem_of_getLast? hlast)
    exact absurd heven (by decide)

end EndOfMemory

end OctoLift
