import OctoLift.Proofs.Fixpoint

/-!
# Exact marks

A visit marks bytes in the state that its address has then, and marks are never taken back. Still
no mark is wrong once nothing waits: states only grow, so what an instruction touched in an earlier
state it touches in the final one as well, and the last visit of every address has been made in its
final state. The same holds of the cross references.
-/

namespace OctoLift

namespace Class

/-- Whether a byte of the class is read or written. -/
def isAccessed : Class → Bool
  | data | selfModifying => true
  | unclassified | code => false

/-- A test that a join passes if one of the joined classes does. -/
def Additive (test : Class → Bool) : Prop :=
  ∀ c d : Class, test (c.join d) = (test c || test d)

theorem additive_isExecuted : Additive isExecuted := by
  intro c d
  cases c <;> cases d <;> rfl

theorem additive_isAccessed : Additive isAccessed := by
  intro c d
  cases c <;> cases d <;> rfl

theorem isExecuted_iff {c : Class} : c.isExecuted = true ↔ c = code ∨ c = selfModifying := by
  cases c <;> simp [isExecuted]

theorem isAccessed_iff {c : Class} : c.isAccessed = true ↔ c = data ∨ c = selfModifying := by
  cases c <;> simp [isAccessed]

end Class

namespace ClassMap

variable {m : ClassMap} {test : Class → Bool} {a n k : Nat} {c : Class}

theorem getElem_eq_classAt (m : ClassMap) (b : Address) : m[b] = m.classAt b.toNat := by
  rw [classAt, dif_pos b.toNat_lt]
  rfl

theorem test_markRange (htest : Class.Additive test) :
    test (classAt (markRange m a n c) k) = true ↔
      test (classAt m k) = true ∨ test c = true ∧ a ≤ k ∧ k < a + n ∧ k < 65536 := by
  rw [classAt_markRange]
  by_cases hk : a ≤ k ∧ k < a + n ∧ k < 65536
  · rw [if_pos hk, htest, Bool.or_eq_true]
    simp [hk]
  · rw [if_neg hk]
    simp [hk]

theorem Covered.passes (htest : Class.Additive test) (h : Covered m a n c) (hc : test c = true)
    (h1 : a ≤ k) (h2 : k < a + n) (h3 : k < 65536) : test (classAt m k) = true := by
  rw [← h k h1 h2 h3, htest, hc, Bool.or_true]

end ClassMap

namespace RegState

/-- How many of the two low bits of a mask are set. -/
def lowBitCount (mask : UInt16) : Nat :=
  (mask.toNat.testBit 0).toNat + (mask.toNat.testBit 1).toNat

theorem planeCount_eq (mask : UInt16) : planeCount mask = lowBitCount mask := by
  have hbit (n : Nat) : n % 2 = (n.testBit 0).toNat := by
    rw [Nat.testBit_zero]
    rcases Nat.mod_two_eq_zero_or_one n with h | h <;> simp [h]
  have hhigh : mask.toNat.testBit 1 = (mask.toNat >>> 1).testBit 0 := by
    rw [Nat.testBit_shiftRight]
  rw [planeCount, lowBitCount, hhigh, ← hbit, ← hbit]
  simp

/-- The instructions that access memory from `i` on, and how many bytes they access in a state: a
sprite of height zero has 32 rows, and there are as many sprites as the planes allow. -/
inductive AccessLength (s : RegState) : Instr → Nat → Prop
  | bcd (x : Nibble) : AccessLength s (.bcd x) 3
  | save (x : Nibble) : AccessLength s (.save x) (x.val + 1)
  | load (x : Nibble) : AccessLength s (.load x) (x.val + 1)
  | saveRange (x y : Nibble) :
    AccessLength s (.saveRange x y) (((x.val : Int) - y.val).natAbs + 1)
  | loadRange (x y : Nibble) :
    AccessLength s (.loadRange x y) (((x.val : Int) - y.val).natAbs + 1)
  | audio : AccessLength s .audio 16
  | sprite (x y n : Nibble) {planes : Nat} (h : ∃ mask ∈ s.get .plane, lowBitCount mask = planes)
    (hmax : ∀ mask ∈ s.get .plane, lowBitCount mask ≤ planes) :
    AccessLength s (.sprite x y n) ((if n.val = 0 then 32 else n.val) * planes)

private theorem le_foldl_max (masks : List UInt16) (m k : Nat) :
    k ≤ masks.foldl (fun n mask => max n (planeCount mask)) m ↔
      k ≤ m ∨ ∃ mask ∈ masks, k ≤ lowBitCount mask := by
  induction masks generalizing m with
  | nil => simp
  | cons mask rest ih =>
    have hmax : k ≤ max m (lowBitCount mask) ↔ k ≤ m ∨ k ≤ lowBitCount mask := by omega
    rw [List.foldl_cons, ih, planeCount_eq, hmax]
    simp only [List.mem_cons, exists_eq_or_imp, or_assoc]

theorem le_maxPlanes {s : RegState} {k : Nat} :
    k ≤ s.maxPlanes ↔ k = 0 ∨ ∃ mask ∈ s.get .plane, k ≤ lowBitCount mask := by
  rw [maxPlanes, le_foldl_max]
  simp

theorem maxPlanes_mono {s t : RegState} (h : s ⊆ t) : s.maxPlanes ≤ t.maxPlanes := by
  rcases le_maxPlanes.1 (Nat.le_refl s.maxPlanes) with h0 | ⟨mask, hmask, hle⟩
  · rw [h0]
    exact Nat.zero_le _
  · exact le_maxPlanes.2 (Or.inr ⟨mask, h .plane hmask, hle⟩)

theorem dataLength_mono (i : Instr) {s t : RegState} (h : s ⊆ t) :
    s.dataLength i ≤ t.dataLength i := by
  cases i with
  | sprite x y n => exact Nat.mul_le_mul_left _ (maxPlanes_mono h)
  | _ => exact Nat.le_refl _

theorem AccessLength.le_dataLength {s : RegState} {i : Instr} {n : Nat}
    (h : AccessLength s i n) : n ≤ s.dataLength i := by
  cases h with
  | bcd x => exact Nat.le_refl _
  | save x => exact Nat.le_refl _
  | load x => exact Nat.le_refl _
  | saveRange x y => simp only [dataLength]; omega
  | loadRange x y => simp only [dataLength]; omega
  | audio => exact Nat.le_refl _
  | sprite x y n h _ =>
    obtain ⟨mask, hmask, rfl⟩ := h
    exact Nat.mul_le_mul_left _ (le_maxPlanes.2 (Or.inr ⟨mask, hmask, Nat.le_refl _⟩))

theorem accessLength_dataLength {s : RegState} {i : Instr} (h : 0 < s.dataLength i) :
    AccessLength s i (s.dataLength i) := by
  have hspan (x y : Nibble) :
      max x.val y.val - min x.val y.val + 1 = ((x.val : Int) - y.val).natAbs + 1 := by omega
  cases i with
  | bcd x => exact .bcd x
  | save x => exact .save x
  | load x => exact .load x
  | saveRange x y => rw [dataLength, hspan]; exact .saveRange x y
  | loadRange x y => rw [dataLength, hspan]; exact .loadRange x y
  | audio => exact .audio
  | sprite x y n =>
    have hpos : 0 < s.maxPlanes := Nat.pos_of_mul_pos_left h
    rcases le_maxPlanes.1 (Nat.le_refl s.maxPlanes) with h0 | ⟨mask, hmask, hle⟩
    · omega
    · have hge (other : UInt16) (hother : other ∈ s.get .plane) :
          lowBitCount other ≤ s.maxPlanes :=
        le_maxPlanes.2 (Or.inr ⟨other, hother, Nat.le_refl _⟩)
      exact .sprite x y n ⟨mask, hmask, Nat.le_antisymm (hge mask hmask) hle⟩ hge
  | _ => exact absurd h (Nat.lt_irrefl 0)

end RegState

namespace Analyzer

section Marks

variable {m : ClassMap} {test : Class → Bool} {k : Nat}

theorem test_markData (htest : Class.Additive test) {s : RegState} {i : Instr} :
    test (ClassMap.classAt (markData m s i) k) = true ↔
      test (m.classAt k) = true ∨ test .data = true ∧ ∃ base ∈ s.get .index,
        base.toNat ≤ k ∧ k < base.toNat + s.dataLength i ∧ k < 65536 := by
  simp only [markData_eq_foldl, ← WordSet.mem_toList]
  generalize s.dataLength i = n
  generalize (s.get .index).toList = bases
  induction bases generalizing m with
  | nil => simp
  | cons base rest ih =>
    rw [List.foldl_cons, ih, ClassMap.test_markRange htest]
    simp only [List.mem_cons, exists_eq_or_imp, and_or_left, or_assoc]

/-- The instruction at some reached address takes up the location. -/
def Executes (a : Analyzer) (k : Nat) : Prop :=
  ∃ (here : Address) (s : RegState), a.reaching[here] = some s ∧
    here.toNat ≤ k ∧ k < here.toNat + (a.program.instr here).size

/-- The instruction at some reached address accesses the location. -/
def Accesses (a : Analyzer) (k : Nat) : Prop :=
  ∃ (here : Address) (s : RegState), a.reaching[here] = some s ∧ ∃ base ∈ s.get .index,
    base.toNat ≤ k ∧ k < base.toNat + s.dataLength (a.program.instr here)

end Marks

section Grows

variable {a b : Analyzer} {k : Nat}

theorem Executes.mono (h : a.Executes k) (hg : a.Grows b) : b.Executes k := by
  obtain ⟨here, s, hs, hk⟩ := h
  obtain ⟨u, hu, _⟩ := hg.reaching here s hs
  exact ⟨here, u, hu, by rw [hg.program]; exact hk⟩

theorem Accesses.mono (h : a.Accesses k) (hg : a.Grows b) : b.Accesses k := by
  obtain ⟨here, s, hs, base, hbase, hle, hlt⟩ := h
  obtain ⟨u, hu, hsu⟩ := hg.reaching here s hs
  refine ⟨here, u, hu, base, hsu .index hbase, hle, ?_⟩
  have hmono := RegState.dataLength_mono (a.program.instr here) hsu
  rw [hg.program]
  omega

end Grows

/-- Every reference of a table is one of a reached instruction. -/
def Refers (a : Analyzer) (table : RefTable) (target : Instr → Option Address) : Prop :=
  ∀ t here : Address, table.has t here = true →
    (∃ s, a.reaching[here] = some s) ∧ target (a.program.instr here) = some t

theorem Refers.addSome {a b : Analyzer} {table : RefTable} {target : Instr → Option Address}
    (h : a.Refers table target) (hg : a.Grows b) {here : Address} {s : RegState}
    (hs : a.reaching[here] = some s) :
    b.Refers (table.addSome (target (a.program.instr here)) here) target := by
  intro t source hhas
  have hold : (∃ s, a.reaching[source] = some s) ∧ target (a.program.instr source) = some t := by
    rcases RefTable.has_addSome.1 hhas with hhas | ⟨htarget, rfl⟩
    · exact h t source hhas
    · exact ⟨⟨s, hs⟩, htarget⟩
  obtain ⟨⟨u, hu⟩, htarget⟩ := hold
  obtain ⟨w, hw, _⟩ := hg.reaching source u hu
  rw [hg.program]
  exact ⟨⟨w, hw⟩, htarget⟩

/-- Every mark and every reference is due to a reached instruction. -/
structure Grounded (a : Analyzer) : Prop where
  executed : ∀ k, (a.classes.classAt k).isExecuted = true → a.Executes k
  accessed : ∀ k, (a.classes.classAt k).isAccessed = true → a.Accesses k
  labels : a.Refers a.references.labels Instr.labelTarget
  subroutines : a.Refers a.references.subroutines Instr.callTarget
  natives : a.Refers a.references.natives Instr.nativeTarget

theorem grounded_start (p : Program) (d : Dialect) : Grounded (start p d) := by
  have hclass (k : Nat) : (start p d).classes.classAt k = .unclassified := by
    simp [start, ClassMap.unknown, ClassMap.classAt, AddressMap.const]
  have href (target : Instr → Option Address) : (start p d).Refers .empty target := by
    intro t here h
    simp [RefTable.has_iff, RefTable.empty] at h
  constructor
  · intro k hk
    rw [hclass] at hk
    cases hk
  · intro k hk
    rw [hclass] at hk
    cases hk
  · exact href _
  · exact href _
  · exact href _

/-- One visit marks what the instruction touches in the state it is visited in, and the state that
is there afterwards is no smaller. -/
theorem Grounded.pop {a : Analyzer} (h : a.Grounded) (here : Address) (rest : List Address) :
    (a.pop here rest).Grounded := by
  have hg := grows_pop a here rest
  cases hs : a.reaching[here] with
  | none =>
    rw [pop_of_not_reached hs]
    exact ⟨h.executed, h.accessed, h.labels, h.subroutines, h.natives⟩
  | some s =>
    constructor
    · intro k hk
      rw [classes_pop hs, test_markData Class.additive_isExecuted,
        ClassMap.test_markRange Class.additive_isExecuted] at hk
      rcases hk with (hk | ⟨_, hle, hlt, _⟩) | ⟨hdata, _⟩
      · exact (h.executed k hk).mono hg
      · exact Executes.mono ⟨here, s, hs, hle, hlt⟩ hg
      · cases hdata
    · intro k hk
      rw [classes_pop hs, test_markData Class.additive_isAccessed,
        ClassMap.test_markRange Class.additive_isAccessed] at hk
      rcases hk with (hk | ⟨hcode, _⟩) | ⟨_, base, hbase, hle, hlt, _⟩
      · exact (h.accessed k hk).mono hg
      · cases hcode
      · exact Accesses.mono ⟨here, s, hs, base, hbase, hle, hlt⟩ hg
    · rw [references_pop hs]
      exact h.labels.addSome hg hs
    · rw [references_pop hs]
      exact h.subroutines.addSome hg hs
    · rw [references_pop hs]
      exact h.natives.addSome hg hs

section AtRest

variable {rom : Array UInt8} {d : Dialect} {a : Analyzer}

theorem Reachable.grounded (h : Reachable rom d a) : a.Grounded :=
  h.induction_on (fun p _ => grounded_start p d) (fun _ here rest _ hb => hb.pop here rest)

theorem Reachable.isExecuted_iff (h : Reachable rom d a) (hd : a.isDone = true) (b : Address) :
    (a.classes[b]).isExecuted = true ↔ a.Executes b.toNat := by
  rw [ClassMap.getElem_eq_classAt]
  constructor
  · exact h.grounded.executed b.toNat
  · intro hexec
    obtain ⟨here, s, hs, hle, hlt⟩ := hexec
    have hvisited := h.worklist.visited_at_rest hd hs
    exact hvisited.code.passes Class.additive_isExecuted rfl hle hlt b.toNat_lt

theorem Reachable.isAccessed_iff (h : Reachable rom d a) (hd : a.isDone = true) (b : Address) :
    (a.classes[b]).isAccessed = true ↔ a.Accesses b.toNat := by
  rw [ClassMap.getElem_eq_classAt]
  constructor
  · exact h.grounded.accessed b.toNat
  · intro haccess
    obtain ⟨here, s, hs, base, hbase, hle, hlt⟩ := haccess
    have hvisited := h.worklist.visited_at_rest hd hs
    exact (hvisited.data base hbase).passes Class.additive_isAccessed rfl hle hlt b.toNat_lt

theorem accesses_iff {k : Nat} :
    a.Accesses k ↔ ∃ (here : Address) (s : RegState) (n : Nat), a.reaching[here] = some s ∧
      s.AccessLength (a.program.instr here) n ∧
        ∃ i ∈ s.get .index, i.toNat ≤ k ∧ k < i.toNat + n := by
  constructor
  · intro h
    obtain ⟨here, s, hs, base, hbase, hle, hlt⟩ := h
    have hlength := RegState.accessLength_dataLength (s := s) (i := a.program.instr here) (by omega)
    exact ⟨here, s, _, hs, hlength, base, hbase, hle, hlt⟩
  · intro h
    obtain ⟨here, s, n, hs, hlength, base, hbase, hle, hlt⟩ := h
    have hmax := hlength.le_dataLength
    exact ⟨here, s, hs, base, hbase, hle, by omega⟩

theorem has_iff_of_recorded {table : RefTable} {target : Instr → Option Address}
    (hrefers : a.Refers table target)
    (hrecorded : ∀ (here : Address) (s : RegState), a.reaching[here] = some s →
      ∀ t, target (a.program.instr here) = some t → table.has t here = true)
    (t here : Address) :
    table.has t here = true ↔
      (∃ s, a.reaching[here] = some s) ∧ target (a.program.instr here) = some t := by
  constructor
  · exact hrefers t here
  · intro h
    obtain ⟨⟨s, hs⟩, htarget⟩ := h
    exact hrecorded here s hs t htarget

/-- At rest a byte counts as executed exactly if some reached instruction takes it up, and as
accessed exactly if some reached instruction accesses it from a value that `i` has there; and an
address is on record as referring to a target exactly if it is reached and its instruction refers
to the target. -/
theorem marks_exact (h : Reachable rom d a) (hd : a.isDone = true) :
    (∀ b : Address,
      (a.classes[b] = .code ∨ a.classes[b] = .selfModifying ↔
        ∃ (here : Address) (s : RegState), a.reaching[here] = some s ∧
          here.toNat ≤ b.toNat ∧ b.toNat < here.toNat + (a.program.instr here).size) ∧
      (a.classes[b] = .data ∨ a.classes[b] = .selfModifying ↔
        ∃ (here : Address) (s : RegState) (n : Nat), a.reaching[here] = some s ∧
          s.AccessLength (a.program.instr here) n ∧
            ∃ i ∈ s.get .index, i.toNat ≤ b.toNat ∧ b.toNat < i.toNat + n)) ∧
      ∀ t here : Address,
        (a.references.labels.has t here = true ↔
          (∃ s, a.reaching[here] = some s) ∧ (a.program.instr here).labelTarget = some t) ∧
        (a.references.subroutines.has t here = true ↔
          (∃ s, a.reaching[here] = some s) ∧ (a.program.instr here).callTarget = some t) ∧
        (a.references.natives.has t here = true ↔
          (∃ s, a.reaching[here] = some s) ∧ (a.program.instr here).nativeTarget = some t) := by
  have hg := h.grounded
  have hrecorded (here : Address) (s : RegState) (hs : a.reaching[here] = some s) :=
    (h.worklist.visited_at_rest hd hs).references
  constructor
  · intro b
    rw [← Class.isExecuted_iff, ← Class.isAccessed_iff, ← accesses_iff]
    exact ⟨h.isExecuted_iff hd b, h.isAccessed_iff hd b⟩
  · intro t here
    exact ⟨has_iff_of_recorded hg.labels (fun here s hs => (hrecorded here s hs).label) t here,
      has_iff_of_recorded hg.subroutines (fun here s hs => (hrecorded here s hs).call) t here,
      has_iff_of_recorded hg.natives (fun here s hs => (hrecorded here s hs).native) t here⟩

end AtRest

/-- A program that stores `v0` over the first byte of its first instruction. -/
def selfStore : Program where
  rom := #[0xA2, 0x00, 0xF0, 0x55, 0x00, 0xFD]
  fits := by decide

theorem marks_exact_in_self_store :
    Reachable selfStore.rom {} ((start selfStore {}).step 3) ∧
      ((start selfStore {}).step 3).isDone = true ∧
      (∃ (here : Address) (s : RegState) (n : Nat),
        ((start selfStore {}).step 3).reaching[here] = some s ∧
          s.AccessLength (((start selfStore {}).step 3).program.instr here) n ∧
            ∃ i ∈ s.get .index, i.toNat ≤ 0x200 ∧ 0x200 < i.toNat + n) ∧
      (¬ ∃ (here : Address) (s : RegState), ((start selfStore {}).step 3).reaching[here] = some s ∧
        here.toNat ≤ 0x206 ∧
          0x206 < here.toNat + (((start selfStore {}).step 3).program.instr here).size) ∧
      ∃ s, ((start selfStore {}).step 3).reaching[(0x200 : Address)] = some s := by
  have hr : Reachable selfStore.rom {} ((start selfStore {}).step 3) := .step 3 (.start rfl)
  have hrest : ((start selfStore {}).step 3).isDone = true ∧
      ((start selfStore {}).step 3).classes[(0x200 : Address)] = .selfModifying ∧
      ((start selfStore {}).step 3).classes[(0x206 : Address)] = .unclassified ∧
      ((start selfStore {}).step 3).references.labels.has 0x200 0x200 = true := by
    decide +kernel
  obtain ⟨hdone, hfirst, hbehind, hlabel⟩ := hrest
  obtain ⟨hclasses, hreferences⟩ := marks_exact hr hdone
  refine ⟨hr, hdone, (hclasses 0x200).2.1 (Or.inr hfirst), ?_,
    ((hreferences 0x200 0x200).1.1 hlabel).1⟩
  intro hexec
  have hclass := (hclasses 0x206).1.2 hexec
  rw [hbehind] at hclass
  simp at hclass

end Analyzer
end OctoLift
