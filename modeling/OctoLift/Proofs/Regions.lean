import Mathlib.Data.List.Basic
import OctoLift.Proofs.Marks
import OctoLift.Proofs.Numerals
import OctoLift.Report

/-!
# Regions

The regions of a report are the run-length encoding of the class map: they lie apart in ascending
order, none could be longer, and they say of every location which class it has. So marking them in
an empty map gives the class map back. A single pass over memory that keeps the run it is in finds
the same regions.
-/

namespace OctoLift

namespace Region

def stop (r : Region) : Nat :=
  r.start + r.length

def Covers (r : Region) (k : Nat) : Prop :=
  r.start ≤ k ∧ k < r.stop

end Region

namespace ClassMap

/-- The regions are the maximal runs of the classified locations from `n` on. -/
structure Encodes (m : ClassMap) (n : Nat) (rs : List Region) : Prop where
  nonempty : ∀ r ∈ rs, 0 < r.length
  classified : ∀ r ∈ rs, r.kind ≠ .unclassified
  apart : rs.Pairwise fun r s => r.stop ≤ s.start
  maximal : rs.Pairwise fun r s => r.stop = s.start → r.kind ≠ s.kind
  covers : ∀ k c, c ≠ .unclassified →
    ((∃ r ∈ rs, r.kind = c ∧ r.Covers k) ↔ n ≤ k ∧ m.classAt k = c)

section Encoding

variable {m : ClassMap} {n : Nat} {c : Class} {r : Region} {rs : List Region}

theorem Encodes.le_start (h : Encodes m n rs) (hr : r ∈ rs) : n ≤ r.start := by
  have hlength := h.nonempty r hr
  have hcovers : r.Covers r.start := ⟨Nat.le_refl _, by rw [Region.stop]; omega⟩
  exact ((h.covers r.start r.kind (h.classified r hr)).1 ⟨r, hr, rfl, hcovers⟩).1

theorem encodes_nil (m : ClassMap) : Encodes m 65536 [] where
  nonempty := by simp
  classified := by simp
  apart := .nil
  maximal := .nil
  covers k c hc := by
    have hbehind : ¬ (65536 ≤ k ∧ m.classAt k = c) := by
      rintro ⟨hk, rfl⟩
      exact hc (dif_neg (Nat.not_lt.2 hk))
    simp [hbehind]

theorem Encodes.skip (h : Encodes m (n + 1) rs) (hn : m.classAt n = .unclassified) :
    Encodes m n rs where
  nonempty := h.nonempty
  classified := h.classified
  apart := h.apart
  maximal := h.maximal
  covers k c hc := by
    rw [h.covers k c hc]
    constructor
    · rintro ⟨hk, hclass⟩
      exact ⟨by omega, hclass⟩
    · rintro ⟨hk, hclass⟩
      have hne : k ≠ n := by
        rintro rfl
        exact hc (hclass.symm.trans hn)
      exact ⟨by omega, hclass⟩

/-- A classified location begins a region of its own if it does not continue into one. -/
theorem Encodes.cons (h : Encodes m (n + 1) rs) (hn : m.classAt n = c) (hc : c ≠ .unclassified)
    (hnext : ∀ r ∈ rs, r.start = n + 1 → r.kind ≠ c) : Encodes m n (⟨n, 1, c⟩ :: rs) where
  nonempty := List.forall_mem_cons.2 ⟨Nat.one_pos, h.nonempty⟩
  classified := List.forall_mem_cons.2 ⟨hc, h.classified⟩
  apart := List.pairwise_cons.2 ⟨fun _ hr => h.le_start hr, h.apart⟩
  maximal := List.pairwise_cons.2 ⟨fun r hr htouch => (hnext r hr htouch.symm).symm, h.maximal⟩
  covers k d hd := by
    have hhead : (c = d ∧ (⟨n, 1, c⟩ : Region).Covers k) ↔ k = n ∧ m.classAt k = d := by
      simp only [Region.Covers, Region.stop]
      constructor
      · rintro ⟨rfl, hle, hlt⟩
        obtain rfl : k = n := by omega
        exact ⟨rfl, hn⟩
      · rintro ⟨rfl, hclass⟩
        exact ⟨hn.symm.trans hclass, Nat.le_refl _, Nat.lt_succ_self _⟩
    simp only [List.mem_cons, exists_eq_or_imp, hhead, h.covers k d hd]
    have hsplit : n ≤ k ↔ k = n ∨ n + 1 ≤ k := by omega
    rw [hsplit, or_and_right]

/-- A location whose class is that of the region behind it makes the region longer. -/
theorem Encodes.grow (h : Encodes m (n + 1) (r :: rs)) (hstart : r.start = n + 1)
    (hn : m.classAt n = r.kind) : Encodes m n (⟨n, r.length + 1, r.kind⟩ :: rs) := by
  have hstop : (⟨n, r.length + 1, r.kind⟩ : Region).stop = r.stop := by
    simp only [Region.stop, hstart]
    omega
  obtain ⟨hapart, hrest⟩ := List.pairwise_cons.1 h.apart
  obtain ⟨hmaximal, hmaxRest⟩ := List.pairwise_cons.1 h.maximal
  constructor
  · exact List.forall_mem_cons.2 ⟨Nat.succ_pos _, fun s hs => h.nonempty s (by simp [hs])⟩
  · exact List.forall_mem_cons.2
      ⟨h.classified r (by simp), fun s hs => h.classified s (by simp [hs])⟩
  · exact List.pairwise_cons.2 ⟨fun s hs => hstop ▸ hapart s hs, hrest⟩
  · exact List.pairwise_cons.2 ⟨fun s hs => hstop ▸ hmaximal s hs, hmaxRest⟩
  · intro k d hd
    have hpos := h.nonempty r (by simp)
    have hold := h.covers k d hd
    have hhead : (r.kind = d ∧ (⟨n, r.length + 1, r.kind⟩ : Region).Covers k) ↔
        (k = n ∧ m.classAt k = d) ∨ r.kind = d ∧ r.Covers k := by
      simp only [Region.Covers, hstop, hstart]
      rw [Region.stop, hstart]
      constructor
      · rintro ⟨hkind, hle, hlt⟩
        rcases Nat.eq_or_lt_of_le hle with rfl | hlt'
        · exact Or.inl ⟨rfl, hn.trans hkind⟩
        · exact Or.inr ⟨hkind, hlt', hlt⟩
      · rintro (⟨rfl, hclass⟩ | ⟨hkind, hle, hlt⟩)
        · exact ⟨hn.symm.trans hclass, Nat.le_refl _, by omega⟩
        · exact ⟨hkind, by omega, hlt⟩
    simp only [List.mem_cons, exists_eq_or_imp] at hold ⊢
    have hsplit : n ≤ k ↔ k = n ∨ n + 1 ≤ k := by omega
    rw [hhead, or_assoc, hold, hsplit, or_and_right]

theorem Encodes.extend (h : Encodes m (n + 1) rs) :
    Encodes m n (extend n (m.classAt n) rs) := by
  unfold ClassMap.extend
  by_cases hc : m.classAt n = .unclassified
  · rw [if_pos hc]
    exact h.skip hc
  rw [if_neg hc]
  cases rs with
  | nil => exact h.cons rfl hc (by simp)
  | cons r rest =>
    by_cases hnext : r.kind = m.classAt n ∧ r.start = n + 1
    · obtain ⟨hkind, hstart⟩ := hnext
      have hgrown := h.grow hstart hkind.symm
      rw [hkind] at hgrown
      dsimp only
      rw [if_pos ⟨hkind, hstart⟩]
      exact hgrown
    · dsimp only
      rw [if_neg hnext]
      refine h.cons rfl hc (List.forall_mem_cons.2 ⟨fun hs hk => hnext ⟨hk, hs⟩, ?_⟩)
      -- the regions behind the first one are too far away
      intro s hs hstart
      have hfirst := h.le_start (r := r) (by simp)
      have hlength := h.nonempty r (by simp)
      have hapart := (List.pairwise_cons.1 h.apart).1 s hs
      rw [Region.stop] at hapart
      omega

theorem Encodes.regionsBelow (h : Encodes m n rs) : Encodes m 0 (m.regionsBelow n rs) := by
  induction n generalizing rs with
  | zero => exact h
  | succ n ih => exact ih h.extend

theorem encodes_regions (m : ClassMap) : Encodes m 0 m.regions :=
  (encodes_nil m).regionsBelow

theorem Encodes.classAt_iff (h : Encodes m 0 rs) {k : Nat} (hc : c ≠ .unclassified) :
    m.classAt k = c ↔ ∃ r ∈ rs, r.kind = c ∧ r.Covers k := by
  rw [h.covers k c hc, and_iff_right (Nat.zero_le k)]

end Encoding

/-- A single pass over memory: the regions that are complete, and the one that may go on. -/
structure Scan where
  complete : List Region := []
  current : Option Region := none

namespace Scan

def regions (s : Scan) : List Region :=
  s.complete ++ s.current.toList

/-- What a location begins if it does not continue a region. -/
def opened (a : Nat) (c : Class) : Option Region :=
  if c = .unclassified then none else some ⟨a, 1, c⟩

def step (s : Scan) (a : Nat) (c : Class) : Scan :=
  match s.current with
  | some r =>
    if r.kind = c ∧ r.stop = a then { s with current := some { r with length := r.length + 1 } }
    else ⟨s.regions, opened a c⟩
  | none => ⟨s.regions, opened a c⟩

def upTo (m : ClassMap) : (n : Nat) → Scan
  | 0 => {}
  | n + 1 => (upTo m n).step n (m.classAt n)

end Scan

section Scanning

variable {m : ClassMap} {n : Nat} {c : Class} {r : Region} {rs : List Region}

/-- Puts a region before others, where it is joined with the first if that goes on with it. -/
def prepend (r : Region) : List Region → List Region
  | [] => [r]
  | s :: rest =>
    if s.kind = r.kind ∧ s.start = r.stop then ⟨r.start, r.length + s.length, r.kind⟩ :: rest
    else r :: s :: rest

def attach (current : Option Region) (rs : List Region) : List Region :=
  current.elim rs fun r => prepend r rs

@[simp] theorem attach_none (rs : List Region) : attach none rs = rs := rfl

@[simp] theorem attach_some (r : Region) (rs : List Region) :
    attach (some r) rs = prepend r rs := rfl

theorem prepend_of_apart (h : ∀ s ∈ rs, s.start = r.stop → s.kind ≠ r.kind) :
    prepend r rs = r :: rs := by
  cases rs with
  | nil => rfl
  | cons s rest => exact if_neg fun htouch => h s (by simp) htouch.2 htouch.1

theorem extend_eq_attach (n : Nat) (c : Class) (rs : List Region) :
    extend n c rs = attach (Scan.opened n c) rs := by
  unfold extend Scan.opened
  by_cases hc : c = .unclassified
  · rw [if_pos hc, if_pos hc]
    rfl
  rw [if_neg hc, if_neg hc]
  cases rs with
  | nil => rfl
  | cons r rest => simp only [attach_some, prepend, Region.stop, Nat.add_comm 1]

theorem mem_extend (h : r ∈ extend n c rs) : (r.start = n ∧ r.kind = c) ∨ r ∈ rs := by
  unfold extend at h
  split at h
  · exact Or.inr h
  split at h
  · next s rest =>
    split at h
    · rcases List.mem_cons.1 h with rfl | h
      · exact Or.inl ⟨rfl, rfl⟩
      · exact Or.inr (List.mem_cons_of_mem _ h)
    · rcases List.mem_cons.1 h with rfl | h
      · exact Or.inl ⟨rfl, rfl⟩
      · exact Or.inr h
  · rw [List.mem_singleton.1 h]
    exact Or.inl ⟨rfl, rfl⟩

theorem prepend_opened (hc : r.kind ≠ .unclassified) (hn : r.stop = n) (rs : List Region) :
    prepend r (attach (Scan.opened n r.kind) rs) =
      prepend { r with length := r.length + 1 } rs := by
  have hstop : ({ r with length := r.length + 1 } : Region).stop = n + 1 := by
    rw [← hn]
    exact (Nat.add_assoc _ _ _).symm
  have hone : (⟨n, 1, r.kind⟩ : Region).stop = n + 1 := rfl
  rw [Scan.opened, if_neg hc, attach_some]
  cases rs with
  | nil => simp only [prepend, hn, and_self, if_true]
  | cons s rest =>
    simp only [prepend, hstop, hone]
    by_cases htouch : s.kind = r.kind ∧ s.start = n + 1
    · rw [if_pos htouch, if_pos htouch]
      simp only [hn, and_self, if_true, Nat.add_assoc]
    · rw [if_neg htouch, if_neg htouch]
      simp only [hn, and_self, if_true]

/-- The region that may go on ends where the pass stands. -/
def Scan.EndsAt (s : Scan) (n : Nat) : Prop :=
  ∀ r, s.current = some r → r.stop = n ∧ r.kind ≠ .unclassified

theorem Scan.endsAt_opened (n : Nat) (c : Class) :
    ∀ r, opened n c = some r → r.stop = n + 1 ∧ r.kind ≠ .unclassified := by
  intro r hr
  unfold opened at hr
  split at hr
  · cases hr
  · next hc =>
    cases hr
    exact ⟨rfl, hc⟩

theorem Scan.EndsAt.step {s : Scan} (h : s.EndsAt n) (c : Class) : (s.step n c).EndsAt (n + 1) := by
  unfold Scan.step
  cases hs : s.current with
  | none => exact Scan.endsAt_opened n c
  | some r =>
    obtain ⟨hstop, hkind⟩ := h r hs
    dsimp only
    split
    · intro r' hr'
      cases hr'
      refine ⟨?_, hkind⟩
      rw [← hstop]
      exact (Nat.add_assoc _ _ _).symm
    · exact Scan.endsAt_opened n c

theorem Scan.endsAt_upTo (m : ClassMap) (n : Nat) : (upTo m n).EndsAt n := by
  induction n with
  | zero =>
    intro r hr
    cases hr
  | succ n ih => exact ih.step _

/-- Passing a location comes to the same as putting it before the regions behind it. -/
theorem Scan.attach_step {s : Scan} (h : s.EndsAt n) (c : Class)
    (hrs : ∀ r ∈ rs, n < r.start) :
    (s.step n c).complete ++ attach (s.step n c).current rs =
      s.complete ++ attach s.current (extend n c rs) := by
  unfold Scan.step
  cases hs : s.current with
  | none => simp [regions, hs, extend_eq_attach]
  | some r =>
    obtain ⟨hstop, hkind⟩ := h r hs
    dsimp only
    by_cases hgoes : r.kind = c
    · rw [if_pos ⟨hgoes, hstop⟩, extend_eq_attach, ← hgoes]
      exact congrArg _ (prepend_opened hkind hstop rs).symm
    · have hapart : ∀ r' ∈ extend n c rs, r'.start = r.stop → r'.kind ≠ r.kind := by
        intro r' hr' hstart
        rcases mem_extend hr' with ⟨-, hkind'⟩ | hr'
        · exact fun hsame => hgoes (hsame.symm.trans hkind')
        · have hbehind := hrs r' hr'
          omega
      rw [if_neg fun hboth => hgoes hboth.1, attach_some, prepend_of_apart hapart,
        extend_eq_attach]
      simp [regions, hs]

theorem regionsBelow_eq (m : ClassMap) (hrs : ∀ r ∈ rs, n ≤ r.start) :
    m.regionsBelow n rs =
      (Scan.upTo m n).complete ++ attach (Scan.upTo m n).current rs := by
  induction n generalizing rs with
  | zero => rfl
  | succ n ih =>
    have hextend : ∀ r ∈ extend n (m.classAt n) rs, n ≤ r.start := by
      intro r hr
      rcases mem_extend hr with ⟨hstart, -⟩ | hr
      · exact Nat.le_of_eq hstart.symm
      · exact Nat.le_of_lt (hrs r hr)
    rw [regionsBelow, ih hextend, Scan.upTo, Scan.attach_step (Scan.endsAt_upTo m n) _ hrs]

theorem regions_upTo (m : ClassMap) : (Scan.upTo m 65536).regions = m.regions := by
  rw [regions, regionsBelow_eq m (by simp), Scan.regions]
  cases (Scan.upTo m 65536).current <;> rfl

end Scanning

section Rebuilding

variable {m : ClassMap} {k : Nat} {r : Region} {rs : List Region}

def markRegions (m : ClassMap) (rs : List Region) : ClassMap :=
  rs.foldl (fun m r => m.markRange r.start r.length r.kind) m

theorem classAt_markRegions_of_not_covered (h : ∀ r ∈ rs, ¬ r.Covers k) :
    (m.markRegions rs).classAt k = m.classAt k := by
  induction rs generalizing m with
  | nil => rfl
  | cons r rest ih =>
    obtain ⟨hr, hrest⟩ := List.forall_mem_cons.1 h
    have hstep : (m.markRange r.start r.length r.kind).classAt k = m.classAt k := by
      rw [classAt_markRange, if_neg fun hk => hr ⟨hk.1, hk.2.1⟩]
    exact (ih hrest).trans hstep

theorem classAt_markRegions_of_covers (h : rs.Pairwise fun r s => r.stop ≤ s.start)
    (hr : r ∈ rs) (hk : r.Covers k) (hlt : k < 65536) :
    (m.markRegions rs).classAt k = (m.classAt k).join r.kind := by
  induction rs generalizing m with
  | nil => cases hr
  | cons s rest ih =>
    obtain ⟨hapart, hrest⟩ := List.pairwise_cons.1 h
    rcases List.mem_cons.1 hr with rfl | hr
    · have hbehind : ∀ s ∈ rest, ¬ s.Covers k := fun s hs hcovers =>
        absurd (Nat.lt_of_lt_of_le hk.2 (hapart s hs)) (Nat.not_lt.2 hcovers.1)
      have hstep : (m.markRange r.start r.length r.kind).classAt k =
          (m.classAt k).join r.kind := by
        rw [classAt_markRange, if_pos ⟨hk.1, hk.2, hlt⟩]
      exact (classAt_markRegions_of_not_covered hbehind).trans hstep
    · have hbefore : ¬ (s.start ≤ k ∧ k < s.start + s.length ∧ k < 65536) := fun hcovers =>
        absurd (Nat.lt_of_lt_of_le hcovers.2.1 (hapart r hr)) (Nat.not_lt.2 hk.1)
      have hstep : (m.markRange s.start s.length s.kind).classAt k = m.classAt k := by
        rw [classAt_markRange, if_neg hbefore]
      exact (ih hrest hr).trans (by rw [hstep])

theorem Encodes.markRegions_unknown (h : Encodes m 0 rs) : markRegions .unknown rs = m := by
  have hunknown (k : Nat) : classAt .unknown k = .unclassified := by
    simp [unknown, classAt, AddressMap.const]
  apply ext_classAt
  intro k
  by_cases hc : m.classAt k = .unclassified
  · have hfree : ∀ r ∈ rs, ¬ r.Covers k := by
      intro r hr hcovers
      have hkind := h.classified r hr
      exact hkind (((h.classAt_iff hkind).2 ⟨r, hr, rfl, hcovers⟩).symm.trans hc)
    rw [classAt_markRegions_of_not_covered hfree, hunknown, hc]
  · have hlt : k < 65536 := by
      apply Classical.byContradiction
      intro hge
      exact hc (dif_neg hge)
    obtain ⟨r, hr, hkind, hcovers⟩ := (h.classAt_iff hc).1 rfl
    rw [classAt_markRegions_of_covers h.apart hr hcovers hlt, hunknown, hkind]
    rfl

end Rebuilding

end ClassMap

theorem Class.name_injective : Function.Injective Class.name := by
  intro c d h
  cases c <;> cases d <;> first | rfl | exact absurd h (by decide)

namespace Report

theorem regionValue_injective : Function.Injective regionValue := by
  intro r s h
  simp only [regionValue, location, JsonValue.record.injEq, List.cons.injEq, Prod.mk.injEq,
    JsonValue.text.injEq, JsonValue.number.injEq, true_and, and_true] at h
  obtain ⟨hstart, hlength, hkind⟩ := h
  obtain ⟨start, length, kind⟩ := r
  obtain rfl : start = s.start := Numeral.hexLower_injective 4 hstart
  obtain rfl : length = s.length := hlength
  obtain rfl : kind = s.kind := Class.name_injective hkind
  rfl

theorem regions_ofAnalysis (a : Analysis) :
    (ofAnalysis a).regions = ClassMap.regions a.classes := by
  simp only [ofAnalysis]

/-- The regions of a report are a lossless run-length encoding of the classes. They ascend, they
lie apart, none is empty or unclassified, two that touch have different classes, and a location has
a class exactly if a region of that class covers it. So the class map can be rebuilt from them, and
also from the records in which the report exports them. A single pass over memory finds them. -/
theorem regions_encode_classes (a : Analysis) :
    let rs := (ofAnalysis a).regions
    rs.Pairwise (fun r s => r.start < s.start) ∧
      rs.Pairwise (fun r s => r.stop ≤ s.start) ∧
      (∀ r ∈ rs, 0 < r.length ∧ r.kind ≠ .unclassified) ∧
      rs.Pairwise (fun r s => r.stop = s.start → r.kind ≠ s.kind) ∧
      (∀ k c, c ≠ .unclassified →
        (ClassMap.classAt a.classes k = c ↔ ∃ r ∈ rs, r.kind = c ∧ r.start ≤ k ∧ k < r.stop)) ∧
      ClassMap.markRegions .unknown rs = a.classes ∧
      (∀ b : Analysis, (ofAnalysis b).regions.map regionValue = rs.map regionValue →
        b.classes = a.classes) ∧
      (ClassMap.Scan.upTo a.classes 65536).regions = rs := by
  simp only [regions_ofAnalysis]
  have h := ClassMap.encodes_regions a.classes
  generalize hrs : ClassMap.regions a.classes = rs at h ⊢
  have hascending : rs.Pairwise fun r s => r.start < s.start := by
    refine h.apart.imp_of_mem fun {r s} hr _ hapart => ?_
    have hlength := h.nonempty r hr
    rw [Region.stop] at hapart
    omega
  refine ⟨hascending, h.apart, fun r hr => ⟨h.nonempty r hr, h.classified r hr⟩, h.maximal,
    fun k c hc => h.classAt_iff hc, h.markRegions_unknown, ?_, ?_⟩
  · intro b hb
    have hregions : ClassMap.regions b.classes = rs := regionValue_injective.list_map hb
    calc
      b.classes = ClassMap.markRegions .unknown (ClassMap.regions b.classes) :=
        (ClassMap.encodes_regions b.classes).markRegions_unknown.symm
      _ = ClassMap.markRegions .unknown rs := by rw [hregions]
      _ = a.classes := h.markRegions_unknown
  · rw [ClassMap.regions_upTo, hrs]

end Report
end OctoLift
