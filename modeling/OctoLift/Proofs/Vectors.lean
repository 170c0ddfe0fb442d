import Mathlib.Data.List.Destutter
import OctoLift.Proofs.Order

/-!
# Sets of words in memory

In memory a set of words is a vector of its members, strictly ascending, and a register file holds
one such vector for each register. Membership is found by bisection, a merge goes through both
vectors at once, and what comes in any order is sorted and freed of repetitions. All this is right
on ascending vectors only, and it leaves none but such vectors behind. So each operation gives the
vector of what the operation on sets gives, and the register files are a join-semilattice.
-/

namespace OctoLift

/-- A set of words as it is kept in memory. -/
structure WordVector where
  values : Array UInt16
  deriving DecidableEq

namespace WordVector

instance : Membership UInt16 WordVector := ⟨fun a v => v ∈ a.values.toList⟩

instance : HasSubset WordVector := ⟨fun a b => ∀ v ∈ a, v ∈ b⟩

theorem mem_def {a : WordVector} {v : UInt16} : v ∈ a ↔ v ∈ a.values.toList :=
  Iff.rfl

def new : WordVector :=
  ⟨#[]⟩

def single (v : UInt16) : WordVector :=
  ⟨#[v]⟩

def range (max : UInt16) : WordVector :=
  ⟨((List.range (max.toNat + 1)).map UInt16.ofNat).toArray⟩

/-- The vector of words that come in any order: they are sorted, and of equal neighbours only the
first one stays. -/
def collect (vs : List UInt16) : WordVector :=
  ⟨((vs.mergeSort fun v w => decide (v ≤ w)).destutter (· ≠ ·)).toArray⟩

def masked (mask : UInt8) : WordVector :=
  collect ((List.range 256).map fun z => (UInt8.ofNat z &&& mask).toUInt16)

/-- Looks for a word among the `size` ones from the position `base` on. -/
def search (a : Array UInt16) (v : UInt16) (base size : Nat) (h : base + size ≤ a.size) : Bool :=
  if hsize : 1 < size then
    have hmid : base + size / 2 < a.size := by omega
    if v < a[base + size / 2] then search a v base (size - size / 2) (by omega)
    else search a v (base + size / 2) (size - size / 2) (by omega)
  else a[base]? == some v
termination_by size

def contains (a : WordVector) (v : UInt16) : Bool :=
  search a.values v 0 a.values.size (by omega)

def isSubset (a b : WordVector) : Bool :=
  a.values.toList.all b.contains

/-- Goes on with a merge from the positions `i` and `j`. -/
def mergeFrom (a b : Array UInt16) (i j : Nat) (merged : Array UInt16) : Array UInt16 :=
  if h : i < a.size ∧ j < b.size then
    have hi := h.1
    have hj := h.2
    if a[i] = b[j] then mergeFrom a b (i + 1) (j + 1) (merged.push a[i])
    else if a[i] < b[j] then mergeFrom a b (i + 1) j (merged.push a[i])
    else mergeFrom a b i (j + 1) (merged.push b[j])
  else merged ++ a.extract i ++ b.extract j
termination_by (a.size - i) + (b.size - j)

/-- Adds the words of `b` to those of `a`, and tells whether there was one to add. -/
def merge (a b : WordVector) : WordVector × Bool :=
  if b.isSubset a then (a, false) else (⟨mergeFrom a.values b.values 0 0 #[]⟩, true)

def map (f : UInt16 → UInt16) (a : WordVector) : WordVector :=
  collect (a.values.toList.map f)

def cap (limit : UInt16) (a : WordVector) : WordVector :=
  a.map fun v => min v limit

/-- What all operations rely on and leave behind. -/
def Ascending (a : WordVector) : Prop :=
  a.values.toList.Pairwise (· < ·)

section Ascending

variable {a b : WordVector} {v : UInt16}

theorem Ascending.ext (ha : a.Ascending) (hb : b.Ascending) (h : ∀ v, v ∈ a ↔ v ∈ b) : a = b := by
  obtain ⟨⟨vs⟩⟩ := a
  obtain ⟨⟨ws⟩⟩ := b
  have hvs : vs.Nodup := ha.imp fun h => UInt16.ne_of_lt h
  have hws : ws.Nodup := hb.imp fun h => UInt16.ne_of_lt h
  have hperm : vs.Perm ws := (List.perm_ext_iff_of_nodup hvs hws).2 h
  congr
  exact hperm.eq_of_pairwise (fun v w _ _ hvw hwv => absurd hwv (UInt16.lt_asymm hvw)) ha hb

theorem getElem_lt_getElem {vs : Array UInt16} (h : vs.toList.Pairwise (· < ·)) {i j : Nat}
    (hij : i < j) (hj : j < vs.size) : vs[i] < vs[j] :=
  List.pairwise_iff_getElem.1 h i j (Nat.lt_trans hij hj) hj hij

/-- The bisection finds a word that cannot stand outside of the part where it looks. -/
theorem search_iff {vs : Array UInt16} {base size : Nat} {h : base + size ≤ vs.size}
    (hvs : vs.toList.Pairwise (· < ·))
    (hin : ∀ i (hi : i < vs.size), vs[i] = v → base ≤ i ∧ i < base + size) :
    search vs v base size h = true ↔ v ∈ vs := by
  fun_induction search vs v base size h with
  | case1 base size h hsize hmid hlt ih =>
    refine ih fun i hi hv => ⟨(hin i hi hv).1, ?_⟩
    -- what stands behind the middle is still larger
    have hbefore : i < base + size / 2 := by
      refine Nat.lt_of_not_le fun hle => ?_
      rcases Nat.lt_or_eq_of_le hle with hlater | rfl
      · have hgreater := getElem_lt_getElem hvs hlater hi
        rw [hv] at hgreater
        exact UInt16.lt_asymm hlt hgreater
      · rw [hv] at hlt
        exact UInt16.lt_irrefl _ hlt
    omega
  | case2 base size h hsize hmid hlt ih =>
    refine ih fun i hi hv => ?_
    have hbehind : base + size / 2 ≤ i := by
      refine Nat.le_of_not_lt fun hless => ?_
      have hsmaller := getElem_lt_getElem hvs hless hmid
      rw [hv] at hsmaller
      exact hlt hsmaller
    have hbound := (hin i hi hv).2
    omega
  | case3 base size h hsize =>
    rw [beq_iff_eq]
    constructor
    · exact Array.mem_of_getElem?
    · intro hmem
      obtain ⟨i, hi, hv⟩ := Array.getElem_of_mem hmem
      obtain ⟨hle, hlt⟩ := hin i hi hv
      obtain rfl : i = base := by omega
      rw [Array.getElem?_eq_getElem hi, hv]

theorem Ascending.contains_iff (ha : a.Ascending) : a.contains v = true ↔ v ∈ a := by
  rw [contains, mem_def, Array.mem_toList_iff]
  exact search_iff ha fun i hi _ => by omega

theorem Ascending.isSubset_iff (hb : b.Ascending) : a.isSubset b = true ↔ a ⊆ b := by
  rw [isSubset, List.all_eq_true]
  exact forall₂_congr fun v _ => hb.contains_iff

theorem drop_eq_cons {vs : Array UInt16} {i : Nat} (hi : i < vs.size) :
    vs.toList.drop i = vs[i] :: vs.toList.drop (i + 1) :=
  List.drop_eq_getElem_cons hi

theorem toList_append_extract {vs ws merged : Array UInt16} {i j : Nat} :
    (merged ++ vs.extract i ++ ws.extract j).toList =
      merged.toList ++ vs.toList.drop i ++ ws.toList.drop j := by
  rw [Array.toList_append, Array.toList_append, Array.toList_extract, Array.toList_extract,
    List.extract_eq_take_drop, List.extract_eq_take_drop, List.take_of_length_le (by simp),
    List.take_of_length_le (by simp)]

theorem mem_mergeFrom {vs ws merged : Array UInt16} {i j : Nat} :
    v ∈ (mergeFrom vs ws i j merged).toList ↔
      v ∈ merged.toList ∨ v ∈ vs.toList.drop i ∨ v ∈ ws.toList.drop j := by
  fun_induction mergeFrom vs ws i j merged with
  | case1 i j merged h hi hj heq ih =>
    rw [ih, drop_eq_cons hi, drop_eq_cons hj, Array.toList_push, ← heq]
    grind
  | case2 i j merged h hi hj hne hlt ih =>
    rw [ih, drop_eq_cons hi, Array.toList_push]
    grind
  | case3 i j merged h hi hj hne hlt ih =>
    rw [ih, drop_eq_cons hj, Array.toList_push]
    grind
  | case4 i j merged h =>
    rw [toList_append_extract, List.mem_append, List.mem_append, or_assoc]

/-- The smaller one of two words that may come next can be put before the larger one. -/
theorem pairwise_smaller_next {merged rest rest' : List UInt16} {w w' : UInt16}
    (h : (merged ++ w :: rest).Pairwise (· < ·)) (h' : (merged ++ w' :: rest').Pairwise (· < ·))
    (hlt : w < w') : (merged ++ [w] ++ w' :: rest').Pairwise (· < ·) := by
  obtain ⟨hmerged, -, hnext⟩ := List.pairwise_append.1 h
  obtain ⟨-, hrest', hnext'⟩ := List.pairwise_append.1 h'
  rw [List.append_assoc]
  refine List.pairwise_append.2 ⟨hmerged, List.pairwise_cons.2 ⟨fun y hy => ?_, hrest'⟩, ?_⟩
  · rcases List.mem_cons.1 hy with rfl | hy
    · exact hlt
    · exact UInt16.lt_trans hlt (List.rel_of_pairwise_cons hrest' hy)
  · intro x hx y hy
    rcases List.mem_cons.1 hy with rfl | hy
    · exact hnext x hx y List.mem_cons_self
    · exact hnext' x hx y hy

/-- What is merged so far stays ascending, also together with what is left of either vector. -/
theorem pairwise_mergeFrom {vs ws merged : Array UInt16} {i j : Nat}
    (hvs : (merged.toList ++ vs.toList.drop i).Pairwise (· < ·))
    (hws : (merged.toList ++ ws.toList.drop j).Pairwise (· < ·)) :
    (mergeFrom vs ws i j merged).toList.Pairwise (· < ·) := by
  fun_induction mergeFrom vs ws i j merged with
  | case1 i j merged h hi hj heq ih =>
    rw [drop_eq_cons hi] at hvs
    rw [drop_eq_cons hj, ← heq] at hws
    exact ih (by simpa using hvs) (by simpa using hws)
  | case2 i j merged h hi hj hne hlt ih =>
    rw [drop_eq_cons hi] at hvs
    rw [drop_eq_cons hj] at hws
    have hnext := pairwise_smaller_next hvs hws hlt
    rw [← drop_eq_cons hj, ← Array.toList_push] at hnext
    exact ih (by simpa using hvs) hnext
  | case3 i j merged h hi hj hne hlt ih =>
    rw [drop_eq_cons hi] at hvs
    rw [drop_eq_cons hj] at hws
    have hgt : ws[j] < vs[i] := UInt16.lt_of_le_of_ne (UInt16.not_lt.1 hlt) (Ne.symm hne)
    have hnext := pairwise_smaller_next hws hvs hgt
    rw [← drop_eq_cons hi, ← Array.toList_push] at hnext
    exact ih hnext (by simpa using hws)
  | case4 i j merged h =>
    rw [toList_append_extract]
    rcases not_and_or.1 h with hi | hj
    · rw [List.drop_eq_nil_of_le (by simpa using hi), List.append_nil]
      exact hws
    · rw [@List.drop_eq_nil_of_le _ ws.toList j (by simpa using hj), List.append_nil]
      exact hvs

theorem Ascending.merge (ha : a.Ascending) (hb : b.Ascending) : (a.merge b).1.Ascending := by
  rw [WordVector.merge]
  split
  · exact ha
  · exact pairwise_mergeFrom ha hb

theorem mem_merge (ha : a.Ascending) : v ∈ (a.merge b).1 ↔ v ∈ a ∨ v ∈ b := by
  rw [merge]
  split
  · next h => exact ⟨Or.inl, fun hv => hv.elim id (ha.isSubset_iff.1 h v)⟩
  · rw [mem_def, mem_mergeFrom]
    simp [mem_def]

theorem merge_snd_iff (ha : a.Ascending) : (a.merge b).2 = true ↔ ¬ b ⊆ a := by
  rw [merge, ← ha.isSubset_iff]
  split <;> simp_all

theorem pairwise_mergeSort (vs : List UInt16) :
    (vs.mergeSort fun v w => decide (v ≤ w)).Pairwise (· ≤ ·) := by
  have hsorted : (vs.mergeSort fun v w => decide (v ≤ w)).Pairwise fun v w =>
      decide (v ≤ w) = true := by
    apply List.pairwise_mergeSort
    · intro u v w huv hvw
      exact decide_eq_true (UInt16.le_trans (of_decide_eq_true huv) (of_decide_eq_true hvw))
    · intro v w
      simpa using UInt16.le_total v w
  exact hsorted.imp fun h => of_decide_eq_true h

/-- Among sorted words the equal ones are neighbours, so none is left twice. -/
theorem toList_collect (vs : List UInt16) :
    (collect vs).values.toList = (vs.mergeSort fun v w => decide (v ≤ w)).dedup :=
  (pairwise_mergeSort vs).destutter_eq_dedup

theorem ascending_collect (vs : List UInt16) : (collect vs).Ascending := by
  rw [Ascending, toList_collect]
  have hsorted := (pairwise_mergeSort vs).sublist (List.dedup_sublist _)
  have hdistinct : (vs.mergeSort fun v w => decide (v ≤ w)).dedup.Pairwise (· ≠ ·) :=
    List.nodup_dedup _
  exact (hsorted.and hdistinct).imp fun h => UInt16.lt_of_le_of_ne h.1 h.2

@[simp] theorem mem_collect {vs : List UInt16} : v ∈ collect vs ↔ v ∈ vs := by
  rw [mem_def, toList_collect, List.mem_dedup, List.mem_mergeSort]

@[simp] theorem mem_map {f : UInt16 → UInt16} : v ∈ a.map f ↔ ∃ w ∈ a, f w = v := by
  rw [map, mem_collect, List.mem_map]
  rfl

@[simp] theorem mem_cap {limit : UInt16} : v ∈ a.cap limit ↔ ∃ w ∈ a, min w limit = v :=
  mem_map

end Ascending

end WordVector

section SetsInMemory

open WordVector

def WordSet.vector (s : WordSet) : WordVector :=
  ⟨s.toList.toArray⟩

namespace WordSet

variable {s t : WordSet}

theorem ascending_vector (s : WordSet) : s.vector.Ascending :=
  s.pairwise_toList

@[simp] theorem mem_vector {v : UInt16} : v ∈ s.vector ↔ v ∈ s :=
  mem_toList

theorem vector_inj : s.vector = t.vector ↔ s = t := by
  refine ⟨fun h => ?_, congrArg _⟩
  ext v
  rw [← mem_vector, h, mem_vector]

theorem eq_vector {a : WordVector} (ha : a.Ascending) (h : ∀ v, v ∈ a ↔ v ∈ s) : a = s.vector :=
  ha.ext s.ascending_vector fun v => (h v).trans mem_vector.symm

theorem new_eq_vector : new = (∅ : WordSet).vector :=
  eq_vector .nil fun v => iff_of_false (List.not_mem_nil) (not_mem_empty v)

theorem single_eq_vector (v : UInt16) : WordVector.single v = (single v).vector :=
  eq_vector (List.pairwise_singleton _ _) fun w => by
    rw [mem_single]
    exact List.mem_singleton

theorem range_eq_vector (max : UInt16) : range max = (upTo max).vector := by
  have hmax := max.toNat_lt
  refine eq_vector ?_ fun v => ?_
  · refine List.pairwise_map.2 (List.pairwise_lt_range.imp_of_mem fun hi hj hlt => ?_)
    rw [List.mem_range] at hi hj
    rw [UInt16.lt_iff_toNat_lt, UInt16.toNat_ofNat', UInt16.toNat_ofNat']
    omega
  · rw [mem_upTo, UInt16.le_iff_toNat_le, WordVector.mem_def, range, List.mem_map]
    constructor
    · rintro ⟨i, hi, rfl⟩
      rw [List.mem_range] at hi
      rw [UInt16.toNat_ofNat']
      omega
    · intro hle
      exact ⟨v.toNat, List.mem_range.2 (by omega), UInt16.ofNat_toNat⟩

theorem masked_eq_vector (mask : UInt8) : WordVector.masked mask = (masked mask).vector := by
  refine eq_vector (ascending_collect _) fun v => ?_
  rw [WordVector.masked, mem_collect, masked, mem_ofBytes]
  simp

theorem collect_eq_vector (vs : List UInt16) : collect vs = (ofList vs).vector :=
  eq_vector (ascending_collect _) fun v => by rw [mem_collect, mem_ofList]

theorem map_vector (f : UInt16 → UInt16) (s : WordSet) : s.vector.map f = (s.image f).vector :=
  eq_vector (ascending_collect _) fun v => by simp

theorem cap_vector (limit : UInt16) (s : WordSet) : s.vector.cap limit = (s.cap limit).vector :=
  eq_vector (ascending_collect _) fun v => by simp [mem_cap_iff]

theorem subset_vector : s.vector ⊆ t.vector ↔ s ⊆ t :=
  forall_congr' fun _ => by rw [mem_vector, mem_vector]

theorem isSubset_vector (s t : WordSet) : s.vector.isSubset t.vector = s.isSubset t := by
  rw [Bool.eq_iff_iff, t.ascending_vector.isSubset_iff, isSubset_iff, subset_vector]

theorem contains_vector (s : WordSet) (v : UInt16) : s.vector.contains v = s.contains v := by
  rw [Bool.eq_iff_iff, s.ascending_vector.contains_iff, mem_vector]
  rfl

theorem merge_vector (s t : WordSet) :
    s.vector.merge t.vector = ((s.merge t).1.vector, (s.merge t).2) := by
  have hs := s.ascending_vector
  refine Prod.ext ?_ ?_
  · refine eq_vector (hs.merge t.ascending_vector) fun v => ?_
    rw [mem_merge hs, mem_vector, mem_vector, merge_eq, mem_union]
  · rw [Bool.eq_iff_iff, WordVector.merge_snd_iff hs, merge_eq, subset_vector, ← isSubset_iff]
    simp

end WordSet

/-- How a set of words can be built. -/
inductive SetTerm
  | empty
  | single (v : UInt16)
  | range (max : UInt16)
  | masked (mask : UInt8)
  | collect (vs : List UInt16)
  | merge (a b : SetTerm)
  | map (f : UInt16 → UInt16) (a : SetTerm)
  | cap (limit : UInt16) (a : SetTerm)

namespace SetTerm

def words : SetTerm → WordSet
  | empty => ∅
  | single v => .single v
  | range max => .upTo max
  | masked mask => .masked mask
  | collect vs => .ofList vs
  | merge a b => (a.words.merge b.words).1
  | map f a => a.words.image f
  | cap limit a => a.words.cap limit

def vector : SetTerm → WordVector
  | empty => .new
  | single v => .single v
  | range max => .range max
  | masked mask => .masked mask
  | collect vs => .collect vs
  | merge a b => (a.vector.merge b.vector).1
  | map f a => a.vector.map f
  | cap limit a => a.vector.cap limit

theorem vector_eq (a : SetTerm) : a.vector = a.words.vector := by
  induction a with
  | empty => exact WordSet.new_eq_vector
  | single v => exact WordSet.single_eq_vector v
  | range max => exact WordSet.range_eq_vector max
  | masked mask => exact WordSet.masked_eq_vector mask
  | collect vs => exact WordSet.collect_eq_vector vs
  | merge a b iha ihb => rw [vector, iha, ihb, WordSet.merge_vector, words]
  | map f a ih => rw [vector, ih, WordSet.map_vector, words]
  | cap limit a ih => rw [vector, ih, WordSet.cap_vector, words]

end SetTerm

end SetsInMemory

section FilesInMemory

/-- A register file as it is kept in memory: a vector of words in each of its slots. -/
structure VectorFile where
  vectors : Fin 27 → WordVector

namespace VectorFile

def set (s : VectorFile) (r : Register) (values : WordVector) : VectorFile :=
  ⟨Function.update s.vectors r.slot values⟩

def powerOn : VectorFile :=
  let zero : VectorFile := ⟨fun _ => .single 0⟩
  (zero.set .returns .new).set .plane (.single 1)

/-- Merges one slot, and notes whether it has changed. -/
def mergeSlot (t : VectorFile) (p : VectorFile × Bool) (k : Fin 27) : VectorFile × Bool :=
  let (merged, changed) := (p.1.vectors k).merge (t.vectors k)
  (⟨Function.update p.1.vectors k merged⟩, p.2 || changed)

/-- Merges the slots one after another, and tells whether some slot has changed. -/
def merge (s t : VectorFile) : VectorFile × Bool :=
  (List.finRange 27).foldl (mergeSlot t) (s, false)

def isSubset (s t : VectorFile) : Bool :=
  (List.finRange 27).all fun k => (s.vectors k).isSubset (t.vectors k)

variable {s t : VectorFile}

theorem vectors_mergeSlot (p : VectorFile × Bool) (k j : Fin 27) :
    (mergeSlot t p k).1.vectors j =
      if j = k then ((p.1.vectors k).merge (t.vectors k)).1 else p.1.vectors j :=
  Function.update_apply ..

/-- After some of the slots these are merged, and the other ones are as they were. -/
theorem foldl_mergeSlot (ks : List (Fin 27)) (hks : ks.Nodup) (p : VectorFile × Bool) :
    (∀ j ∈ ks, (ks.foldl (mergeSlot t) p).1.vectors j =
        ((p.1.vectors j).merge (t.vectors j)).1) ∧
      (∀ j ∉ ks, (ks.foldl (mergeSlot t) p).1.vectors j = p.1.vectors j) ∧
      ((ks.foldl (mergeSlot t) p).2 = true ↔
        p.2 = true ∨ ∃ j ∈ ks, ((p.1.vectors j).merge (t.vectors j)).2 = true) := by
  induction ks generalizing p with
  | nil => simp
  | cons k ks ih =>
    obtain ⟨hk, hks⟩ := List.nodup_cons.1 hks
    obtain ⟨hmerged, hkept, hchanged⟩ := ih hks (mergeSlot t p k)
    -- the slots that come later are not those merged before
    have hlater {j : Fin 27} (hj : j ∈ ks) : (mergeSlot t p k).1.vectors j = p.1.vectors j := by
      rw [vectors_mergeSlot, if_neg (ne_of_mem_of_not_mem hj hk)]
    rw [List.foldl_cons]
    refine ⟨fun j hj => ?_, fun j hj => ?_, ?_⟩
    · rcases List.mem_cons.1 hj with rfl | hj
      · rw [hkept j hk, vectors_mergeSlot, if_pos rfl]
      · rw [hmerged j hj, hlater hj]
    · rw [List.mem_cons, not_or] at hj
      rw [hkept j hj.2, vectors_mergeSlot, if_neg hj.1]
    · have hfirst : (mergeSlot t p k).2 = true ↔
          p.2 = true ∨ ((p.1.vectors k).merge (t.vectors k)).2 = true := Bool.or_eq_true_iff
      have hrest : (∃ j ∈ ks, (((mergeSlot t p k).1.vectors j).merge (t.vectors j)).2 = true) ↔
          ∃ j ∈ ks, ((p.1.vectors j).merge (t.vectors j)).2 = true :=
        exists_congr fun j => and_congr_right fun hj => by rw [hlater hj]
      rw [hchanged, hfirst, hrest, or_assoc]
      simp only [List.mem_cons, exists_eq_or_imp]

theorem merge_spec (s t : VectorFile) :
    (s.merge t).1 = ⟨fun k => ((s.vectors k).merge (t.vectors k)).1⟩ ∧
      ((s.merge t).2 = true ↔ ∃ k, ((s.vectors k).merge (t.vectors k)).2 = true) := by
  obtain ⟨hmerged, -, hchanged⟩ :=
    @foldl_mergeSlot t (List.finRange 27) (List.nodup_finRange 27) (s, false)
  refine ⟨congrArg mk (funext fun k => hmerged k (List.mem_finRange k)), hchanged.trans ?_⟩
  simp only [Bool.false_eq_true, false_or, List.mem_finRange, true_and]

end VectorFile

def RegState.file (s : RegState) : VectorFile :=
  ⟨fun k => (s.get (.ofSlot k)).vector⟩

namespace RegState

variable {s t u : RegState}

theorem file_inj : s.file = t.file ↔ s = t := by
  refine ⟨fun h => ?_, congrArg _⟩
  ext1 r
  have hslot := congrFun (congrArg VectorFile.vectors h) r.slot
  rw [file, file, WordSet.vector_inj, Register.ofSlot_slot] at hslot
  exact hslot

theorem set_file (s : RegState) (r : Register) (values : WordSet) :
    s.file.set r values.vector = (s.set r values).file := by
  refine congrArg VectorFile.mk (funext fun k => ?_)
  have hslot : k = r.slot ↔ r = .ofSlot k := by
    rw [← Register.slot_inj, Register.slot_ofSlot, eq_comm]
  rw [Function.update_apply, get_set]
  simp only [hslot]
  split
  · rfl
  · rfl

theorem powerOn_eq_file : VectorFile.powerOn = powerOn.file := by
  have hzero : (⟨fun _ => .single 0⟩ : VectorFile) =
      (⟨Vector.replicate 27 (.single 0)⟩ : RegState).file := by
    refine congrArg VectorFile.mk (funext fun k => ?_)
    rw [WordSet.single_eq_vector, get]
    simp
  simp only [VectorFile.powerOn, powerOn]
  rw [hzero, WordSet.new_eq_vector, set_file, WordSet.single_eq_vector, set_file]

theorem isSubset_file (s t : RegState) : s.file.isSubset t.file = s.isSubset t := by
  rw [Bool.eq_iff_iff, isSubset_iff, VectorFile.isSubset, List.all_eq_true]
  simp only [file, WordSet.isSubset_vector, WordSet.isSubset_iff]
  constructor
  · intro h r
    have hslot := h r.slot (List.mem_finRange _)
    rw [Register.ofSlot_slot] at hslot
    exact hslot
  · exact fun h k _ => h _

theorem merge_file (s t : RegState) :
    s.file.merge t.file = ((s.merge t).1.file, (s.merge t).2) := by
  obtain ⟨hfile, hchanged⟩ := VectorFile.merge_spec s.file t.file
  rw [merge_eq]
  refine Prod.ext ?_ ?_
  · rw [hfile]
    refine congrArg VectorFile.mk (funext fun k => ?_)
    rw [file, file, WordSet.merge_vector, WordSet.merge_eq, get_union]
  · rw [Bool.eq_iff_iff, hchanged, ← isSubset_file]
    simp [VectorFile.isSubset, file, WordSet.merge_vector, WordSet.merge_eq,
      WordSet.isSubset_vector]

end RegState

/-- How a register file can be built. -/
inductive StateTerm
  | powerOn
  | set (s : StateTerm) (r : Register) (values : SetTerm)
  | merge (s t : StateTerm)

namespace StateTerm

def state : StateTerm → RegState
  | powerOn => .powerOn
  | set s r values => s.state.set r values.words
  | merge s t => (s.state.merge t.state).1

def file : StateTerm → VectorFile
  | powerOn => .powerOn
  | set s r values => s.file.set r values.vector
  | merge s t => (s.file.merge t.file).1

theorem file_eq (s : StateTerm) : s.file = s.state.file := by
  induction s with
  | powerOn => exact RegState.powerOn_eq_file
  | set s r values ih => rw [file, ih, values.vector_eq, RegState.set_file, state]
  | merge s t ihs iht => rw [file, ihs, iht, RegState.merge_file, state]

end StateTerm

/-- The operations on two vectors answer for the sets of their words. -/
structure WordVector.ActAsSets (a b : WordVector) : Prop where
  ascending : a.Ascending
  ext : (∀ v, v ∈ a ↔ v ∈ b) → a = b
  contains_iff : ∀ v, a.contains v = true ↔ v ∈ a
  isSubset_iff : a.isSubset b = true ↔ ∀ v ∈ a, v ∈ b
  mem_merge : ∀ v, v ∈ (a.merge b).1 ↔ v ∈ a ∨ v ∈ b
  changed_iff : (a.merge b).2 = true ↔ ¬ ∀ v ∈ b, v ∈ a
  mem_map : ∀ f v, v ∈ a.map f ↔ ∃ w ∈ a, f w = v
  mem_cap : ∀ limit v, v ∈ a.cap limit ↔ ∃ w ∈ a, min w limit = v

theorem WordVector.Ascending.actAsSets {a b : WordVector} (ha : a.Ascending) (hb : b.Ascending) :
    a.ActAsSets b where
  ascending := ha
  ext := ha.ext hb
  contains_iff _ := ha.contains_iff
  isSubset_iff := hb.isSubset_iff
  mem_merge _ := WordVector.mem_merge ha
  changed_iff := WordVector.merge_snd_iff ha
  mem_map _ _ := WordVector.mem_map
  mem_cap _ _ := WordVector.mem_cap

/-- The merge of two register files is their join, and reports whether it differs from the first
one. -/
structure VectorFile.MergeJoins (s t u : VectorFile) : Prop where
  comm : (s.merge t).1 = (t.merge s).1
  assoc : ((s.merge t).1.merge u).1 = (s.merge (t.merge u).1).1
  idem : (s.merge s).1 = s
  left : s.isSubset (s.merge t).1 = true
  right : t.isSubset (s.merge t).1 = true
  least : s.isSubset u = true → t.isSubset u = true → (s.merge t).1.isSubset u = true
  changed_iff : (s.merge t).2 = true ↔ (s.merge t).1 ≠ s

theorem RegState.mergeJoins_file (s t u : RegState) : s.file.MergeJoins t.file u.file := by
  have hfst (s t : RegState) : (s.file.merge t.file).1 = (s ⊔ t).file := by
    rw [merge_file, merge_eq]
    rfl
  have hsub (s t : RegState) : s.file.isSubset t.file = true ↔ s ≤ t := by
    rw [isSubset_file, isSubset_iff]
    rfl
  constructor
  · rw [hfst, hfst, sup_comm]
  · rw [hfst, hfst, hfst, hfst, sup_assoc]
  · rw [hfst, sup_idem]
  · rw [hfst, hsub]
    exact le_sup_left
  · rw [hfst, hsub]
    exact le_sup_right
  · rw [hfst, hsub, hsub, hsub]
    exact sup_le
  · rw [hfst, Ne, file_inj, sup_eq_left, merge_file, merge_eq, Bool.not_eq_true',
      Bool.eq_false_iff, Ne, isSubset_iff]
    rfl

/-- All that is built in memory is canonical. The vector of a set of words is the ascending one of
its members, on which all operations answer for the set; a register file is that of its state, on
which the merge is the join. What the exploration asks of a merge, it is told as in memory. -/
theorem built_in_memory_canonical :
    (∀ a b : SetTerm, a.vector = a.words.vector ∧ a.vector.ActAsSets b.vector) ∧
      (∀ s t : WordSet, s.vector.merge t.vector = ((s.merge t).1.vector, (s.merge t).2) ∧
        s.vector.isSubset t.vector = s.isSubset t ∧
        ∀ v, s.vector.contains v = s.contains v) ∧
      (∀ s : StateTerm, s.file = s.state.file) ∧
      (∀ s t : RegState, s.file.merge t.file = ((s.merge t).1.file, (s.merge t).2) ∧
        s.file.isSubset t.file = s.isSubset t) ∧
      ∀ s t u : RegState, s.file.MergeJoins t.file u.file := by
  refine ⟨fun a b => ⟨a.vector_eq, ?_⟩, fun s t => ⟨s.merge_vector t, s.isSubset_vector t, ?_⟩,
    StateTerm.file_eq, fun s t => ⟨s.merge_file t, s.isSubset_file t⟩, RegState.mergeJoins_file⟩
  · rw [a.vector_eq, b.vector_eq]
    exact a.words.ascending_vector.actAsSets b.words.ascending_vector
  · exact s.contains_vector

example : (WordVector.collect [1, 5, 9]).merge (.collect [10, 5, 2, 5]) =
    (⟨#[1, 2, 5, 9, 10]⟩, true) := by
  cbv

end FilesInMemory

end OctoLift
