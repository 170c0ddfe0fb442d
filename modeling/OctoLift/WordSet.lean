import OctoLift.Instr

/-!
# Sets of words

A finite set of sixteen-bit values, held as one number whose binary digits mark the members. Two
sets with the same members are therefore equal. The main statements say which members each
operation gives.
-/

namespace OctoLift

/-- A set of sixteen-bit values: bit `v` of `bits` is set when `v` is a member. -/
structure WordSet where
  bits : Nat
  /-- No bit stands beyond the largest word. -/
  bounded : ∀ i, bits.testBit i = true → i < 65536
  deriving DecidableEq

namespace WordSet

/-- The number whose low `n` bits are set. -/
def lowBits (n : Nat) : Nat :=
  1 <<< n - 1

theorem testBit_lowBits (n i : Nat) : (lowBits n).testBit i = decide (i < n) := by
  rw [lowBits, Nat.one_shiftLeft, Nat.testBit_two_pow_sub_one]

/-- The number whose low 65536 bits are set. -/
def allBits : Nat :=
  lowBits 65536

theorem testBit_allBits (i : Nat) : allBits.testBit i = decide (i < 65536) :=
  testBit_lowBits 65536 i

/-- The set that the low 65536 bits of a number mark. -/
def ofBits (n : Nat) : WordSet where
  bits := n &&& allBits
  bounded i h := by
    rw [Nat.testBit_and, testBit_allBits] at h
    simp only [Bool.and_eq_true, decide_eq_true_eq] at h
    exact h.2

def contains (s : WordSet) (v : UInt16) : Bool :=
  s.bits.testBit v.toNat

instance : Membership UInt16 WordSet where
  mem s v := s.contains v = true

instance (s : WordSet) (v : UInt16) : Decidable (v ∈ s) :=
  inferInstanceAs (Decidable (s.contains v = true))

theorem mem_def {s : WordSet} {v : UInt16} : v ∈ s ↔ s.bits.testBit v.toNat = true :=
  Iff.rfl

/-- A set is known by its members. -/
@[ext] theorem ext {s t : WordSet} (h : ∀ v, v ∈ s ↔ v ∈ t) : s = t := by
  obtain ⟨a, ha⟩ := s
  obtain ⟨b, hb⟩ := t
  suffices a = b by subst this; rfl
  apply Nat.eq_of_testBit_eq
  intro i
  by_cases hi : i < 65536
  · have := h (UInt16.ofNat i)
    simp only [mem_def, UInt16.toNat_ofNat', Nat.reducePow, Nat.mod_eq_of_lt hi] at this
    cases hx : a.testBit i <;> cases hy : b.testBit i <;> simp_all
  · have hx : a.testBit i = false := by
      cases hc : a.testBit i with
      | false => rfl
      | true => exact absurd (ha i hc) hi
    have hy : b.testBit i = false := by
      cases hc : b.testBit i with
      | false => rfl
      | true => exact absurd (hb i hc) hi
    rw [hx, hy]

@[simp] theorem mem_ofBits {n : Nat} {v : UInt16} : v ∈ ofBits n ↔ n.testBit v.toNat = true := by
  have := v.toNat_lt
  simp only [mem_def, ofBits, Nat.testBit_and, testBit_allBits, Bool.and_eq_true,
    decide_eq_true_eq]
  exact ⟨fun h => h.1, fun h => ⟨h, by omega⟩⟩

def empty : WordSet :=
  ofBits 0

instance : EmptyCollection WordSet := ⟨empty⟩
instance : Inhabited WordSet := ⟨empty⟩

@[simp] theorem not_mem_empty (v : UInt16) : v ∉ (∅ : WordSet) := by
  change ¬ v ∈ ofBits 0
  simp

def isEmpty (s : WordSet) : Bool :=
  s.bits == 0

def union (s t : WordSet) : WordSet where
  bits := s.bits ||| t.bits
  bounded i h := by
    rw [Nat.testBit_or, Bool.or_eq_true] at h
    exact h.elim (s.bounded i) (t.bounded i)

instance : Union WordSet := ⟨union⟩

@[simp] theorem mem_union {s t : WordSet} {v : UInt16} : v ∈ s ∪ t ↔ v ∈ s ∨ v ∈ t := by
  change (s.bits ||| t.bits).testBit _ = true ↔ _
  rw [Nat.testBit_or, Bool.or_eq_true]
  exact Iff.rfl

/-- Whether every member of `s` is one of `t`. -/
def isSubset (s t : WordSet) : Bool :=
  s.bits &&& t.bits == s.bits

instance : HasSubset WordSet := ⟨fun s t => ∀ ⦃v⦄, v ∈ s → v ∈ t⟩

theorem isSubset_iff {s t : WordSet} : s.isSubset t = true ↔ s ⊆ t := by
  simp only [isSubset, beq_iff_eq]
  constructor
  · intro h v hv
    rw [mem_def, ← h, Nat.testBit_and, Bool.and_eq_true] at hv
    exact hv.2
  · intro h
    apply Nat.eq_of_testBit_eq
    intro i
    rw [Nat.testBit_and]
    cases hi : s.bits.testBit i with
    | false => rfl
    | true =>
      have hlt := s.bounded i hi
      have hm : UInt16.ofNat i ∈ s := by
        simpa [mem_def, Nat.mod_eq_of_lt hlt] using hi
      have := h hm
      simpa [mem_def, Nat.mod_eq_of_lt hlt] using this

instance (s t : WordSet) : Decidable (s ⊆ t) :=
  decidable_of_iff _ isSubset_iff

/-- The union, and whether it holds more than `s`. -/
def merge (s t : WordSet) : WordSet × Bool :=
  if t.isSubset s then (s, false) else (s ∪ t, true)

def single (v : UInt16) : WordSet :=
  ofBits (1 <<< v.toNat)

@[simp] theorem mem_single {v w : UInt16} : v ∈ single w ↔ v = w := by
  simp only [single, mem_ofBits, Nat.one_shiftLeft, Nat.testBit_two_pow, decide_eq_true_eq,
    UInt16.toNat_inj]
  exact eq_comm

def upTo (max : UInt16) : WordSet :=
  ofBits (lowBits (max.toNat + 1))

@[simp] theorem mem_upTo {v max : UInt16} : v ∈ upTo max ↔ v ≤ max := by
  simp only [upTo, mem_ofBits, testBit_lowBits, decide_eq_true_eq, UInt16.le_iff_toNat_le]
  omega

def ofList (vs : List UInt16) : WordSet :=
  vs.foldl (fun s v => s ∪ single v) ∅

/-- One mark for each byte value, packed into four words. -/
structure ByteMarks where
  low : UInt64 := 0
  midLow : UInt64 := 0
  midHigh : UInt64 := 0
  high : UInt64 := 0

namespace ByteMarks

/-- The number whose binary digits are the marks, the first one lowest. -/
def toBits (m : ByteMarks) : Nat :=
  m.low.toNat ||| m.midLow.toNat <<< 64 ||| m.midHigh.toNat <<< 128 ||| m.high.toNat <<< 192

def mark (m : ByteMarks) (b : UInt8) : ByteMarks :=
  let bit : UInt64 := 1 <<< b.toUInt64
  if b < 64 then { m with low := m.low ||| bit }
  else if b < 128 then { m with midLow := m.midLow ||| bit }
  else if b < 192 then { m with midHigh := m.midHigh ||| bit }
  else { m with high := m.high ||| bit }

theorem toNat_bit_shiftLeft (b : UInt8) (k : Nat) (hk : k ≤ b.toNat) (h : b.toNat < k + 64)
    (hd : 64 ∣ k) : ((1 : UInt64) <<< b.toUInt64).toNat <<< k = 1 <<< b.toNat := by
  have e : b.toNat % 64 + k = b.toNat := by omega
  have hlt : b.toNat % 64 < 64 := by omega
  have hbit : ((1 : UInt64) <<< b.toUInt64).toNat = 1 <<< (b.toNat % 64) := by
    rw [UInt64.toNat_shiftLeft, Nat.mod_eq_of_lt]
    · rfl
    · change 1 <<< (b.toNat % 64) < 2 ^ 64
      rw [Nat.one_shiftLeft]
      exact Nat.pow_lt_pow_right (by decide) hlt
  rw [hbit, ← Nat.shiftLeft_add, e]

theorem toBits_mark (m : ByteMarks) (b : UInt8) :
    (m.mark b).toBits = m.toBits ||| 1 <<< b.toNat := by
  have hb := b.toNat_lt
  obtain ⟨p, q, r, s⟩ := m
  simp only [mark, UInt8.lt_iff_toNat_lt, UInt8.reduceToNat]
  split
  · next h =>
    rw [← toNat_bit_shiftLeft b 0 (by omega) h (by decide), Nat.shiftLeft_zero]
    unfold toBits
    rw [UInt64.toNat_or]
    generalize q.toNat <<< 64 = q
    generalize r.toNat <<< 128 = r
    generalize s.toNat <<< 192 = s
    ac_rfl
  split
  · next h h' =>
    rw [← toNat_bit_shiftLeft b 64 (by omega) h' (by decide)]
    unfold toBits
    rw [UInt64.toNat_or, Nat.shiftLeft_or_distrib]
    generalize q.toNat <<< 64 = q
    generalize r.toNat <<< 128 = r
    generalize s.toNat <<< 192 = s
    generalize UInt64.toNat _ <<< 64 = t
    ac_rfl
  split
  · next h h' h'' =>
    rw [← toNat_bit_shiftLeft b 128 (by omega) h'' (by decide)]
    unfold toBits
    rw [UInt64.toNat_or, Nat.shiftLeft_or_distrib]
    generalize q.toNat <<< 64 = q
    generalize r.toNat <<< 128 = r
    generalize s.toNat <<< 192 = s
    generalize UInt64.toNat _ <<< 128 = t
    ac_rfl
  · next h h' h'' =>
    rw [← toNat_bit_shiftLeft b 192 (by omega) (by omega) (by decide)]
    unfold toBits
    rw [UInt64.toNat_or, Nat.shiftLeft_or_distrib]
    generalize q.toNat <<< 64 = q
    generalize r.toNat <<< 128 = r
    generalize s.toNat <<< 192 = s
    generalize UInt64.toNat _ <<< 192 = t
    ac_rfl

end ByteMarks

def ofBytes (bs : List UInt8) : WordSet :=
  ofBits (bs.foldl ByteMarks.mark {}).toBits

theorem testBit_foldl_mark (bs : List UInt8) (m : ByteMarks) (i : Nat) :
    (bs.foldl ByteMarks.mark m).toBits.testBit i = true ↔
      m.toBits.testBit i = true ∨ ∃ b ∈ bs, b.toNat = i := by
  induction bs generalizing m with
  | nil => simp
  | cons b bs ih =>
    simp only [List.foldl_cons, ih, ByteMarks.toBits_mark, Nat.testBit_or, Nat.one_shiftLeft,
      Nat.testBit_two_pow, Bool.or_eq_true, decide_eq_true_eq, List.mem_cons, exists_eq_or_imp,
      or_assoc]

@[simp] theorem mem_ofBytes {bs : List UInt8} {v : UInt16} :
    v ∈ ofBytes bs ↔ ∃ b ∈ bs, b.toUInt16 = v := by
  simp only [ofBytes, mem_ofBits, testBit_foldl_mark]
  constructor
  · rintro (h | ⟨b, hb, e⟩)
    · simp [ByteMarks.toBits] at h
    · exact ⟨b, hb, UInt16.toNat_inj.1 (by simpa using e)⟩
  · rintro ⟨b, hb, rfl⟩
    exact Or.inr ⟨b, hb, by simp⟩

/-- The values that a byte can take once it is masked. -/
def masked (mask : UInt8) : WordSet :=
  ofBytes ((List.range 256).map fun z => UInt8.ofNat z &&& mask)

/-- Puts the positions of the set bits of `bits`, counted from `base`, before a list. The number
has at most `1 <<< k` digits and is taken apart into halves. -/
def spread : (k base bits : Nat) → List UInt16 → List UInt16
  | 0, base, bits, rest => if bits = 0 then rest else UInt16.ofNat base :: rest
  | k + 1, base, bits, rest =>
    if bits = 0 then rest
    else
      let half := 1 <<< k
      let high := bits >>> half
      if high = 0 then spread k base bits rest
      else spread k base (bits &&& lowBits half) (spread k (base + half) high rest)

theorem one_shiftLeft_succ (k : Nat) : 1 <<< (k + 1) = 1 <<< k + 1 <<< k := by
  simp only [Nat.one_shiftLeft, Nat.pow_succ]
  omega

/-- Bits that all lie below `w + w` lie below `w` once the low `w` of them are dropped. -/
theorem lt_of_testBit_shiftRight {bits w : Nat} (h : ∀ i, bits.testBit i = true → i < w + w)
    (i : Nat) (hi : (bits >>> w).testBit i = true) : i < w := by
  rw [Nat.testBit_shiftRight] at hi
  have := h _ hi
  omega

/-- If nothing is left once the low `w` bits are dropped, all bits lie below `w`. -/
theorem lt_of_shiftRight_eq_zero {bits w : Nat} (h : bits >>> w = 0) (i : Nat)
    (hi : bits.testBit i = true) : i < w := by
  apply Decidable.byContradiction
  intro hlt
  have hz : (bits >>> w).testBit (i - w) = true := by
    rw [Nat.testBit_shiftRight, Nat.add_sub_of_le (by omega)]
    exact hi
  simp [h] at hz

theorem lt_of_testBit_and_lowBits {bits w : Nat} (i : Nat)
    (hi : (bits &&& lowBits w).testBit i = true) : i < w := by
  rw [Nat.testBit_and, testBit_lowBits, Bool.and_eq_true, decide_eq_true_eq] at hi
  exact hi.2

theorem mem_spread {k base bits : Nat} {rest : List UInt16} {v : UInt16}
    (hbits : ∀ i, bits.testBit i = true → i < 1 <<< k) (hbase : base + 1 <<< k ≤ 65536) :
    v ∈ spread k base bits rest ↔
      (base ≤ v.toNat ∧ bits.testBit (v.toNat - base) = true) ∨ v ∈ rest := by
  induction k generalizing base bits rest with
  | zero =>
    simp only [Nat.shiftLeft_zero, Nat.lt_one_iff] at hbits hbase
    simp only [spread]
    split
    · next h =>
      subst h
      simp
    · next h =>
      obtain ⟨i, hi⟩ := Nat.exists_testBit_of_ne_zero h
      obtain rfl := hbits i hi
      have hv : v = UInt16.ofNat base ↔ v.toNat = base := by
        rw [← UInt16.toNat_inj, UInt16.toNat_ofNat', Nat.mod_eq_of_lt (by omega)]
      simp only [List.mem_cons, hv]
      refine or_congr ⟨fun e => ⟨by omega, by rwa [e, Nat.sub_self]⟩, fun ⟨h1, h2⟩ => ?_⟩ Iff.rfl
      have := hbits _ h2
      omega
  | succ k ih =>
    rw [one_shiftLeft_succ] at hbits hbase
    simp only [spread]
    generalize 1 <<< k = w at *
    split
    · next h =>
      subst h
      simp
    split
    · next h => exact ih (lt_of_shiftRight_eq_zero h) (by omega)
    · rw [ih lt_of_testBit_and_lowBits (by omega), ih (lt_of_testBit_shiftRight hbits) (by omega),
        Nat.testBit_and, testBit_lowBits, Bool.and_eq_true, decide_eq_true_eq,
        Nat.testBit_shiftRight, ← or_assoc]
      refine or_congr ?_ Iff.rfl
      by_cases hlt : v.toNat < base + w
      · constructor
        · rintro (⟨h1, h2, _⟩ | ⟨h1, _⟩)
          · exact ⟨h1, h2⟩
          · omega
        · exact fun ⟨h1, h2⟩ => Or.inl ⟨h1, h2, by omega⟩
      · have e : w + (v.toNat - (base + w)) = v.toNat - base := by omega
        rw [e]
        constructor
        · rintro (⟨h1, h2, _⟩ | ⟨h1, h2⟩)
          · exact ⟨h1, h2⟩
          · exact ⟨by omega, h2⟩
        · exact fun ⟨h1, h2⟩ => Or.inr ⟨by omega, h2⟩

theorem pairwise_spread {k base bits : Nat} {rest : List UInt16}
    (hbits : ∀ i, bits.testBit i = true → i < 1 <<< k) (hbase : base + 1 <<< k ≤ 65536)
    (hrest : rest.Pairwise (· < ·)) (hlow : ∀ v ∈ rest, base + 1 <<< k ≤ v.toNat) :
    (spread k base bits rest).Pairwise (· < ·) := by
  induction k generalizing base bits rest with
  | zero =>
    simp only [Nat.shiftLeft_zero] at hbase hlow
    simp only [spread]
    split
    · exact hrest
    · refine List.pairwise_cons.2 ⟨fun v hv => ?_, hrest⟩
      have := hlow v hv
      rw [UInt16.lt_iff_toNat_lt, UInt16.toNat_ofNat']
      omega
  | succ k ih =>
    rw [one_shiftLeft_succ] at hbits hbase hlow
    simp only [spread]
    split
    · exact hrest
    have hmem := fun v => @mem_spread k (base + 1 <<< k) (bits >>> (1 <<< k)) rest v
    generalize 1 <<< k = w at *
    split
    · next h =>
      refine ih (lt_of_shiftRight_eq_zero h) (by omega) hrest fun v hv => ?_
      have := hlow v hv
      omega
    · have hhigh := lt_of_testBit_shiftRight hbits
      refine ih lt_of_testBit_and_lowBits (by omega) (ih hhigh (by omega) hrest fun v hv => ?_) ?_
      · have := hlow v hv
        omega
      · intro v hv
        rcases (hmem v hhigh (by omega)).1 hv with ⟨h, _⟩ | h
        · exact h
        · have := hlow v h
          omega

def toList (s : WordSet) : List UInt16 :=
  spread 16 0 s.bits []

@[simp] theorem mem_toList {s : WordSet} {v : UInt16} : v ∈ s.toList ↔ v ∈ s := by
  rw [toList, mem_spread s.bounded (by decide)]
  simp [mem_def]

theorem pairwise_toList (s : WordSet) : s.toList.Pairwise (· < ·) :=
  pairwise_spread s.bounded (by decide) .nil (by simp)

def size (s : WordSet) : Nat :=
  s.toList.length

/-- The members as bytes, in ascending order of the members. -/
def toBytes (s : WordSet) : List UInt8 :=
  s.toList.map UInt16.toUInt8

def image (f : UInt16 → UInt16) (s : WordSet) : WordSet :=
  ofList (s.toList.map f)

/-- Lowers every larger member to `limit`. -/
def cap (limit : UInt16) (s : WordSet) : WordSet :=
  let kept := s.bits &&& lowBits (limit.toNat + 1)
  if s.bits >>> (limit.toNat + 1) = 0 then s else ofBits (kept ||| 1 <<< limit.toNat)

/-- Adds `k` to every member, wrapping around after the largest word. -/
def shift (k : UInt16) (s : WordSet) : WordSet :=
  let moved := s.bits <<< k.toNat
  ofBits (moved ||| moved >>> 65536)

/-- All sums of a member of `s` and a member of `t`, wrapping around. -/
def sums (s t : WordSet) : WordSet :=
  t.toList.foldl (fun u k => u ∪ s.shift k) ∅

/-- The results of an operation on all pairs of bytes, or, when both operands are the same
register, on each byte with itself. -/
def pairwise {α : Type} (f : UInt8 → UInt8 → α) (same : Bool) (s t : WordSet) : List α :=
  if same then s.toBytes.map fun a => f a a
  else
    let bs := t.toBytes
    s.toBytes.flatMap fun a => bs.map (f a)

/-- The set of the results of a byte operation on all pairs, or on each byte with itself. -/
@[specialize] def combine (f : UInt8 → UInt8 → UInt8) (same : Bool) (s t : WordSet) : WordSet :=
  let mark (m : ByteMarks) (a b : UInt8) : ByteMarks := m.mark (f a b)
  let marks : ByteMarks :=
    if same then s.toBytes.foldl (fun m a => mark m a a) {}
    else
      let bs := t.toBytes
      s.toBytes.foldl (fun m a => bs.foldl (fun m b => mark m a b) m) {}
  ofBits marks.toBits

end WordSet
end OctoLift
