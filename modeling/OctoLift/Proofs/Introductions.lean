import OctoLift.Proofs.Faithful

/-!
# Introductions of names

A listing introduces a name by a constant if its address lies outside the listing, else at its
address or, if that is the second location of a chunk, as the name of the next location. How often
it does so is counted along the walk.
-/

namespace OctoLift

/-- The names that a text introduces, in order. -/
def introductions (text : String) : List String :=
  (linesOf text).filterMap introduced

/-- The names that some lines introduce, in order. -/
def introducedBy (lines : List Line) : List Symbol :=
  lines.filterMap Line.introduces

@[simp] theorem introducedBy_append (xs ys : List Line) :
    introducedBy (xs ++ ys) = introducedBy xs ++ introducedBy ys :=
  List.filterMap_append

namespace Analysis

variable {a : Analysis} {stop : Nat} {here t : Address} {s : Symbol}

theorem introductions_source (a : Analysis) (layout : Layout) (length : Nat) :
    introductions (a.source layout length) =
      (introducedBy (a.lines layout length).toList).map Symbol.text := by
  have hread : ∀ l ∈ (a.lines layout length).toList,
      (introduced ∘ Line.text layout.indent a.program a.symbols.naming) l =
        l.introduces.map Symbol.text :=
    fun l hl => Line.introduced_text (a.readable_of_mem_lines layout length hl)
  have hempty : introduced "" = none := rfl
  rw [introductions, linesOf_source, List.filterMap_append, List.filterMap_map, introducedBy,
    List.map_filterMap, List.filterMap_congr hread]
  simp [hempty]

theorem count_introductions (a : Analysis) (layout : Layout) (length : Nat) (s : Symbol) :
    (introductions (a.source layout length)).count s.text =
      (introducedBy (a.lines layout length).toList).count s := by
  rw [introductions_source, List.count_map_of_injective _ _ Symbol.text_injective]

/-- Whether an address has its name as a label, and all that refers to the label is written as the
end of a loop. -/
def loopsOnly (a : Analysis) (stop : Nat) (t : Address) (s : Symbol) : Bool :=
  t != entryPoint && a.symbols.name? .label t == some s &&
    (a.references.labels.refs t).all fun source => a.isLoopTail t source stop

theorem isEmpty_others (a : Analysis) (stop : Nat) (t : Address) :
    (a.splitRefs stop t).2.isEmpty =
      (a.references.labels.refs t).all fun source => a.isLoopTail t source stop := by
  rw [splitRefs, List.partition_eq_filter_filter, Bool.eq_iff_iff]
  simp [List.isEmpty_iff, List.filter_eq_nil_iff]

section Header

private theorem count_introducedBy_ite {p : Prop} [Decidable p] {o : Option Symbol} {xs : List Line}
    (h : introducedBy xs = o.toList) :
    (introducedBy (if p then xs else [])).count s = if p ∧ o = some s then 1 else 0 := by
  by_cases hp : p
  · rw [if_pos hp, h]
    cases o with
    | none => simp
    | some s' => simp [hp, List.count_singleton]
  · rw [if_neg hp, if_neg fun hand => hp hand.1]
    rfl

private theorem introducedBy_nameLine (o : Option Symbol) :
    introducedBy (nameLine o) = o.toList := by
  cases o <;> rfl

/-- What the lines before a chunk introduce. -/
theorem count_headerLines (depth : Nat) (tails others : List Address) :
    (introducedBy (a.headerLines here depth tails others)).count s =
      (if (here ≠ entryPoint ∧ a.references.subroutines.contains here = true) ∧
          a.symbols.name? .subroutine here = some s then 1 else 0) +
        (if here = entryPoint ∧ some .entry = some s then 1 else 0) +
        (if ((!others.isEmpty) = true ∧ here ≠ entryPoint) ∧
          a.symbols.name? .label here = some s then 1 else 0) +
        (if a.references.natives.contains here = true ∧
          a.symbols.name? .native here = some s then 1 else 0) := by
  let entrance := (a.symbols.subroutines[here]).elim [] fun s => [Line.blank, .name s]
  let loops := (List.range tails.length).map fun k => Line.loop (depth + k + 1) here
  have hheader : a.headerLines here depth tails others =
      (if here ≠ entryPoint ∧ a.references.subroutines.contains here = true then entrance
        else []) ++
        (if here = entryPoint then [.name .entry] else []) ++ loops ++
        (if (!others.isEmpty) = true ∧ here ≠ entryPoint then
          nameLine (a.symbols.name? .label here) else []) ++
        (if a.references.natives.contains here = true then
          nameLine (a.symbols.name? .native here) else []) := by
    simp only [headerLines, entrance]
    cases a.symbols.subroutines[here] <;> rfl
  have hentrance : introducedBy entrance = (a.symbols.name? .subroutine here).toList := by
    simp only [entrance, SymbolTable.name?]
    cases a.symbols.subroutines[here] <;> rfl
  have hmain : introducedBy [.name .entry] = (some Symbol.entry).toList := rfl
  have hloops : introducedBy loops = [] := by
    simp [loops, introducedBy, Line.introduces]
  rw [hheader]
  simp only [introducedBy_append, List.count_append, count_introducedBy_ite hentrance,
    count_introducedBy_ite hmain, hloops, count_introducedBy_ite (introducedBy_nameLine _),
    List.count_nil, Nat.add_zero]

variable (hnames : a.symbols = .ofReferences a.references)

include hnames

theorem gives_inj {u : Address} (ht : a.symbols.Gives t s) (hu : a.symbols.Gives u s) : t = u := by
  rw [hnames] at ht hu
  exact SymbolTable.gives_inj ht hu

theorem gives_entry_iff : a.symbols.Gives t .entry ↔ t = entryPoint := by
  rw [hnames]
  exact SymbolTable.gives_entry_iff

theorem count_headerLines_of_ne (hs : a.symbols.Gives t s) (hne : here ≠ t) (depth : Nat)
    (tails others : List Address) :
    (introducedBy (a.headerLines here depth tails others)).count s = 0 := by
  have hother (kind : SymbolKind) : ¬ a.symbols.name? kind here = some s :=
    fun h => hne (gives_inj hnames ⟨kind, h⟩ hs)
  have hmain : ¬ (here = entryPoint ∧ some Symbol.entry = some s) := by
    rintro ⟨rfl, h⟩
    cases h
    exact hne ((gives_entry_iff hnames).1 hs).symm
  rw [count_headerLines, if_neg fun h => hother _ h.2, if_neg hmain, if_neg fun h => hother _ h.2,
    if_neg fun h => hother _ h.2]

theorem name?_numbered_iff {kind : SymbolKind} {n : Nat}
    (h : a.symbols.name? kind t = some (.numbered kind n)) (kind' : SymbolKind) :
    a.symbols.name? kind' t = some (.numbered kind n) ↔ kind' = kind := by
  constructor
  · intro h'
    rw [hnames] at h'
    rcases SymbolTable.name?_eq_some h' with ⟨-, hs⟩ | ⟨-, -, n', hs⟩
    · cases hs
    · cases hs
      rfl
  · rintro rfl
    exact h

theorem count_headerLines_self (hs : a.symbols.Gives t s) (stop depth : Nat)
    (tails : List Address) :
    (introducedBy (a.headerLines t depth tails (a.splitRefs stop t).2)).count s =
      if a.loopsOnly stop t s then 0 else 1 := by
  obtain ⟨kind, hname⟩ := hs
  have hcases := hname
  rw [hnames] at hcases
  rw [count_headerLines, isEmpty_others, loopsOnly]
  generalize (a.references.labels.refs t).all (fun source => a.isLoopTail t source stop) = all
  rcases SymbolTable.name?_eq_some hcases with ⟨rfl, rfl⟩ | ⟨hne, hmem, n, rfl⟩
  · have hnative : a.symbols.name? .native entryPoint = none := by
      rw [hnames, SymbolTable.name?_entryPoint]
      rfl
    simp [hnative]
  · have hiff := name?_numbered_iff hnames hname
    cases kind with
    | label =>
      cases all <;> simp [hiff, hne]
    | subroutine =>
      have hsub : a.references.subroutines.contains t = true := hmem
      simp [hiff, hne, hsub]
    | native =>
      have hnative : a.references.natives.contains t = true := hmem
      simp [hiff, hne, hnative]

end Header

end Analysis

/-- Whether a line is a chunk that begins at an address. -/
def Line.begins (t : Address) : Line → Bool
  | chunk _ here _ => here == t
  | _ => false

/-- Whether a line is a chunk whose second location is an address. -/
def Line.spans (t : Address) : Line → Bool
  | chunk _ here c => decide (1 < c.size) && here + 1 == t
  | _ => false

theorem Line.begins_of_size {t : Address} (l : Line) (h : l.size = 0) : l.begins t = false := by
  cases l with
  | chunk depth here c => exact absurd h (Nat.pos_iff_ne_zero.1 c.size_pos)
  | _ => rfl

theorem Line.spans_of_size {t : Address} (l : Line) (h : l.size = 0) : l.spans t = false := by
  cases l with
  | chunk depth here c => exact absurd h (Nat.pos_iff_ne_zero.1 c.size_pos)
  | _ => rfl

theorem any_begins_iff {lines : List Line} {t : Address} :
    lines.any (Line.begins t) = true ↔ ∃ depth c, .chunk depth t c ∈ lines := by
  rw [List.any_eq_true]
  constructor
  · rintro ⟨l, hl, ht⟩
    cases l with
    | chunk depth here c =>
      obtain rfl : here = t := by simpa [Line.begins] using ht
      exact ⟨depth, c, hl⟩
    | _ => cases ht
  · rintro ⟨depth, c, hl⟩
    exact ⟨_, hl, by simp [Line.begins]⟩

theorem any_spans_iff {lines : List Line} {t : Address} :
    lines.any (Line.spans t) = true ↔
      ∃ depth here c, .chunk depth here c ∈ lines ∧ 1 < c.size ∧ here + 1 = t := by
  rw [List.any_eq_true]
  constructor
  · rintro ⟨l, hl, ht⟩
    cases l with
    | chunk depth here c =>
      obtain ⟨hsize, hnext⟩ : 1 < c.size ∧ here + 1 = t := by simpa [Line.spans] using ht
      exact ⟨depth, here, c, hl, hsize, hnext⟩
    | _ => cases ht
  · rintro ⟨depth, here, c, hl, hsize, hnext⟩
    exact ⟨_, hl, by simp [Line.spans, hsize, hnext]⟩

namespace Walk

variable {a : Analysis} {stop : Nat} {w : Walk} {t : Address} {s : Symbol}

/-- A test that only chunks pass depends on the one chunk that a step writes. -/
theorem any_written {f : Line → Bool} (hf : ∀ l : Line, l.size = 0 → f l = false) :
    (w.written a stop).any f =
      f (.chunk ((w.stillOpen a stop).length + 1) w.here (w.chunkHere a stop)) := by
  rw [Bool.eq_iff_iff, List.any_eq_true]
  constructor
  · rintro ⟨l, hl, hpass⟩
    rcases size_of_mem_written hl with hsize | rfl
    · rw [hf l hsize] at hpass
      cases hpass
    · exact hpass
  · exact fun hpass => ⟨_, by simp [written], hpass⟩

theorem any_begins_written : (w.written a stop).any (Line.begins t) = (w.here == t) :=
  any_written Line.begins_of_size

theorem any_spans_written :
    (w.written a stop).any (Line.spans t) =
      (decide (1 < (w.chunkHere a stop).size) && w.here + 1 == t) :=
  any_written Line.spans_of_size

theorem count_nextLines :
    (introducedBy (w.nextLines a stop)).count s =
      if 1 < (w.chunkHere a stop).size ∧ a.nameOf (w.here + 1) = some s then 1 else 0 := by
  unfold nextLines
  cases a.nameOf (w.here + 1) with
  | none => simp [introducedBy]
  | some s' =>
    by_cases hsize : 1 < (w.chunkHere a stop).size
    · simp [introducedBy, Line.introduces, hsize, List.count_singleton]
    · simp [introducedBy, hsize]

theorem count_written :
    (introducedBy (w.written a stop)).count s =
      (introducedBy (w.header a stop)).count s + (introducedBy (w.nextLines a stop)).count s := by
  have hafter : introducedBy (.chunk ((w.stillOpen a stop).length + 1) w.here
      (w.chunkHere a stop) :: w.blankAfter a stop) = [] := by
    rw [introducedBy, List.filterMap_eq_nil_iff]
    intro l hl
    rcases List.mem_cons.1 hl with rfl | hl
    · rfl
    · rw [w.mem_blankAfter a stop hl]
      rfl
  rw [written, introducedBy_append, introducedBy_append, hafter, List.append_nil, List.count_append]

/-- The walk introduces a name at its address and as the name of a second location. -/
def Counted (a : Analysis) (stop : Nat) (t : Address) (s : Symbol) (w : Walk) : Prop :=
  (introducedBy w.lines.toList).count s =
    (if w.lines.toList.any (Line.begins t) = true then
      if a.loopsOnly stop t s = true then 0 else 1
    else 0) +
    if w.lines.toList.any (Line.spans t) = true ∧ a.nameOf t = some s then 1 else 0

/-- The chunks so far all begin before the next location. -/
theorem not_mem_of_here (hw : Sound a stop w) (hhere : w.here.toNat = w.location) (depth : Nat)
    (c : Chunk) : .chunk depth w.here c ∉ w.lines.toList := by
  intro hmem
  have hle := (hw.le_location hmem).2.2
  have hpos := c.size_pos
  omega

section Fresh

variable (hnames : a.symbols = .ofReferences a.references) (hs : a.symbols.Gives t s)

include hnames hs

theorem count_header :
    (introducedBy (w.header a stop)).count s =
      if w.here = t then if a.loopsOnly stop t s = true then 0 else 1 else 0 := by
  by_cases ht : w.here = t
  · subst ht
    rw [if_pos rfl]
    exact Analysis.count_headerLines_self hnames hs stop _ _
  · rw [if_neg ht]
    exact Analysis.count_headerLines_of_ne hnames hs ht _ _ _

theorem count_nextLines_of_gives :
    (introducedBy (w.nextLines a stop)).count s =
      if (1 < (w.chunkHere a stop).size ∧ w.here + 1 = t) ∧ a.nameOf t = some s then 1 else 0 := by
  rw [count_nextLines]
  refine if_congr ⟨?_, ?_⟩ rfl rfl
  · rintro ⟨hsize, hname⟩
    obtain rfl := Analysis.gives_inj hnames (Analysis.gives_of_nameOf hname) hs
    exact ⟨⟨hsize, rfl⟩, hname⟩
  · rintro ⟨⟨hsize, rfl⟩, hname⟩
    exact ⟨hsize, hname⟩

theorem Counted.step (hw : Sound a stop w) (h : Counted a stop t s w) (hlt : w.location < stop)
    (hstop : stop ≤ 65536) : Counted a stop t s (step a stop w) := by
  have hfresh := not_mem_of_here hw (toNat_here (by omega))
  have hbegins : w.here = t → w.lines.toList.any (Line.begins t) = false := by
    rintro rfl
    rw [Bool.eq_false_iff]
    intro hany
    obtain ⟨depth, c, hmem⟩ := any_begins_iff.1 hany
    exact hfresh depth c hmem
  have hspans : w.here + 1 = t → w.lines.toList.any (Line.spans t) = false := by
    rintro rfl
    rw [Bool.eq_false_iff]
    intro hany
    obtain ⟨depth, x, c, hmem, -, hx⟩ := any_spans_iff.1 hany
    obtain rfl := (UInt16.add_left_inj 1).1 hx
    exact hfresh depth c hmem
  rw [Counted] at h ⊢
  rw [toList_lines_step, introducedBy_append, List.count_append, count_written, List.any_append,
    List.any_append, any_begins_written, any_spans_written, h, count_header hnames hs,
    count_nextLines_of_gives hnames hs]
  -- Only a chunk at the name's own address, or one before it, adds to the count.
  generalize w.lines.toList.any (Line.begins t) = begun at hbegins ⊢
  generalize w.lines.toList.any (Line.spans t) = spanned at hspans ⊢
  by_cases ht : w.here = t
  · simp [ht, hbegins ht, Nat.add_comm]
  · by_cases hx : w.here + 1 = t
    · simp [ht, hx, hspans hx]
    · simp [ht, hx]

end Fresh

theorem counted_start (a : Analysis) (stop : Nat) (t : Address) (s : Symbol) :
    Counted a stop t s start :=
  rfl

/-- A target is never further into a chunk than its second location. -/
theorem not_contains_of_chunkHere (a : Analysis) (stop : Nat) (w : Walk) {k : Nat}
    (h2 : 2 ≤ k) (hk : k < (w.chunkHere a stop).size) :
    a.references.contains (w.here + UInt16.ofNat k) = false := by
  rcases w.chunkHere_cases a stop with ⟨l, -, -, hc⟩ | ⟨-, ⟨i, hi, hc⟩ | hc | hc⟩
  · rw [hc, Chunk.size] at hk
    omega
  · rw [hc] at hk
    exact Analysis.not_contains_of_hidesTarget (Analysis.machineInstrAt_eq_some hi).2.2 h2 hk
  · rw [hc, Chunk.size] at hk
    omega
  · rw [hc] at hk
    rcases a.chunkByClass_cases stop w.here with hd | hd | hd | hd | ⟨hd, -, hsize⟩
    all_goals rw [hd, Chunk.size] at hk
    · omega
    · omega
    · omega
    · omega
    · rcases hsize with hsize | ⟨-, hhides⟩
      · omega
      · exact Analysis.not_contains_of_hidesTarget hhides h2 hk

/-- A target before the next location begins a chunk or is the second location of one. -/
def Reaches (t : Address) (w : Walk) : Prop :=
  entryPoint.toNat ≤ t.toNat → t.toNat < w.location →
    w.lines.toList.any (Line.begins t) = true ∨ w.lines.toList.any (Line.spans t) = true

theorem Reaches.step (ht : t = entryPoint ∨ a.references.contains t = true) (hw : Sound a stop w)
    (h : Reaches t w) (hlt : w.location < stop) (hstop : stop ≤ 65536) :
    Reaches t (step a stop w) := by
  intro hge hbefore
  have hhere : w.here.toNat = w.location := toNat_here (by omega)
  rw [toList_lines_step, List.any_append, List.any_append, any_begins_written, any_spans_written]
  rw [location_step] at hbefore
  by_cases hold : t.toNat < w.location
  · rcases h hge hold with h | h
    · exact Or.inl (by rw [h, Bool.true_or])
    · exact Or.inr (by rw [h, Bool.true_or])
  · obtain ⟨k, hk⟩ : ∃ k, t.toNat = w.location + k := ⟨t.toNat - w.location, by omega⟩
    have haddress : t = w.here + UInt16.ofNat k := by
      apply UInt16.toNat_inj.1
      rw [UInt16.toNat_add, UInt16.toNat_ofNat', hhere]
      have := t.toNat_lt
      omega
    match k with
    | 0 => exact Or.inl (by simp [haddress])
    | 1 =>
      have hsize : 1 < (w.chunkHere a stop).size := by omega
      exact Or.inr (by simp [haddress, hsize])
    | k + 2 =>
      have hfree := not_contains_of_chunkHere a stop w (k := k + 2) (by omega) (by omega)
      rw [← haddress] at hfree
      rcases ht with rfl | ht
      · have hstart := hw.start_le
        omega
      · rw [ht] at hfree
        cases hfree

end Walk

namespace Analysis

variable {a : Analysis} {stop : Nat} {t : Address} {s : Symbol}

/-- Whether an address lies within a listing that ends at `stop`. -/
def Within (stop : Nat) (t : Address) : Prop :=
  entryPoint.toNat ≤ t.toNat ∧ t.toNat < stop

instance (stop : Nat) (t : Address) : Decidable (Within stop t) :=
  inferInstanceAs (Decidable (_ ∧ _))

theorem introducedBy_constLines (stop : Nat) (table : RefTable) (names : NameMap) :
    introducedBy (constLines stop table names) =
      table.targets.filterMap fun u => if Within stop u then none else names[u] := by
  have hsame (u : Address) : ((if entryPoint.toNat ≤ u.toNat ∧ u.toNat < stop then none
      else names[u].map fun s => Line.const s u).bind Line.introduces) =
        if Within stop u then none else names[u] := by
    by_cases hu : Within stop u
    · have hin : entryPoint.toNat ≤ u.toNat ∧ u.toNat < stop := hu
      rw [if_pos hin, if_pos hu]
      rfl
    · have hout : ¬ (entryPoint.toNat ≤ u.toNat ∧ u.toNat < stop) := hu
      rw [if_neg hout, if_neg hu]
      cases names[u] <;> rfl
  rw [introducedBy, constLines, List.filterMap_filterMap]
  exact List.filterMap_congr fun u _ => hsame u

theorem count_constLines {table : RefTable} {names : NameMap}
    (hunique : ∀ u : Address, names[u] = some s → u = t) :
    (introducedBy (constLines stop table names)).count s =
      if table.contains t = true ∧ names[t] = some s ∧ ¬ Within stop t then 1 else 0 := by
  rw [introducedBy_constLines, List.count_filterMap]
  by_cases ht : names[t] = some s ∧ ¬ Within stop t
  · have hpred : ∀ u ∈ table.targets,
        ((if Within stop u then none else names[u]) == some s) = true ↔ (u == t) = true := by
      intro u _
      rw [beq_iff_eq, beq_iff_eq]
      constructor
      · intro hu
        split at hu
        · cases hu
        · exact hunique u hu
      · rintro rfl
        rw [if_neg ht.2, ht.1]
    rw [List.countP_congr hpred]
    have hcount := table.nodup_targets.count (a := t)
    rw [List.count] at hcount
    rw [hcount]
    simp [ht]
  · rw [if_neg fun h => ht h.2, List.countP_eq_zero]
    intro u _ hu
    rw [beq_iff_eq] at hu
    split at hu
    · cases hu
    · next hout =>
      obtain rfl := hunique u hu
      exact ht ⟨hu, hout⟩

theorem count_consts (hnames : a.symbols = .ofReferences a.references)
    (hs : a.symbols.Gives t s) (stop : Nat) (kind : SymbolKind) (names : NameMap)
    (hkind : ∀ u : Address, names[u] = a.symbols.name? kind u) :
    (introducedBy (constLines stop (a.references.table kind) names)).count s =
      if (a.references.table kind).contains t = true ∧ a.symbols.name? kind t = some s ∧
        ¬ Within stop t then 1 else 0 := by
  have hunique (u : Address) (hu : names[u] = some s) : u = t :=
    gives_inj hnames ⟨kind, by rw [← hkind, hu]⟩ hs
  rw [count_constLines hunique, hkind]

/-- A name is introduced by a constant if its address lies outside the listing. -/
theorem count_opening (hnames : a.symbols = .ofReferences a.references) (layout : Layout)
    (hs : a.symbols.Gives t s) (hstop : entryPoint.toNat < stop) :
    (introducedBy (a.opening layout stop)).count s = if Within stop t then 0 else 1 := by
  have hremarks : introducedBy (if layout.remarks then a.dialect.remarks else []) = [] := by
    rw [introducedBy, List.filterMap_eq_nil_iff]
    intro l hl
    split at hl
    · obtain ⟨text, rfl⟩ := (Dialect.mem_remarks hl).1
      rfl
    · cases hl
  have hblank : introducedBy [.blank] = [] := rfl
  have hlabels :
      (introducedBy (constLines stop a.references.labels a.symbols.labels)).count s = _ :=
    count_consts hnames hs stop .label _ fun _ => rfl
  have hsubs :
      (introducedBy (constLines stop a.references.subroutines a.symbols.subroutines)).count s = _ :=
    count_consts hnames hs stop .subroutine _ fun _ => rfl
  have hnatives :
      (introducedBy (constLines stop a.references.natives a.symbols.natives)).count s = _ :=
    count_consts hnames hs stop .native _ fun _ => rfl
  rw [opening, introducedBy_append, introducedBy_append, introducedBy_append, introducedBy_append,
    List.count_append, List.count_append, List.count_append, hremarks, hblank, hlabels, hsubs,
    hnatives]
  by_cases hin : Within stop t
  · simp [hin]
  · obtain ⟨kind, hname⟩ := hs
    have hcases := hname
    rw [hnames] at hcases
    rcases SymbolTable.name?_eq_some hcases with ⟨rfl, -⟩ | ⟨-, hmem, n, rfl⟩
    · exact absurd ⟨Nat.le_refl _, hstop⟩ hin
    · have hiff := name?_numbered_iff hnames hname
      simp only [hiff, hin]
      cases kind with
      | label => simp [hmem]
      | subroutine => simp [hmem]
      | native => simp [hmem]

section Listing

variable {layout : Layout} {length : Nat}

theorem any_opening {f : Line → Bool} (hf : ∀ l : Line, l.size = 0 → f l = false) :
    (a.opening layout (stopAfter length)).any f = false := by
  rw [Bool.eq_false_iff, Ne, List.any_eq_true]
  rintro ⟨l, hl, hpass⟩
  rw [hf l (size_of_mem_opening hl)] at hpass
  cases hpass

theorem any_begins_lines :
    (a.lines layout length).toList.any (Line.begins t) =
      (Walk.start.run a (stopAfter length)).lines.toList.any (Line.begins t) := by
  rw [toList_lines, List.any_append, any_opening Line.begins_of_size, Bool.false_or]

theorem any_spans_lines :
    (a.lines layout length).toList.any (Line.spans t) =
      (Walk.start.run a (stopAfter length)).lines.toList.any (Line.spans t) := by
  rw [toList_lines, List.any_append, any_opening Line.spans_of_size, Bool.false_or]

variable (hnames : a.symbols = .ofReferences a.references)

include hnames

theorem entry_name : a.symbols.labels[entryPoint] = some .entry := by
  rw [hnames]
  exact SymbolTable.name?_entryPoint _ .label

/-- How often a listing introduces a name: by a constant, at its address, and as that of the second
location of a chunk. -/
theorem count_lines (hs : a.symbols.Gives t s) (hstop : entryPoint.toNat < stopAfter length) :
    (introducedBy (a.lines layout length).toList).count s =
      (if Within (stopAfter length) t then 0 else 1) +
        ((if (a.lines layout length).toList.any (Line.begins t) = true then
          if a.loopsOnly (stopAfter length) t s = true then 0 else 1
        else 0) +
        if (a.lines layout length).toList.any (Line.spans t) = true ∧ a.nameOf t = some s then 1
        else 0) := by
  have hle := (stopAfter_le length).2
  have hwalk := (Walk.run_induction
    (P := fun w => Walk.Sound a (stopAfter length) w ∧ Walk.Counted a (stopAfter length) t s w)
    (fun w hlt hw => ⟨hw.1.step (entry_name hnames) hlt hle, hw.2.step hnames hs hw.1 hlt hle⟩)
    ⟨Walk.sound_start a _, Walk.counted_start a _ t s⟩).1.2
  rw [Walk.Counted] at hwalk
  rw [any_begins_lines, any_spans_lines, toList_lines, introducedBy_append, List.count_append,
    count_opening hnames layout hs hstop, hwalk]

/-- Every target within a listing begins a chunk or is the second location of one. -/
theorem begins_or_spans (ht : t = entryPoint ∨ a.references.contains t = true)
    (hin : Within (stopAfter length) t) :
    (a.lines layout length).toList.any (Line.begins t) = true ∨
      (a.lines layout length).toList.any (Line.spans t) = true := by
  have hle := (stopAfter_le length).2
  obtain ⟨⟨-, hwalk⟩, hend⟩ := Walk.run_induction
    (P := fun w => Walk.Sound a (stopAfter length) w ∧ Walk.Reaches t w)
    (fun w hlt hw => ⟨hw.1.step (entry_name hnames) hlt hle, hw.2.step ht hw.1 hlt hle⟩)
    ⟨Walk.sound_start a _, fun hge hlt => absurd hlt (Nat.not_lt.2 hge)⟩
  rw [any_begins_lines, any_spans_lines]
  exact hwalk hin.1 (Nat.lt_of_lt_of_le hin.2 hend)

theorem within_of_mem {depth : Nat} {here : Address} {c : Chunk}
    (h : .chunk depth here c ∈ (a.lines layout length).toList) :
    Within (stopAfter length) here := by
  obtain ⟨before, after, hlines⟩ := List.append_of_mem h
  obtain ⟨hhere, hlt, -⟩ :=
    throughout_lines (entry_name hnames) before (.chunk depth here c) after hlines
  exact ⟨by omega, hlt⟩

theorem not_begins_and_spans
    (hb : (a.lines layout length).toList.any (Line.begins t) = true) :
    (a.lines layout length).toList.any (Line.spans t) = false := by
  rw [Bool.eq_false_iff]
  intro hspans
  obtain ⟨depth, c, ht⟩ := any_begins_iff.1 hb
  obtain ⟨depth', x, d, hx, hsize, hnext⟩ := any_spans_iff.1 hspans
  have hthere := (within_of_mem hnames ht).1
  have hentry : entryPoint.toNat = 512 := rfl
  have hpos := c.size_pos
  have hxlt := x.toNat_lt
  have hnat : t.toNat = (x.toNat + 1) % 65536 := by
    rw [← hnext, UInt16.toNat_add]
    rfl
  rcases chunks_apart (throughout_lines (entry_name hnames)) hx ht with h | h | h
  · rw [h] at hnat hxlt
    omega
  · omega
  · omega

theorem not_begins_of_spans
    (hspans : (a.lines layout length).toList.any (Line.spans t) = true) :
    ¬ (a.lines layout length).toList.any (Line.begins t) = true := by
  intro hb
  rw [not_begins_and_spans hnames hb] at hspans
  cases hspans

theorem toNat_succ_of_mem {depth : Nat} {here : Address} {c : Chunk}
    (h : .chunk depth here c ∈ (a.lines layout length).toList) (hnext : here + 1 = t) :
    Within (stopAfter length) t ↔ here.toNat + 1 < stopAfter length := by
  have hentry : entryPoint.toNat = 512 := rfl
  obtain ⟨hge, hlt⟩ := within_of_mem hnames h
  have hle := (stopAfter_le length).2
  have hnat : t.toNat = (here.toNat + 1) % 65536 := by
    rw [← hnext, UInt16.toNat_add]
    rfl
  rw [Within]
  omega

end Listing

end Analysis

end OctoLift
