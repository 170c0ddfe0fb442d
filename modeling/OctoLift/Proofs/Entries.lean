import OctoLift.Proofs.Exactness
import OctoLift.Proofs.Names
import OctoLift.Proofs.Termination
import OctoLift.Proofs.Tokens
import OctoLift.Report

/-!
# Targets in a report

A report lists the targets of each kind in ascending order, each once, under a name of its own and
with everything that refers to it. Only one target can be missing: the entry point has no name as
machine code, so the references to it are left out where the program runs itself as machine code.
-/

namespace OctoLift

theorem AddressMap.pairwise_addresses : addresses.Pairwise (· < ·) := by
  refine List.pairwise_map.2 (List.pairwise_lt_range.imp_of_mem fun {j k} _ hk hlt => ?_)
  have hk := List.mem_range.1 hk
  rw [UInt16.lt_iff_toNat_lt, UInt16.toNat_ofNat', UInt16.toNat_ofNat']
  omega

theorem AddressMap.pairwise_support {α : Type} (m : AddressMap α) (p : α → Bool) :
    (m.support p).Pairwise (· < ·) :=
  pairwise_addresses.filter _

namespace RefTable

theorem pairwise_targets (t : RefTable) : t.targets.Pairwise (· < ·) :=
  AddressMap.pairwise_support _ _

/-- The targets are what has been referred to from somewhere. -/
theorem contains_iff {t : RefTable} {target : Address} :
    t.contains target = true ↔ ∃ source, t.has target source = true := by
  refine ⟨exists_has, ?_⟩
  rintro ⟨source, hsource⟩
  cases hempty : t.sources[target].isEmpty with
  | false => rw [contains, hempty]; rfl
  | true =>
    have hnone : t.sources[target] = ∅ := by
      generalize t.sources[target] = s at hempty
      obtain ⟨bits, _⟩ := s
      obtain rfl : bits = 0 := by simpa [WordSet.isEmpty] using hempty
      rfl
    rw [has_iff, hnone] at hsource
    exact absurd hsource (WordSet.not_mem_empty source)

end RefTable

/-- No two addresses share a name. -/
def NameMap.Distinct (names : NameMap) : Prop :=
  ∀ (a b : Address) (s : Symbol), names[a] = some s → names[b] = some s → a = b

namespace SymbolTable

def names (t : SymbolTable) : SymbolKind → NameMap
  | .label => t.labels
  | .subroutine => t.subroutines
  | .native => t.natives

theorem name?_eq (t : SymbolTable) (kind : SymbolKind) (a : Address) :
    t.name? kind a = (t.names kind)[a] := by
  cases kind <;> rfl

theorem distinct_ofReferences (r : References) (kind : SymbolKind) :
    ((ofReferences r).names kind).Distinct := by
  intro a b s ha hb
  rw [← name?_eq] at ha hb
  exact gives_inj ⟨kind, ha⟩ ⟨kind, hb⟩

end SymbolTable

namespace Report

section Entries

variable {table : RefTable} {names : NameMap} {e : ReportEntry}

theorem mem_entries : e ∈ entries table names ↔
    table.contains e.address = true ∧ names[e.address] = some e.name ∧
      e.refs = table.refs e.address := by
  simp only [entries, List.mem_filterMap, RefTable.mem_targets, Option.map_eq_some_iff]
  constructor
  · rintro ⟨t, ht, s, hs, rfl⟩
    exact ⟨ht, hs, rfl⟩
  · rintro ⟨ht, hs, hrefs⟩
    obtain ⟨s, t, refs⟩ := e
    obtain rfl : refs = table.refs t := hrefs
    exact ⟨t, ht, s, hs, rfl⟩

theorem pairwise_address_entries (table : RefTable) (names : NameMap) :
    (entries table names).Pairwise fun e f => e.address < f.address := by
  refine List.pairwise_filterMap.2 (table.pairwise_targets.imp fun {t u} hlt e he f hf => ?_)
  obtain ⟨_, _, rfl⟩ := Option.map_eq_some_iff.1 he
  obtain ⟨_, _, rfl⟩ := Option.map_eq_some_iff.1 hf
  exact hlt

theorem pairwise_name_entries (hinj : names.Distinct) :
    (entries table names).Pairwise fun e f => e.name.text ≠ f.name.text := by
  refine (pairwise_address_entries table names).imp_of_mem fun {e f} he hf hlt htext => ?_
  obtain ⟨-, he, -⟩ := mem_entries.1 he
  obtain ⟨-, hf, -⟩ := mem_entries.1 hf
  rw [Symbol.text_injective htext] at he
  exact UInt16.ne_of_lt hlt (hinj _ _ _ he hf)

end Entries

def targetsOf (r : Report) : SymbolKind → List ReportEntry
  | .label => r.labels
  | .subroutine => r.subroutines
  | .native => r.natives

/-- Some entries list the targets that pass a test: one entry for each, ascending, under names of
their own, with everything that refers to them, ascending. -/
structure Lists (es : List ReportEntry) (table : RefTable) (test : Address → Prop) : Prop where
  ascending : es.Pairwise fun e f => e.address < f.address
  named : es.Pairwise fun e f => e.name.text ≠ f.name.text
  complete : ∀ t, (∃ e ∈ es, e.address = t) ↔ (∃ source, table.has t source = true) ∧ test t
  refs_ascending : ∀ e ∈ es, e.refs.Pairwise (· < ·)
  refs : ∀ e ∈ es, ∀ source, source ∈ e.refs ↔ table.has e.address source = true

theorem lists_entries {table : RefTable} {names : NameMap} (hinj : names.Distinct) :
    Lists (entries table names) table fun t => ∃ s, names[t] = some s where
  ascending := pairwise_address_entries table names
  named := pairwise_name_entries hinj
  complete t := by
    simp only [mem_entries, ← RefTable.contains_iff]
    constructor
    · rintro ⟨e, ⟨ht, hs, -⟩, rfl⟩
      exact ⟨ht, e.name, hs⟩
    · rintro ⟨ht, s, hs⟩
      exact ⟨⟨s, t, table.refs t⟩, ⟨ht, hs, rfl⟩, rfl⟩
  refs_ascending e he := by
    rw [(mem_entries.1 he).2.2]
    exact WordSet.pairwise_toList _
  refs e he source := by
    rw [(mem_entries.1 he).2.2, RefTable.refs, WordSet.mem_toList, RefTable.has_iff]

theorem targetsOf_ofAnalysis (a : Analysis) (kind : SymbolKind) :
    (ofAnalysis a).targetsOf kind = entries (a.references.table kind) (a.symbols.names kind) := by
  cases kind <;> simp only [ofAnalysis, targetsOf, References.table, SymbolTable.names]

theorem Lists.congr {es : List ReportEntry} {table : RefTable} {test test' : Address → Prop}
    (h : Lists es table test)
    (htest : ∀ t source, table.has t source = true → (test t ↔ test' t)) :
    Lists es table test' where
  ascending := h.ascending
  named := h.named
  complete t := by
    rw [h.complete t]
    refine and_congr_right fun hmem => ?_
    obtain ⟨source, hsource⟩ := hmem
    exact htest t source hsource
  refs_ascending := h.refs_ascending
  refs := h.refs

/-- Of the targets only the entry point can be without a name, and only as machine code. -/
theorem exists_name_iff {r : References} {kind : SymbolKind} {t : Address}
    (h : (r.table kind).contains t = true) :
    (∃ s, ((SymbolTable.ofReferences r).names kind)[t] = some s) ↔
      ¬ (kind = .native ∧ t = entryPoint) := by
  rw [← SymbolTable.name?_eq]
  by_cases ht : t = entryPoint
  · subst ht
    rw [SymbolTable.name?_entryPoint]
    by_cases hkind : kind = .native
    · simp [hkind]
    · simp [hkind]
  · obtain ⟨n, hn⟩ := SymbolTable.exists_name ht h
    simp [hn, ht]

theorem lists_targetsOf {a : Analysis} (h : a.symbols = .ofReferences a.references)
    (kind : SymbolKind) :
    Lists ((ofAnalysis a).targetsOf kind) (a.references.table kind) fun t =>
      ¬ (kind = .native ∧ t = entryPoint) := by
  rw [targetsOf_ofAnalysis, h]
  refine (lists_entries (SymbolTable.distinct_ofReferences _ kind)).congr ?_
  intro t source hsource
  exact exists_name_iff (RefTable.contains_iff.2 ⟨source, hsource⟩)

theorem not_lists_natives {a : Analysis} (h : a.symbols = .ofReferences a.references)
    {here : Address} (hhas : (a.references.table .native).has entryPoint here = true) :
    ¬ Lists ((ofAnalysis a).targetsOf .native) (a.references.table .native) fun _ => True := by
  intro hall
  have hlisted := (hall.complete entryPoint).2 ⟨⟨here, hhas⟩, trivial⟩
  exact (((lists_targetsOf h .native).complete entryPoint).1 hlisted).2 ⟨rfl, rfl⟩

end Report

theorem Instr.nativeTarget_eq_some {i : Instr} {t : Address} :
    i.nativeTarget = some t ↔ i = .native t := by
  cases i <;> simp [nativeTarget]

/-- At rest the references to machine code at an address are those of the reached instructions
that run it. -/
theorem Analyzer.Reachable.has_native_iff {rom : Array UInt8} {d : Dialect} {a : Analyzer}
    (h : Reachable rom d a) (hd : a.isDone = true) (t here : Address) :
    (a.found.references.table .native).has t here = true ↔
      (∃ s, a.found.reaching[here] = some s) ∧ a.found.program.instr here = .native t := by
  rw [← Instr.nativeTarget_eq_some]
  exact has_iff_of_recorded h.grounded.natives
    (fun here s hs => (h.worklist.visited_at_rest hd hs).references.native) t here

/-- The report on a ROM lists the targets of every kind: each once, in ascending order, under a name
of its own and with everything that refers to it. Left out is only the entry point as machine code;
so all lists are complete exactly if no reached instruction runs the machine code at the entry
point. -/
theorem Report.lists_targets_iff {rom : Array UInt8} (hfits : rom.size ≤ maxRomSize)
    (d : Dialect) :
    ∃ a, Analysis.ofRom rom d = .ok a ∧
      let report := Report.ofAnalysis a
      (∀ kind, Lists (report.targetsOf kind) (a.references.table kind) fun t =>
        ¬ (kind = .native ∧ t = entryPoint)) ∧
      ((∀ kind, Lists (report.targetsOf kind) (a.references.table kind) fun _ => True) ↔
        ∀ here s, a.reaching[here] = some s → a.program.instr here ≠ .native entryPoint) := by
  obtain ⟨a, ha, hd, hofRom⟩ := Analysis.exists_ofRom hfits d
  refine ⟨a.found, hofRom, ?_⟩
  intro report
  have hlists := lists_targetsOf a.found_symbols
  refine ⟨hlists, ?_⟩
  constructor
  · intro hall here s hs hinstr
    have href := (ha.has_native_iff hd entryPoint here).2 ⟨⟨s, hs⟩, hinstr⟩
    exact not_lists_natives a.found_symbols href (hall .native)
  · intro hnone kind
    refine (hlists kind).congr fun t source hsource => iff_true_intro ?_
    rintro ⟨rfl, rfl⟩
    obtain ⟨⟨s, hs⟩, hinstr⟩ := (ha.has_native_iff hd entryPoint source).1 hsource
    exact hnone source s hs hinstr

section EntryAsMachineCode

/-- A program that runs its own entry point as machine code. -/
def entryAsMachineCode : Program where
  rom := #[0x02, 0x00]
  fits := by decide

def entryAsMachineCodeFound : Analysis :=
  ((Analyzer.start entryAsMachineCode {}).step 2).found

private theorem at_rest_entryAsMachineCode :
    ((Analyzer.start entryAsMachineCode {}).step 2).isDone = true ∧
      (entryAsMachineCodeFound.references.table .native).has entryPoint entryPoint = true := by
  decide +kernel

theorem Report.entry_point_not_listed :
    ∃ a, Analysis.ofRom entryAsMachineCode.rom {} = .ok a ∧
      (a.references.table .native).has entryPoint entryPoint = true ∧
      ¬ Lists ((Report.ofAnalysis a).targetsOf .native) (a.references.table .native)
        fun _ => True := by
  obtain ⟨hdone, hhas⟩ := at_rest_entryAsMachineCode
  exact ⟨entryAsMachineCodeFound, Analysis.ofRom_of_isDone entryAsMachineCode.fits {} hdone,
    hhas, not_lists_natives (Analyzer.found_symbols _) hhas⟩

end EntryAsMachineCode

section ThreeKinds

/-- A program that calls a subroutine, runs machine code and jumps. -/
def threeKinds : Program where
  rom := #[0x22, 0x06, 0x03, 0x00, 0x12, 0x04, 0x00, 0xEE]
  fits := by decide

def threeKindsFound : Analysis :=
  ((Analyzer.start threeKinds {}).step 5).found

private theorem at_rest_threeKinds :
    ((Analyzer.start threeKinds {}).step 5).isDone = true ∧
      (threeKindsFound.references.table .native).contains entryPoint = false ∧
      (threeKindsFound.references.table .label).has 0x204 0x204 = true ∧
      (threeKindsFound.references.table .subroutine).has 0x206 0x200 = true ∧
      (threeKindsFound.references.table .native).has 0x300 0x202 = true := by
  decide +kernel

private theorem not_native_entryPoint_threeKinds (here : Address) (s : RegState)
    (hs : threeKindsFound.reaching[here] = some s) :
    threeKindsFound.program.instr here ≠ .native entryPoint := by
  obtain ⟨hdone, hentry, -⟩ := at_rest_threeKinds
  have hr : Analyzer.Reachable threeKinds.rom {} ((Analyzer.start threeKinds {}).step 5) :=
    .step 5 (.start rfl)
  intro hinstr
  have href : (threeKindsFound.references.table .native).has entryPoint here = true :=
    (hr.has_native_iff hdone entryPoint here).2 ⟨⟨s, hs⟩, hinstr⟩
  rw [RefTable.contains_iff.2 ⟨here, href⟩] at hentry
  cases hentry

theorem Report.lists_targets_of_three_kinds :
    threeKinds.rom.size ≤ maxRomSize ∧ ∃ a, Analysis.ofRom threeKinds.rom {} = .ok a ∧
      (∀ kind, Lists ((Report.ofAnalysis a).targetsOf kind) (a.references.table kind)
        fun _ => True) ∧
      (∃ e ∈ (Report.ofAnalysis a).targetsOf .label, e.address = 0x204) ∧
      (∃ e ∈ (Report.ofAnalysis a).targetsOf .subroutine, e.address = 0x206) ∧
      ∃ e ∈ (Report.ofAnalysis a).targetsOf .native, e.address = 0x300 := by
  obtain ⟨hdone, -, hlabel, hsubroutine, hnative⟩ := at_rest_threeKinds
  obtain ⟨a, ha, -, hcomplete⟩ := Report.lists_targets_iff threeKinds.fits {}
  obtain rfl : a = threeKindsFound :=
    Except.ok.inj (ha.symm.trans (Analysis.ofRom_of_isDone threeKinds.fits {} hdone))
  have hall := hcomplete.2 not_native_entryPoint_threeKinds
  exact ⟨threeKinds.fits, threeKindsFound, ha, hall,
    ((hall .label).complete 0x204).2 ⟨⟨0x204, hlabel⟩, trivial⟩,
    ((hall .subroutine).complete 0x206).2 ⟨⟨0x200, hsubroutine⟩, trivial⟩,
    ((hall .native).complete 0x300).2 ⟨⟨0x202, hnative⟩, trivial⟩⟩

end ThreeKinds

end OctoLift
