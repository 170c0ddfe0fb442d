import OctoLift.Proofs.Marks
import OctoLift.Proofs.Monotone

/-!
# One visit

What taking an address from the stack does to an exploration. The states at the successors absorb
the state after the instruction, all other states stay; a state that has grown waits; marks,
references and the recorded return addresses are those of the visited address.
-/

namespace OctoLift.Analyzer

/-- The state at an address once `out` has flowed into it. -/
def absorb (out : RegState) : Option RegState → RegState
  | none => out
  | some s => s ∪ out

theorem subset_absorb (out : RegState) (old : Option RegState) : out ⊆ absorb out old := by
  cases old with
  | none => exact refl out
  | some s => exact le_sup_right (b := out)

theorem absorb_subset {out u : RegState} {old : Option RegState} (hout : out ⊆ u)
    (hold : ∀ s, old = some s → s ⊆ u) : absorb out old ⊆ u := by
  cases old with
  | none => exact hout
  | some s => exact sup_le (a := s) (hold s rfl) hout

theorem absorb_of_subset {out s : RegState} (h : out ⊆ s) : absorb out (some s) = s :=
  sup_eq_left.2 h

@[simp] theorem absorb_some_absorb (out : RegState) (old : Option RegState) :
    absorb out (some (absorb out old)) = absorb out old :=
  absorb_of_subset (subset_absorb out old)

/-- The stack has no duplicates, and exactly its addresses are marked as waiting. -/
structure Orderly (a : Analyzer) : Prop where
  nodup : a.fringe.Nodup
  queued_iff : ∀ t : Address, a.queued[t] = true ↔ t ∈ a.fringe

theorem queued_enqueue (a : Analyzer) (t b : Address) :
    (a.enqueue t).queued[b] = true ↔ a.queued[b] = true ∨ b = t := by
  unfold enqueue
  by_cases ht : a.queued[t] = true
  · rw [if_pos ht]
    constructor
    · exact Or.inl
    · intro h
      rcases h with h | rfl
      · exact h
      · exact ht
  · rw [if_neg ht, AddressMap.getElem_set]
    by_cases hb : t = b
    · simp [hb]
    · simp [hb, Ne.symm hb]

theorem mem_fringe_enqueue {a : Analyzer} {t b : Address} (h : b ∈ (a.enqueue t).fringe) :
    b ∈ a.fringe ∨ b = t := by
  unfold enqueue at h
  split at h
  · exact Or.inl h
  · exact (List.mem_cons.1 h).symm

theorem Orderly.enqueue {a : Analyzer} (h : a.Orderly) (t : Address) : (a.enqueue t).Orderly := by
  by_cases ht : a.queued[t] = true
  · have he : a.enqueue t = a := if_pos ht
    rw [he]
    exact h
  · have he : (a.enqueue t).fringe = t :: a.fringe := by
      unfold Analyzer.enqueue
      rw [if_neg ht]
    constructor
    · rw [he]
      exact List.nodup_cons.2 ⟨fun hm => ht ((h.queued_iff t).2 hm), h.nodup⟩
    · intro b
      rw [he, queued_enqueue, h.queued_iff, List.mem_cons, or_comm]

theorem enqueue_frame (a : Analyzer) (t : Address) :
    ∃ fringe queued, a.enqueue t = { a with fringe := fringe, queued := queued } := by
  unfold enqueue
  split
  · exact ⟨_, _, rfl⟩
  · exact ⟨_, _, rfl⟩

section Flow

variable (out : RegState) (a : Analyzer) (t : Address)

private theorem set_absorb_of_subset {s : RegState} (hs : a.reaching[t] = some s) (h : out ⊆ s) :
    a.reaching.set t (some (absorb out a.reaching[t])) = a.reaching := by
  apply AddressMap.ext
  intro b
  rw [AddressMap.getElem_set]
  split
  · next hb =>
    rw [← hb, hs, absorb_of_subset h]
  · rfl

theorem flow_of_gain (h : ∀ s, a.reaching[t] = some s → ¬ out ⊆ s) :
    flow out a t =
      { a with reaching := a.reaching.set t (some (absorb out a.reaching[t])) }.enqueue t := by
  unfold flow
  cases hs : a.reaching[t] with
  | none => rfl
  | some s =>
    have hm : s.merge out = (s ∪ out, true) := by
      rw [RegState.merge, if_neg (fun hc => h s hs (RegState.isSubset_iff.1 hc))]
    simp only [hm]
    rfl

theorem flow_of_no_gain {s : RegState} (hs : a.reaching[t] = some s) (h : out ⊆ s) :
    flow out a t = if a.isStale t = true then a.enqueue t else a := by
  unfold flow
  have hm : s.merge out = (s, false) := by
    rw [RegState.merge, if_pos (RegState.isSubset_iff.2 h)]
  simp only [hs, hm]

/-- Either the state at `t` absorbs something and `t` waits, or nothing but the stack may change. -/
theorem flow_cases :
    flow out a t =
        { a with reaching := a.reaching.set t (some (absorb out a.reaching[t])) }.enqueue t ∨
      a.reaching.set t (some (absorb out a.reaching[t])) = a.reaching ∧
        (flow out a t = a ∨ flow out a t = a.enqueue t) := by
  by_cases hgain : ∀ s, a.reaching[t] = some s → ¬ out ⊆ s
  · exact Or.inl (flow_of_gain out a t hgain)
  · obtain ⟨s, hs⟩ := Classical.not_forall.1 hgain
    obtain ⟨hs, h⟩ := Classical.not_imp.1 hs
    replace h := Classical.not_not.1 h
    refine Or.inr ⟨set_absorb_of_subset out a t hs h, ?_⟩
    rw [flow_of_no_gain out a t hs h]
    split
    · exact Or.inr rfl
    · exact Or.inl rfl

/-- A flow changes no more than the state at `t` and the stack. -/
theorem flow_frame :
    ∃ fringe queued, flow out a t =
      { a with
        reaching := a.reaching.set t (some (absorb out a.reaching[t]))
        fringe := fringe
        queued := queued } := by
  rcases flow_cases out a t with h | ⟨hset, h | h⟩
  · obtain ⟨f, q, e⟩ := enqueue_frame
      { a with reaching := a.reaching.set t (some (absorb out a.reaching[t])) } t
    exact ⟨f, q, h.trans e⟩
  · exact ⟨a.fringe, a.queued, by rw [h, hset]⟩
  · obtain ⟨f, q, e⟩ := enqueue_frame a t
    exact ⟨f, q, by rw [h, e, hset]⟩

theorem reaching_flow (b : Address) :
    (flow out a t).reaching[b] =
      if t = b then some (absorb out a.reaching[t]) else a.reaching[b] := by
  obtain ⟨f, q, e⟩ := flow_frame out a t
  rw [e, AddressMap.getElem_set]

/-- An address that does not wait after a flow did not wait before, and its state is the same. -/
theorem not_queued_flow {b : Address} (h : ¬ (flow out a t).queued[b] = true) :
    ¬ a.queued[b] = true ∧ (flow out a t).reaching[b] = a.reaching[b] := by
  rcases flow_cases out a t with e | ⟨hset, e⟩
  · rw [e, queued_enqueue, not_or] at h
    refine ⟨h.1, ?_⟩
    rw [reaching_flow, if_neg (Ne.symm h.2)]
  · constructor
    · rcases e with e | e
      · rwa [e] at h
      · rw [e, queued_enqueue, not_or] at h
        exact h.1
    · obtain ⟨f, q, e'⟩ := flow_frame out a t
      rw [e', hset]

theorem mem_fringe_flow {b : Address} (h : b ∈ (flow out a t).fringe) : b ∈ a.fringe ∨ b = t := by
  rcases flow_cases out a t with e | ⟨_, e | e⟩
  · rw [e] at h
    have hb := mem_fringe_enqueue h
    exact hb
  · rw [e] at h
    exact Or.inl h
  · rw [e] at h
    exact mem_fringe_enqueue h

theorem Orderly.flow {a : Analyzer} (h : a.Orderly) (out : RegState) (t : Address) :
    (Analyzer.flow out a t).Orderly := by
  rcases flow_cases out a t with e | ⟨_, e | e⟩
  · have h' : Orderly
        { a with reaching := a.reaching.set t (some (absorb out a.reaching[t])) } :=
      ⟨h.nodup, h.queued_iff⟩
    rw [e]
    exact h'.enqueue t
  · rw [e]
    exact h
  · rw [e]
    exact h.enqueue t

end Flow

section FlowAll

variable (out : RegState) (next : List Address) (a : Analyzer)

theorem foldl_flow_frame :
    ∃ reaching fringe queued, next.foldl (flow out) a =
      { a with reaching := reaching, fringe := fringe, queued := queued } := by
  induction next generalizing a with
  | nil => exact ⟨_, _, _, rfl⟩
  | cons t rest ih =>
    obtain ⟨r, f, q, e⟩ := ih (flow out a t)
    obtain ⟨f', q', e'⟩ := flow_frame out a t
    exact ⟨r, f, q, by rw [List.foldl_cons, e, e']⟩

theorem reaching_foldl_flow (b : Address) :
    (next.foldl (flow out) a).reaching[b] =
      if b ∈ next then some (absorb out a.reaching[b]) else a.reaching[b] := by
  induction next generalizing a with
  | nil => simp
  | cons t rest ih =>
    rw [List.foldl_cons, ih, reaching_flow]
    by_cases htb : t = b
    · subst htb
      simp
    · simp [htb, Ne.symm htb]

theorem not_queued_foldl_flow {b : Address}
    (h : ¬ (next.foldl (flow out) a).queued[b] = true) :
    ¬ a.queued[b] = true ∧ (next.foldl (flow out) a).reaching[b] = a.reaching[b] := by
  induction next generalizing a with
  | nil => exact ⟨h, rfl⟩
  | cons t rest ih =>
    rw [List.foldl_cons] at h ⊢
    obtain ⟨hq, hr⟩ := ih (flow out a t) h
    obtain ⟨hq', hr'⟩ := not_queued_flow out a t hq
    exact ⟨hq', hr.trans hr'⟩

theorem mem_fringe_foldl_flow {b : Address} (h : b ∈ (next.foldl (flow out) a).fringe) :
    b ∈ a.fringe ∨ b ∈ next := by
  induction next generalizing a with
  | nil => exact Or.inl h
  | cons t rest ih =>
    rw [List.foldl_cons] at h
    rcases ih (flow out a t) h with h | h
    · rcases mem_fringe_flow out a t h with h | rfl
      · exact Or.inl h
      · exact Or.inr (by simp)
    · exact Or.inr (by simp [h])

theorem Orderly.foldl_flow {a : Analyzer} (h : a.Orderly) (out : RegState) (next : List Address) :
    (next.foldl (Analyzer.flow out) a).Orderly := by
  induction next generalizing a with
  | nil => exact h
  | cons t rest ih => exact ih (h.flow out t)

end FlowAll

section Pop

variable {a : Analyzer} {here : Address} {s : RegState}

def nextAt (a : Analyzer) (here : Address) (s : RegState) : List Address :=
  a.program.successors here (a.program.instr here) s

/-- The state that a visit of `here` would give now. -/
def outNow (a : Analyzer) (here : Address) (s : RegState) : RegState :=
  a.after here (a.program.instr here) s

/-- `here` has been taken from the stack and what its instruction touches in the state `s` has been
recorded, but nothing has flowed yet. -/
abbrev taken (a : Analyzer) (here : Address) (rest : List Address) (s : RegState) : Analyzer :=
  { a with
    fringe := rest
    queued := a.queued.set here false
    steps := a.steps + 1
    classes := markData
      (ClassMap.markRange a.classes here.toNat (a.program.instr here).size .code) s
      (a.program.instr here)
    references := a.references.record here (a.program.instr here)
    chased := if a.program.instr here = .ret then
      a.chased.set here (some ((a.outNow here s).get .returns)) else a.chased }

theorem outNow_of_ret (hi : a.program.instr here = .ret) :
    a.outNow here s = s.set .returns (a.chaseNow (s.get .returns)) := by
  simp only [outNow, after, hi, RegState.transfer]

theorem mem_nextAt_of_ret (hi : a.program.instr here = .ret) {t : Address} :
    t ∈ a.nextAt here s ↔ t ∈ s.get .returns := by
  rw [nextAt, hi, Program.mem_successors_ret]

theorem pop_of_reached (h : a.reaching[here] = some s) (rest : List Address) :
    a.pop here rest =
      (a.nextAt here s).foldl (flow (a.outNow here s)) (a.taken here rest s) := by
  unfold pop visit
  simp only [h]
  rfl

theorem pop_of_not_reached (h : a.reaching[here] = none) (rest : List Address) :
    a.pop here rest =
      { a with fringe := rest, queued := a.queued.set here false, steps := a.steps + 1 } := by
  unfold pop visit
  simp only [h]

theorem reaching_pop (h : a.reaching[here] = some s) (rest : List Address) (b : Address) :
    (a.pop here rest).reaching[b] =
      if b ∈ a.nextAt here s then some (absorb (a.outNow here s) a.reaching[b])
      else a.reaching[b] := by
  rw [pop_of_reached h, reaching_foldl_flow]

/-- A state after a visit was there before or has taken in what flows from the visited address. -/
theorem reaching_pop_cases {rest : List Address} {t : Address} {u : RegState}
    (hu : (a.pop here rest).reaching[t] = some u) :
    a.reaching[t] = some u ∨ ∃ s, a.reaching[here] = some s ∧ t ∈ a.nextAt here s ∧
      u = absorb (a.outNow here s) a.reaching[t] := by
  cases hs : a.reaching[here] with
  | none =>
    rw [pop_of_not_reached hs] at hu
    exact .inl hu
  | some s =>
    rw [reaching_pop hs] at hu
    by_cases ht : t ∈ a.nextAt here s
    · rw [if_pos ht, Option.some.injEq] at hu
      exact .inr ⟨s, rfl, ht, hu.symm⟩
    · rw [if_neg ht] at hu
      exact .inl hu

theorem classes_pop (h : a.reaching[here] = some s) (rest : List Address) :
    (a.pop here rest).classes =
      markData (ClassMap.markRange a.classes here.toNat (a.program.instr here).size .code) s
        (a.program.instr here) := by
  rw [pop_of_reached h]
  obtain ⟨r, f, q, e⟩ := foldl_flow_frame (a.outNow here s) (a.nextAt here s) _
  rw [e]

theorem references_pop (h : a.reaching[here] = some s) (rest : List Address) :
    (a.pop here rest).references = a.references.record here (a.program.instr here) := by
  rw [pop_of_reached h]
  obtain ⟨r, f, q, e⟩ := foldl_flow_frame (a.outNow here s) (a.nextAt here s) _
  rw [e]

theorem chased_pop (h : a.reaching[here] = some s) (rest : List Address) :
    (a.pop here rest).chased =
      if a.program.instr here = .ret then
        a.chased.set here (some ((a.outNow here s).get .returns)) else a.chased := by
  rw [pop_of_reached h]
  obtain ⟨r, f, q, e⟩ := foldl_flow_frame (a.outNow here s) (a.nextAt here s) _
  rw [e]

@[simp] theorem program_pop (a : Analyzer) (here : Address) (rest : List Address) :
    (a.pop here rest).program = a.program := by
  cases h : a.reaching[here] with
  | none => rw [pop_of_not_reached h]
  | some s =>
    rw [pop_of_reached h]
    obtain ⟨r, f, q, e⟩ := foldl_flow_frame (a.outNow here s) (a.nextAt here s) _
    rw [e]

@[simp] theorem dialect_pop (a : Analyzer) (here : Address) (rest : List Address) :
    (a.pop here rest).dialect = a.dialect := by
  cases h : a.reaching[here] with
  | none => rw [pop_of_not_reached h]
  | some s =>
    rw [pop_of_reached h]
    obtain ⟨r, f, q, e⟩ := foldl_flow_frame (a.outNow here s) (a.nextAt here s) _
    rw [e]

theorem not_queued_pop (h : a.reaching[here] = some s) {rest : List Address} {b : Address}
    (hb : ¬ (a.pop here rest).queued[b] = true) :
    (b = here ∨ ¬ a.queued[b] = true) ∧ (a.pop here rest).reaching[b] = a.reaching[b] := by
  rw [pop_of_reached h] at hb ⊢
  obtain ⟨hq, hr⟩ := not_queued_foldl_flow _ _ _ hb
  refine ⟨?_, hr⟩
  rw [AddressMap.getElem_set] at hq
  by_cases hbh : here = b
  · exact Or.inl hbh.symm
  · rw [if_neg hbh] at hq
    exact Or.inr hq

theorem mem_fringe_pop (h : a.reaching[here] = some s) {rest : List Address} {b : Address}
    (hb : b ∈ (a.pop here rest).fringe) : b ∈ rest ∨ b ∈ a.nextAt here s := by
  rw [pop_of_reached h] at hb
  exact mem_fringe_foldl_flow _ _ _ hb

theorem Orderly.tail (h : a.Orderly) {rest : List Address} (hf : a.fringe = here :: rest) :
    rest.Nodup ∧ ∀ t : Address, (a.queued.set here false)[t] = true ↔ t ∈ rest := by
  have hn := h.nodup
  rw [hf, List.nodup_cons] at hn
  refine ⟨hn.2, ?_⟩
  intro t
  rw [AddressMap.getElem_set]
  by_cases ht : here = t
  · subst ht
    simp [hn.1]
  · rw [if_neg ht, h.queued_iff, hf, List.mem_cons]
    simp [Ne.symm ht]

theorem Orderly.pop (h : a.Orderly) {rest : List Address} (hf : a.fringe = here :: rest) :
    (a.pop here rest).Orderly := by
  obtain ⟨hn, hq⟩ := h.tail hf
  cases hs : a.reaching[here] with
  | none =>
    rw [pop_of_not_reached hs]
    exact ⟨hn, hq⟩
  | some s =>
    rw [pop_of_reached hs]
    exact Orderly.foldl_flow ⟨hn, hq⟩ _ _

end Pop

end OctoLift.Analyzer
