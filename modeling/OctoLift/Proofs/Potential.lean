import Mathlib.Algebra.Order.BigOperators.Group.Finset
import Mathlib.Data.FinEnum
import OctoLift.Proofs.Worklist

/-!
# The potential of an exploration

Every visit is paid for by knowledge. An address is put on the stack because its state has grown
or, if it holds a `return`, because it would give other addresses than at its last visit; these are
more, since call sites only grow. The potential counts what the states hold and what the `return`s
have given, or will have given once those that wait have been visited. Visits and waiting addresses
together never exceed the potential, and the potential is bounded by the size of the address space.
-/

namespace OctoLift

namespace WordSet

theorem size_le_size {s t : WordSet} (h : s ⊆ t) : s.size ≤ t.size := by
  have hsub : s.toList ⊆ t.toList := by
    intro v hv
    rw [mem_toList] at hv ⊢
    exact h hv
  exact (s.nodup_toList.subperm hsub).length_le

theorem size_lt_size {s t : WordSet} (h : s ⊆ t) {v : UInt16} (hvt : v ∈ t) (hvs : v ∉ s) :
    s.size < t.size := by
  have hnodup : (v :: s.toList).Nodup :=
    List.nodup_cons.2 ⟨by rwa [mem_toList], s.nodup_toList⟩
  have hsub : v :: s.toList ⊆ t.toList := by
    intro w hw
    rw [mem_toList]
    rcases List.mem_cons.1 hw with rfl | hw
    · exact hvt
    · exact h (mem_toList.1 hw)
  exact (hnodup.subperm hsub).length_le

theorem size_le (s : WordSet) : s.size ≤ 65536 := by
  have hsub : s.toList ⊆ AddressMap.addresses := fun v _ => AddressMap.mem_addresses v
  have hle := (s.nodup_toList.subperm hsub).length_le
  rwa [AddressMap.addresses, List.length_map, List.length_range] at hle

theorem exists_mem_of_not_subset {s t : WordSet} (h : ¬ t ⊆ s) : ∃ v ∈ t, v ∉ s := by
  apply Classical.byContradiction
  intro hnone
  apply h
  intro v hv
  exact Classical.byContradiction fun hn => hnone ⟨v, hv, hn⟩

end WordSet

namespace RegState

/-- How many values the registers hold together. -/
def weight (s : RegState) : Nat :=
  ∑ k : Fin 27, (s.get (.ofSlot k)).size

theorem weight_le_weight {s t : RegState} (h : s ⊆ t) : s.weight ≤ t.weight :=
  Finset.sum_le_sum fun k _ => WordSet.size_le_size (h (.ofSlot k))

theorem weight_lt_weight {s t : RegState} (h : s ⊆ t) (hn : ¬ t ⊆ s) : s.weight < t.weight := by
  obtain ⟨r, hr⟩ := not_forall.1 hn
  obtain ⟨v, hvt, hvs⟩ := WordSet.exists_mem_of_not_subset hr
  refine Finset.sum_lt_sum (fun k _ => WordSet.size_le_size (h (.ofSlot k))) ⟨r.slot, by simp, ?_⟩
  rw [Register.ofSlot_slot]
  exact WordSet.size_lt_size (h r) hvt hvs

theorem weight_le (s : RegState) : s.weight ≤ 27 * 65536 := by
  have hle := Finset.sum_le_card_nsmul Finset.univ (fun k : Fin 27 => (s.get (.ofSlot k)).size)
    65536 (fun k _ => WordSet.size_le _)
  simpa [weight] using hle

end RegState

namespace Analyzer

/-- The weight of what may be there: nothing counts less than anything. -/
def weigh {α : Type} (w : α → Nat) : Option α → Nat
  | none => 0
  | some x => 1 + w x

theorem weigh_le_weigh {α : Type} {w : α → Nat} {o o' : Option α}
    (h : ∀ x, o = some x → ∃ y, o' = some y ∧ w x ≤ w y) : weigh w o ≤ weigh w o' := by
  cases o with
  | none => exact Nat.zero_le _
  | some x =>
    obtain ⟨y, rfl, hle⟩ := h x rfl
    exact Nat.add_le_add_left hle 1

theorem weigh_lt_weigh {α : Type} {w : α → Nat} {o : Option α} {y : α}
    (h : ∀ x, o = some x → w x < w y) : weigh w o < weigh w (some y) := by
  cases o with
  | none => exact Nat.lt_add_right (w y) Nat.zero_lt_one
  | some x => exact Nat.add_lt_add_left (h x rfl) 1

theorem weigh_le {α : Type} {w : α → Nat} {n : Nat} (h : ∀ x, w x ≤ n) (o : Option α) :
    weigh w o ≤ 1 + n := by
  cases o with
  | none => exact Nat.zero_le _
  | some x => exact Nat.add_le_add_left (h x) 1

/-- What `t` has given as a `return`, or will have given once it has been visited if it waits. -/
def due (a : Analyzer) (t : Address) : Option WordSet :=
  if a.queued[t] = true ∧ a.program.instr t = .ret then
    a.reaching[t].map fun s => a.chaseNow (s.get .returns)
  else a.chased[t]

/-- How much is known about an address. -/
def known (a : Analyzer) (t : Address) : Nat :=
  weigh RegState.weight a.reaching[t] + weigh WordSet.size (a.due t)

def potential (a : Analyzer) : Nat :=
  ∑ t : Address, a.known t

/-- Every `return` would give at least what it gave when it was last visited. -/
def Behind (a : Analyzer) : Prop :=
  ∀ (here : Address) (c : WordSet), a.chased[here] = some c →
    a.program.instr here = .ret ∧
      ∃ s, a.reaching[here] = some s ∧ c ⊆ a.chaseNow (s.get .returns)

section Order

variable {a b : Analyzer}

theorem Behind.mono (h : a.Behind) (hp : b.program = a.program) (hc : b.chased = a.chased)
    (hr : Below (fun t => a.reaching[t]) (fun t => b.reaching[t])) : b.Behind := by
  intro here c hchased
  rw [hc] at hchased
  obtain ⟨hi, s, hs, hsub⟩ := h here c hchased
  obtain ⟨u, hu, hsu⟩ := hr here s hs
  rw [hp]
  exact ⟨hi, u, hu, Trans.trans hsub (chase_mono hr (hsu .returns))⟩

theorem weigh_due_le (h : a.Behind) (hp : b.program = a.program) (hc : b.chased = a.chased)
    (hr : Below (fun t => a.reaching[t]) (fun t => b.reaching[t]))
    (hq : ∀ t : Address, a.queued[t] = true → b.queued[t] = true) (t : Address) :
    weigh WordSet.size (a.due t) ≤ weigh WordSet.size (b.due t) := by
  apply weigh_le_weigh
  intro c hdue
  unfold due at hdue ⊢
  rw [hp, hc]
  by_cases hret : a.program.instr t = .ret
  · by_cases hb : b.queued[t] = true
    · rw [if_pos ⟨hb, hret⟩]
      -- whether `t` waited before or not, its state held what it is due for
      have hheld : ∃ s, a.reaching[t] = some s ∧ c ⊆ a.chaseNow (s.get .returns) := by
        by_cases ha : a.queued[t] = true
        · rw [if_pos ⟨ha, hret⟩] at hdue
          obtain ⟨s, hs, rfl⟩ := Option.map_eq_some_iff.1 hdue
          exact ⟨s, hs, refl _⟩
        · rw [if_neg (fun hn => ha hn.1)] at hdue
          exact (h t c hdue).2
      obtain ⟨s, hs, hsub⟩ := hheld
      obtain ⟨u, hu, hsu⟩ := hr t s hs
      replace hu : b.reaching[t] = some u := hu
      rw [hu]
      exact ⟨_, rfl,
        WordSet.size_le_size (Trans.trans hsub (chase_mono hr (hsu .returns)))⟩
    · have ha : ¬ a.queued[t] = true := fun ha => hb (hq t ha)
      rw [if_neg (fun hn => ha hn.1)] at hdue
      rw [if_neg (fun hn => hb hn.1)]
      exact ⟨c, hdue, Nat.le_refl _⟩
  · rw [if_neg (fun hn => hret hn.2)] at hdue ⊢
    exact ⟨c, hdue, Nat.le_refl _⟩

theorem weigh_reaching_le (hr : Below (fun t => a.reaching[t]) (fun t => b.reaching[t]))
    (t : Address) :
    weigh RegState.weight a.reaching[t] ≤ weigh RegState.weight b.reaching[t] := by
  apply weigh_le_weigh
  intro s hs
  obtain ⟨u, hu, hsu⟩ := hr t s hs
  exact ⟨u, hu, RegState.weight_le_weight hsu⟩

theorem potential_lt (h : ∀ t, a.known t ≤ b.known t) {t : Address} (ht : a.known t < b.known t) :
    a.potential < b.potential :=
  Finset.sum_lt_sum (fun t _ => h t) ⟨t, Finset.mem_univ t, ht⟩

end Order

/-- Visits and waiting addresses are paid for by what is known. -/
structure Paid (a : Analyzer) : Prop extends Orderly a where
  behind : a.Behind
  steps_le : a.steps + a.fringe.length ≤ a.potential

section Flow

variable {a : Analyzer} (out : RegState) (t : Address)

theorem below_flow : Below (fun b => a.reaching[b]) (fun b => (flow out a t).reaching[b]) := by
  intro b s hs
  replace hs : a.reaching[b] = some s := hs
  show ∃ u, (flow out a t).reaching[b] = some u ∧ s ⊆ u
  rw [reaching_flow]
  by_cases htb : t = b
  · subst htb
    rw [if_pos rfl, hs]
    exact ⟨_, rfl, le_sup_left (a := s)⟩
  · rw [if_neg htb]
    exact ⟨s, hs, refl s⟩

theorem queued_flow {b : Address} (h : a.queued[b] = true) :
    (flow out a t).queued[b] = true :=
  Classical.byContradiction fun hn => (not_queued_flow out a t hn).1 h

theorem Behind.flow (h : a.Behind) : (Analyzer.flow out a t).Behind := by
  refine h.mono ?_ ?_ (below_flow out t)
  all_goals
    obtain ⟨f, q, e⟩ := flow_frame out a t
    rw [e]

theorem known_flow_le (h : a.Behind) (b : Address) : a.known b ≤ (flow out a t).known b := by
  obtain ⟨f, q, e⟩ := flow_frame out a t
  have hp : (flow out a t).program = a.program := by rw [e]
  have hc : (flow out a t).chased = a.chased := by rw [e]
  exact Nat.add_le_add (weigh_reaching_le (below_flow out t) b)
    (weigh_due_le h hp hc (below_flow out t) (fun _ => queued_flow out t) b)

theorem length_fringe_enqueue_le (a : Analyzer) (t : Address) :
    (a.enqueue t).fringe.length ≤ a.fringe.length + 1 := by
  unfold enqueue
  split
  · exact Nat.le_succ _
  · exact Nat.le_refl _

/-- A `return` that is put on the stack for being stale is due for more than it has given. -/
theorem weigh_due_lt_of_stale (h : a.Behind) (hstale : a.isStale t = true)
    (hq : ¬ a.queued[t] = true) :
    weigh WordSet.size (a.due t) < weigh WordSet.size ((a.enqueue t).due t) := by
  have hreached : ∃ s, a.reaching[t] = some s := by
    cases hs : a.reaching[t] with
    | none => simp [isStale, hs] at hstale
    | some s => exact ⟨s, rfl⟩
  obtain ⟨s, hs⟩ := hreached
  have hret : a.program.instr t = .ret ∧ a.chased[t] ≠ some (a.chaseNow (s.get .returns)) := by
    simpa [isStale, hs] using hstale
  have hbefore : a.due t = a.chased[t] := if_neg fun hn => hq hn.1
  have hafter : (a.enqueue t).due t = some (a.chaseNow (s.get .returns)) := by
    have hwaits : (a.enqueue t).queued[t] = true := (queued_enqueue a t t).2 (Or.inr rfl)
    obtain ⟨f, q, e⟩ := enqueue_frame a t
    rw [e] at hwaits ⊢
    rw [due, if_pos ⟨hwaits, hret.1⟩]
    simp only [hs, Option.map_some]
    rfl
  rw [hbefore, hafter]
  apply weigh_lt_weigh
  intro c hc
  obtain ⟨_, u, hu, hsub⟩ := h t c hc
  rw [hs] at hu
  cases hu
  have hmore : ¬ a.chaseNow (s.get .returns) ⊆ c := by
    intro hle
    apply hret.2
    rw [hc, antisymm hsub hle]
  obtain ⟨v, hv, hvc⟩ := WordSet.exists_mem_of_not_subset hmore
  exact WordSet.size_lt_size hsub hv hvc

theorem known_enqueue_lt_of_stale (h : a.Behind) (hstale : a.isStale t = true)
    (hq : ¬ a.queued[t] = true) : a.known t < (a.enqueue t).known t := by
  have hsame : (a.enqueue t).reaching = a.reaching := by
    obtain ⟨f, q, e⟩ := enqueue_frame a t
    rw [e]
  rw [known, known, hsame]
  exact Nat.add_lt_add_left (weigh_due_lt_of_stale t h hstale hq) _

theorem known_flow_lt_of_gain (h : a.Behind)
    (hgain : ∀ s, a.reaching[t] = some s → ¬ out ⊆ s) :
    a.known t < (flow out a t).known t := by
  have hstate : weigh RegState.weight a.reaching[t] <
      weigh RegState.weight (flow out a t).reaching[t] := by
    rw [reaching_flow, if_pos rfl]
    apply weigh_lt_weigh
    intro s hs
    rw [hs]
    refine RegState.weight_lt_weight (le_sup_left (a := s)) fun hle => hgain s hs ?_
    exact Trans.trans (le_sup_right (a := s) (b := out)) hle
  obtain ⟨f, q, e⟩ := flow_frame out a t
  exact Nat.add_lt_add_of_lt_of_le hstate (weigh_due_le h (by rw [e]) (by rw [e])
    (below_flow out t) (fun _ => queued_flow out t) t)

/-- What a flow puts on the stack is paid for. -/
theorem length_fringe_flow (h : a.Behind) :
    (flow out a t).fringe.length + a.potential ≤
      a.fringe.length + (flow out a t).potential := by
  have hknown := known_flow_le out t h
  by_cases hgain : ∀ s, a.reaching[t] = some s → ¬ out ⊆ s
  · have hlength : (flow out a t).fringe.length ≤ a.fringe.length + 1 := by
      rw [flow_of_gain out a t hgain]
      exact length_fringe_enqueue_le _ t
    have := potential_lt hknown (known_flow_lt_of_gain out t h hgain)
    omega
  · obtain ⟨s, hs⟩ := Classical.not_forall.1 hgain
    obtain ⟨hs, hle⟩ := Classical.not_imp.1 hs
    have heq := flow_of_no_gain out a t hs (Classical.not_not.1 hle)
    by_cases hpush : a.isStale t = true ∧ ¬ a.queued[t] = true
    · rw [if_pos hpush.1] at heq
      rw [heq] at hknown ⊢
      have hlength := length_fringe_enqueue_le a t
      have := potential_lt hknown (known_enqueue_lt_of_stale t h hpush.1 hpush.2)
      omega
    · have hsame : flow out a t = a := by
        rw [heq]
        split
        · next hstale =>
          have hq : a.queued[t] = true := Classical.not_not.1 fun hq => hpush ⟨hstale, hq⟩
          exact if_pos hq
        · rfl
      rw [hsame]

theorem steps_flow (a : Analyzer) : (flow out a t).steps = a.steps := by
  obtain ⟨f, q, e⟩ := flow_frame out a t
  rw [e]

theorem Paid.flow (h : a.Paid) : (Analyzer.flow out a t).Paid where
  toOrderly := h.toOrderly.flow out t
  behind := h.behind.flow out t
  steps_le := by
    have hsteps := h.steps_le
    have hfringe := length_fringe_flow out t h.behind
    rw [steps_flow]
    omega

end Flow

theorem Paid.foldl_flow {a : Analyzer} (h : a.Paid) (out : RegState) (next : List Address) :
    (next.foldl (Analyzer.flow out) a).Paid := by
  induction next generalizing a with
  | nil => exact h
  | cons t rest ih => exact ih (h.flow out t)

section Pop

variable {a : Analyzer} {here : Address} {rest : List Address} {s : RegState}

theorem chased_taken (t : Address) :
    (a.taken here rest s).chased[t] =
      if here = t ∧ a.program.instr here = .ret then some (a.chaseNow (s.get .returns))
      else a.chased[t] := by
  show (if a.program.instr here = .ret then
    a.chased.set here (some ((a.outNow here s).get .returns)) else a.chased)[t] = _
  by_cases hret : a.program.instr here = .ret
  · rw [if_pos hret, AddressMap.getElem_set, outNow_of_ret hret, RegState.get_set_self]
    simp only [hret, and_true]
  · rw [if_neg hret, if_neg (fun hn => hret hn.2)]

theorem Behind.taken (h : a.Behind) (hs : a.reaching[here] = some s) :
    (a.taken here rest s).Behind := by
  intro t c hc
  rw [chased_taken] at hc
  by_cases hgives : here = t ∧ a.program.instr here = .ret
  · obtain ⟨rfl, hret⟩ := hgives
    rw [if_pos ⟨rfl, hret⟩, Option.some.injEq] at hc
    subst hc
    exact ⟨hret, s, hs, refl _⟩
  · rw [if_neg hgives] at hc
    exact h t c hc

/-- What an address is due for while it waits is what its visit gives. -/
theorem due_taken (hs : a.reaching[here] = some s) (hq : a.queued[here] = true) (t : Address) :
    (a.taken here rest s).due t = a.due t := by
  unfold due
  rw [chased_taken]
  by_cases ht : here = t
  · subst ht
    have hleft : ¬ (a.queued.set here false)[here] = true := by simp
    rw [if_neg (fun hn => hleft hn.1)]
    by_cases hret : a.program.instr here = .ret
    · rw [if_pos ⟨rfl, hret⟩, if_pos ⟨hq, hret⟩, hs, Option.map_some]
    · rw [if_neg (fun hn => hret hn.2), if_neg (fun hn => hret hn.2)]
  · have hsame : (a.taken here rest s).queued[t] = a.queued[t] :=
      AddressMap.getElem_set_ne ht _ _
    have hkept : ¬ (here = t ∧ a.program.instr here = .ret) := fun hn => ht hn.1
    rw [hsame, if_neg hkept]
    rfl

theorem potential_taken (hs : a.reaching[here] = some s) (hq : a.queued[here] = true) :
    (a.taken here rest s).potential = a.potential := by
  apply Finset.sum_congr rfl
  intro t _
  rw [known, known, due_taken hs hq]

theorem Paid.taken (h : a.Paid) (hs : a.reaching[here] = some s) (hf : a.fringe = here :: rest) :
    (a.taken here rest s).Paid where
  nodup := (h.tail hf).1
  queued_iff := (h.tail hf).2
  behind := h.behind.taken hs
  steps_le := by
    have hq : a.queued[here] = true := (h.queued_iff here).2 (by simp [hf])
    have hle := h.steps_le
    rw [hf, List.length_cons] at hle
    rw [potential_taken hs hq]
    simp only
    omega

theorem Paid.pop (h : a.Paid) (hs : a.reaching[here] = some s) (hf : a.fringe = here :: rest) :
    (a.pop here rest).Paid := by
  rw [pop_of_reached hs]
  exact (h.taken hs hf).foldl_flow _ _

theorem paid_start (p : Program) (d : Dialect) : Paid (start p d) where
  toOrderly := (worklist_start p d).toOrderly
  behind := by
    intro here c hc
    simp [start] at hc
  steps_le := by
    have hentry : (start p d).known entryPoint ≤ (start p d).potential :=
      Finset.single_le_sum (fun _ _ => Nat.zero_le _) (Finset.mem_univ entryPoint)
    have hpos : 1 ≤ (start p d).known entryPoint := by
      have hs : (start p d).reaching[entryPoint] = some .powerOn :=
        AddressMap.getElem_set_self _ _ _
      rw [known, hs, weigh]
      omega
    show 0 + [entryPoint].length ≤ _
    exact Nat.le_trans hpos hentry

theorem Reachable.paid {rom : Array UInt8} {d : Dialect} (h : Reachable rom d a) : a.Paid := by
  have hrun : a.Worklist ∧ a.Paid := by
    apply h.induction_on
    · intro p _
      exact ⟨worklist_start p d, paid_start p d⟩
    · intro b here rest hf hb
      obtain ⟨hw, hpaid⟩ := hb
      obtain ⟨s, hs⟩ := hw.reached here (by simp [hf])
      exact ⟨hw.pop hf, hpaid.pop hs hf⟩
  exact hrun.2

theorem potential_lt_visitBound (a : Analyzer) : a.potential < visitBound := by
  have hknown (t : Address) : a.known t ≤ (1 + 27 * 65536) + (1 + 65536) :=
    Nat.add_le_add (weigh_le RegState.weight_le _) (weigh_le WordSet.size_le _)
  have hsum := Finset.sum_le_card_nsmul Finset.univ a.known _ (fun t _ => hknown t)
  have hcard : (Finset.univ : Finset Address).card = 65536 :=
    FinEnum.card_eq_fintypeCard.symm
  rw [hcard] at hsum
  exact Nat.lt_of_le_of_lt hsum (by decide)

/-- There are never more visits than the potential has room for. -/
theorem Reachable.steps_lt {rom : Array UInt8} {d : Dialect} (h : Reachable rom d a) :
    a.steps < visitBound := by
  have hle := h.paid.steps_le
  have hlt := a.potential_lt_visitBound
  omega

end Pop

end Analyzer
end OctoLift
