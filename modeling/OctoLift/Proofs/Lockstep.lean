import OctoLift.Proofs.Termination

/-!
# Explorations in lockstep

An exploration of another program in another dialect takes the same course as long as the two read
every address alike at which the first one arrives. It is enough to know this of the addresses
that the first exploration has reached at its end: what it ever visits, and every successor that
it ever looks at, is reached then.
-/

namespace OctoLift

/-- The program `q` in the dialect `e` does at `here` what `p` does in the dialect `d`. -/
structure Alike (p q : Program) (d e : Dialect) (here : Address) : Prop where
  instr : q.instr here = p.instr here
  successors : ∀ s, q.successors here (p.instr here) s = p.successors here (p.instr here) s
  transfer : ∀ chase (s : RegState),
    s.transfer e q.pointerLimit here chase (p.instr here) =
      s.transfer d p.pointerLimit here chase (p.instr here)

namespace Analyzer

/-- The same exploration, of another program and in another dialect. -/
def reread (a : Analyzer) (q : Program) (e : Dialect) : Analyzer :=
  { a with program := q, dialect := e }

variable {a : Analyzer} {q : Program} {e : Dialect} {here : Address}

theorem start_reread (p : Program) (d : Dialect) :
    (start p d).reread q e = start q e :=
  rfl

theorem enqueue_reread (a : Analyzer) (t : Address) :
    (a.reread q e).enqueue t = (a.enqueue t).reread q e := by
  show (if a.queued[t] then _ else _) = (if a.queued[t] then _ else _ : Analyzer).reread q e
  split
  · rfl
  · rfl

theorem isStale_reread {t : Address} (h : q.instr t = a.program.instr t) :
    (a.reread q e).isStale t = a.isStale t := by
  show (decide (q.instr t = .ret) && _) = (decide (a.program.instr t = .ret) && _)
  rw [h]
  rfl

theorem flow_reread (out : RegState) {t : Address} (h : q.instr t = a.program.instr t) :
    flow out (a.reread q e) t = (flow out a t).reread q e := by
  by_cases hgain : ∀ s, a.reaching[t] = some s → ¬ out ⊆ s
  · rw [flow_of_gain out a t hgain, flow_of_gain out (a.reread q e) t hgain, ← enqueue_reread]
    rfl
  · simp only [not_forall, not_not] at hgain
    obtain ⟨s, hs, hout⟩ := hgain
    rw [flow_of_no_gain out a t hs hout, flow_of_no_gain out (a.reread q e) t hs hout,
      isStale_reread h, enqueue_reread]
    split
    · rfl
    · rfl

theorem foldl_flow_reread (out : RegState) (next : List Address)
    (h : ∀ t ∈ next, q.instr t = a.program.instr t) :
    next.foldl (flow out) (a.reread q e) = (next.foldl (flow out) a).reread q e := by
  induction next generalizing a with
  | nil => rfl
  | cons t rest ih =>
    obtain ⟨fringe, queued, hflow⟩ := flow_frame out a t
    rw [List.foldl_cons, List.foldl_cons, flow_reread out (h t (by simp))]
    apply ih
    intro u hu
    rw [hflow]
    exact h u (by simp [hu])

/-- A visit takes the same course if the visited address and its successors are alike. -/
theorem pop_reread {s : RegState} (hs : a.reaching[here] = some s) (rest : List Address)
    (hhere : Alike a.program q a.dialect e here)
    (hnext : ∀ t ∈ a.nextAt here s, q.instr t = a.program.instr t) :
    (a.reread q e).pop here rest = (a.pop here rest).reread q e := by
  have hinstr : (a.reread q e).program.instr here = a.program.instr here := hhere.instr
  have hsuccessors : (a.reread q e).nextAt here s = a.nextAt here s := by
    rw [nextAt, hinstr]
    exact hhere.successors s
  have hout : (a.reread q e).outNow here s = a.outNow here s := by
    rw [outNow, hinstr]
    exact hhere.transfer _ s
  have htaken : (a.reread q e).taken here rest s = (a.taken here rest s).reread q e := by
    simp only [taken, hinstr, hout]
    rfl
  rw [pop_of_reached hs, pop_of_reached (a := a.reread q e) hs, hsuccessors, hout, htaken]
  exact foldl_flow_reread _ _ hnext

/-- The two do the same at every address that is reached so far. -/
def AlikeReached (a : Analyzer) (q : Program) (e : Dialect) : Prop :=
  ∀ (here : Address) (s : RegState), a.reaching[here] = some s →
    Alike a.program q a.dialect e here

theorem AlikeReached.of_grows {b : Analyzer} (h : b.AlikeReached q e) (hg : a.Grows b) :
    a.AlikeReached q e := by
  intro here s hs
  obtain ⟨u, hu, -⟩ := hg.reaching here s hs
  rw [← hg.program, ← hg.dialect]
  exact h here u hu

theorem AlikeReached.pop_reread {rest : List Address}
    (h : (a.pop here rest).AlikeReached q e) :
    (a.reread q e).pop here rest = (a.pop here rest).reread q e := by
  have hbefore := h.of_grows (grows_pop a here rest)
  cases hs : a.reaching[here] with
  | none =>
    rw [pop_of_not_reached hs, pop_of_not_reached (a := a.reread q e) hs]
    rfl
  | some s =>
    apply Analyzer.pop_reread hs rest (hbefore here s hs)
    intro t ht
    have hreached := reaching_pop hs rest t
    rw [if_pos ht] at hreached
    have halike := h t _ hreached
    rw [program_pop] at halike
    exact halike.instr

/-- Two explorations stay in lockstep if they do the same wherever the first one has arrived in
the end. -/
theorem AlikeReached.step_reread {n : Nat} (h : (a.step n).AlikeReached q e) :
    (a.reread q e).step n = (a.step n).reread q e := by
  induction n generalizing a with
  | zero => rfl
  | succ n ih =>
    rw [step] at h ⊢
    rw [step]
    cases hf : a.fringe with
    | nil =>
      have hf' : (a.reread q e).fringe = [] := hf
      rw [hf']
    | cons here rest =>
      rw [hf] at h
      have hf' : (a.reread q e).fringe = here :: rest := hf
      rw [hf']
      have hpop : (a.pop here rest).AlikeReached q e := h.of_grows (grows_step n _)
      show ((a.reread q e).pop here rest).step n = ((a.pop here rest).step n).reread q e
      rw [hpop.pop_reread]
      exact ih h

theorem AlikeReached.run_start {p : Program} {d : Dialect}
    (h : (start p d).run.AlikeReached q e) :
    (start q e).run = (start p d).run.reread q e := by
  rw [← start_reread p d]
  exact h.step_reread

end Analyzer
end OctoLift
