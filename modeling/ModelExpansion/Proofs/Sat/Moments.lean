import ModelExpansion.Proofs.Sat.Budget
import ModelExpansion.Proofs.Sat.History

/-! # The moments of a call
A solver is well-formed not only between two calls but also between the operations of which a call
consists, and it stays so when it has become inconsistent. -/

namespace ModelExpansion.Sat

/-! ## The loop of a search -/

namespace Search

/-- Where the loop of a search gets to. -/
inductive Looping (halt : Stats → Bool) (s : Solver) : Search → Prop where
  | enter {s' : Solver} (hinc : s.inconsistent = false)
      (hp : (s.begun.cancelUntil 0).propagate = (s', none)) :
      Looping halt s ⟨s', 0, 0, s'.restartLimit⟩
  | step {t t' : Search} (h : Looping halt s t) (hstep : t.step halt = (t', none)) :
      Looping halt s t'

variable {halt : Stats → Bool} {s : Solver} {t t' : Search} {added : List (List Lit)}

theorem ready_root (h : s.Represents added) (hinc : s.inconsistent = false) :
    Ready (s.begun.cancelUntil 0) :=
  ⟨(h.begun.rooted hinc).wellFormed, (h.begun.rooted hinc).settled⟩

theorem Looping.ready (h : Looping halt s t) (hs : s.Represents added) : Ready t.solver := by
  induction h with
  | enter hinc hp => exact (ready_root hs hinc).propagate hp
  | @step t t' _ hstep ih =>
      have hd := step_derivation halt t
      rw [hstep] at hd
      exact ((hd.reached ih).ready (by simp)).1

/-- Every step leads to a well-formed solver, the last one of a refutation too. -/
theorem Derivation.wellFormed {verdict : Option Verdict} (h : Derivation halt t t' verdict)
    (hr : Ready t.solver) :
    t'.solver.WellFormed := by
  by_cases hverdict : verdict = some .unsat
  · cases h with
    | refuted hp _ => exact (hr.propagation hp).wellFormed.bookkeeping _ _ _ _ _ _
    | learned | stopped | restarted | decided | satisfied => cases hverdict
  · exact ((h.reached hr).ready hverdict).1.wellFormed

theorem Ends.wellFormed {n : Nat} {verdict : Verdict} (h : Ends halt n t s verdict)
    (hr : Ready t.solver) :
    s.WellFormed := by
  induction h with
  | @answer t t' verdict h =>
      have hd := step_derivation halt t
      rw [h] at hd
      exact hd.wellFormed hr
  | @step n t t' s verdict h _ ih =>
      have hd := step_derivation halt t
      rw [h] at hd
      exact ih ((hd.reached hr).ready (by simp)).1

end Search

namespace Solver

open Search

/-! ## What is propagated -/

/-- The solvers that are propagated in a call. -/
inductive Propagating (s : Solver) : Call → Solver → Prop where
  | unit {lits : List Lit} {s₁ : Solver} {l : Lit} (h : Leaves s lits s₁ [l]) :
      Propagating s (.addClause lits) (s₁.assign l none)
  | root {halt : Stats → Bool} (hinc : s.inconsistent = false) :
      Propagating s (.solve halt) (s.begun.cancelUntil 0)
  | loop {halt : Stats → Bool} {t : Search} (h : Looping halt s t) :
      Propagating s (.solve halt) t.solver

variable {halt : Stats → Bool} {s s₁ p : Solver} {lits : List Lit} {l : Lit}
    {added : List (List Lit)} {call : Call}

theorem Leaves.ready (h : Leaves s lits s₁ [l]) (hs : s.Represents added) :
    Ready (s₁.assign l none) := by
  have hroot := h.rooted hs
  have hunknown := h.unknown List.mem_cons_self
  exact ⟨hroot.wellFormed.assign hunknown (h.var_lt List.mem_cons_self) (Or.inl hroot.level),
    hroot.settled.assign hroot.wellFormed.trail hunknown⟩

theorem Propagating.ready (h : Propagating s call p) (hs : s.Represents added) : Ready p := by
  cases h with
  | unit h => exact h.ready hs
  | root hinc => exact ready_root hs hinc
  | loop h => exact h.ready hs

/-! ## Between two calls -/

theorem Insertion.wellFormed {out : Solver × Bool} (h : Insertion s lits out) (hwf : s.WellFormed)
    (hs : s.Represents added) : out.1.WellFormed := by
  cases h with
  | refused _ => exact hwf
  | dropped hinc hprepared _ =>
      rw [hprepared]
      exact (hs.rooted_ensureAll hinc _).wellFormed
  | empty h => exact (h.rooted hs).wellFormed.bookkeeping _ _ _ _ _ _
  | unit h hp => exact ((h.ready hs).propagation hp).wellFormed
  | conflict h hp => exact ((h.ready hs).propagation hp).wellFormed.bookkeeping _ _ _ _ _ _
  | @stored s₁ a b rest h =>
      exact (h.rooted hs).wellFormed.attach (c := ⟨a, b, rest.toArray⟩)
        (fun _ => h.var_lt) h.distinct

theorem WellFormed.addClause (hwf : s.WellFormed) (hs : s.Represents added) (lits : List Lit) :
    (s.addClause lits).1.WellFormed := (addClause_insertion s lits).wellFormed hwf hs

theorem WellFormed.solve (hwf : s.WellFormed) (hs : s.Represents added) (halt : Stats → Bool) :
    (s.solve halt).1.WellFormed := by
  obtain ⟨n, hanswers⟩ := exists_answers hs halt
  generalize s.solve halt = out at hanswers ⊢
  obtain ⟨s', verdict⟩ := out
  cases hanswers with
  | inconsistent hinc => exact hwf.bookkeeping _ _ _ _ _ _
  | refuted hinc hp =>
    exact ((ready_root hs hinc).propagation hp).wellFormed.bookkeeping _ _ _ _ _ _
  | searched hinc hp hends => exact hends.wellFormed ((ready_root hs hinc).propagate hp)

theorem WellFormed.perform (hwf : s.WellFormed) (hs : s.Represents added) (call : Call) :
    (call.perform s).WellFormed := by
  cases call with
  | newVar => exact hwf.newVar
  | addClause lits => exact hwf.addClause hs lits
  | solve halt => exact hwf.solve hs halt
  | monitor m => exact hwf.bookkeeping s.stats s.activity s.increment s.inconsistent s.model m

theorem WellFormed.performAll (hwf : s.WellFormed) (hs : s.Represents added) (calls : List Call) :
    (Call.performAll s calls).WellFormed := by
  induction calls generalizing s added with
  | nil => exact hwf
  | cons call calls ih => exact ih (hwf.perform hs call) (hs.perform call)

theorem wellFormed_reached (config : Config) (monitor : Monitor) (calls : List Call) :
    (reached config monitor calls).WellFormed :=
  ((represents_fresh config monitor).wellFormed rfl).performAll
    (represents_fresh config monitor) calls

/-! ## Between the operations of a call -/

/-- A conflict that the loop of a search meets above level zero, once it is counted. -/
structure Clash (halt : Stats → Bool) (s : Solver) (t : Search) (clashing : Solver)
    (c : Nat) : Prop where
  loop : Looping halt s t
  conflict : ∃ s', t.solver.propagate = (s', some c) ∧ clashing = countConflict s'
  level : 0 < clashing.level

/-- The moments of a call. -/
inductive Moment (s : Solver) : Call → Solver → Prop where
  | start {call : Call} : Moment s call s
  /-- The variables of a clause exist. -/
  | prepared {lits : List Lit} (hinc : s.inconsistent = false) :
      Moment s (.addClause lits) ((s.cancelUntil 0).ensureAll (ascending lits))
  | propagating {call : Call} {p : Solver} (h : Propagating s call p) : Moment s call p
  | propagated {call : Call} {p : Solver} (h : Propagating s call p) : Moment s call p.propagate.1
  | analyzed {halt : Stats → Bool} {t : Search} {s₁ : Solver} {c : Nat} (h : Clash halt s t s₁ c) :
      Moment s (.solve halt) (s₁.analyze c).1
  | returned {halt : Stats → Bool} {t : Search} {s₁ : Solver} {c : Nat} (h : Clash halt s t s₁ c) :
      Moment s (.solve halt) ((s₁.analyze c).1.cancelUntil (s₁.analyze c).2.backjump)
  /-- The lesson is stored, and its first literal is not yet true. -/
  | stored {halt : Stats → Bool} {t : Search} {s₁ : Solver} {c : Nat} {l : Lit} {rest : List Lit}
      (h : Clash halt s t s₁ c) (hothers : (s₁.analyze c).2.others = l :: rest) :
      Moment s (.solve halt) (((s₁.analyze c).1.cancelUntil (s₁.analyze c).2.backjump).attach
        ⟨(s₁.analyze c).2.asserting, l, rest.toArray⟩)
  | stepped {halt : Stats → Bool} {t : Search} (h : Looping halt s t) :
      Moment s (.solve halt) (t.step halt).1.solver
  | finish {call : Call} : Moment s call (call.perform s)

/-- What analysis has at its disposal. -/
structure Clashing (s : Solver) (c : Nat) : Prop where
  wellFormed : s.WellFormed
  conflict : s.Conflict c
  level : 0 < s.level

theorem clashing_of_propagate {s' : Solver} {c : Nat} (hr : Ready p)
    (hp : p.propagate = (s', some c)) (hlevel : 0 < s'.level) : Clashing (countConflict s') c := by
  have hc := hr.conflict hp
  exact ⟨(hr.propagation hp).wellFormed.bookkeeping _ _ _ _ _ _,
    ⟨hc.lt, hc.value, hc.settled⟩, hlevel⟩

theorem Clash.clashing {t : Search} {c : Nat} (h : Clash halt s t s₁ c) (hs : s.Represents added) :
    Clashing s₁ c := by
  obtain ⟨s', hp, rfl⟩ := h.conflict
  exact clashing_of_propagate (h.loop.ready hs) hp h.level

theorem Clashing.wellFormed_analyze {c : Nat} (h : Clashing s c) : (s.analyze c).1.WellFormed := by
  obtain ⟨⟨activity, increment, hsolver⟩, -⟩ := analyze_spec h.wellFormed h.level h.conflict
  rw [hsolver]
  exact h.wellFormed.bookkeeping _ _ _ _ _ _

/-- The lesson is as sound for the solver after analysis, which differs in activities only. -/
theorem Clashing.taught {c : Nat} (h : Clashing s c) :
    Analysis.Taught (s.analyze c).1 (s.analyze c).2 := by
  obtain ⟨⟨activity, increment, hsolver⟩, htaught⟩ := analyze_spec h.wellFormed h.level h.conflict
  rw [hsolver]
  exact ⟨htaught.value, htaught.level, htaught.others, htaught.distinct, htaught.backjump_lt,
    htaught.unit,
    htaught.second, fun α hα => htaught.implied α ⟨hα.root, hα.clause⟩⟩

theorem Moment.wellFormed {s' : Solver} (h : Moment s call s') (hwf : s.WellFormed)
    (hs : s.Represents added) :
    s'.WellFormed := by
  cases h with
  | start => exact hwf
  | prepared hinc => exact (hs.rooted_ensureAll hinc _).wellFormed
  | propagating h => exact (h.ready hs).wellFormed
  | propagated h => exact ((h.ready hs).propagation rfl).wellFormed
  | analyzed h => exact (h.clashing hs).wellFormed_analyze
  | returned h => exact (h.clashing hs).wellFormed_analyze.cancelUntil _
  | @stored halt t s₁ c l rest h hothers =>
      have hclash := h.clashing hs
      have hasserting := asserting_cancelUntil hclash.wellFormed_analyze.trail hclash.taught
      have hdistinct := hclash.taught.distinct
      have hvar := hasserting.var_lt
      rw [hothers] at hdistinct hvar
      exact (hclash.wellFormed_analyze.cancelUntil _).attach hvar hdistinct
  | stepped h => exact (step_derivation _ _).wellFormed (h.ready hs)
  | finish => exact hwf.perform hs call

end Solver

end ModelExpansion.Sat
