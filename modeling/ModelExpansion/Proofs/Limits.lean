import ModelExpansion.Proofs.Encoding.Budget
import ModelExpansion.Proofs.Expansion

/-! # Limits on models and conflicts
An expansion with a limit on the models or on the conflicts goes the same way as one without, until
the limit stops it. So it lists the models that the other one lists first. -/

namespace ModelExpansion

open ModelExpansion.Sat ModelExpansion.Encoder

theorem Found.isPrefix_add {f f' : Found} {M : Structure} {accepted : Bool}
    (h : f.models <+: f'.models) :
    (f.add M accepted).models <+: (f'.add M accepted).models := by
  cases accepted with
  | true => exact (List.prefix_cons_inj M).mpr h
  | false => exact h

theorem Found.models_add_eq_take {f f' : Found} {M : Structure} {accepted : Bool}
    {wanted found : Nat} (hfound : found < wanted)
    (h : f.models = f'.models.take (wanted - if accepted then found + 1 else found)) :
    (f.add M accepted).models = (f'.add M accepted).models.take (wanted - found) := by
  cases accepted with
  | true =>
      have hwanted : wanted - found = wanted - (found + 1) + 1 := by omega
      rw [hwanted]
      exact congrArg (M :: ·) h
  | false => exact h

namespace Encoder

variable {e e₁ e₂ : Encoder} {halt : Stats → Bool} {wanted count found found' : Nat} {f f' : Found}
  {m : Model} {M : Structure} {accepted : Bool}

/-! ## One search -/

/-- An enumeration ends with a search that finds no model. -/
theorem Enumerates.models_of_not_sat (h : Enumerates halt wanted (count + 1) found e e₁ f)
    (hv : (e.solve halt).2 ≠ .sat) : f.models = [] := by
  cases h with
  | enough => rfl
  | unsat => rfl
  | unknown => rfl
  | last _ hv' => exact absurd hv' hv
  | next _ hv' => exact absurd hv' hv

/-- An enumeration of all models takes a candidate into account and goes on if another model is
left. -/
theorem Enumerates.of_sat (h : Enumerates halt 0 (count + 1) found e e₁ f)
    (hv : (e.solve halt).2 = .sat)
    (hm : (e.solve halt).1.solver.model = some m)
    (hc : (e.solve halt).1.candidate m = .ok (M, accepted)) :
    ∃ rest, f = rest.add M accepted ∧ ((((e.solve halt).1.block m).2 = false ∧ rest = .nothing) ∨
      ((e.solve halt).1.block m).2 = true ∧
        ∃ found', Enumerates halt 0 count found' ((e.solve halt).1.block m).1 e₁ rest) := by
  cases h with
  | enough hw => exact absurd rfl hw.1
  | unsat _ hv' => exact nomatch hv.symm.trans hv'
  | unknown _ hv' => exact nomatch hv.symm.trans hv'
  | last _ _ hm' hc' hb =>
      cases hm.symm.trans hm'
      cases hc.symm.trans hc'
      exact ⟨.nothing, rfl, .inl ⟨hb, rfl⟩⟩
  | next _ _ hm' hc' hb hrest =>
      cases hm.symm.trans hm'
      cases hc.symm.trans hc'
      exact ⟨_, rfl, .inr ⟨hb, _, hrest⟩⟩

/-- What a search with a budget finds is what one without a budget finds. -/
theorem Enumerates.of_sat_withBudget (h : Enumerates halt 0 (count + 1) found (e.withBudget 0) e₁ f)
    (hv : (e.solve halt).2 = .sat) (hm : (e.solve halt).1.solver.model = some m)
    (hc : (e.solve halt).1.candidate m = .ok (M, accepted)) :
    ∃ rest, f = rest.add M accepted ∧ ((((e.solve halt).1.block m).2 = false ∧ rest = .nothing) ∨
      ((e.solve halt).1.block m).2 = true ∧
        ∃ found', Enumerates halt 0 count found'
        (((e.solve halt).1.block m).1.withBudget 0) e₁ rest) := by
  have hsolve : (e.withBudget 0).solve halt = ((e.solve halt).1.withBudget 0, (e.solve halt).2) :=
    solve_withBudget_zero fun hunknown => nomatch hv.symm.trans hunknown
  have hblock := (e.solve halt).1.block_withBudget 0 m
  have hm' : ((e.withBudget 0).solve halt).1.solver.model = some m := by
    rw [hsolve]
    exact hm
  have hc' : ((e.withBudget 0).solve halt).1.candidate m = .ok (M, accepted) := by
    rw [hsolve]
    exact hc
  have hsame := h.of_sat ((congrArg Prod.snd hsolve).trans hv) hm' hc'
  rw [hsolve] at hsame
  dsimp only at hsame
  rwa [hblock] at hsame

/-! ## A whole enumeration -/

/-- An enumeration finds what one without limits finds first. -/
theorem Enumerates.isPrefix_unlimited (h : Enumerates halt wanted count found e e₁ f)
    (h' : Enumerates halt 0 count found' (e.withBudget 0) e₂ f') : f.models <+: f'.models := by
  induction h generalizing found' f' with
  | exhausted => exact List.nil_prefix
  | enough => exact List.nil_prefix
  | unsat => exact List.nil_prefix
  | unknown => exact List.nil_prefix
  | last _ hv hm hc _ =>
      obtain ⟨rest, rfl, -⟩ := h'.of_sat_withBudget hv hm hc
      exact Found.isPrefix_add List.nil_prefix
  | next _ hv hm hc hb _ ih =>
      obtain ⟨rest, rfl, ⟨hb', -⟩ | ⟨-, found', hrest⟩⟩ := h'.of_sat_withBudget hv hm hc
      · exact nomatch hb.symm.trans hb'
      · exact Found.isPrefix_add (ih hrest)

/-- Under the same budget an enumeration finds as many models as are wanted, if there are so
many. -/
theorem Enumerates.models_eq_take (h : Enumerates halt wanted count found e e₁ f)
    (h' : Enumerates halt 0 count found' e e₂ f') (hwanted : 0 < wanted) :
    f.models = f'.models.take (wanted - found) := by
  induction h generalizing found' f' with
  | exhausted =>
      cases h'
      exact List.take_nil.symm
  | enough hw =>
      rw [Nat.sub_eq_zero_of_le hw.2]
      exact List.take_zero.symm
  | unsat _ hv =>
      rw [h'.models_of_not_sat (hv ▸ Verdict.noConfusion)]
      exact List.take_nil.symm
  | unknown _ hv =>
      rw [h'.models_of_not_sat (hv ▸ Verdict.noConfusion)]
      exact List.take_nil.symm
  | last hw hv hm hc hb =>
      obtain ⟨rest, rfl, ⟨-, rfl⟩ | ⟨hb', -⟩⟩ := h'.of_sat hv hm hc
      · exact Found.models_add_eq_take (not_le.mp fun hle => hw ⟨hwanted.ne', hle⟩)
          List.take_nil.symm
      · exact nomatch hb.symm.trans hb'
  | next hw hv hm hc hb _ ih =>
      obtain ⟨rest, rfl, ⟨hb', -⟩ | ⟨-, found', hrest⟩⟩ := h'.of_sat hv hm hc
      · exact nomatch hb.symm.trans hb'
      · exact Found.models_add_eq_take (not_le.mp fun hle => hw ⟨hwanted.ne', hle⟩) (ih hrest)

end Encoder

/-! ## The whole expansion -/

/-- The same options without a limit on the models or the conflicts. -/
def Options.unlimited (o : Options) : Options := { o with models := 0, maxConflicts := 0 }

theorem prepare_unlimited (o : Options) (T : Theory) (S : Structure) :
    prepare o.unlimited T S = prepare o T S := rfl

theorem start_unlimited (o : Options) (S : Structure) (monitor : Monitor) :
    Encoder.start S { config := o.unlimited.solverConfig, monitor := monitor } =
      (Encoder.start S { config := o.solverConfig, monitor := monitor }).map (withBudget 0) :=
  start_withBudget 0 S { config := o.solverConfig, monitor := monitor }

section Runs

variable {halt : Stats → Bool} {o : Options} {T : Theory} {S : Structure} {P : Prepared}
  {monitor monitor₁ monitor₂ : Monitor} {E E' : Expansion}

theorem search_isPrefix (h : search halt o P monitor = (monitor₁, .ok E))
    (h' : search halt o.unlimited P monitor = (monitor₂, .ok E')) :
    E.models <+: E'.models ∧
    (o.maxConflicts = 0 → 0 < o.models → E.models = E'.models.take o.models) := by
  obtain ⟨e, e₁, e₂, found, hstart, hadd, hfound, -, rfl⟩ := search_eq_ok h
  obtain ⟨e', e₁', e₂', found', hstart', hadd', hfound', -, rfl⟩ := search_eq_ok h'
  have hsame := hstart'
  rw [start_unlimited, hstart] at hsame
  cases hsame
  have hblind := blind_addTheory P.theory 0 e
  rw [hadd', hadd] at hblind
  cases hblind
  refine ⟨(enumerates_of_eq_ok hfound).isPrefix_unlimited (enumerates_of_eq_ok hfound'),
    fun hconflicts hmodels => ?_⟩
  have hconfig : o.unlimited.solverConfig = o.solverConfig := by
    rw [Options.unlimited, Options.solverConfig, Options.solverConfig, hconflicts]
  rw [hconfig, hstart] at hstart'
  rw [← Except.ok.inj hstart', hadd] at hadd'
  have hencoder : e₁ = e₁.withBudget 0 := congrArg Prod.snd hadd'
  rw [← hencoder] at hfound'
  exact (enumerates_of_eq_ok hfound).models_eq_take (enumerates_of_eq_ok hfound') hmodels

/-- An expansion lists the models that one without limits lists first. Unless the conflicts are
limited, it lists as many of them as are wanted. -/
theorem models_isPrefix_unlimited (h : expand halt o T S monitor = (monitor₁, .ok E))
    (h' : expand halt o.unlimited T S monitor = (monitor₂, .ok E')) :
    E.models <+: E'.models ∧ (o.maxConflicts = 0 → 0 < o.models →
      E.models = E'.models.take (min o.models E'.models.length)) := by
  rw [← List.take_eq_take_min]
  rw [expand] at h h'
  rw [prepare_unlimited] at h'
  cases hprepare : prepare o T S with
  | error failure =>
      rw [hprepare] at h
      cases h
  | ok prepared =>
      rw [hprepare] at h h'
      cases prepared with
      | none =>
          cases h
          cases h'
          exact ⟨List.prefix_rfl, fun _ _ => List.take_nil.symm⟩
      | some P =>
          dsimp only at h h'
          split at h
          · rename_i hstopped
            rw [if_pos hstopped] at h'
            cases h
            cases h'
            exact ⟨List.prefix_rfl, fun _ _ => List.take_nil.symm⟩
          · rename_i hstopped
            rw [if_neg hstopped] at h'
            exact search_isPrefix h h'

end Runs

/-- A predicate of two elements of which nothing is known. -/
def undecided : Structure where
  vocabulary := ⟨[⟨"s", []⟩], [⟨"p", [0], none⟩]⟩
  tables := [.range 1 2]
  facts := ∅

/-- Of the three expansions in which the predicate holds somewhere, the first two are listed if two
are wanted. -/
theorem lists_first_two : ∃ M N L monitor₁ monitor₂ E E',
    expand (fun _ => false) { models := 2 } ⟨[], [], [somewhere]⟩ undecided {} = (monitor₁, .ok E) ∧
      expand (fun _ => false) { models := 0 } ⟨[], [], [somewhere]⟩ undecided {} =
      (monitor₂, .ok E') ∧
      E.models = [M, N] ∧ E'.models = [M, N, L] := by
  have hlength :
      (expand (fun _ => false) { models := 0 } ⟨[], [], [somewhere]⟩ undecided {}).2.toOption.map
      (fun E => E.models.length) = some 3 := by decide +kernel
  have hok :
      (expand (fun _ => false) { models := 2 } ⟨[], [], [somewhere]⟩ undecided
        {}).2.toOption.isSome =
      true := by decide +kernel
  cases hfirst : expand (fun _ => false) { models := 2 } ⟨[], [], [somewhere]⟩ undecided {} with
  | mk monitor₁ outcome =>
      rw [hfirst] at hok
      cases outcome with
      | error failure => cases hok
      | ok E =>
          cases hall : expand (fun _ => false) { models := 0 }
            ⟨[], [], [somewhere]⟩ undecided {} with
          | mk monitor₂ outcome =>
              rw [hall] at hlength
              cases outcome with
              | error failure => cases hlength
              | ok E' =>
                  obtain ⟨-, htake⟩ := models_isPrefix_unlimited hfirst hall
                  have htake := htake rfl (by decide)
                  obtain ⟨M, N, L, hmodels⟩ := List.length_eq_three.mp (Option.some.inj hlength)
                  rw [hmodels] at htake
                  exact ⟨M, N, L, monitor₁, monitor₂, E, E', rfl, rfl, htake, hmodels⟩

end ModelExpansion
