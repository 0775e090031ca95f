import ModelExpansion.Proofs.Encoding.Calls
import ModelExpansion.Proofs.Encoding.Start
import ModelExpansion.Proofs.Evaluation.WellSorted

/-! # Encoding agrees with evaluation
Whatever was asked of an encoder before, the literal of a well-sorted formula is true exactly where
the evaluation over a total structure finds the formula true. -/

namespace ModelExpansion

open ModelExpansion.Sat ModelExpansion.Encoder

namespace Encoder

/-- Assignments that give the atoms their truth in a structure, make the constant true and satisfy
the clauses that define gates. -/
structure Extends (e : Encoder) (M : Structure) (gates : List (List Lit))
    (α : Nat → Bool) : Prop where
  atoms : ∀ {a : Atom} {v}, e.index[a]? = some v → α v = M.isTrue a
  truth : e.truth.Holds α
  gates : ∀ c ∈ gates, Satisfies α c

variable {S M : Structure} {e₀ e e' replica : Encoder} {config : Config} {monitor : Monitor}
  {gates : List (List Lit)} {α β : Nat → Bool}

/-- At first there are the variables of the atoms and, after them, the constant. -/
theorem variables_of_start (h : Encoder.start S (.fresh config monitor) = .ok e₀) :
    e₀.solver.numVars = e₀.atoms.size + 1 ∧ e₀.truth = .pos e₀.atoms.size := by
  obtain ⟨atoms, hatoms⟩ := exists_atoms_of_start h
  have hadds := adds_start hatoms h
  have hsize : e₀.atoms.size = atoms.length := by
    rw [hadds.same]
    exact List.size_toArray
  have htruth : e₀.truth = (unasserted S (.fresh config monitor) atoms).truth := by rw [hadds.same]
  rw [hsize, htruth, truth_unasserted]
  exact ⟨hadds.numVars.trans numVars_unasserted, rfl⟩

theorem atoms_le_of_start (h : Encoder.start S (.fresh config monitor) = .ok e₀) :
    e₀.atoms.size ≤ e₀.solver.numVars := (variables_of_start h).1 ▸ Nat.le_succ _

theorem agree_of_start (h : Encoder.start S (.fresh config monitor) = .ok e₀)
    (hαβ : ∀ v < e₀.atoms.size, α v = β v) (hα : e₀.truth.Holds α) (hβ : e₀.truth.Holds β) :
    ∀ v < e₀.solver.numVars, α v = β v := by
  obtain ⟨hnumVars, htruth⟩ := variables_of_start h
  rw [hnumVars]
  rw [htruth] at hα hβ
  exact agree_of_defined hαβ (iff_of_true hα hβ)

theorem Replica.index_beginning (h : Replica e₀ e replica gates) : e.index = e₀.index := by
  rw [← h.index, h.grown.same]

theorem Replica.truth_beginning (h : Replica e₀ e replica gates) : e.truth = e₀.truth := by
  rw [← h.truth, h.grown.same]

theorem Replica.exists_extends (h : Replica e₀ e replica gates) (hstarts : Starts S e₀)
    (hM : S.TotalOver M) :
    ∃ α, replica.solver.Admits α ∧ replica.world α = M.world ∧ Extends e M gates α := by
  obtain ⟨α, hα, hworld⟩ := hstarts.reaches hM.inTables_of_isTrue hM.functional_worldOf
  obtain ⟨β, hβα, hβ⟩ := h.grown.extend hα trivial
  have hreached : replica.world β = S.worldOf M.isTrue := by
    rw [h.grown.world, h.beginning.world_congr hβα, hworld]
  refine ⟨β, hβ, hreached.trans hM.world.symm, ?_, ?_, h.satisfies hβ⟩
  · intro a v hv
    have hinterpretation : replica.interpretation β a = M.isTrue a :=
      congrArg (fun W => W.atom a.symbol a.tuple) hreached
    rw [← h.index] at hv
    rwa [interpretation, hv] at hinterpretation
  · rw [← h.truth]
    exact h.sound.truth hβ

/-- Atoms, constant and gates leave no choice. -/
theorem Extends.unique (hstart : Encoder.start S (.fresh config monitor) = .ok e₀)
    (hbuilds : Builds e₀ e gates)
    (hα : Extends e M gates α) (hβ : Extends e M gates β) : ∀ v < e.solver.numVars, α v = β v := by
  have hstarts := starts_of_start hstart
  obtain ⟨replica, hreplica⟩ := hbuilds.exists_replica hstarts.sound
  refine hbuilds.determined hstarts.sound (agree_of_start hstart (fun v hv => ?_) ?_ ?_)
    hα.gates hβ.gates
  · have hindex : e.index[e₀.atoms[v]]? = some v := by
      rw [hreplica.index_beginning, hstarts.numbers.index_iff, Array.getElem?_eq_getElem hv]
    rw [hα.atoms hindex, hβ.atoms hindex]
  · exact hreplica.truth_beginning ▸ hα.truth
  · exact hreplica.truth_beginning ▸ hβ.truth

end Encoder

/-- After any calls on an encoder, the literal of a well-sorted formula says what the evaluation
over a total structure finds. The evaluation decides the formula; the truth of the atoms, the
constant and the clauses of the gates have one solution; and the literal is true in it exactly if
the formula is. -/
theorem encodeFormula_agrees {S M : Structure} {config : Config} {monitor : Monitor}
    {e₀ e e' : Encoder}
    {f : Formula} {l : Lit} {x : Truth} (hstart : Encoder.start S (.fresh config monitor) = .ok e₀)
    (hcalls : Relation.ReflTransGen Call e₀ e) (hM : S.TotalOver M) (hf : f.wellSorted S = true)
    (hencode : encodeFormula f e = (.ok l, e')) (heval : evalFormula M.valuation true f = .ok x) :
    x ≠ .unknown ∧ ∃ gates, Builds e₀ e' gates ∧ ∃ α, Extends e' M gates α ∧
      (∀ β, Extends e' M gates β → ∀ v < e'.solver.numVars, β v = α v) ∧
      (l.Holds α ↔ x = .yes) := by
  have hstarts := starts_of_start hstart
  have hatoms : e₀.atoms.size ≤ e₀.solver.numVars := by
    rw [(variables_of_start hstart).1]
    exact Nat.le_succ _
  obtain ⟨before, hbefore⟩ := builds_of_calls hstarts.sound hatoms hcalls
  obtain ⟨replica, hreplica⟩ := hbefore.exists_replica hstarts.sound
  obtain ⟨added, hadded, hreplay⟩ := replays_encodeFormula f (hbefore.sound hstarts.sound)
  obtain ⟨hsame, hreplica'⟩ := hreplay hreplica
  rw [hencode] at hadded hsame hreplica'
  obtain ⟨-, hmeans⟩ :=
    gives_encodeFormula f hreplica.sound l (encodeFormula f replica).2 (Prod.ext hsame rfl)
  obtain ⟨α, hadmits, hworld, hα⟩ := hreplica'.exists_extends hstarts hM
  have hbuilds := hbefore.trans hadded
  have hvalue := evalFormula_decided hM.decides f hf heval
  have hholds : l.Holds α ↔ M.world.truth [] f = true := hworld ▸ hmeans.holds_iff hadmits
  refine ⟨?_, before ++ added, hbuilds, α, hα, fun β hβ => hβ.unique hstart hbuilds hα, ?_⟩
  · rw [hvalue]
    cases M.world.truth [] f <;> simp [Truth.ofBool]
  · rw [hvalue, hholds]
    cases M.world.truth [] f <;> simp [Truth.ofBool]

/-- A predicate that holds of the second of two elements, and a function that exchanges them. -/
def exchange : Structure where
  vocabulary := ⟨[⟨"s", []⟩], [⟨"p", [0], none⟩, ⟨"f", [0], some 0⟩]⟩
  tables := [.range 1 2]
  facts := .ofList ([(⟨0, [.int 1]⟩, false), (⟨0, [.int 2]⟩, true), (⟨1, [.int 1, .int 1]⟩, false),
    (⟨1, [.int 1, .int 2]⟩, true), (⟨1, [.int 2, .int 1]⟩, true), (⟨1, [.int 2, .int 2]⟩, false)] :
      List (Atom × Bool))

theorem functional_exchange : exchange.Functional exchange.world := by
  intro f s result hs hresult t ht
  match f with
  | 0 =>
      cases hs
      cases hresult
  | 1 =>
      cases hs
      cases hresult
      have helements : exchange.elements 0 = [.int 1, .int 2] := by decide +kernel
      have hargs : t ∈ product [[.int 1, .int 2]] := helements ▸ ht
      have hvalues : ∀ t ∈ product [[.int 1, .int 2]], ∃ v ∈ [Element.int 1, .int 2],
          ∀ w ∈ [Element.int 1, .int 2], exchange.world.atom 1 (t ++ [w]) = true ↔ w = v := by
        decide +kernel
      obtain ⟨v, hv, himage⟩ := hvalues t hargs
      rw [helements]
      exact ⟨v, ⟨hv, (himage v hv).mpr rfl⟩, fun w hw => (himage w hw.1).mp hw.2⟩
  | f + 2 => cases hs

theorem totalOver_exchange : exchange.TotalOver exchange := by
  refine ⟨rfl, rfl, fun a => ?_, functional_exchange⟩
  have hatoms : atomsOf exchange = .ok exchange.facts.keys := by decide +kernel
  rw [← Std.ExtTreeMap.mem_keys, mem_atomsOf hatoms]

def yields {β : Type} (start : Except Failure Encoder) (encode : Encoding β)
    (test : β → Encoder → Bool) : Bool :=
  start.toOption.any fun e₀ => (encode e₀).1.toOption.any fun b => test b (encode e₀).2

theorem exists_of_yields {β : Type} {start : Except Failure Encoder} {encode : Encoding β}
    {test : β → Encoder → Bool} (h : yields start encode test = true) :
    ∃ e₀ e' b, start = .ok e₀ ∧ encode e₀ = (.ok b, e') ∧ test b e' = true := by
  obtain ⟨e₀, hstart, h⟩ := (Option.any_eq_true ..).mp h
  obtain ⟨b, hencode, htest⟩ := (Option.any_eq_true ..).mp h
  exact ⟨e₀, (encode e₀).2, b, Except.toOption_eq_some_iff.mp hstart,
    Prod.ext (Except.toOption_eq_some_iff.mp hencode) rfl, htest⟩

theorem exists_of_encodes {start : Except Failure Encoder} {encode : Encoding Lit}
    (h : start.toOption.any (fun e₀ => (encode e₀).1.isOk) = true) :
    ∃ e₀ e' l, start = .ok e₀ ∧ encode e₀ = (.ok l, e') := by
  have hok : (fun e₀ => (encode e₀).1.isOk) = fun e₀ =>
      (encode e₀).1.toOption.any fun _ => true := by
    funext e₀
    cases (encode e₀).1 <;> rfl
  rw [hok] at h
  have hyields : yields start encode (fun _ _ => true) = true := h
  obtain ⟨e₀, e', l, hstart, hencode, -⟩ := exists_of_yields hyields
  exact ⟨e₀, e', l, hstart, hencode⟩

/-- The predicate holds of what the function gives for the first element after three steps, and the
elements that it holds of add up to what the function gives for the first one. -/
def exchanged : Formula :=
  .conj [.pred 0 [.apply 1 [.apply 1 [.apply 1 [.element (.int 1)]]]],
    .compare (.aggregate .sum (.enumerated [(.pred 0 [.element (.int 1)], .element (.int 1)),
      (.pred 0 [.apply 1 [.element (.int 1)]], .apply 1 [.element (.int 1)])])) .eq
      (.apply 1 [.element (.int 1)])]

/-- Although it is asserted first that the predicate does not hold of the second element, the
literal says what the structure in which it does says. -/
theorem encodeFormula_agrees_exchange : ∃ e₀ e' l, Encoder.start exchange (.fresh {} {}) = .ok e₀ ∧
    encodeFormula exchanged (assertFormula (.atom false 0 [.element (.int 2)]) e₀).2 = (.ok l, e') ∧
    ∃ gates, Builds e₀ e' gates ∧ ∃ α, Extends e' exchange gates α ∧
      (∀ β, Extends e' exchange gates β → ∀ v < e'.solver.numVars, β v = α v) ∧ l.Holds α := by
  have hruns : (Encoder.start exchange (.fresh {} {})).toOption.any (fun e₀ =>
      (encodeFormula exchanged
        (assertFormula (.atom false 0 [.element (.int 2)]) e₀).2).1.isOk) = true := by
    decide +kernel
  have heval : evalFormula exchange.valuation true exchanged = .ok .yes := by decide +kernel
  obtain ⟨e₀, e', l, hstart, hencode⟩ := exists_of_encodes hruns
  obtain ⟨-, gates, hbuilds, α, hα, hunique, hholds⟩ :=
    encodeFormula_agrees hstart (.single (.assert _)) totalOver_exchange
      (by decide +kernel) hencode heval
  exact ⟨e₀, e', l, hstart, hencode, gates, hbuilds, α, hα, hunique, hholds.mpr rfl⟩

/-- An atom without the argument that its predicate takes has no argument outside its table. It is
encoded, but even in a total structure its truth is not known. -/
theorem evalFormula_unknown_without_argument : ∃ (args : List Term) (e₀ e' : Encoder) (l : Lit),
    Encoder.start exchange (.fresh {} {}) = .ok e₀ ∧ exchange.TotalOver exchange ∧
    (∀ s, exchange.vocabulary.symbols[0]? = some s →
      ∀ a ∈ s.graphSorts.zip args, exchange.ranges a.1 a.2 = true) ∧
    encodeFormula (.pred 0 args) e₀ = (.ok l, e') ∧
    evalFormula exchange.valuation true (.pred 0 args) = .ok .unknown := by
  have hruns : (Encoder.start exchange (.fresh {} {})).toOption.any (fun e₀ =>
      (encodeFormula (.pred 0 []) e₀).1.isOk) = true := by decide +kernel
  obtain ⟨e₀, e', l, hstart, hencode⟩ := exists_of_encodes hruns
  exact ⟨[], e₀, e', l, hstart, totalOver_exchange, by simp, hencode, by decide +kernel⟩

end ModelExpansion
