import ModelExpansion.Proofs.Dependencies

/-! # Recursion
A definition is recursive exactly if its symbols can be followed, from the head of a rule to a
defined symbol that the rule mentions anywhere, back to where one started. -/

namespace ModelExpansion

open Relation

/-! ## Occurrence -/

mutual

/-- Whether a symbol occurs in a term, as a function or inside an aggregate. -/
inductive Term.Mentions (p : SymbolId) : Term → Prop where
  | function {args : List Term} : Term.Mentions p (.apply p args)
  | argument {f : SymbolId} {args : List Term} {t : Term} (ht : t ∈ args) (h : Term.Mentions p t) :
      Term.Mentions p (.apply f args)
  | aggregate {kind : Aggregate} {set : SetExpr} (h : SetExpr.Mentions p set) :
      Term.Mentions p (.aggregate kind set)

inductive SetExpr.Mentions (p : SymbolId) : SetExpr → Prop where
  | member {members : List Member} {m : Member} (hm : m ∈ members) (h : Formula.Mentions p m.1) :
      SetExpr.Mentions p (.enumerated members)
  | memberWeight {members : List Member} {m : Member} (hm : m ∈ members) (h : Term.Mentions p m.2) :
      SetExpr.Mentions p (.enumerated members)
  | condition {vars : List Var} {condition : Formula} {weight : Term}
      (h : Formula.Mentions p condition) :
      SetExpr.Mentions p (.comprehension vars condition weight)
  | weight {vars : List Var} {condition : Formula} {weight : Term} (h : Term.Mentions p weight) :
      SetExpr.Mentions p (.comprehension vars condition weight)

/-- Whether a symbol occurs in a formula, with any sign. -/
inductive Formula.Mentions (p : SymbolId) : Formula → Prop where
  | predicate {sign : Bool} {args : List Term} : Formula.Mentions p (.atom sign p args)
  | argument {sign : Bool} {q : SymbolId} {args : List Term} {t : Term} (ht : t ∈ args)
      (h : Term.Mentions p t) :
      Formula.Mentions p (.atom sign q args)
  | child {sign conjunctive : Bool} {children : List Formula} {f : Formula} (hf : f ∈ children)
      (h : Formula.Mentions p f) : Formula.Mentions p (.junction sign conjunctive children)
  | body {sign universal : Bool} {vars : List Var} {f : Formula} (h : Formula.Mentions p f) :
      Formula.Mentions p (.quantified sign universal vars f)
  | left {sign : Bool} {l r : Formula} (h : Formula.Mentions p l) :
      Formula.Mentions p (.equivalence sign l r)
  | right {sign : Bool} {l r : Formula} (h : Formula.Mentions p r) :
      Formula.Mentions p (.equivalence sign l r)
  | term {sign : Bool} {terms : List Term} {comparators : List Comparator} {t : Term}
      (ht : t ∈ terms)
      (h : Term.Mentions p t) : Formula.Mentions p (.comparison sign terms comparators)

end

/-- Whether a symbol occurs in the body or in the arguments of the head. -/
def Rule.Mentions (p : SymbolId) (r : Rule) : Prop := r.body.Mentions p ∨ ∃ t ∈ r.args, t.Mentions p

section

variable {p : SymbolId}

mutual

theorem Term.mem_symbols_iff : ∀ t : Term, p ∈ t.symbols ↔ t.Mentions p
  | .var _ => iff_of_false List.not_mem_nil nofun
  | .element _ => iff_of_false List.not_mem_nil nofun
  | .apply f args => by
      rw [Term.symbols, List.mem_cons, Term.mem_symbolsList_iff args]
      constructor
      · rintro (rfl | ⟨t, ht, h⟩)
        · exact .function
        · exact .argument ht h
      · intro h
        cases h with
        | function => exact .inl rfl
        | argument ht h => exact .inr ⟨_, ht, h⟩
  | .aggregate kind set => by
      rw [Term.symbols, SetExpr.mem_symbols_iff set]
      exact ⟨.aggregate, fun | .aggregate h => h⟩

theorem Term.mem_symbolsList_iff :
    ∀ ts : List Term, p ∈ Term.symbolsList ts ↔ ∃ t ∈ ts, t.Mentions p
  | [] => by simp [Term.symbolsList]
  | t :: ts => by
      rw [Term.symbolsList, List.mem_append, Term.mem_symbols_iff t, Term.mem_symbolsList_iff ts,
        List.exists_mem_cons_iff]

theorem SetExpr.mem_symbols_iff : ∀ set : SetExpr, p ∈ set.symbols ↔ set.Mentions p
  | .enumerated ms => by
      rw [SetExpr.symbols, SetExpr.mem_symbolsMembers_iff ms]
      constructor
      · rintro ⟨m, hm, h | h⟩
        · exact .member hm h
        · exact .memberWeight hm h
      · intro h
        cases h with
        | member hm h => exact ⟨_, hm, .inl h⟩
        | memberWeight hm h => exact ⟨_, hm, .inr h⟩
  | .comprehension vars condition weight => by
      rw [SetExpr.symbols, List.mem_append, Formula.mem_symbols_iff condition,
        Term.mem_symbols_iff weight]
      constructor
      · rintro (h | h)
        · exact .condition h
        · exact .weight h
      · intro h
        cases h with
        | condition h => exact .inl h
        | weight h => exact .inr h

theorem SetExpr.mem_symbolsMembers_iff : ∀ ms : List Member,
    p ∈ SetExpr.symbolsMembers ms ↔ ∃ m ∈ ms, m.1.Mentions p ∨ m.2.Mentions p
  | [] => by simp [SetExpr.symbolsMembers]
  | (condition, weight) :: ms => by
      rw [SetExpr.symbolsMembers, List.mem_append, List.mem_append,
        Formula.mem_symbols_iff condition, Term.mem_symbols_iff weight,
        SetExpr.mem_symbolsMembers_iff ms, List.exists_mem_cons_iff]

theorem Formula.mem_symbols_iff : ∀ f : Formula, p ∈ f.symbols ↔ f.Mentions p
  | .atom sign q args => by
      rw [Formula.symbols, List.mem_cons, Term.mem_symbolsList_iff args]
      constructor
      · rintro (rfl | ⟨t, ht, h⟩)
        · exact .predicate
        · exact .argument ht h
      · intro h
        cases h with
        | predicate => exact .inl rfl
        | argument ht h => exact .inr ⟨_, ht, h⟩
  | .junction sign conjunctive fs => by
      rw [Formula.symbols, Formula.mem_symbolsList_iff fs]
      exact ⟨fun ⟨_, hf, h⟩ => .child hf h, fun | .child hf h => ⟨_, hf, h⟩⟩
  | .quantified sign universal vars f => by
      rw [Formula.symbols, Formula.mem_symbols_iff f]
      exact ⟨.body, fun | .body h => h⟩
  | .equivalence sign l r => by
      rw [Formula.symbols, List.mem_append, Formula.mem_symbols_iff l, Formula.mem_symbols_iff r]
      constructor
      · rintro (h | h)
        · exact .left h
        · exact .right h
      · intro h
        cases h with
        | left h => exact .inl h
        | right h => exact .inr h
  | .comparison sign ts cs => by
      rw [Formula.symbols, Term.mem_symbolsList_iff ts]
      exact ⟨fun ⟨_, ht, h⟩ => .term ht h, fun | .term ht h => ⟨_, ht, h⟩⟩

theorem Formula.mem_symbolsList_iff :
    ∀ fs : List Formula, p ∈ Formula.symbolsList fs ↔ ∃ f ∈ fs, f.Mentions p
  | [] => by simp [Formula.symbolsList]
  | f :: fs => by
      rw [Formula.symbolsList, List.mem_append, Formula.mem_symbols_iff f,
        Formula.mem_symbolsList_iff fs, List.exists_mem_cons_iff]

end

theorem Rule.mem_symbols_iff {r : Rule} : p ∈ r.symbols ↔ r.Mentions p := by
  rw [Rule.symbols, List.mem_append, Formula.mem_symbols_iff, Term.mem_symbolsList_iff,
    Rule.Mentions]

end

/-! ## Cycles -/

/-- Paths of at least one step as sequences. -/
theorem transGen_iff_exists_sequence {α : Type} {R : α → α → Prop} {a b : α} :
    TransGen R a b ↔ ∃ k, 1 ≤ k ∧ ∃ s : Nat → α, s 0 = a ∧ s k = b ∧
    ∀ i < k, R (s i) (s (i + 1)) := by
  constructor
  · intro h
    induction h using TransGen.head_induction_on with
    | @single a h =>
        refine ⟨1, Nat.le_refl 1, fun i => i.casesOn a fun _ => b, rfl, rfl, fun i hi => ?_⟩
        obtain rfl := Nat.lt_one_iff.mp hi
        exact h
    | @head a _ h _ ih =>
        obtain ⟨k, -, s, rfl, rfl, hs⟩ := ih
        refine ⟨k + 1, Nat.le_add_left 1 k, fun i => i.casesOn a s, rfl, rfl, fun i hi => ?_⟩
        cases i with
        | zero => exact h
        | succ i => exact hs i (Nat.lt_of_succ_lt_succ hi)
  · rintro ⟨k, hk, s, rfl, rfl, hs⟩
    induction k, hk using Nat.le_induction with
    | base => exact .single (hs 0 Nat.one_pos)
    | succ k _ ih =>
      exact (ih fun i hi => hs i (Nat.lt_succ_of_lt hi)).tail (hs k (Nat.lt_succ_self k))

namespace Definition

variable {D : Definition} {p q : SymbolId}

theorem dependsOn_iff :
    D.DependsOn p q ↔ (∃ r ∈ D.rules, r.head = q) ∧ ∃ r ∈ D.rules, r.head = p ∧ r.Mentions q := by
  simp only [DependsOn, Definition.mem_defined, Rule.mem_symbols_iff]

/-- A definition is recursive exactly if there is a cycle of symbols that head rules, each mentioned
in a rule for the one before it. The search finds this out whatever the order of the symbols and of
those that each of them depends on. -/
theorem isRecursive_iff_cycle (D : Definition) :
    (D.isRecursive = true ↔ ∃ k, 1 ≤ k ∧ ∃ s : Nat → SymbolId, s k = s 0 ∧
      ∀ i < k, (∃ r ∈ D.rules, r.head = s (i + 1)) ∧
        ∃ r ∈ D.rules, r.head = s i ∧ r.Mentions (s (i + 1))) ∧
    ∀ (heads : List SymbolId) (next : SymbolId → List SymbolId), heads.Perm D.defined →
      (∀ p ∈ D.defined, (next p).Perm (D.dependencies p)) →
      hasCycle heads next = D.isRecursive := by
  constructor
  · rw [isRecursive_iff]
    simp only [transGen_iff_exists_sequence, dependsOn_iff]
    constructor
    · rintro ⟨p, k, hk, s, rfl, hback, hs⟩
      exact ⟨k, hk, s, hback, hs⟩
    · rintro ⟨k, hk, s, hback, hs⟩
      exact ⟨s 0, k, hk, s, rfl, hback, hs⟩
  · intro heads next hheads hnext
    rw [isRecursive]
    refine hasCycle_congr (fun p => hheads.mem_iff) fun p hp q => ?_
    rw [lookup_map_of_mem hp, Option.getD_some]
    exact (hnext p hp).mem_iff

/-- A rule that counts, one that compares and one with an aggregate in its head: each mentions the
symbol of the next. -/
def chasing : Definition :=
  ⟨[⟨[], 0, [], .compare (.aggregate .card (.enumerated [(.pred 1 [], .element (.int 1))])) .gt
    (.element (.int 0))⟩,
    ⟨[], 1, [], (Formula.compare (.apply 2 [.element (.int 0)]) .eq (.element (.int 0))).negate⟩,
    ⟨[], 2, [.aggregate .sum (.comprehension [] (.pred 0 []) (.element (.int 1)))], .conj []⟩]⟩

/-- The three symbols are a cycle, which the search also finds from the last one backwards. -/
theorem isRecursive_chasing : chasing.isRecursive = true ∧
    hasCycle [2, 1, 0] (fun p => (chasing.dependencies p).reverse) = true := by
  obtain ⟨hcycle, horder⟩ := isRecursive_iff_cycle chasing
  have hrules : ∀ i < 3, (∃ r ∈ chasing.rules, r.head = (i + 1) % 3) ∧
      ∃ r ∈ chasing.rules, r.head = i % 3 ∧ (i + 1) % 3 ∈ r.symbols := by decide
  simp only [Rule.mem_symbols_iff] at hrules
  have hrecursive : chasing.isRecursive = true := hcycle.mpr ⟨3, by decide, (· % 3), rfl, hrules⟩
  exact ⟨hrecursive, (horder _ _ (by decide) fun p _ => List.reverse_perm _).trans hrecursive⟩

end Definition

end ModelExpansion
