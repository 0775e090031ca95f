import ModelExpansion.Formula.Basic

/-! # Equality of terms, sets and formulas
A Boolean test by recursion over both sides, and that it decides equality. -/

namespace ModelExpansion

mutual

def Term.beq : Term → Term → Bool
  | .var x, .var y => x == y
  | .element d, .element e => d == e
  | .apply f args, .apply g args' => f == g && Term.beqList args args'
  | .aggregate k s, .aggregate k' s' => k == k' && s.beq s'
  | _, _ => false

def SetExpr.beq : SetExpr → SetExpr → Bool
  | .enumerated ms, .enumerated ms' => SetExpr.beqMembers ms ms'
  | .comprehension vars c w, .comprehension vars' c' w' => vars == vars' && c.beq c' && w.beq w'
  | _, _ => false

def Formula.beq : Formula → Formula → Bool
  | .atom s p args, .atom s' p' args' => s == s' && p == p' && Term.beqList args args'
  | .junction s c fs, .junction s' c' fs' => s == s' && c == c' && Formula.beqList fs fs'
  | .quantified s u vars f, .quantified s' u' vars' f' =>
    s == s' && u == u' && vars == vars' && f.beq f'
  | .equivalence s l r, .equivalence s' l' r' => s == s' && l.beq l' && r.beq r'
  | .comparison s ts cs, .comparison s' ts' cs' => s == s' && Term.beqList ts ts' && cs == cs'
  | _, _ => false

def Term.beqList : List Term → List Term → Bool
  | [], [] => true
  | t :: ts, t' :: ts' => t.beq t' && Term.beqList ts ts'
  | _, _ => false

def Formula.beqList : List Formula → List Formula → Bool
  | [], [] => true
  | f :: fs, f' :: fs' => f.beq f' && Formula.beqList fs fs'
  | _, _ => false

def SetExpr.beqMembers : List Member → List Member → Bool
  | [], [] => true
  | (c, w) :: ms, (c', w') :: ms' => c.beq c' && w.beq w' && SetExpr.beqMembers ms ms'
  | _, _ => false

end

mutual

theorem Term.beq_iff : ∀ a b : Term, a.beq b = true ↔ a = b
  | .var _, b => by cases b <;> simp [Term.beq]
  | .element _, b => by cases b <;> simp [Term.beq]
  | .apply _ args, b => by
    cases b with
    | apply _ args' => simp [Term.beq, Term.beqList_iff args args']
    | _ => simp [Term.beq]
  | .aggregate _ s, b => by
    cases b with
    | aggregate _ s' => simp [Term.beq, SetExpr.beq_iff s s']
    | _ => simp [Term.beq]

theorem SetExpr.beq_iff : ∀ a b : SetExpr, a.beq b = true ↔ a = b
  | .enumerated ms, b => by
    cases b with
    | enumerated ms' => simp [SetExpr.beq, SetExpr.beqMembers_iff ms ms']
    | _ => simp [SetExpr.beq]
  | .comprehension _ c w, b => by
    cases b with
    | comprehension _ c' w' =>
      simp [SetExpr.beq, Formula.beq_iff c c', Term.beq_iff w w', and_assoc]
    | _ => simp [SetExpr.beq]

theorem Formula.beq_iff : ∀ a b : Formula, a.beq b = true ↔ a = b
  | .atom _ _ args, b => by
    cases b with
    | atom _ _ args' => simp [Formula.beq, Term.beqList_iff args args', and_assoc]
    | _ => simp [Formula.beq]
  | .junction _ _ fs, b => by
    cases b with
    | junction _ _ fs' => simp [Formula.beq, Formula.beqList_iff fs fs', and_assoc]
    | _ => simp [Formula.beq]
  | .quantified _ _ _ f, b => by
    cases b with
    | quantified _ _ _ f' => simp [Formula.beq, Formula.beq_iff f f', and_assoc]
    | _ => simp [Formula.beq]
  | .equivalence _ l r, b => by
    cases b with
    | equivalence _ l' r' =>
      simp [Formula.beq, Formula.beq_iff l l', Formula.beq_iff r r', and_assoc]
    | _ => simp [Formula.beq]
  | .comparison _ ts _, b => by
    cases b with
    | comparison _ ts' _ => simp [Formula.beq, Term.beqList_iff ts ts', and_assoc]
    | _ => simp [Formula.beq]

theorem Term.beqList_iff : ∀ a b : List Term, Term.beqList a b = true ↔ a = b
  | [], b => by cases b <;> simp [Term.beqList]
  | t :: ts, b => by
    cases b with
    | nil => simp [Term.beqList]
    | cons t' ts' => simp [Term.beqList, Term.beq_iff t t', Term.beqList_iff ts ts']

theorem Formula.beqList_iff : ∀ a b : List Formula, Formula.beqList a b = true ↔ a = b
  | [], b => by cases b <;> simp [Formula.beqList]
  | f :: fs, b => by
    cases b with
    | nil => simp [Formula.beqList]
    | cons f' fs' => simp [Formula.beqList, Formula.beq_iff f f', Formula.beqList_iff fs fs']

theorem SetExpr.beqMembers_iff : ∀ a b : List Member, SetExpr.beqMembers a b = true ↔ a = b
  | [], b => by cases b <;> simp [SetExpr.beqMembers]
  | (c, w) :: ms, b => by
    cases b with
    | nil => simp [SetExpr.beqMembers]
    | cons m ms' =>
      obtain ⟨c', w'⟩ := m
      simp [SetExpr.beqMembers, Formula.beq_iff c c', Term.beq_iff w w',
        SetExpr.beqMembers_iff ms ms']

end

instance : DecidableEq Term := fun a b => decidable_of_iff _ (Term.beq_iff a b)

instance : DecidableEq SetExpr := fun a b => decidable_of_iff _ (SetExpr.beq_iff a b)

instance : DecidableEq Formula := fun a b => decidable_of_iff _ (Formula.beq_iff a b)

end ModelExpansion
