import ModelExpansion.Proofs.WellFounded.Alternation

/-! # Supported models
What is derived without end has a rule that gives it: the atoms of a least closed set are those that
some rule gives over that set. A well-founded model that leaves nothing undecided is therefore
supported by its own atoms, as long as no aggregate counts what the rules define. -/

namespace ModelExpansion

variable {base : Structure} {defined : List SymbolId} {rules : List Rule}

/-! ## Two-valued models -/

namespace AtomSet

theorem filter_contains {X Y : AtomSet} (h : X ≤ Y) : Y.filter X.contains = X := by
  refine Std.ExtTreeSet.ext_mem fun a => ?_
  rw [Std.ExtTreeSet.mem_filter]
  simp only [Std.ExtTreeSet.get_eq, Std.ExtTreeSet.contains_iff_mem]
  exact ⟨fun ha => ha.2, fun ha => ⟨h a ha, ha⟩⟩

theorem size_le {X Y : AtomSet} (h : X ≤ Y) : X.size ≤ Y.size := by
  rw [← filter_contains h]
  exact Std.ExtTreeSet.size_filter_le_size

theorem eq_of_le_of_size_eq {X Y : AtomSet} (h : X ≤ Y) (hsize : X.size = Y.size) : X = Y := by
  refine le_antisymm h fun a ha => ?_
  have hall :=
    Std.ExtTreeSet.size_filter_eq_size_iff.mp ((congrArg _ (filter_contains h)).trans hsize) a ha
  rwa [Std.ExtTreeSet.get_eq] at hall

theorem size_lt {X Y : AtomSet} (h : X ≤ Y) (hne : X ≠ Y) : X.size < Y.size :=
  Nat.lt_of_le_of_ne (size_le h) fun hsize => hne (eq_of_le_of_size_eq h hsize)

end AtomSet

namespace WellFounded

theorem isTotal_iff {w : WellFounded} (h : w.certain ≤ w.possible) :
    w.isTotal = true ↔ w.certain = w.possible := by
  rw [isTotal, beq_iff_eq]
  exact ⟨AtomSet.eq_of_le_of_size_eq h, congrArg _⟩

theorem undefined_eq_nil_iff {w : WellFounded} : w.undefined = [] ↔ w.possible ≤ w.certain := by
  rw [undefined, List.filter_eq_nil_iff]
  refine forall_congr' fun a => imp_congr Std.ExtTreeSet.mem_toList ?_
  rw [Bool.not_eq_true', Bool.not_eq_false, Std.ExtTreeSet.contains_iff_mem]

theorem isTotal_iff_undefined_eq_nil {w : WellFounded} (h : w.certain ≤ w.possible) :
    w.isTotal = true ↔ w.undefined = [] := by
  rw [isTotal_iff h, undefined_eq_nil_iff]
  exact ⟨fun heq => heq.ge, le_antisymm h⟩

end WellFounded

namespace Admissible

variable (h : Admissible base defined rules)

include h

/-- The atoms of the least closed set are those that some rule gives over it. -/
theorem mem_least_iff {fixed Z : AtomSet}
    (hZ : IsLeast {Z | ClosedUnder base defined rules fixed Z} Z) {a : Atom} :
    a ∈ Z ↔ ∃ r ∈ rules, r.Gives (stage base defined Z fixed) a := by
  refine ⟨fun ha => ?_, fun ⟨r, hr, hgives⟩ => hZ.1 r hr a hgives⟩
  classical
  -- Without the atoms that no rule gives, the set is still closed.
  let supported := (heads rules).filter fun a => ∃ r ∈ rules, r.Gives (stage base defined Z fixed) a
  have hmem : ∀ a, a ∈ (Std.ExtTreeSet.ofList supported : AtomSet) ↔
      ∃ r ∈ rules, r.Gives (stage base defined Z fixed) a := by
    intro a
    rw [Std.ExtTreeSet.mem_ofList, List.contains_iff_mem, List.mem_filter,
      decide_eq_true_eq, mem_heads]
    exact and_iff_right_of_imp fun ⟨r, hr, hgives⟩ => ⟨r, hr, hgives.1⟩
  have hle : (Std.ExtTreeSet.ofList supported : AtomSet) ≤ Z := by
    intro a ha
    obtain ⟨r, hr, hgives⟩ := (hmem a).mp ha
    exact hZ.1 r hr a hgives
  have hclosed : ClosedUnder base defined rules fixed (.ofList supported) := by
    intro r hr a hgives
    exact (hmem a).mpr ⟨r, hr, h.gives_mono hle le_rfl hr hgives⟩
  exact (hmem a).mp (hZ.2 hclosed a ha)

/-- The certain and the possible atoms are the least closed sets that each of them gives for the
other. -/
theorem wellFoundedModel_spec :
    ∃ w, wellFoundedModel base defined rules = .ok w ∧ w.certain ≤ w.possible ∧
    IsLeast {Z | ClosedUnder base defined rules w.possible Z} w.certain ∧
    IsLeast {Z | ClosedUnder base defined rules w.certain Z} w.possible := by
  obtain ⟨G, hG, hmodel, hleast⟩ := h.exists_least
  obtain ⟨w, hw, hcertain, hpossible⟩ :=
    wellFoundedModel_of_antitone hG hmodel fun X _ ha => mem_heads_of_least (hleast X) ha
  have hback : w.certain = G w.possible := by
    rw [hpossible]
    exact hcertain.1
  refine ⟨w, hw, ?_, ?_, ?_⟩
  · rw [hpossible]
    exact hcertain.2 (isGreatest_of_isLeast hG hcertain).1
  · rw [hback]
    exact hleast w.possible
  · rw [hpossible]
    exact hleast w.certain

/-- A well-founded model that decides every atom consists of the atoms that some rule gives over
it. -/
theorem mem_certain_iff_gives {w : WellFounded} (hw : wellFoundedModel base defined rules = .ok w)
    (htotal : w.isTotal = true) {a : Atom} :
    a ∈ w.certain ↔ ∃ r ∈ rules, r.Gives (stage base defined w.certain w.certain) a := by
  obtain ⟨w', hw', hle, -, hpossible⟩ := h.wellFoundedModel_spec
  cases hw.symm.trans hw'
  have heq := (WellFounded.isTotal_iff hle).mp htotal
  have hleast : IsLeast {Z | ClosedUnder base defined rules w.certain Z} w.certain :=
    heq ▸ hpossible
  exact h.mem_least_iff hleast

end Admissible

/-- Two predicates without arguments, about which nothing is recorded. -/
def lamps : Structure := ⟨⟨[], [⟨"left", [], none⟩, ⟨"right", [], none⟩]⟩, [], ∅⟩

/-- The left lamp is on, and the right one is on if the count of the left one is zero. -/
def lighting : List Rule :=
  [⟨[], 0, [], .conj []⟩,
    ⟨[], 1, [], .compare (.aggregate .card (.enumerated [(.pred 0 [], .element (.int 1))])) .eq
      (.element (.int 0))⟩]

/-- A count of defined atoms that is read before they are derived gives an atom that stays without
support. -/
theorem certain_without_support :
    ∃ w, wellFoundedModel lamps [0, 1] lighting = .ok w ∧ w.isTotal = true ∧
    ⟨1, []⟩ ∈ w.certain ∧
    ∀ r ∈ lighting, ¬ r.Gives (stage lamps [0, 1] w.certain w.certain) ⟨1, []⟩ := by
  let atoms : AtomSet := .ofList ([⟨0, []⟩, ⟨1, []⟩] : List Atom)
  refine ⟨⟨atoms, atoms⟩, by decide +kernel, rfl, by simp [atoms], ?_⟩
  simp only [lighting, List.forall_mem_cons, Rule.Gives]
  refine ⟨fun h => ?_, fun h => ?_, by simp⟩
  · cases h.1
  · have hbody := h.2
    revert hbody
    decide +kernel

end ModelExpansion
