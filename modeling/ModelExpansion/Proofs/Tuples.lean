import ModelExpansion.Proofs.Tables

/-! # The tuples of a symbol
The tuples of a symbol are enumerated as the product of its tables, and a write checks the length of
a tuple and looks each of its elements up. Both describe the same tuples. -/

namespace ModelExpansion

/-! ## Writes that do not fit -/

/-- Whether a tuple was refused for its length or for an element outside its table. -/
def Failure.isMisfit : Failure → Bool
  | .arityMismatch _ _ _ | .outOfDomain _ _ _ _ => true
  | _ => false

namespace Structure

variable {S : Structure} {p : SymbolId} {s : Symbol} {t : Tuple}

/-- Where every sort has a table, the elements are in their tables or one of them is refused. -/
theorem checkPositions_cases {n : Nat} {sorts : List SortId}
    (h : ∀ sort ∈ sorts, ∃ table, S.table sort = .ok table) :
    S.checkPositions p n sorts t = .ok () ∨
      ∃ failure, S.checkPositions p n sorts t = .error failure ∧ failure.isMisfit = true := by
  induction sorts generalizing n t with
  | nil => exact .inl (by rw [checkPositions]; rfl; simp)
  | cons sort sorts ih =>
      cases t with
      | nil => exact .inl (by rw [checkPositions]; rfl; simp)
      | cons e t =>
          obtain ⟨⟨table, htable⟩, hsorts⟩ := List.forall_mem_cons.mp h
          rw [checkPositions, htable, Except.ok_bind]
          split
          · exact ih hsorts
          · exact .inr ⟨_, rfl, rfl⟩

theorem checkTuple_cases (hs : S.vocabulary.symbol p = .ok s)
    (h : ∀ sort ∈ s.graphSorts, ∃ table, S.table sort = .ok table) :
    S.InTables ⟨p, t⟩ ∨ ∃ failure, S.checkTuple p t = .error failure ∧ failure.isMisfit = true := by
  rw [InTables, checkTuple, hs, Except.ok_bind]
  dsimp only
  split
  · exact checkPositions_cases h
  · exact .inr ⟨_, rfl, rfl⟩

/-- A write is refused as a misfit exactly if the tuple is not in the tables. -/
theorem misfit_iff (hs : S.vocabulary.symbol p = .ok s)
    (h : ∀ sort ∈ s.graphSorts, ∃ table, S.table sort = .ok table) {b : Bool} :
    (∃ failure, S.setValue p t b = .error failure ∧ failure.isMisfit = true) ↔
      ¬ S.InTables ⟨p, t⟩ := by
  constructor
  · rintro ⟨failure, hset, hmisfit⟩ ht
    rw [setValue, show S.checkTuple p t = .ok () from ht, Except.ok_bind] at hset
    split at hset
    · cases hset
    · split at hset
      · cases hset
      · cases hset
        cases hmisfit
  · intro ht
    obtain ⟨failure, hcheck, hmisfit⟩ := (checkTuple_cases hs h).resolve_left ht
    exact ⟨failure, by rw [setValue, hcheck]; rfl, hmisfit⟩

/-! ## Enumeration -/

theorem exists_graphDomains (hs : S.vocabulary.symbol p = .ok s)
    (h : ∀ sort ∈ s.graphSorts, ∃ table, S.table sort = .ok table ∧ table.isFinite = true) :
    ∃ ds, S.graphDomains p = .ok ds := by
  rw [graphDomains, hs, Except.ok_bind]
  refine exists_mapM_eq_ok fun sort hsort => ?_
  obtain ⟨table, htable, hfinite⟩ := h sort hsort
  cases table with
  | finite elements => exact ⟨_, by rw [domain, htable]; rfl⟩
  | infinite => cases hfinite

/-- The tuples of a symbol with finite tables are enumerated in strictly increasing lexicographic
order, and they are exactly those that a write does not refuse for their length or for an element
outside its table. -/
theorem mem_tuples_iff_fits (hs : S.vocabulary.symbol p = .ok s)
    (h : ∀ sort ∈ s.graphSorts, ∃ table, S.table sort = .ok table ∧ table.isFinite = true) :
    ∃ ts, S.tuples p = .ok ts ∧ ts.Nodup ∧ ts.Pairwise (fun t u => compare t u = .lt) ∧
      ∀ t b, t ∈ ts ↔ ¬ ∃ failure, S.setValue p t b = .error failure ∧ failure.isMisfit = true := by
  obtain ⟨ds, hds⟩ := exists_graphDomains hs h
  have hascending : (product ds).Pairwise fun t u => compare t u = .lt :=
    pairwise_product (ascending_graphDomains hds)
  refine ⟨product ds,
    by rw [tuples, hds]; rfl, nodup_of_ascending hascending, hascending, fun t b => ?_⟩
  rw [misfit_iff hs fun sort hsort => (h sort hsort).imp fun _ => And.left, not_not]
  exact (inTables_iff_mem_product hds).symm

/-- Seats with a name or a number, in two rows. Somebody sits on the seat with a number in the first
row. -/
def seating : Structure where
  vocabulary := ⟨[⟨"seat", []⟩, ⟨"row", []⟩], [⟨"taken", [0, 1], none⟩]⟩
  tables := [.ofList [.name "b", .int 3, .name "a", .int 3], .range 1 2]
  facts := .ofList [((⟨0, [.int 3, .int 1]⟩ : Atom), true)]

/-- The six places in order. Writing one of them may contradict what is recorded, but it is not a
misfit. -/
theorem mem_tuples_iff_fits_seating : ∃ ts, seating.tuples 0 = .ok ts ∧
    ts = [[.int 3, .int 1], [.int 3, .int 2], [.name "a", .int 1], [.name "a", .int 2],
      [.name "b", .int 1],
      [.name "b", .int 2]] ∧
    ∀ t b, t ∈ ts ↔ ¬ ∃ failure, seating.setValue 0 t b = .error failure ∧
    failure.isMisfit = true := by
  have htables : ∀ sort ∈ [0, 1], ∃ table, seating.table sort = .ok table ∧ table.isFinite = true :=
    List.forall_mem_cons.mpr ⟨⟨_, rfl, rfl⟩, List.forall_mem_singleton.mpr ⟨_, rfl, rfl⟩⟩
  have henumerated :
      seating.tuples 0 = .ok [[.int 3, .int 1], [.int 3, .int 2], [.name "a", .int 1],
      [.name "a", .int 2], [.name "b", .int 1], [.name "b", .int 2]] := by decide +kernel
  obtain ⟨ts, hts, -, -, hfits⟩ :=
    mem_tuples_iff_fits (S := seating) (p := 0) (s := ⟨"taken", [0, 1], none⟩) rfl htables
  exact ⟨ts, hts, Except.ok.inj (hts.symm.trans henumerated), hfits⟩

end Structure

end ModelExpansion
