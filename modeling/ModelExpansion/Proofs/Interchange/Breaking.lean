import ModelExpansion.Proofs.Expansion
import ModelExpansion.Proofs.Interchange.Detection

/-! # What breaking symmetry keeps
The formulas that break symmetry keep the worlds that do not come after their images under the
swaps, and an expansion with them lists the models that it would list without them and that they
keep. -/

namespace ModelExpansion

open ModelExpansion.Sat

/-! ## Leaders -/

/-- Whether some atoms do not come after their images: where one of them and its image differ for
the first time, the image is true. -/
def Precedes (I : Atom → Bool) : List Moved → Prop
  | [] => True
  | m :: ms => (I m.atom = true → I m.image = true) ∧ (I m.atom = I m.image → Precedes I ms)

namespace World

variable (W : World) (b : Binding)

theorem truth_negate (f : Formula) : W.truth b f.negate = !W.truth b f := by
  rw [Formula.negate]
  cases f with
  | atom sign p args => cases sign <;> simp [Formula.withSign, Formula.sign, truth]
  | junction sign conjunctive children =>
    cases sign <;> simp [Formula.withSign, Formula.sign, truth]
  | quantified sign universal vars body =>
    cases sign <;> simp [Formula.withSign, Formula.sign, truth]
  | equivalence sign left right => cases sign <;> simp [Formula.withSign, Formula.sign, truth]
  | comparison sign terms comparators => cases sign <;> simp [Formula.withSign, Formula.sign, truth]

theorem truth_disj (fs : List Formula) :
    W.truth b (.disj fs) = true ↔ ∃ f ∈ fs, W.truth b f = true := by
  rw [Formula.disj, truth, truths_eq_map, junction, if_neg Bool.false_ne_true, beq_true,
    List.any_map, List.any_eq_true]
  rfl

theorem truth_iff (f g : Formula) : W.truth b (.iff f g) = (W.truth b f == W.truth b g) := by
  rw [Formula.iff, truth, beq_true]

end World

section Leaders

variable {S : Structure} {atoms : List Atom} {I : Atom → Bool}

theorem sign_atomFormula {V : Vocabulary} {a : Atom} {f : Formula} (h : atomFormula V a = .ok f) :
    f.withSign true = f := by
  rw [atomFormula, Except.bind_eq_ok] at h
  obtain ⟨s, -, h⟩ := h
  split at h <;> cases h <;> rfl

/-- A way to give formulas truth values that respects the connectives and gives the formula of each
atom of the tables the truth of the atom. -/
structure Reading (S : Structure) (I : Atom → Bool) (reads : Formula → Bool → Prop) : Prop where
  unique : ∀ {f b c}, reads f b → reads f c → b = c
  negate : ∀ {f b}, reads f b → reads f.negate !b
  iff : ∀ {f g b c}, reads f b → reads g c → reads (.iff f g) (b == c)
  disj : ∀ {fs bs}, List.Forall₂ reads fs bs → reads (.disj fs) (bs.any id)
  atom : ∀ {a f}, S.InTables a → atomFormula S.vocabulary a = .ok f → reads f (I a)

namespace Reading

variable {reads : Formula → Bool → Prop} (h : Reading S I reads)
include h

theorem forall_reads_iff {fs : List Formula} {bs : List Bool} (hbs : List.Forall₂ reads fs bs) :
    (∀ f ∈ fs, reads f true) ↔ ∀ b ∈ bs, b = true := by
  induction hbs with
  | nil => simp
  | @cons f b fs bs hb _ ih =>
      have hiff : reads f true ↔ b = true := ⟨h.unique hb, fun hb' => hb' ▸ hb⟩
      rw [List.forall_mem_cons, List.forall_mem_cons, hiff, ih]

/-- The formulas of a leader hold if an earlier disagreement does or the atoms do not come after
their images. -/
theorem exists_lexLeader {ms : List Moved} (hms : ∀ m ∈ ms, S.InTables m.atom ∧ S.InTables m.image)
    {earlier fs : List Formula} {bs : List Bool} (hbs : List.Forall₂ reads earlier bs)
    (hfs : lexLeader S.vocabulary earlier ms = .ok fs) :
    ∃ cs, List.Forall₂ reads fs cs ∧ ((∀ c ∈ cs, c = true) ↔ bs.any id = true ∨ Precedes I ms) := by
  induction ms generalizing earlier fs bs with
  | nil =>
      cases hfs
      exact ⟨[], .nil, by simp [Precedes]⟩
  | cons m ms ih =>
      obtain ⟨hm, hms⟩ := List.forall_mem_cons.mp hms
      rw [lexLeader, Except.bind_eq_ok] at hfs
      obtain ⟨x, hx, hfs⟩ := hfs
      rw [Except.bind_eq_ok] at hfs
      obtain ⟨y, hy, hfs⟩ := hfs
      rw [Except.bind_eq_ok] at hfs
      obtain ⟨rest, hrest, hfs⟩ := hfs
      cases hfs
      have hatom := h.atom hm.1 hx
      have himage := h.atom hm.2 hy
      have hdisagree := List.rel_append hbs (.cons (h.negate (h.iff hatom himage)) .nil)
      obtain ⟨cs, hcs, hiff⟩ := ih hms hdisagree hrest
      have hclause := h.disj (List.rel_append hbs (.cons (h.negate hatom) (.cons himage .nil)))
      refine ⟨_ :: cs, .cons hclause hcs, ?_⟩
      rw [List.forall_mem_cons, hiff, Precedes]
      simp only [List.any_append, List.any_cons, List.any_nil, Bool.or_false, Bool.or_eq_true, id]
      cases bs.any id <;> cases I m.atom <;> cases I m.image <;> simp

theorem forall_lexLeader {ms : List Moved} (hms : ∀ m ∈ ms, S.InTables m.atom ∧ S.InTables m.image)
    {fs : List Formula} (hfs : lexLeader S.vocabulary [] ms = .ok fs) :
    (∀ f ∈ fs, reads f true) ↔ Precedes I ms := by
  obtain ⟨cs, hcs, hiff⟩ := h.exists_lexLeader hms .nil hfs
  rw [h.forall_reads_iff hcs, hiff]
  simp

end Reading

theorem exists_lexLeader {ms : List Moved} (hms : ∀ m ∈ ms, S.InTables m.atom ∧ S.InTables m.image)
    (earlier : List Formula) : ∃ fs, lexLeader S.vocabulary earlier ms = .ok fs := by
  have hatom : ∀ a, S.InTables a → ∃ f, atomFormula S.vocabulary a = .ok f := by
    intro a ha
    obtain ⟨s, hs, -⟩ := Structure.inTables_iff.mp ha
    rw [atomFormula, hs, Except.ok_bind]
    split <;> exact ⟨_, rfl⟩
  induction ms generalizing earlier with
  | nil => exact ⟨[], rfl⟩
  | cons m ms ih =>
      obtain ⟨hm, hms⟩ := List.forall_mem_cons.mp hms
      obtain ⟨x, hx⟩ := hatom m.atom hm.1
      obtain ⟨y, hy⟩ := hatom m.image hm.2
      obtain ⟨rest, hrest⟩ := ih hms (earlier ++ [(Formula.iff x y).negate])
      exact ⟨_, by rw [lexLeader, hx, Except.ok_bind, hy, Except.ok_bind, hrest]; rfl⟩

theorem reading_worldOf (hatoms : Encoder.atomsOf S = .ok atoms) (hs : (S.worldOf I).SingleValued) :
    Reading S I fun f b => (S.worldOf I).truth [] f = b where
  unique hb hc := hb.symm.trans hc
  negate hb := by rw [World.truth_negate, hb]
  iff hb hc := by rw [World.truth_iff, hb, hc]
  disj {fs bs} hbs := by
    rw [Bool.eq_iff_iff, World.truth_disj, List.any_eq_true]
    constructor
    · rintro ⟨f, hf, htrue⟩
      obtain ⟨b, hb, heq⟩ := exists_right_of_forall₂ hbs hf
      exact ⟨b, hb, heq ▸ htrue⟩
    · rintro ⟨b, hb, htrue⟩
      obtain ⟨f, hf, heq⟩ := exists_left_of_forall₂ hbs hb
      exact ⟨f, hf, heq.trans htrue⟩
  atom {a f} ha hf := by
    have htruth := truth_atomFormula hatoms hs (fun _ => ha) hf true
    rwa [sign_atomFormula hf, beq_true] at htruth

end Leaders

/-! ## Moved atoms -/

namespace Structure

/-- The atoms of a symbol over the tables, in order. -/
def atomsAt (S : Structure) (p : SymbolId) : List Atom :=
  ((S.tuples p).toOption.getD []).map (Atom.mk p)

/-- Whether an atom is unknown and a swap moves it. -/
def isMovable (S : Structure) (a b : Element) (x : Atom) : Bool :=
  swapTuple a b x.tuple ≠ x.tuple ∧ S.value x.symbol x.tuple = .unknown

/-- The unknown atoms among some that a swap moves, with their images. -/
def movedOf (S : Structure) (a b : Element) (xs : List Atom) : List Moved :=
  (xs.filter (S.isMovable a b)).map fun x => ⟨x, swapAtom a b x⟩

variable {S : Structure} {a b : Element} {limit : Nat} {p : SymbolId}

theorem movedOf_append (xs ys : List Atom) :
    S.movedOf a b (xs ++ ys) = S.movedOf a b xs ++ S.movedOf a b ys := by
  rw [movedOf, List.filter_append, List.map_append, movedOf, movedOf]

theorem atomsAt_of_graphDomains {domains : List (List Element)}
    (h : S.graphDomains p = .ok domains) :
    S.atomsAt p = (product domains).map (Atom.mk p) := by
  rw [atomsAt, tuples, h]
  rfl

theorem inTables_of_mem_atomsAt {x : Atom} (h : x ∈ S.atomsAt p) : S.InTables x := by
  rw [atomsAt] at h
  obtain ⟨t, ht, rfl⟩ := List.mem_map.mp h
  cases hdomains : S.graphDomains p with
  | error failure =>
      rw [tuples, hdomains] at ht
      cases ht
  | ok domains =>
      rw [tuples, hdomains] at ht
      exact (inTables_iff_mem_product hdomains).mpr ht

theorem forall_inTables_flatMap_atomsAt (ps : List SymbolId) :
    ∀ x ∈ ps.flatMap S.atomsAt, S.InTables x := by
  intro x hx
  obtain ⟨p, -, hx⟩ := List.mem_flatMap.mp hx
  exact inTables_of_mem_atomsAt hx

/-- The limit ends the search, and otherwise one more atom is looked at. -/
theorem addMoved_cases (acc : Array Moved) (t : Tuple) : addMoved S a b limit p acc t = .error acc ∨
    ∃ acc', addMoved S a b limit p acc t = .ok acc' ∧
    acc'.toList = acc.toList ++ S.movedOf a b [⟨p, t⟩] := by
  rw [addMoved]
  split
  · exact .inl rfl
  · refine .inr ?_
    dsimp only
    split
    · rename_i hmovable
      refine ⟨_, rfl, ?_⟩
      simp [movedOf, isMovable, hmovable, swapAtom]
    · rename_i hmovable
      refine ⟨_, rfl, ?_⟩
      simp [movedOf, isMovable, hmovable]

theorem forall_inTables_movedOf {xs : List Atom} (hxs : ∀ x ∈ xs, S.InTables x)
    (hab : S.SameTables a b) :
    ∀ m ∈ S.movedOf a b xs, S.InTables m.atom ∧ S.InTables m.image := by
  intro m hm
  obtain ⟨x, hx, rfl⟩ := List.mem_map.mp hm
  have hx := hxs x (List.mem_filter.mp hx).1
  exact ⟨hx, hab.inTables_swapAtom hx⟩

/-- Of the moved atoms of one symbol all are found, or the first ones before the search ends. -/
theorem foldlM_addMoved_cases (a b : Element) (limit : Nat) (p : SymbolId) (acc : Array Moved)
    (ts : List Tuple) : ∃ acc' : Array Moved,
    (ts.foldlM (addMoved S a b limit p) acc = .ok acc' ∧
      acc'.toList = acc.toList ++ S.movedOf a b (ts.map (Atom.mk p))) ∨
    (ts.foldlM (addMoved S a b limit p) acc = .error acc' ∧
      acc'.toList <+: acc.toList ++ S.movedOf a b (ts.map (Atom.mk p))) := by
  induction ts generalizing acc with
  | nil => exact ⟨acc, .inl ⟨rfl, (List.append_nil _).symm⟩⟩
  | cons t ts ih =>
      have hcons : S.movedOf a b ((t :: ts).map (Atom.mk p)) =
          S.movedOf a b [⟨p, t⟩] ++ S.movedOf a b (ts.map (Atom.mk p)) := movedOf_append [⟨p, t⟩] _
      rw [hcons, List.foldlM_cons, ← List.append_assoc]
      rcases addMoved_cases acc t with hstop | ⟨next, hnext, hlist⟩
      · rw [hstop, List.append_assoc]
        exact ⟨acc, .inr ⟨rfl, List.prefix_append _ _⟩⟩
      · rw [hnext, ← hlist]
        exact ih next

/-- What is found are the first of the moved atoms. -/
theorem exists_moved (a b : Element) (limit : Nat) {ps : List SymbolId}
    (hps : ∀ p ∈ ps, ∃ domains, S.graphDomains p = .ok domains) (acc : Array Moved) :
    ∃ acc', moved S a b limit ps acc = .ok acc' ∧
      acc'.toList <+: acc.toList ++ S.movedOf a b (ps.flatMap S.atomsAt) := by
  induction ps generalizing acc with
  | nil => exact ⟨acc, rfl, List.prefix_append _ _⟩
  | cons p ps ih =>
      obtain ⟨⟨domains, hdomains⟩, hps⟩ := List.forall_mem_cons.mp hps
      rw [List.flatMap_cons, movedOf_append, atomsAt_of_graphDomains hdomains, ← List.append_assoc,
        moved, hdomains]
      simp only [Except.ok_bind, foldTuplesM_eq]
      obtain ⟨next, ⟨hnext, hlist⟩ | ⟨hstop, hinitial⟩⟩ :=
        foldlM_addMoved_cases (S := S) a b limit p acc (product domains)
      · rw [hnext, ← hlist]
        exact ih hps next
      · rw [hstop]
        exact ⟨next, rfl, hinitial.trans (List.prefix_append _ _)⟩

end Structure

theorem graphDomains_of_mem_interchange {S : Structure} {T : Theory} {atoms : List Atom}
    (h : Encoder.atomsOf S = .ok atoms) {J : Interchange} (hJ : J ∈ interchanges S T) :
    ∀ p ∈ J.symbols, ∃ domains, S.graphDomains p = .ok domains := by
  intro p hp
  obtain ⟨keep, hkeep⟩ := exists_symbols_eq_filter hJ
  rw [hkeep] at hp
  obtain ⟨domains, hdomains, -⟩ := Encoder.forall₂_of_atomsOf_eq_ok h
  obtain ⟨pd, -, -, hpd⟩ := exists_right_of_forall₂ hdomains (List.mem_filter.mp hp).1
  exact ⟨pd.2, hpd⟩

/-! ## Formulas -/

theorem forall_mem_flatten_of_mapM {ε α β : Type} {f : α → Except ε (List β)} {xs : List α}
    {yss : List (List β)}
    (h : xs.mapM f = .ok yss) {P : β → Prop} :
    (∀ y ∈ yss.flatten, P y) ↔ ∀ x ∈ xs, ∃ ys, f x = .ok ys ∧ ∀ y ∈ ys, P y := by
  have hforall := forall₂_of_mapM_eq_ok h
  constructor
  · intro hall x hx
    obtain ⟨ys, hys, hok⟩ := exists_right_of_forall₂ hforall hx
    exact ⟨ys, hok, fun y hy => hall y (List.mem_flatten.mpr ⟨ys, hys, hy⟩)⟩
  · intro hall y hy
    obtain ⟨ys, hys, hy⟩ := List.mem_flatten.mp hy
    obtain ⟨x, hx, hok⟩ := exists_left_of_forall₂ hforall hys
    obtain ⟨ys', hok', hys'⟩ := hall x hx
    rw [hok] at hok'
    cases hok'
    exact hys' y hy

/-- Whether some atoms do not come after their images under any swap of two consecutive elements.
Only the unknown atoms that the swap moves are compared, and of these the first ones up to a
limit. -/
def Interchange.Leads (J : Interchange) (S : Structure) (limit : Nat) (I : Atom → Bool) : Prop :=
  ∀ ab ∈ J.swaps, ∃ ms, moved S ab.1 ab.2 limit J.symbols #[] = .ok ms ∧ Precedes I ms.toList

section Formulas

variable {S : Structure} {T : Theory} {atoms : List Atom} {I : Atom → Bool}
  (hatoms : Encoder.atomsOf S = .ok atoms)
include hatoms

theorem Reading.forall_breakingFormulas {reads : Formula → Bool → Prop} (h : Reading S I reads)
    {J : Interchange}
    (hJ : J ∈ interchanges S T) {limit : Nat} {fs : List Formula}
    (hfs : J.breakingFormulas S limit = .ok fs) :
    (∀ f ∈ fs, reads f true) ↔ J.Leads S limit I := by
  rw [Interchange.breakingFormulas, Except.bind_eq_ok] at hfs
  obtain ⟨fss, hfss, hfs⟩ := hfs
  cases hfs
  rw [forall_mem_flatten_of_mapM hfss]
  refine forall₂_congr fun ab hab => ?_
  obtain ⟨ms, hms, hinitial⟩ := Structure.exists_moved ab.1 ab.2 limit
    (graphDomains_of_mem_interchange hatoms hJ) #[]
  have htables : ∀ m ∈ ms.toList, S.InTables m.atom ∧ S.InTables m.image := fun m hm =>
    Structure.forall_inTables_movedOf (Structure.forall_inTables_flatMap_atomsAt _)
      (sameTables_of_mem_swaps hJ hab) m (hinitial.subset hm)
  obtain ⟨leader, -, hleader⟩ := exists_right_of_forall₂ (forall₂_of_mapM_eq_ok hfss) hab
  rw [hms] at hleader
  have hiff := h.forall_lexLeader htables hleader
  rw [hms]
  constructor
  · rintro ⟨fs, hfs, hall⟩
    cases hleader.symm.trans hfs
    exact ⟨ms, rfl, hiff.mp hall⟩
  · rintro ⟨_, heq, hprecedes⟩
    cases heq
    exact ⟨leader, hleader, hiff.mpr hprecedes⟩

/-- Where the tables can be listed, the formulas are found. -/
theorem exists_breakingFormulas {J : Interchange} (hJ : J ∈ interchanges S T) (limit : Nat) :
    ∃ fs, J.breakingFormulas S limit = .ok fs := by
  have hswap : ∀ ab ∈ J.swaps, ∃ fs, (do
      lexLeader S.vocabulary [] (← moved S ab.1 ab.2 limit J.symbols #[]).toList) =
        Except.ok fs := by
    intro ab hab
    obtain ⟨ms, hms, hinitial⟩ := Structure.exists_moved ab.1 ab.2 limit
      (graphDomains_of_mem_interchange hatoms hJ) #[]
    rw [hms, Except.ok_bind]
    refine exists_lexLeader (fun m hm => ?_) []
    exact Structure.forall_inTables_movedOf (Structure.forall_inTables_flatMap_atomsAt _)
      (sameTables_of_mem_swaps hJ hab) m (hinitial.subset hm)
  obtain ⟨fss, hfss⟩ := exists_mapM_eq_ok hswap
  exact ⟨fss.flatten, by rw [Interchange.breakingFormulas, hfss]; rfl⟩

theorem forall_truth_breaking (hs : (S.worldOf I).SingleValued) {o : Options}
    {sets : List Interchange}
    {breaking : List Formula} (hwanted : o.breakSymmetry = true)
    (h : breakSymmetry o S T = .ok (sets, breaking)) :
    (∀ f ∈ breaking, (S.worldOf I).truth [] f = true) ↔
      ∀ J ∈ interchanges S T, J.Leads S o.chainLength I := by
  rw [breakSymmetry, if_pos hwanted, Except.bind_eq_ok] at h
  obtain ⟨fss, hfss, h⟩ := h
  cases h
  rw [forall_mem_flatten_of_mapM hfss]
  refine forall₂_congr fun J hJ => ?_
  constructor
  · rintro ⟨fs, hfs, hall⟩
    exact ((reading_worldOf hatoms hs).forall_breakingFormulas hatoms hJ hfs).mp hall
  · intro hleads
    obtain ⟨fs, -, hfs⟩ := exists_right_of_forall₂ (forall₂_of_mapM_eq_ok hfss) hJ
    exact ⟨fs, hfs, ((reading_worldOf hatoms hs).forall_breakingFormulas hatoms hJ hfs).mpr hleads⟩

end Formulas

/-! ## Expansions -/

variable {o : Options} {S : Structure}

theorem isExpansion_append {fs gs : List Formula} {M : Structure} : S.IsExpansion (fs ++ gs) M ↔
    S.IsExpansion fs M ∧ ∀ g ∈ gs, M.world.truth [] g = true := by
  constructor
  · intro h
    obtain ⟨hfs, hgs⟩ := List.forall_mem_append.mp h.holds
    exact ⟨{ h with holds := hfs }, hgs⟩
  · rintro ⟨h, hgs⟩
    exact { h with holds := List.forall_mem_append.mpr ⟨h.holds, hgs⟩ }

/-- An expansion that breaks symmetry and is not cut short lists the expansions that do not come
after their images under the swaps, and it lists each of them once. -/
theorem models_expand_breaking {T : Theory} {monitor monitor' : Monitor} {E : Expansion}
    (hrun : expand (fun _ => false) o T S monitor = (monitor', .ok E))
    (hraised : monitor'.raised = false)
    (hmodels : o.models = 0) (hwanted : o.breakSymmetry = true) (hconflicts : o.maxConflicts = 0)
    (hdefinitions : T.definitions = []) (hfixpoints : T.fixpoints = [])
    (htables : ∀ a v, S.facts[a]? = some v → S.InTables a) :
    E.models.Nodup ∧ ∀ M, M ∈ E.models ↔ S.IsExpansion T.sentences M ∧
      ∀ J ∈ interchanges S T, J.Leads S o.chainLength M.isTrue := by
  rcases searches_of_expand_breaking hrun hmodels hconflicts hdefinitions hfixpoints htables with
    ⟨rfl, hstopped⟩ | ⟨sets, breaking, hbreaking, e, e', found, hsearch⟩
  · rw [hraised] at hstopped
    cases hstopped
  · obtain ⟨hnodup, hlists⟩ := hsearch.lists hraised
    obtain ⟨atoms, hatoms⟩ := hsearch.listed
    refine ⟨hnodup, fun M =>
      (hlists M).trans (isExpansion_append.trans (and_congr_right fun hM => ?_))⟩
    have hsingle :=
      Encoder.singleValued_of_functional hatoms hM.inTables_of_isTrue
        hM.totalOver.functional_worldOf
    rw [hM.totalOver.world]
    exact forall_truth_breaking hatoms hsingle hwanted hbreaking

end ModelExpansion
