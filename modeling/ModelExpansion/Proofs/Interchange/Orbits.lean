import Mathlib.Data.Set.Basic
import Mathlib.Logic.Relation
import ModelExpansion.Proofs.Interchange.Breaking

/-! # Breaking symmetry covers the orbits
Where the models are closed under exchanging interchangeable elements, each of them is led to one
that is kept: exchanging two elements in a structure that comes after its image makes it smaller. -/

namespace ModelExpansion

open ModelExpansion.Sat

/-! ## Swapped structures -/

section Swap

variable {a b : Element}

/-- The structure in which two elements have changed places. -/
def Structure.swap (M : Structure) (a b : Element) : Structure :=
  { M with facts := .ofList (M.certainFacts.map fun f => (swapAtom a b f.1, f.2)) }

theorem Structure.getElem?_facts_swap (M : Structure) (x : Atom) :
    (M.swap a b).facts[x]? = M.facts[swapAtom a b x]? := by
  have hkeys : ((M.certainFacts.map fun f => (swapAtom a b f.1, f.2)).map Prod.fst).Nodup := by
    have hcomp : (Prod.fst ∘ fun f : Atom × Bool => (swapAtom a b f.1, f.2)) =
        swapAtom a b ∘ Prod.fst := rfl
    rw [List.map_map, hcomp, ← List.map_map]
    refine List.Nodup.map swapAtom_injective ?_
    rw [certainFacts, Std.ExtTreeMap.map_fst_toList_eq_keys]
    exact Std.ExtTreeMap.nodup_keys
  refine Option.ext fun v => ?_
  rw [swap, getElem?_ofList_eq_some_iff hkeys, List.mem_map]
  constructor
  · rintro ⟨⟨y, v'⟩, hy, heq⟩
    cases heq
    rw [swapAtom_swapAtom]
    exact Std.ExtTreeMap.mem_toList_iff_getElem?_eq_some.mp hy
  · intro hv
    refine ⟨(swapAtom a b x, v), Std.ExtTreeMap.mem_toList_iff_getElem?_eq_some.mpr hv, ?_⟩
    rw [swapAtom_swapAtom]

theorem Structure.isTrue_swap (M : Structure) (x : Atom) :
    (M.swap a b).isTrue x = M.isTrue (swapAtom a b x) := by
  rw [isTrue, getElem?_facts_swap, isTrue]

end Swap

/-- Two interchangeable elements have changed places. -/
def Swapped (S : Structure) (T : Theory) (M M' : Structure) : Prop :=
  ∃ J ∈ interchanges S T, ∃ ab ∈ J.swaps, M' = M.swap ab.1 ab.2

/-! ## Ranks -/

def rank (I : Atom → Bool) : List Atom → Nat
  | [] => 0
  | x :: xs => (if I x then 2 ^ xs.length else 0) + rank I xs

section Rank

variable {I I' : Atom → Bool} {x : Atom} {xs ys : List Atom}

theorem rank_lt_two_pow (I : Atom → Bool) (xs : List Atom) : rank I xs < 2 ^ xs.length := by
  induction xs with
  | nil => exact Nat.one_pos
  | cons x xs ih =>
      rw [rank, List.length_cons, Nat.pow_succ]
      split <;> omega

/-- The first atom at which they differ decides. -/
theorem rank_lt_rank (hxs : ∀ y ∈ xs, I' y = I y) (hx' : I' x = false) (hx : I x = true) :
    rank I' (xs ++ x :: ys) < rank I (xs ++ x :: ys) := by
  induction xs with
  | nil =>
      have hlt := rank_lt_two_pow I' ys
      rw [List.nil_append, rank, rank, hx', hx, if_neg Bool.false_ne_true, if_pos rfl]
      omega
  | cons y xs ih =>
      obtain ⟨hy, hxs⟩ := List.forall_mem_cons.mp hxs
      have hlt := ih hxs
      rw [List.cons_append, rank, rank, hy]
      omega

/-- What comes after its image differs from it for the first time at a true atom with a false
image. -/
theorem exists_of_not_precedes {ms : List Moved} (h : ¬ Precedes I ms) : ∃ before m after,
    ms = before ++ m :: after ∧ (∀ m' ∈ before, I m'.atom = I m'.image) ∧ I m.atom = true ∧
    I m.image = false := by
  induction ms with
  | nil => exact absurd trivial h
  | cons m ms ih =>
      by_cases heq : I m.atom = I m.image
      · have hrest : ¬ Precedes I ms := fun hms => h ⟨fun hm => heq ▸ hm, fun _ => hms⟩
        obtain ⟨before, m', after, rfl, hbefore, hm'⟩ := ih hrest
        exact ⟨m :: before, m', after, rfl, List.forall_mem_cons.mpr ⟨heq, hbefore⟩, hm'⟩
      · have hfirst : ¬ (I m.atom = true → I m.image = true) :=
          fun hm => h ⟨hm, fun h' => absurd h' heq⟩
        rw [Classical.not_imp, Bool.not_eq_true] at hfirst
        exact ⟨[], m, ms, rfl, fun _ hm' => absurd hm' List.not_mem_nil, hfirst⟩

end Rank

/-! ## Moved atoms among all atoms -/

section Moved

variable {S : Structure} {T : Theory} {a b : Element} {J : Interchange} {atoms : List Atom}

theorem atoms_eq_flatMap (h : Encoder.atomsOf S = .ok atoms) :
    atoms = S.vocabulary.symbolIds.flatMap S.atomsAt := by
  obtain ⟨domains, hdomains, rfl⟩ := Encoder.forall₂_of_atomsOf_eq_ok h
  rw [List.flatMap_def, List.flatMap_def]
  refine congrArg List.flatten (map_eq_map_of_forall₂ hdomains fun p pd hpd => ?_)
  obtain ⟨rfl, hds⟩ := hpd
  exact (Structure.atomsAt_of_graphDomains hds).symm

theorem movedOf_flatMap_filter {ps : List SymbolId} {keep : SymbolId → Bool}
    (h : ∀ p, keep p = false → S.movedOf a b (S.atomsAt p) = []) :
    S.movedOf a b ((ps.filter keep).flatMap S.atomsAt) = S.movedOf a b (ps.flatMap S.atomsAt) := by
  induction ps with
  | nil => rfl
  | cons p ps ih =>
      rw [List.flatMap_cons, Structure.movedOf_append, ← ih]
      cases hkeep : keep p with
      | true => rw [List.filter_cons_of_pos hkeep, List.flatMap_cons, Structure.movedOf_append]
      | false =>
        rw [List.filter_cons_of_neg (by rw [hkeep]; exact Bool.false_ne_true), h p hkeep,
          List.nil_append]

theorem exists_mem_of_swapTuple_ne {t : Tuple} (h : swapTuple a b t ≠ t) :
    ∃ e ∈ t, e = a ∨ e = b := by
  by_contra hnone
  push Not at hnone
  refine h ((List.map_congr_left fun e he => ?_).trans (List.map_id t))
  rw [swapElement, if_neg (hnone e he).1, if_neg (hnone e he).2]
  rfl

variable (hlength : S.tables.length = S.vocabulary.sorts.length) (hJ : J ∈ interchanges S T)
  (ha : a ∈ J.elements) (hb : b ∈ J.elements)
include hlength hJ ha hb

/-- Other symbols than those of an interchangeable set have no atoms that its swaps move. -/
theorem movedOf_atomsAt_eq_nil {p : SymbolId} (hp : p ∉ J.symbols) :
    S.movedOf a b (S.atomsAt p) = [] := by
  rw [Structure.movedOf, List.map_eq_nil_iff, List.filter_eq_nil_iff]
  intro x hx hmovable
  rw [Structure.isMovable, decide_eq_true_eq] at hmovable
  obtain ⟨e, he, heq⟩ := exists_mem_of_swapTuple_ne hmovable.1
  have hmem : e ∈ J.elements := by
    rcases heq with rfl | rfl
    · exact ha
    · exact hb
  obtain ⟨s, hs, hhas⟩ := Structure.inTables_iff.mp (Structure.inTables_of_mem_atomsAt hx)
  obtain ⟨t, -, rfl⟩ := List.mem_map.mp hx
  obtain ⟨sort, hsort, hhas⟩ := exists_left_of_forall₂ hhas he
  exact hp (mem_symbols_of_has hlength hJ hmem (Vocabulary.symbol_eq_ok_iff.mp hs) hsort hhas)

theorem movedOf_flatMap_symbols (hatoms : Encoder.atomsOf S = .ok atoms) :
    S.movedOf a b (J.symbols.flatMap S.atomsAt) = S.movedOf a b atoms := by
  obtain ⟨keep, hkeep⟩ := exists_symbols_eq_filter hJ
  rw [atoms_eq_flatMap hatoms, hkeep]
  refine movedOf_flatMap_filter fun p hp => movedOf_atomsAt_eq_nil hlength hJ ha hb fun hmem => ?_
  rw [hkeep, List.mem_filter, hp] at hmem
  exact Bool.false_ne_true hmem.2

omit hlength hJ ha hb

theorem exists_of_movedOf_eq_append {before after : List Moved} {m : Moved}
    (h : S.movedOf a b atoms = before ++ m :: after) : ∃ xs x ys, atoms = xs ++ x :: ys ∧
      S.movedOf a b xs = before ∧ m = ⟨x, swapAtom a b x⟩ := by
  rw [Structure.movedOf, List.map_eq_append_iff] at h
  obtain ⟨l₁, l₂, hfilter, rfl, hrest⟩ := h
  obtain ⟨x, l₃, rfl, rfl, -⟩ := List.map_eq_cons_iff.mp hrest
  obtain ⟨xs, zs, rfl, rfl, hzs⟩ := List.filter_eq_append_iff.mp hfilter
  obtain ⟨us, ys, rfl, hus, -, -⟩ := List.filter_eq_cons_iff.mp hzs
  refine ⟨xs ++ us, x, ys, (List.append_assoc _ _ _).symm, ?_, rfl⟩
  rw [Structure.movedOf, List.filter_append, List.filter_eq_nil_iff.mpr hus, List.append_nil]

end Moved

/-! ## Orbits -/

/-- Some structures are told apart by the truth that they give to atoms: known atoms have the same
truth in all of them, and where two interchangeable elements have changed places, each atom has the
truth of its image. -/
structure Exchanges (S : Structure) (T : Theory) (I : Structure → Atom → Bool)
    (K : Set Structure) : Prop where
  known : ∀ M ∈ K, ∀ M' ∈ K, ∀ x, S.InTables x → S.value x.symbol x.tuple ≠ .unknown →
    I M x = I M' x
  swap : ∀ M ∈ K, ∀ J ∈ interchanges S T, ∀ ab ∈ J.swaps, ∀ x, S.InTables x →
    I (M.swap ab.1 ab.2) x = I M (swapAtom ab.1 ab.2 x)
  closed : ∀ M ∈ K, ∀ M', Swapped S T M M' → M' ∈ K

namespace Exchanges

variable {S M : Structure} {T : Theory} {I : Structure → Atom → Bool} {K : Set Structure}
    {atoms : List Atom}
  (h : Exchanges S T I K)
include h

/-- A swap does not change the truth of the atoms that it does not move and of those that are
known. -/
theorem swap_of_not_movable (hM : M ∈ K) {J : Interchange} (hJ : J ∈ interchanges S T)
    {ab : Element × Element}
    (hab : ab ∈ J.swaps) {x : Atom} (hx : S.InTables x)
    (hmovable : ¬ S.isMovable ab.1 ab.2 x = true) :
    I (M.swap ab.1 ab.2) x = I M x := by
  rw [Structure.isMovable, decide_eq_true_eq, Classical.not_and_iff_not_or_not, not_not] at hmovable
  rcases hmovable with hfixed | hknown
  · rw [h.swap M hM J hJ ab hab x hx, swapAtom, hfixed]
  · exact h.known _ (h.closed M hM _ ⟨J, hJ, ab, hab, rfl⟩) M hM x hx hknown

variable (hatoms : Encoder.atomsOf S = .ok atoms)
    (hlength : S.tables.length = S.vocabulary.sorts.length)
include hatoms hlength

/-- Exchanging two elements lowers the rank of a structure that comes after its image. Before the
first atom at which they differ, what is moved has the truth of its image. -/
theorem rank_swap_lt (hM : M ∈ K) {J : Interchange} (hJ : J ∈ interchanges S T)
    {ab : Element × Element}
    (hab : ab ∈ J.swaps) {limit : Nat} {ms : Array Moved}
    (hms : moved S ab.1 ab.2 limit J.symbols #[] = .ok ms)
    (hnot : ¬ Precedes (I M) ms.toList) : rank (I (M.swap ab.1 ab.2)) atoms < rank (I M) atoms := by
  obtain ⟨ha, hb⟩ := mem_of_mem_swaps hab
  obtain ⟨ms', hms', rest, hrest⟩ := Structure.exists_moved ab.1 ab.2 limit
    (graphDomains_of_mem_interchange hatoms hJ) #[]
  cases hms.symm.trans hms'
  obtain ⟨before, m, after, hsplit, hbefore, hm, himage⟩ := exists_of_not_precedes hnot
  rw [hsplit, movedOf_flatMap_symbols hlength hJ ha hb hatoms, List.append_assoc,
    List.cons_append] at hrest
  obtain ⟨xs, x, ys, heq, hxs, rfl⟩ := exists_of_movedOf_eq_append hrest.symm
  have htables : ∀ y ∈ xs ++ x :: ys, S.InTables y :=
    fun y hy => (Encoder.mem_atomsOf hatoms).mp (heq ▸ hy)
  have hswap := fun y hy => h.swap M hM J hJ ab hab y (htables y hy)
  rw [heq]
  refine rank_lt_rank (fun y hy => ?_) ((hswap x (by simp)).trans himage) hm
  have hy' := List.mem_append_left (x :: ys) hy
  by_cases hmovable : S.isMovable ab.1 ab.2 y = true
  · have hmem : (⟨y, swapAtom ab.1 ab.2 y⟩ : Moved) ∈ before := by
      rw [← hxs]
      exact List.mem_map.mpr ⟨y, List.mem_filter.mpr ⟨hy, hmovable⟩, rfl⟩
    exact (hswap y hy').trans (hbefore _ hmem).symm
  · exact h.swap_of_not_movable hM hJ hab (htables y hy') hmovable

/-- Swaps lead from each of the structures to one that does not come after its images. -/
theorem exists_leading (limit : Nat) (hM : M ∈ K) :
    ∃ M' ∈ K, Relation.ReflTransGen (Swapped S T) M M' ∧
    ∀ J ∈ interchanges S T, J.Leads S limit (I M') := by
  induction hrank : rank (I M) atoms using Nat.strong_induction_on generalizing M with
  | h n ih =>
      subst hrank
      by_cases hleads : ∀ J ∈ interchanges S T, J.Leads S limit (I M)
      · exact ⟨M, hM, .refl, hleads⟩
      · push Not at hleads
        obtain ⟨J, hJ, hnot⟩ := hleads
        rw [Interchange.Leads] at hnot
        push Not at hnot
        obtain ⟨ab, hab, hnot⟩ := hnot
        obtain ⟨ms, hms, -⟩ := Structure.exists_moved ab.1 ab.2 limit
          (graphDomains_of_mem_interchange hatoms hJ) #[]
        have hswapped : Swapped S T M (M.swap ab.1 ab.2) := ⟨J, hJ, ab, hab, rfl⟩
        have hlt := h.rank_swap_lt hatoms hlength hM hJ hab hms (hnot ms hms)
        obtain ⟨M', hM', hreach, hleads⟩ := ih _ hlt (h.closed M hM _ hswapped) rfl
        exact ⟨M', hM', .head hswapped hreach, hleads⟩

end Exchanges

/-! ## Expansions -/

theorem Truth.exists_eq_ofBool {x : Truth} (h : x ≠ .unknown) : ∃ b, x = .ofBool b := by
  cases x with
  | yes => exact ⟨true, rfl⟩
  | no => exact ⟨false, rfl⟩
  | unknown => exact absurd rfl h

section Expansions

variable {S M M' : Structure} {T : Theory} {atoms : List Atom} {sentences : List Formula}

theorem keeps_of_isExpansion (h : S.IsExpansion sentences M) : S.Keeps (S.worldOf M.isTrue) := by
  intro a v hv
  change M.isTrue a = v
  rw [Structure.isTrue, h.keeps hv]
  cases v <;> rfl

variable (hatoms : Encoder.atomsOf S = .ok atoms)
include hatoms

theorem isTrue_eq_of_known (hM : S.IsExpansion sentences M)
    (hM' : S.IsExpansion sentences M') {x : Atom}
    (hx : S.InTables x) (hknown : S.value x.symbol x.tuple ≠ .unknown) :
    M.isTrue x = M'.isTrue x := by
  obtain ⟨v, hv⟩ := Truth.exists_eq_ofBool hknown
  rw [atom_eq_of_value hatoms (keeps_of_isExpansion hM) hM.totalOver.functional_worldOf hx hv,
    atom_eq_of_value hatoms (keeps_of_isExpansion hM') hM'.totalOver.functional_worldOf hx hv]

theorem exchanges_of_isExpansion {K : Set Structure} (hK : ∀ M ∈ K, S.IsExpansion sentences M)
    (hclosed : ∀ M ∈ K, ∀ M', Swapped S T M M' → M' ∈ K) : Exchanges S T Structure.isTrue K where
  known M hM M' hM' _ hx hknown := isTrue_eq_of_known hatoms (hK M hM) (hK M' hM') hx hknown
  swap M _ _ _ _ _ x _ := M.isTrue_swap x
  closed := hclosed

end Expansions

/-- Where the models that an expansion lists are closed under exchanging interchangeable elements,
breaking symmetry leaves out models only, and swaps lead from each model to one that is left. -/
theorem models_expand_breaking_covers {S : Structure} {T : Theory} {o o' : Options}
    {E E' : Expansion}
    {monitor₁ monitor₂ monitor₁' monitor₂' : Monitor}
    (hlength : S.tables.length = S.vocabulary.sorts.length)
    (hrun : expand (fun _ => false) o T S monitor₁ = (monitor₁', .ok E))
    (hraised : monitor₁'.raised = false)
    (hmodels : o.models = 0) (hunwanted : o.breakSymmetry = false) (hconflicts : o.maxConflicts = 0)
    (hrun' : expand (fun _ => false) o' T S monitor₂ = (monitor₂', .ok E'))
    (hraised' : monitor₂'.raised = false)
    (hmodels' : o'.models = 0) (hwanted : o'.breakSymmetry = true)
    (hconflicts' : o'.maxConflicts = 0)
    (hdefinitions : T.definitions = []) (hfixpoints : T.fixpoints = [])
    (htables : ∀ a v, S.facts[a]? = some v → S.InTables a)
    (hclosed : ∀ M ∈ E.models, ∀ M', Swapped S T M M' → M' ∈ E.models) :
    (∀ M ∈ E'.models, M ∈ E.models) ∧
      ∀ M ∈ E.models, ∃ M' ∈ E'.models, Relation.ReflTransGen (Swapped S T) M M' := by
  obtain ⟨-, hkept⟩ :=
    models_expand_breaking hrun' hraised' hmodels' hwanted hconflicts' hdefinitions
      hfixpoints htables
  rcases searches_of_expand hrun hmodels hunwanted hconflicts hdefinitions hfixpoints htables with
    ⟨rfl, hstopped⟩ | ⟨e, e', found, hsearch⟩
  · rw [hraised] at hstopped
    cases hstopped
  · obtain ⟨-, hlists⟩ := hsearch.lists hraised
    obtain ⟨atoms, hatoms⟩ := hsearch.listed
    constructor
    · intro M hM
      exact (hlists M).mpr ((hkept M).mp hM).1
    · intro M hM
      have hexchanges : Exchanges S T Structure.isTrue {M | M ∈ E.models} :=
        exchanges_of_isExpansion hatoms (fun M hM => (hlists M).mp hM) hclosed
      obtain ⟨M', hM', hreach, hleads⟩ := hexchanges.exists_leading hatoms hlength o'.chainLength hM
      exact ⟨M', (hkept M').mpr ⟨(hlists M').mp hM', hleads⟩, hreach⟩

/-- A predicate of one element and one of two numbers. -/
def census : Structure where
  vocabulary :=
    ⟨[⟨"person", []⟩, ⟨"number", []⟩], [⟨"present", [0], none⟩, ⟨"recorded", [1], none⟩]⟩
  tables := [.range 7 7, .range 1 2]
  facts := ∅

/-- The number of those who are present is recorded. -/
def recorded : Formula :=
  .pred 1
    [.aggregate .card
      (.comprehension [⟨0, "x", 0⟩] (.pred 0 [.var ⟨0, "x", 0⟩]) (.var ⟨0, "x", 0⟩))]

/-- No two numbers are recorded. -/
def recordedAtMostOnce : Formula :=
  .forAll [⟨0, "x", 1⟩, ⟨1, "y", 1⟩]
    (.implies (.conj [.pred 1 [.var ⟨0, "x", 1⟩], .pred 1 [.var ⟨1, "y", 1⟩]])
    (.compare (.var ⟨0, "x", 1⟩) .eq (.var ⟨1, "y", 1⟩)))

/-- Numbers that are compared with a count are interchangeable nevertheless, although the only model
does not stay one when they are exchanged: one person is present, and of the two numbers one is
recorded. -/
example :
    interchanges census ⟨[], [], [recorded, recordedAtMostOnce]⟩ = [⟨[.int 1, .int 2], [1], [1]⟩] :=
  by cbv

example :
    (expand (fun _ => false) { models := 0 } ⟨[], [], [recorded, recordedAtMostOnce]⟩ census
      {}).2.toOption.map
    (fun E => E.models.map fun M => (M.isTrue ⟨1, [.int 1]⟩, M.isTrue ⟨1, [.int 2]⟩)) =
      some [(true, false)] := by decide +kernel

end ModelExpansion
