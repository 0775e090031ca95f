import Mathlib.Data.List.Sort
import Mathlib.Algebra.Group.End
import ModelExpansion.Proofs.Dependencies
import ModelExpansion.Proofs.Interchange.Detection

/-! # Interchangeable sets are classes
Grouping by an equivalence divides a list into its classes. To exchange two elements without a
change of the facts is an equivalence, and elements for which this holds occur equally often
everywhere. So the sets that are found, whatever sorts they are found in, are the classes of one
equivalence of elements. -/

namespace ModelExpansion

/-! ## Ascending lists -/

section Ascending

variable {α : Type} [Ord α] [Std.OrientedOrd α] {xs ys : List α}

theorem Ascending.nodup (h : Ascending xs) : xs.Nodup := by
  refine h.imp fun hlt heq => ?_
  rw [heq] at hlt
  cases hlt.symm.trans Std.ReflCmp.compare_self

theorem Ascending.eq_of_mem_iff (hxs : Ascending xs) (hys : Ascending ys)
    (h : ∀ x, x ∈ xs ↔ x ∈ ys) : xs = ys := by
  have hperm : xs.Perm ys := (List.perm_ext_iff_of_nodup hxs.nodup hys.nodup).mpr h
  refine hperm.eq_of_pairwise (fun x y _ _ hxy hyx => ?_) hxs hys
  cases hyx.symm.trans (Std.OrientedCmp.gt_of_lt hxy)

end Ascending

/-! ## Groups of an equivalence -/

section Groups

variable {α : Type} {related : α → α → Bool} {items : List α} {groups : List (List α)} {x y : α}

/-- An item goes to the end of the first group that it is related to, or makes a new group. -/
theorem insertIntoGroup_cases (related : α → α → Bool) (x : α) (groups : List (List α)) :
    ((∀ g ∈ groups, ∀ y ∈ g.head?, related y x = false) ∧
      insertIntoGroup related x groups = groups ++ [[x]]) ∨
    ∃ before g after, ∃ y ∈ g.head?, groups = before ++ g :: after ∧ related y x = true ∧
      insertIntoGroup related x groups = before ++ (g ++ [x]) :: after := by
  induction groups with
  | nil => exact .inl ⟨fun g hg => absurd hg List.not_mem_nil, rfl⟩
  | cons g groups ih =>
      rw [insertIntoGroup]
      by_cases hhead : g.head?.any (fun y => related y x) = true
      · obtain ⟨y, hy, hrelated⟩ := (Option.any_eq_true _ _).mp hhead
        exact .inr ⟨[], g, groups, y, hy, rfl, hrelated, if_pos hhead⟩
      · rw [if_neg hhead]
        rcases ih with ⟨hnone, heq⟩ | ⟨before, g', after, y, hy, rfl, hrelated, heq⟩
        · refine .inl ⟨List.forall_mem_cons.mpr ⟨fun y hy => ?_, hnone⟩, by rw [heq]; rfl⟩
          rw [← Bool.not_eq_true]
          exact fun hrelated => hhead ((Option.any_eq_true _ _).mpr ⟨y, hy, hrelated⟩)
        · exact .inr ⟨g :: before, g', after, y, hy, rfl, hrelated, by rw [heq]; rfl⟩

/-- Each group consists of the items that are related to any of its members, groups are apart, and
every item is in one. -/
structure Classified (related : α → α → Bool) (items : List α) (groups : List (List α)) : Prop where
  nonempty : ∀ g ∈ groups, g ≠ []
  eq_filter : ∀ g ∈ groups, ∀ x ∈ g, g = items.filter (related x)
  apart : groups.Pairwise fun g h => ∀ x ∈ g, ∀ y ∈ h, related x y = false
  covers : ∀ x ∈ items, ∃ g ∈ groups, x ∈ g

theorem filter_append_of_related (h : related x y = true) (items : List α) :
    (items ++ [y]).filter (related x) = items.filter (related x) ++ [y] := by
  rw [List.filter_append, List.filter_singleton, h, cond_true]

theorem filter_append_of_not_related (h : related x y = false) (items : List α) :
    (items ++ [y]).filter (related x) = items.filter (related x) := by
  rw [List.filter_append, List.filter_singleton, h, cond_false, List.append_nil]

variable (hrelated : Equivalence fun x y => related x y = true)
include hrelated

theorem filter_eq_of_related (h : related x y = true) (items : List α) :
    items.filter (related x) = items.filter (related y) := by
  refine List.filter_congr fun z _ => Bool.eq_iff_iff.mpr ?_
  exact ⟨hrelated.trans (hrelated.symm h), hrelated.trans h⟩

/-- An item that is related to no member makes a group of its own. -/
theorem Classified.add (h : Classified related items groups)
    (hx : ∀ g ∈ groups, ∀ y ∈ g, related y x = false) :
    Classified related (items ++ [x]) (groups ++ [[x]]) where
  nonempty := List.forall_mem_append.mpr ⟨h.nonempty, by simp⟩
  eq_filter := by
    refine List.forall_mem_append.mpr ⟨fun g hg y hy => ?_, ?_⟩
    · rw [filter_append_of_not_related (hx g hg y hy)]
      exact h.eq_filter g hg y hy
    · simp only [List.forall_mem_singleton]
      have hnone : items.filter (related x) = [] := by
        refine List.filter_eq_nil_iff.mpr fun y hy hxy => ?_
        obtain ⟨g, hg, hmem⟩ := h.covers y hy
        exact Bool.false_ne_true ((hx g hg y hmem).symm.trans (hrelated.symm hxy))
      rw [filter_append_of_related (hrelated.refl x), hnone]
      rfl
  apart := by
    refine List.pairwise_append.mpr ⟨h.apart, List.pairwise_singleton _ _, fun g hg => ?_⟩
    simpa only [List.forall_mem_singleton] using hx g hg
  covers := by
    refine List.forall_mem_append.mpr ⟨fun y hy => ?_, by simp⟩
    obtain ⟨g, hg, hmem⟩ := h.covers y hy
    exact ⟨g, List.mem_append_left _ hg, hmem⟩

/-- An item that is related to a member of a group is related to no member of another one. -/
theorem Classified.not_related {before after : List (List α)} {g : List α}
    (h : Classified related items (before ++ g :: after)) (hy : y ∈ g) (hyx : related y x = true) :
    (∀ g' ∈ before, ∀ z ∈ g', related z x = false) ∧ ∀ g' ∈ after, ∀ z ∈ g',
      related z x = false := by
  obtain ⟨-, hrest, hcross⟩ := List.pairwise_append.mp h.apart
  obtain ⟨hafter, -⟩ := List.pairwise_cons.mp hrest
  constructor
  · intro g' hg' z hz
    rw [← Bool.not_eq_true]
    intro hzx
    have hapart := hcross g' hg' g List.mem_cons_self z hz y hy
    exact Bool.false_ne_true (hapart.symm.trans (hrelated.trans hzx (hrelated.symm hyx)))
  · intro g' hg' z hz
    rw [← Bool.not_eq_true]
    intro hzx
    exact Bool.false_ne_true
      ((hafter g' hg' y hy z hz).symm.trans (hrelated.trans hyx (hrelated.symm hzx)))

theorem Classified.extend {before after : List (List α)} {g : List α}
    (h : Classified related items (before ++ g :: after)) (hy : y ∈ g) (hyx : related y x = true) :
    Classified related (items ++ [x]) (before ++ (g ++ [x]) :: after) := by
  obtain ⟨hbefore, hafter⟩ := h.not_related hrelated hy hyx
  have hclass := h.eq_filter g (List.mem_append_right _ List.mem_cons_self)
  constructor
  · have hnonempty := h.nonempty
    simp only [List.forall_mem_append, List.forall_mem_cons] at hnonempty ⊢
    exact ⟨hnonempty.1, by simp, hnonempty.2.2⟩
  · have hothers := h.eq_filter
    simp only [List.forall_mem_append, List.forall_mem_cons] at hothers ⊢
    refine ⟨fun g' hg' z hz => ?_, ⟨fun z hz => ?_, ?_⟩, fun g' hg' z hz => ?_⟩
    · rw [filter_append_of_not_related (hbefore g' hg' z hz)]
      exact hothers.1 g' hg' z hz
    · have hyz := hz
      rw [hclass y hy, List.mem_filter] at hyz
      rw [filter_append_of_related (hrelated.trans (hrelated.symm hyz.2) hyx), ← hclass z hz]
    · refine ⟨?_, fun z hz => absurd hz List.not_mem_nil⟩
      rw [filter_append_of_related (hrelated.refl x), ← filter_eq_of_related hrelated hyx,
        ← hclass y hy]
    · rw [filter_append_of_not_related (hafter g' hg' z hz)]
      exact hothers.2.2 g' hg' z hz
  · obtain ⟨hpairwise, hrest, hcross⟩ := List.pairwise_append.mp h.apart
    obtain ⟨hcrossAfter, hpairwiseAfter⟩ := List.pairwise_cons.mp hrest
    refine List.pairwise_append.mpr
      ⟨hpairwise, List.pairwise_cons.mpr ⟨fun g' hg' => ?_, hpairwiseAfter⟩,
      fun g' hg' => ?_⟩
    · refine List.forall_mem_append.mpr
        ⟨hcrossAfter g' hg', List.forall_mem_singleton.mpr fun z hz => ?_⟩
      rw [← Bool.not_eq_true]
      exact fun hxz => Bool.false_ne_true ((hafter g' hg' z hz).symm.trans (hrelated.symm hxz))
    · refine List.forall_mem_cons.mpr
        ⟨fun z hz => ?_, fun g'' hg'' => hcross g' hg' g'' (List.mem_cons_of_mem _ hg'')⟩
      refine List.forall_mem_append.mpr ⟨hcross g' hg' g List.mem_cons_self z hz, ?_⟩
      exact List.forall_mem_singleton.mpr (hbefore g' hg' z hz)
  · refine List.forall_mem_append.mpr ⟨fun z hz => ?_, List.forall_mem_singleton.mpr ?_⟩
    · obtain ⟨g', hg', hmem⟩ := h.covers z hz
      rcases List.mem_append.mp hg' with hg' | hg'
      · exact ⟨g', List.mem_append_left _ hg', hmem⟩
      · rcases List.mem_cons.mp hg' with rfl | hg'
        · exact ⟨g' ++ [x], List.mem_append_right _ List.mem_cons_self, List.mem_append_left _ hmem⟩
        · exact ⟨g', List.mem_append_right _ (List.mem_cons_of_mem _ hg'), hmem⟩
    · exact ⟨g ++ [x], List.mem_append_right _ List.mem_cons_self,
        List.mem_append_right _ List.mem_cons_self⟩

theorem Classified.insert (h : Classified related items groups) (x : α) :
    Classified related (items ++ [x]) (insertIntoGroup related x groups) := by
  rcases insertIntoGroup_cases related x groups with ⟨hnone, heq⟩
    | ⟨before, g, after, y, hy, rfl, hyx, heq⟩
  · rw [heq]
    refine h.add hrelated fun g hg z hz => ?_
    obtain ⟨y, g', rfl⟩ := List.exists_cons_of_ne_nil (h.nonempty g hg)
    have hyx := hnone _ hg y rfl
    rw [h.eq_filter _ hg y List.mem_cons_self, List.mem_filter] at hz
    rw [← Bool.not_eq_true]
    exact fun hzx => Bool.false_ne_true (hyx.symm.trans (hrelated.trans hz.2 hzx))
  · rw [heq]
    exact h.extend hrelated (List.mem_of_mem_head? hy) hyx

theorem classified_groupBy (items : List α) : Classified related items (groupBy related items) := by
  have hfold : ∀ (xs ys : List α) (groups : List (List α)), Classified related ys groups →
      Classified related (ys ++ xs)
      (xs.foldl (fun groups x => insertIntoGroup related x groups) groups) := by
    intro xs
    induction xs with
    | nil =>
        intro ys groups h
        rwa [List.append_nil]
    | cons x xs ih =>
        intro ys groups h
        rw [List.append_cons]
        exact ih _ _ (h.insert hrelated x)
  exact hfold items [] [] ⟨by simp, by simp, List.Pairwise.nil, by simp⟩

/-- The groups are the classes of the items. -/
theorem mem_groupBy_iff {g : List α} :
    g ∈ groupBy related items ↔ ∃ x ∈ items, g = items.filter (related x) := by
  have h := classified_groupBy hrelated items
  constructor
  · intro hg
    obtain ⟨x, hx⟩ := List.exists_mem_of_ne_nil g (h.nonempty g hg)
    have heq := h.eq_filter g hg x hx
    refine ⟨x, ?_, heq⟩
    rw [heq] at hx
    exact (List.mem_filter.mp hx).1
  · rintro ⟨x, hx, rfl⟩
    obtain ⟨g, hg, hmem⟩ := h.covers x hx
    rwa [← h.eq_filter g hg x hmem]

end Groups

/-! ## Swaps that change no fact -/

section Swaps

variable {a b c : Element}

theorem swapElement_eq_swap (a b : Element) : swapElement a b = Equiv.swap a b :=
  funext fun e => (Equiv.swap_apply_def a b e).symm

theorem swapElement_comm (a b : Element) : swapElement a b = swapElement b a := by
  rw [swapElement_eq_swap, swapElement_eq_swap, Equiv.swap_comm]

theorem swapElement_conj (hbc : b ≠ c) (hac : a ≠ c) (e : Element) :
    swapElement a c e = swapElement a b (swapElement b c (swapElement a b e)) := by
  have hconj := Equiv.swap_mul_swap_mul_swap (x := c) (y := b) (z := a) hbc.symm hac.symm
  rw [swapElement_comm a b, swapElement_comm b c]
  simp only [swapElement_eq_swap, ← hconj, Equiv.Perm.mul_apply]

theorem swapAtom_self (x : Atom) : swapAtom a a x = x := by
  have hid : swapElement a a = id := by
    rw [swapElement_eq_swap, Equiv.swap_self]
    rfl
  rw [swapAtom, swapTuple, hid, List.map_id]

theorem swapAtom_comm (x : Atom) : swapAtom a b x = swapAtom b a x := by
  rw [swapAtom, swapAtom, swapTuple, swapTuple, swapElement_comm]

theorem swapAtom_conj (hbc : b ≠ c) (hac : a ≠ c) (x : Atom) :
    swapAtom a c x = swapAtom a b (swapAtom b c (swapAtom a b x)) := by
  simp only [swapAtom, swapTuple, List.map_map]
  refine congrArg _ (List.map_congr_left fun e _ => ?_)
  exact swapElement_conj hbc hac e

variable {S : Structure}

theorem mem_certainFacts_iff {x : Atom} {v : Bool} :
    (x, v) ∈ S.certainFacts ↔ S.facts[x]? = some v :=
  Std.ExtTreeMap.mem_toList_iff_getElem?_eq_some

theorem swapInvariant_iff :
    swapInvariant S a b = true ↔ ∀ x, S.facts[swapAtom a b x]? = S.facts[x]? := by
  rw [swapInvariant, List.all_eq_true]
  constructor
  · intro h x
    have hkept : ∀ {x v}, S.facts[x]? = some v → S.facts[swapAtom a b x]? = some v :=
      fun {x v} hv =>
      beq_iff_eq.mp (h (x, v) (mem_certainFacts_iff.mpr hv))
    refine Option.ext fun v => ⟨fun hv => ?_, hkept⟩
    have hback := hkept hv
    rwa [swapAtom_swapAtom] at hback
  · rintro h ⟨x, v⟩ hx
    rw [h, beq_iff_eq]
    exact mem_certainFacts_iff.mp hx

theorem equivalence_swapInvariant (S : Structure) :
    Equivalence fun a b => swapInvariant S a b = true where
  refl a := swapInvariant_iff.mpr fun x => by rw [swapAtom_self]
  symm {a b} h := swapInvariant_iff.mpr fun x => by rw [swapAtom_comm, swapInvariant_iff.mp h]
  trans {a b c} hab hbc := by
    by_cases hac : a = c
    · exact swapInvariant_iff.mpr fun x => by rw [hac, swapAtom_self]
    · by_cases heq : b = c
      · rwa [← heq]
      · rw [swapInvariant_iff] at hab hbc ⊢
        intro x
        rw [swapAtom_conj heq hac, hab, hbc, hab]

/-- Exchanging two elements rearranges the facts that it does not change. -/
theorem perm_certainFacts (h : swapInvariant S a b = true) :
    (S.certainFacts.map fun f => (swapAtom a b f.1, f.2)).Perm S.certainFacts := by
  have hnodup : S.certainFacts.Nodup := by
    refine List.Nodup.of_map Prod.fst ?_
    rw [Structure.certainFacts, Std.ExtTreeMap.map_fst_toList_eq_keys]
    exact Std.ExtTreeMap.nodup_keys
  have hinjective : Function.Injective fun f : Atom × Bool => (swapAtom a b f.1, f.2) := by
    rintro ⟨x, v⟩ ⟨y, w⟩ heq
    obtain ⟨hxy, hvw⟩ := Prod.mk.inj heq
    exact Prod.ext (swapAtom_injective hxy) hvw
  refine (List.perm_ext_iff_of_nodup (hnodup.map hinjective) hnodup).mpr fun ⟨x, v⟩ => ?_
  rw [List.mem_map, mem_certainFacts_iff]
  constructor
  · rintro ⟨⟨y, w⟩, hy, heq⟩
    cases heq
    rw [swapInvariant_iff.mp h]
    exact mem_certainFacts_iff.mp hy
  · intro hx
    refine ⟨(swapAtom a b x, v), mem_certainFacts_iff.mpr ?_, by rw [swapAtom_swapAtom]⟩
    rwa [swapInvariant_iff.mp h]

theorem countAt_eq_of_swapInvariant (h : swapInvariant S a b = true) (p : SymbolId)
    (i : Nat) (v : Bool) :
    countAt S.certainFacts a p i v = countAt S.certainFacts b p i v := by
  have hat : ∀ t : Tuple, (swapTuple a b t)[i]? = some b ↔ t[i]? = some a := by
    intro t
    rw [swapTuple, List.getElem?_map, Option.map_eq_some_iff]
    constructor
    · rintro ⟨e, he, heq⟩
      rw [swapElement_eq_swap] at heq
      have hea : e = a := (Equiv.swap a b).injective (heq.trans (Equiv.swap_apply_left a b).symm)
      rw [he, hea]
    · intro ha
      exact ⟨a, ha, by rw [swapElement_eq_swap, Equiv.swap_apply_left]⟩
  calc countAt S.certainFacts a p i v
      = countAt (S.certainFacts.map fun f => (swapAtom a b f.1, f.2)) b p i v := by
        rw [countAt, countAt, List.countP_map]
        refine List.countP_congr fun f _ => ?_
        simp [swapAtom, hat]
    _ = countAt S.certainFacts b p i v := (perm_certainFacts h).countP_eq _

end Swaps

/-! ## Classes of elements -/

section Classes

variable {S : Structure} {named elements g : List Element} {a b : Element}

/-- Whether two elements have the same signature and can be exchanged without a change of the
facts. -/
def exchangeable (S : Structure) (named : List Element) (a b : Element) : Bool :=
  signature S S.certainFacts named a == signature S S.certainFacts named b && swapInvariant S a b

theorem exchangeable_iff : exchangeable S named a b = true ↔
    signature S S.certainFacts named a = signature S S.certainFacts named b ∧
    swapInvariant S a b = true := by
  rw [exchangeable, Bool.and_eq_true, beq_iff_eq]

theorem equivalence_exchangeable (S : Structure) (named : List Element) :
    Equivalence fun a b => exchangeable S named a b = true where
  refl a := exchangeable_iff.mpr ⟨rfl, (equivalence_swapInvariant S).refl a⟩
  symm h := by
    rw [exchangeable_iff] at h ⊢
    exact ⟨h.1.symm, (equivalence_swapInvariant S).symm h.2⟩
  trans h h' := by
    rw [exchangeable_iff] at h h' ⊢
    exact ⟨h.1.trans h'.1, (equivalence_swapInvariant S).trans h.2 h'.2⟩

/-- Two elements have the same place among some elements only if they are not there. -/
theorem idxOf?_eq_iff (hab : a ≠ b) : named.idxOf? a = named.idxOf? b ↔ a ∉ named ∧ b ∉ named := by
  rw [← List.idxOf?_eq_none_iff, ← List.idxOf?_eq_none_iff]
  constructor
  · intro heq
    cases ha : named.idxOf? a with
    | none => exact ⟨rfl, heq.symm.trans ha⟩
    | some i =>
        obtain ⟨_, hia, -⟩ := List.idxOf?_eq_some_iff.mp ha
        obtain ⟨_, hib, -⟩ := List.idxOf?_eq_some_iff.mp (heq.symm.trans ha)
        exact absurd (hia.symm.trans hib) hab
  · rintro ⟨ha, hb⟩
    rw [ha, hb]

/-- Of the signature only the tables and the names matter, since the swap preserves how often the
elements occur. -/
theorem exchangeable_iff_of_ne (hab : a ≠ b) : exchangeable S named a b = true ↔
    S.SameTables a b ∧ (a ∉ named ∧ b ∉ named) ∧ swapInvariant S a b = true := by
  rw [exchangeable_iff, ← and_assoc]
  refine and_congr_left fun hswap => ?_
  have hcounts : ∀ q ∈ positions S.vocabulary,
      (countAt S.certainFacts a q.1 q.2 true, countAt S.certainFacts a q.1 q.2 false) =
        (countAt S.certainFacts b q.1 q.2 true, countAt S.certainFacts b q.1 q.2 false) := by
    intro q _
    rw [countAt_eq_of_swapInvariant hswap, countAt_eq_of_swapInvariant hswap]
  rw [signature, signature, Signature.mk.injEq, and_iff_right (List.map_congr_left hcounts),
    List.map_inj_left, idxOf?_eq_iff hab, Structure.SameTables]

theorem mem_signatureClasses_iff : g ∈ signatureClasses S named elements ↔ (∃ e ∈ elements,
    g = elements.filter fun e' => signature S S.certainFacts named e ==
    signature S S.certainFacts named e') ∧
      1 < g.length := by
  have hsame : Equivalence fun x y : Element × Signature => (x.2 == y.2) = true :=
    ⟨fun _ => beq_iff_eq.mpr rfl, fun h => beq_iff_eq.mpr (beq_iff_eq.mp h).symm,
      fun h h' => beq_iff_eq.mpr ((beq_iff_eq.mp h).trans (beq_iff_eq.mp h'))⟩
  have hfilter :
      ∀ e, ((elements.map fun e => (e, signature S S.certainFacts named e)).filter fun y =>
      signature S S.certainFacts named e == y.2).map Prod.fst =
        elements.filter fun e' => signature S S.certainFacts named e ==
        signature S S.certainFacts named e' := by
    intro e
    rw [List.filter_map, List.map_map]
    exact List.map_id _
  rw [signatureClasses, List.mem_filter, List.mem_map, decide_eq_true_eq]
  refine and_congr_left fun _ => ?_
  constructor
  · rintro ⟨g, hg, rfl⟩
    obtain ⟨x, hx, rfl⟩ := (mem_groupBy_iff hsame).mp hg
    obtain ⟨e, he, rfl⟩ := List.mem_map.mp hx
    exact ⟨e, he, hfilter e⟩
  · rintro ⟨e, he, rfl⟩
    exact ⟨_, (mem_groupBy_iff hsame).mpr ⟨_, List.mem_map.mpr ⟨e, he, rfl⟩, rfl⟩, hfilter e⟩

/-- The groups are the classes of exchangeable elements with two of them at least. -/
theorem mem_interchangeGroups_iff : g ∈ interchangeGroups S named elements ↔
    (∃ e ∈ elements, g = elements.filter (exchangeable S named e)) ∧ 1 < g.length := by
  have hfilter : ∀ e, (elements.filter fun e' =>
      signature S S.certainFacts named e == signature S S.certainFacts named e').filter
        (swapInvariant S e) =
        elements.filter (exchangeable S named e) := by
    intro e
    rw [List.filter_filter]
    exact List.filter_congr fun e' _ => Bool.and_comm _ _
  rw [interchangeGroups, List.mem_filter, List.mem_flatMap, decide_eq_true_eq]
  refine and_congr_left fun hlength => ?_
  constructor
  · rintro ⟨c, hc, hg⟩
    obtain ⟨⟨e, he, rfl⟩, -⟩ := mem_signatureClasses_iff.mp hc
    obtain ⟨e', he', rfl⟩ := (mem_groupBy_iff (equivalence_swapInvariant S)).mp hg
    rw [List.mem_filter, beq_iff_eq] at he'
    refine ⟨e', he'.1, ?_⟩
    rw [he'.2]
    exact hfilter e'
  · rintro ⟨e, he, rfl⟩
    refine ⟨_, mem_signatureClasses_iff.mpr ⟨⟨e, he, rfl⟩, ?_⟩,
      (mem_groupBy_iff (equivalence_swapInvariant S)).mpr ⟨e, ?_, (hfilter e).symm⟩⟩
    · rw [← hfilter e] at hlength
      exact hlength.trans_le (List.length_filter_le _ _)
    · exact List.mem_filter.mpr ⟨he, beq_iff_eq.mpr rfl⟩

end Classes

/-! ## Interchangeable sets -/

/-- A declared sort that may have interchangeable elements: its table is finite with two elements at
least, no sort above or below it has arithmetic meaning, and some symbol ranges over it or a sort
above. -/
structure Qualifies (S : Structure) (T : Theory) (sort : SortId) : Prop where
  declared : sort ∈ S.vocabulary.sortIds
  finite : ∃ es, S.domain sort = .ok es ∧ 2 ≤ es.length
  arithmetic : ∀ s, s ∈ S.vocabulary.ancestors sort ∨ s ∈ S.vocabulary.descendants sort →
    s ∉ T.arithmeticSorts S.vocabulary
  touched : ∃ s ∈ S.vocabulary.symbols, ∃ t ∈ s.graphSorts, t ∈ S.vocabulary.ancestors sort

section Interchanges

variable {S : Structure} {T : Theory} {arithmetic : SortSet} {sort : SortId} {a b : Element}

/-- All elements of a sort are candidates, or none. -/
theorem candidates_eq_of_qualifies (h : Qualifies S T sort) {es : List Element}
    (hes : S.domain sort = .ok es) :
    candidates S (T.arithmeticSorts S.vocabulary) sort = es := by
  obtain ⟨es', hes', hlength⟩ := h.finite
  cases hes.symm.trans hes'
  have harithmetic : ¬ (S.vocabulary.ancestors sort ∪ S.vocabulary.descendants sort).toList.any
      (T.arithmeticSorts S.vocabulary).contains = true := by
    rw [List.any_eq_true]
    rintro ⟨s, hs, hcontains⟩
    rw [Std.ExtTreeSet.mem_toList, Std.ExtTreeSet.mem_union_iff] at hs
    exact h.arithmetic s hs hcontains
  have htouched :
      S.vocabulary.symbols.any (fun s => s.touches (S.vocabulary.ancestors sort)) = true := by
    obtain ⟨s, hs, t, ht, hancestor⟩ := h.touched
    exact List.any_eq_true.mpr ⟨s, hs, List.any_eq_true.mpr ⟨t, ht, hancestor⟩⟩
  rw [Structure.domain, Except.bind_eq_ok] at hes
  obtain ⟨t, ht, hes⟩ := hes
  have htable : S.tables.getD sort .empty = t := by
    rw [List.getD_eq_getElem?_getD]
    rw [Structure.table] at ht
    split at ht
    · rename_i heq
      cases ht
      rw [heq, Option.getD_some]
    · cases ht
  rw [candidates, htable]
  cases helements : t.elements? with
  | none =>
      rw [helements] at hes
      cases hes
  | some elements =>
      rw [helements] at hes
      cases hes
      dsimp only
      rw [if_neg harithmetic, if_pos htouched, if_pos (Nat.lt_of_succ_le hlength)]

theorem mem_recorded_iff {p : SymbolId} {v : Bool} {t : Tuple} :
    t ∈ S.recorded p v ↔ S.facts[(⟨p, t⟩ : Atom)]? = some v := by
  rw [Structure.recorded, List.mem_map, ← mem_certainFacts_iff]
  constructor
  · rintro ⟨⟨⟨q, u⟩, w⟩, hf, rfl⟩
    rw [List.mem_filter, Bool.and_eq_true, beq_iff_eq, beq_iff_eq] at hf
    obtain ⟨hmem, rfl, rfl⟩ := hf
    exact hmem
  · intro hmem
    exact ⟨(⟨p, t⟩, v), List.mem_filter.mpr ⟨hmem, by simp⟩, rfl⟩

/-- A swap changes no fact if it maps the true and the false tuples of each symbol onto
themselves. -/
theorem swapInvariant_iff_image : swapInvariant S a b = true ↔
    ∀ p v, swapTuple a b '' {t | t ∈ S.recorded p v} = {t | t ∈ S.recorded p v} := by
  have himage : ∀ p v t, t ∈ swapTuple a b '' {t | t ∈ S.recorded p v} ↔
      S.facts[swapAtom a b ⟨p, t⟩]? = some v := by
    intro p v t
    constructor
    · rintro ⟨u, hu, rfl⟩
      have hback : swapAtom a b ⟨p, swapTuple a b u⟩ = ⟨p, u⟩ := swapAtom_swapAtom ⟨p, u⟩
      rw [hback]
      exact mem_recorded_iff.mp hu
    · intro ht
      exact ⟨swapTuple a b t, mem_recorded_iff.mpr ht,
        congrArg Atom.tuple (swapAtom_swapAtom ⟨p, t⟩)⟩
  rw [swapInvariant_iff]
  constructor
  · intro h p v
    refine Set.ext fun t => ?_
    rw [himage, h]
    exact mem_recorded_iff.symm
  · intro h x
    refine Option.ext fun v => ?_
    rw [← himage, h]
    exact mem_recorded_iff

theorem sameTables_of_exchangeable {named : List Element} (h : exchangeable S named a b = true) :
    S.SameTables a b :=
  List.map_inj_left.mp (congrArg Signature.sorts (exchangeable_iff.mp h).1)

theorem mem_candidates_of_sameTables (h : S.SameTables a b)
    (ha : a ∈ candidates S arithmetic sort) :
    b ∈ candidates S arithmetic sort := by
  rcases candidates_cases S arithmetic sort with hnil | hdomain
  · rw [hnil] at ha
    exact absurd ha List.not_mem_nil
  · rw [← Structure.has_iff_mem hdomain] at ha ⊢
    have hhas := h.has_swapElement ha
    rwa [swapElement, if_pos rfl] at hhas

theorem ascending_candidates (S : Structure) (arithmetic : SortSet) (sort : SortId) :
    Ascending (candidates S arithmetic sort) := by
  rcases candidates_cases S arithmetic sort with hnil | hdomain
  · rw [hnil]
    exact List.Pairwise.nil
  · rw [Structure.domain, Except.bind_eq_ok] at hdomain
    obtain ⟨t, -, hdomain⟩ := hdomain
    split at hdomain
    · rename_i helements
      cases hdomain
      exact Table.sorted_elements helements
    · cases hdomain

/-- Two classes with a common element are the same, whatever sorts they are from. -/
theorem class_unique {named g h : List Element} {sort sort' : SortId} {e : Element}
    (hg : g ∈ interchangeGroups S named (candidates S arithmetic sort))
    (hh : h ∈ interchangeGroups S named (candidates S arithmetic sort')) (heg : e ∈ g)
    (heh : e ∈ h) : g = h := by
  have hclass : ∀ {sort g}, g ∈ interchangeGroups S named (candidates S arithmetic sort) → e ∈ g →
      e ∈ candidates S arithmetic sort ∧ g = (candidates S arithmetic sort).filter
      (exchangeable S named e) := by
    intro sort g hg he
    obtain ⟨⟨e', -, rfl⟩, -⟩ := mem_interchangeGroups_iff.mp hg
    rw [List.mem_filter] at he
    exact ⟨he.1, filter_eq_of_related (equivalence_exchangeable S named) he.2 _⟩
  obtain ⟨hmem, rfl⟩ := hclass hg heg
  obtain ⟨hmem', rfl⟩ := hclass hh heh
  have hsub : ∀ {sort sort' x}, e ∈ candidates S arithmetic sort' →
      x ∈ (candidates S arithmetic sort).filter (exchangeable S named e) →
      x ∈ (candidates S arithmetic sort').filter (exchangeable S named e) := by
    intro sort sort' x he hx
    obtain ⟨-, hex⟩ := List.mem_filter.mp hx
    exact List.mem_filter.mpr
      ⟨mem_candidates_of_sameTables (sameTables_of_exchangeable hex) he, hex⟩
  exact Ascending.eq_of_mem_iff ((ascending_candidates S arithmetic sort).filter _)
    ((ascending_candidates S arithmetic sort').filter _) fun x => ⟨hsub hmem', hsub hmem⟩

theorem nodup_eraseDups {α : Type} [BEq α] [LawfulBEq α] (xs : List α) : xs.eraseDups.Nodup := by
  induction hlength : xs.length using Nat.strong_induction_on generalizing xs with
  | h n ih =>
      subst hlength
      cases xs with
      | nil => exact List.nodup_nil
      | cons x xs =>
          rw [List.eraseDups_cons]
          refine List.nodup_cons.mpr
            ⟨?_, ih _ (Nat.lt_succ_of_le (List.length_filter_le _ _)) _ rfl⟩
          simp

theorem mem_interchanges_iff {I : Interchange} :
    I ∈ interchanges S T ↔ ∃ sort ∈ S.vocabulary.sortIds,
    ∃ g ∈ interchangeGroups S (ascending T.elements)
    (candidates S (T.arithmeticSorts S.vocabulary) sort),
      I = .ofGroup S g := by
  rw [interchanges, List.mem_map]
  simp only [List.mem_eraseDups, List.mem_flatMap]
  constructor
  · rintro ⟨g, ⟨sort, hsort, hg⟩, rfl⟩
    exact ⟨sort, hsort, g, hg, rfl⟩
  · rintro ⟨sort, hsort, g, hg, rfl⟩
    exact ⟨g, ⟨sort, hsort, hg⟩, rfl⟩

theorem nodup_of_mem_interchanges {I : Interchange} (hI : I ∈ interchanges S T) :
    I.elements.Nodup ∧ 2 ≤ I.elements.length := by
  obtain ⟨sort, -, g, hg, rfl⟩ := mem_interchanges_iff.mp hI
  obtain ⟨⟨e, -, rfl⟩, hlength⟩ := mem_interchangeGroups_iff.mp hg
  exact ⟨(ascending_candidates S _ sort).nodup.filter _, hlength⟩

theorem pairwise_disjoint_interchanges (S : Structure) (T : Theory) :
    (interchanges S T).Pairwise fun I J => I.elements.Disjoint J.elements := by
  rw [interchanges, List.pairwise_map]
  refine (nodup_eraseDups _).pairwise_of_forall_ne fun g hg h hh hne => ?_
  rw [List.mem_eraseDups, List.mem_flatMap] at hg hh
  obtain ⟨sort, -, hg⟩ := hg
  obtain ⟨sort', -, hh⟩ := hh
  intro e heg heh
  exact hne (class_unique hg hh heg heh)

/-- Two elements of one sort are in a common set if they are exchangeable and the sort qualifies. -/
theorem exists_mem_interchanges_iff (hsort : Qualifies S T sort) (hab : a ≠ b) (ha : S.Has sort a)
    (hb : S.Has sort b) : (∃ I ∈ interchanges S T, a ∈ I.elements ∧ b ∈ I.elements) ↔
      exchangeable S (ascending T.elements) a b = true := by
  constructor
  · rintro ⟨I, hI, haI, hbI⟩
    obtain ⟨sort', -, g, hg, rfl⟩ := mem_interchanges_iff.mp hI
    obtain ⟨⟨e, -, rfl⟩, -⟩ := mem_interchangeGroups_iff.mp hg
    have hea := (List.mem_filter.mp haI).2
    have heb := (List.mem_filter.mp hbI).2
    have hrelated := equivalence_exchangeable S (ascending T.elements)
    exact hrelated.trans (hrelated.symm hea) heb
  · intro hexchange
    obtain ⟨es, hes, -⟩ := hsort.finite
    rw [Structure.has_iff_mem hes] at ha hb
    rw [← candidates_eq_of_qualifies hsort hes] at ha hb
    have hmem :=
      List.mem_filter.mpr ⟨ha, (equivalence_exchangeable S (ascending T.elements)).refl a⟩
    have hmem' := List.mem_filter.mpr ⟨hb, hexchange⟩
    have hlength : 1 < ((candidates S (T.arithmeticSorts S.vocabulary) sort).filter
        (exchangeable S (ascending T.elements) a)).length := by
      have hpair : [a, b].Nodup := by simp [hab]
      exact (List.subperm_of_subset hpair (by simp [hmem, hmem'])).length_le
    have hgroup := mem_interchangeGroups_iff.mpr ⟨⟨a, ha, rfl⟩, hlength⟩
    exact ⟨_, mem_interchanges_iff.mpr ⟨sort, hsort.declared, _, hgroup, rfl⟩, hmem, hmem'⟩

/-- The sets of interchangeable elements are disjoint and have at least two elements each. Two
elements of a sort that qualifies are in a common one exactly if they are in the same tables, the
theory names neither, and exchanging them maps the true and the false tuples of every symbol onto
themselves. -/
theorem interchanges_classes (S : Structure) (T : Theory) :
    (∀ I ∈ interchanges S T, I.elements.Nodup ∧ 2 ≤ I.elements.length) ∧
    (interchanges S T).Pairwise (fun I J => I.elements.Disjoint J.elements) ∧
    ∀ sort, Qualifies S T sort → ∀ a b, a ≠ b → S.Has sort a → S.Has sort b →
      ((∃ I ∈ interchanges S T, a ∈ I.elements ∧ b ∈ I.elements) ↔
        S.SameTables a b ∧ (a ∉ T.elements ∧ b ∉ T.elements) ∧
          ∀ p v, swapTuple a b '' {t | t ∈ S.recorded p v} = {t | t ∈ S.recorded p v}) := by
  refine ⟨fun I hI => nodup_of_mem_interchanges hI, pairwise_disjoint_interchanges S T, ?_⟩
  intro sort hsort a b hab ha hb
  rw [exists_mem_interchanges_iff hsort hab ha hb, exchangeable_iff_of_ne hab,
    swapInvariant_iff_image]
  simp only [mem_ascending]

end Interchanges

theorem Vocabulary.contains_ancestors_self (V : Vocabulary) (sort : SortId) :
    (V.ancestors sort).contains sort = true := by
  rw [ancestors, Std.ExtTreeSet.contains_ofList, List.contains_iff_mem]
  exact mem_reach (.inr List.mem_cons_self)

/-- Three persons, of whom two are known to be present. -/
def roster : Structure where
  vocabulary := ⟨[⟨"person", []⟩], [⟨"present", [0], none⟩]⟩
  tables := [.range 1 3]
  facts := .ofList ([(⟨0, [.int 1]⟩, true), (⟨0, [.int 2]⟩, true)] : List (Atom × Bool))

/-- Those who are known to be present are interchangeable. -/
theorem roster_interchanges : Qualifies roster ⟨[], [], []⟩ 0 ∧
    ∃ I ∈ interchanges roster ⟨[], [], []⟩, .int 1 ∈ I.elements ∧ .int 2 ∈ I.elements := by
  have hqualifies : Qualifies roster ⟨[], [], []⟩ 0 :=
    ⟨by decide, ⟨[.int 1, .int 2, .int 3], rfl, by decide⟩, fun s _ => Std.ExtTreeSet.not_mem_empty,
      ⟨_, List.mem_cons_self, 0, List.mem_cons_self, Vocabulary.contains_ancestors_self _ 0⟩⟩
  refine ⟨hqualifies, ?_⟩
  refine ((interchanges_classes roster ⟨[], [], []⟩).2.2 0 hqualifies (.int 1) (.int 2) (by decide)
    ⟨_, rfl, by decide⟩ ⟨_, rfl, by decide⟩).mpr ⟨?_, ⟨by decide, by decide⟩, ?_⟩
  · exact List.forall_mem_singleton.mpr (by decide)
  · exact swapInvariant_iff_image.mp (by decide)

end ModelExpansion
