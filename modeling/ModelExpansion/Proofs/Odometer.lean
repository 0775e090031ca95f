import Mathlib.Algebra.Ring.Nat
import Mathlib.Logic.Function.Iterate
import ModelExpansion.Odometer
import ModelExpansion.Proofs.Tables

/-! # What an odometer gives
The odometer goes through the index tuples in lexicographic order and through each of them once. A
step takes the first of the tuples that are left, and a reset brings them all back. -/

namespace ModelExpansion

namespace Odometer

variable {o : Odometer} {sizes is is' : List Nat}

/-! ## Index tuples -/

/-- The index tuples over some sizes. -/
def tuples (sizes : List Nat) : List (List Nat) := product (sizes.map List.range)

theorem tuples_cons (size : Nat) (sizes : List Nat) :
    tuples (size :: sizes) = (List.range size).flatMap fun i => (tuples sizes).map (i :: ·) :=
  product_cons _ _

theorem mem_tuples {t : List Nat} : t ∈ tuples sizes ↔ List.Forall₂ (· < ·) t sizes := by
  rw [tuples, mem_product, List.forall₂_map_left_iff]
  simp only [List.mem_range]
  exact ⟨.flip, .flip⟩

theorem ascending_tuples (sizes : List Nat) :
    (tuples sizes).Pairwise fun t u => compare t u = .lt := by
  refine pairwise_product fun d hd => ?_
  obtain ⟨size, -, rfl⟩ := List.mem_map.mp hd
  exact List.pairwise_lt_range.imp Nat.compare_eq_lt.mpr

theorem length_tuples (sizes : List Nat) : (tuples sizes).length = sizes.prod := by
  induction sizes with
  | nil => rfl
  | cons size sizes ih => simp [tuples_cons, List.length_flatMap, ih]

theorem tuples_eq_nil (h : 0 ∈ sizes) : tuples sizes = [] := by
  refine product_eq_nil ?_
  rw [hasEmptyDomain, List.any_map, List.any_eq_true]
  exact ⟨0, h, rfl⟩

theorem min_mul_min (n size bound : Nat) :
    min (min n bound * size) bound = min (n * size) bound := by
  cases size with
  | zero => rw [Nat.mul_zero, Nat.mul_zero]
  | succ size =>
      rcases Nat.le_total n bound with hle | hle
      · rw [Nat.min_eq_left hle]
      · rw [Nat.min_eq_right hle, Nat.min_eq_right (Nat.le_mul_of_pos_right bound size.succ_pos),
          Nat.min_eq_right (Nat.le_trans hle (Nat.le_mul_of_pos_right n size.succ_pos))]

/-- Cutting a product off after each factor is cutting it off once. -/
theorem foldl_min_mul (sizes : List Nat) (n bound : Nat) :
    sizes.foldl (fun n size => min (n * size) bound) (min n bound) =
      min (n * sizes.prod) bound := by
  induction sizes generalizing n with
  | nil => rw [List.foldl_nil, List.prod_nil, Nat.mul_one]
  | cons size sizes ih => rw [List.foldl_cons, min_mul_min, ih, List.prod_cons, Nat.mul_assoc]

theorem total_eq (o : Odometer) : o.total = min o.sizes.prod maxTotal := by
  have hfold := foldl_min_mul o.sizes 1 maxTotal
  rwa [Nat.one_mul] at hfold

/-! ## One step -/

/-- The index tuples from a given one on. -/
def tuplesFrom : List Nat → List Nat → List (List Nat)
  | size :: sizes, i :: is =>
    (tuplesFrom sizes is).map (i :: ·) ++
      (List.range' (i + 1) (size - (i + 1))).flatMap fun j => (tuples sizes).map (j :: ·)
  | _, _ => [[]]

theorem tuplesFrom_zeros (h : 0 ∉ sizes) :
    tuplesFrom sizes (sizes.map fun _ => 0) = tuples sizes := by
  induction sizes with
  | nil => rfl
  | cons size sizes ih =>
      rw [List.mem_cons, not_or] at h
      obtain ⟨size, rfl⟩ := Nat.exists_eq_succ_of_ne_zero (Ne.symm h.1)
      rw [List.map_cons, tuplesFrom, ih h.2, tuples_cons, List.range_eq_range', List.range'_succ,
        List.flatMap_cons]
      rfl

theorem zero_notMem_of_forall₂ (h : List.Forall₂ (· < ·) is sizes) : 0 ∉ sizes := by
  intro hzero
  obtain ⟨i, -, hi⟩ := exists_left_of_forall₂ h hzero
  exact Nat.not_lt_zero i hi

theorem forall₂_zeros (h : 0 ∉ sizes) : List.Forall₂ (· < ·) (sizes.map fun _ => 0) sizes := by
  rw [List.forall₂_map_left_iff, List.forall₂_same]
  exact fun size hsize => Nat.pos_of_ne_zero fun hzero => h (hzero ▸ hsize)

/-- What adding one does to an index tuple: it gives the next one, or the first one and a carry
after the last. -/
theorem increment_spec (h : List.Forall₂ (· < ·) is sizes) :
    (∃ is', increment sizes is = (is', false) ∧ List.Forall₂ (· < ·) is' sizes ∧
      tuplesFrom sizes is = is :: tuplesFrom sizes is') ∨
    (increment sizes is = (sizes.map fun _ => 0, true) ∧ tuplesFrom sizes is = [is]) := by
  induction h with
  | nil => exact .inr ⟨rfl, rfl⟩
  | @cons i size is sizes hi his ih =>
      rcases ih with ⟨is', hincrement, his', htuples⟩ | ⟨hincrement, htuples⟩
      · refine .inl ⟨i :: is', ?_, .cons hi his', ?_⟩
        · rw [increment, hincrement]
        · rw [tuplesFrom, htuples]
          rfl
      · have hpos := zero_notMem_of_forall₂ his
        rcases Nat.lt_or_eq_of_le (Nat.succ_le_of_lt hi) with hlt | rfl
        · refine .inl ⟨(i + 1) :: sizes.map fun _ => 0, ?_, .cons hlt (forall₂_zeros hpos), ?_⟩
          · rw [increment, hincrement]
            exact if_pos hlt
          · obtain ⟨rest, hrest⟩ : ∃ rest, size - (i + 1) = rest + 1 := ⟨size - (i + 2), by omega⟩
            have hnext : size - (i + 1 + 1) = rest := by omega
            rw [tuplesFrom, tuplesFrom, htuples, tuplesFrom_zeros hpos, hrest, hnext,
              List.range'_succ, List.flatMap_cons]
            rfl
        · refine .inr ⟨?_, ?_⟩
          · rw [increment, hincrement]
            exact if_neg (Nat.lt_irrefl _)
          · rw [tuplesFrom, htuples, Nat.sub_self]
            rfl

theorem exists_tuplesFrom_eq_cons (h : List.Forall₂ (· < ·) is sizes) :
    ∃ rest, tuplesFrom sizes is = is :: rest := by
  rcases increment_spec h with ⟨is', -, -, htuples⟩ | ⟨-, htuples⟩
  · exact ⟨_, htuples⟩
  · exact ⟨_, htuples⟩

/-! ## Runs -/

/-- The tuples that an odometer has still to give: none if it is exhausted, else those from the one
it points at on. -/
inductive Remaining : Odometer → List (List Nat) → Prop where
  | exhausted (sizes is : List Nat) : Remaining ⟨sizes, is, true⟩ []
  | pointing {sizes is : List Nat} (h : List.Forall₂ (· < ·) is sizes) :
    Remaining ⟨sizes, is, false⟩ (tuplesFrom sizes is)

theorem remaining_start (sizes : List Nat) : (start sizes).Remaining (tuples sizes) := by
  rw [start]
  cases hzero : sizes.contains 0 with
  | true =>
      rw [tuples_eq_nil (List.contains_iff_mem.mp hzero)]
      exact .exhausted _ _
  | false =>
      have hpos : 0 ∉ sizes := by
        rw [← List.contains_iff_mem, hzero]
        exact Bool.false_ne_true
      rw [← tuplesFrom_zeros hpos]
      exact .pointing (forall₂_zeros hpos)

/-- The odometer after some steps. -/
def after (o : Odometer) (n : Nat) : Odometer := (fun o => o.advance.1)^[n] o

theorem after_succ (o : Odometer) (n : Nat) : o.after (n + 1) = (o.after n).advance.1 :=
  Function.iterate_succ_apply' _ n o

namespace Remaining

variable {ts : List (List Nat)}

theorem current (h : o.Remaining ts) : o.current? = ts.head? := by
  cases h with
  | exhausted => rfl
  | pointing h =>
      obtain ⟨rest, hrest⟩ := exists_tuplesFrom_eq_cons h
      rw [hrest]
      rfl

/-- A step takes the first tuple and says whether there is another one. -/
theorem step (h : o.Remaining ts) :
    ∃ o', o'.Remaining ts.tail ∧ o.advance = (o', !ts.tail.isEmpty) := by
  cases h with
  | exhausted sizes is => exact ⟨_, .exhausted sizes is, rfl⟩
  | @pointing sizes is h =>
      rw [advance]
      rcases increment_spec h with ⟨is', hincrement, his', htuples⟩ | ⟨hincrement, htuples⟩
      · obtain ⟨rest, hrest⟩ := exists_tuplesFrom_eq_cons his'
        refine ⟨⟨sizes, is', false⟩, htuples ▸ .pointing his', ?_⟩
        rw [htuples, hincrement, hrest]
        rfl
      · refine ⟨⟨sizes, sizes.map fun _ => 0, true⟩, htuples ▸ .exhausted _ _, ?_⟩
        rw [htuples, hincrement]
        rfl

theorem after (h : o.Remaining ts) (n : Nat) : (o.after n).Remaining (ts.drop n) := by
  induction n with
  | zero => exact h
  | succ n ih =>
      obtain ⟨o', ho', hadvance⟩ := ih.step
      rw [after_succ, hadvance, ← List.tail_drop]
      exact ho'

theorem take (h : o.Remaining ts) (n : Nat) : (o.take n).1 = ts.take n := by
  induction n generalizing o ts with
  | zero => rw [Odometer.take, List.take_zero]
  | succ n ih =>
      obtain ⟨o', ho', hadvance⟩ := h.step
      rw [Odometer.take, next?, h.current, hadvance]
      cases ts with
      | nil => rfl
      | cons t ts => exact congrArg (t :: ·) (ih ho')

end Remaining

/-- Whether an odometer gives some tuples, each of them once and in this order, and then nothing for
ever. -/
structure Yields (o : Odometer) (ts : List (List Nat)) : Prop where
  current : ∀ n, (o.after n).current? = ts[n]?
  next : ∀ n, (o.after n).next? = ts[n]?.map fun t => (t, o.after (n + 1))
  advance : ∀ n, (o.after n).advance = (o.after (n + 1), decide (n + 1 < ts.length))
  take : ∀ n, (o.take n).1 = ts.take n

theorem Remaining.yields {ts : List (List Nat)} (h : o.Remaining ts) : o.Yields ts where
  current n := by rw [(h.after n).current, List.head?_drop]
  next n := by rw [next?, (h.after n).current, List.head?_drop, after_succ]
  advance n := by
    obtain ⟨o', -, hadvance⟩ := (h.after n).step
    have hmore : (!(ts.drop n).tail.isEmpty) = decide (n + 1 < ts.length) := by
      rw [List.tail_drop, Bool.eq_iff_iff]
      simp
    rw [after_succ, hadvance, hmore]
  take := h.take

/-! ## Calls -/

/-- What may be asked of an odometer. -/
inductive Call where
  | next
  | advance
  | reset

/-- The odometer after some calls. At its end it stays as it is when it is asked for the next
tuple. -/
def perform (o : Odometer) : Call → Odometer
  | .next => (o.next?.map Prod.snd).getD o
  | .advance => o.advance.1
  | .reset => o.reset

def performAll (o : Odometer) (calls : List Call) : Odometer := calls.foldl perform o

theorem sizes_advance (o : Odometer) : o.advance.1.sizes = o.sizes := by
  rw [advance]
  split <;> rfl

theorem sizes_perform (o : Odometer) (call : Call) : (o.perform call).sizes = o.sizes := by
  cases call with
  | next =>
      rw [perform, next?]
      cases o.current? with
      | none => rfl
      | some is => exact o.sizes_advance
  | advance => exact o.sizes_advance
  | reset => rfl

theorem sizes_performAll (o : Odometer) (calls : List Call) :
    (o.performAll calls).sizes = o.sizes := by
  induction calls generalizing o with
  | nil => rfl
  | cons call calls ih => exact (ih (o.perform call)).trans (o.sizes_perform call)

theorem reset_performAll (sizes : List Nat) (calls : List Call) :
    ((start sizes).performAll calls).reset = start sizes := by
  rw [reset, sizes_performAll]
  rfl

end Odometer

/-! ## Element tuples -/

namespace TupleCursor

open Odometer (tuples)

variable {c : TupleCursor} {domains : List (List Element)}

/-- The cursor after some tuples. -/
def after (c : TupleCursor) (n : Nat) : TupleCursor := { c with odometer := c.odometer.after n }

/-- Whether a cursor gives some tuples, each of them once and in this order, and then nothing for
ever. -/
structure Yields (c : TupleCursor) (ts : List Tuple) : Prop where
  next : ∀ n, (c.after n).next? = ts[n]?.map fun t => (t, c.after (n + 1))
  take : ∀ n, (c.take n).1 = ts.take n

theorem take_eq (c : TupleCursor) (n : Nat) :
    (c.take n).1 = (c.odometer.take n).1.map (elementsAt c.domains) := by
  induction n generalizing c with
  | zero => rfl
  | succ n ih =>
      rw [take, Odometer.take, next?]
      cases c.odometer.next? with
      | none => rfl
      | some found =>
        exact congrArg (elementsAt c.domains found.1 :: ·) (ih { c with odometer := found.2 })

theorem yields_of_odometer {ts : List (List Nat)} (h : c.odometer.Yields ts) :
    c.Yields (ts.map (elementsAt c.domains)) where
  next n := by
    rw [next?, after, h.next, List.getElem?_map, Option.map_map, Option.map_map]
    rfl
  take n := by rw [take_eq, h.take, List.map_take]

theorem some_getD {d : List Element} {i : Nat} (h : i < d.length) :
    some (d.getD i default) = d[i]? := by
  rw [List.getD_eq_getElem?_getD, List.getElem?_eq_getElem h, Option.getD_some]

/-- The elements at an index tuple are those that the domains have at its indices. -/
theorem map_some_elementsAt {t : List Nat} (h : t ∈ tuples (domains.map List.length)) :
    (elementsAt domains t).map some = List.zipWith (fun d i => d[i]?) domains t := by
  rw [Odometer.mem_tuples, List.forall₂_map_right_iff] at h
  induction h with
  | nil => rfl
  | cons hi _ ih =>
      rw [List.zipWith_cons_cons, ← ih, ← some_getD hi]
      rfl

theorem map_getD_range (d : List Element) :
    (List.range d.length).map (fun i => d.getD i default) = d := by
  refine List.ext_getElem (by simp) fun i _ hi => ?_
  rw [List.getElem_map, List.getElem_range]
  exact Option.some.inj ((some_getD hi).trans (List.getElem?_eq_getElem hi))

/-- The elements at the index tuples in turn are the tuples over the domains. -/
theorem map_elementsAt_tuples (domains : List (List Element)) :
    (tuples (domains.map List.length)).map (elementsAt domains) = product domains := by
  induction domains with
  | nil => rfl
  | cons d ds ih =>
      rw [List.map_cons, Odometer.tuples_cons, List.map_flatMap, product_cons, ← ih]
      conv => rhs; rw [← map_getD_range d, List.flatMap_map]
      simp only [List.map_map]
      rfl

end TupleCursor

open Odometer TupleCursor

/-- An odometer that has just been started, or reset after any calls, gives the index tuples below
its sizes in strictly increasing lexicographic order, each of them once, and then nothing; there are
as many as the product of the sizes, and the total is this product, cut off at the greatest word. A
cursor gives the elements at these index tuples in the same order, which are the tuples of the
product of its domains. -/
theorem yields_tuples :
    (∀ sizes, (∀ t, t ∈ tuples sizes ↔ List.Forall₂ (· < ·) t sizes) ∧ (tuples sizes).Nodup ∧
      (tuples sizes).Pairwise (fun t u => compare t u = .lt) ∧ (tuples sizes).length = sizes.prod ∧
      (Odometer.start sizes).Yields (tuples sizes) ∧
      ∀ calls, ((Odometer.start sizes).performAll calls).reset.Yields (tuples sizes) ∧
        ((Odometer.start sizes).performAll calls).total = min sizes.prod (2 ^ 64 - 1)) ∧
    ∀ domains,
      (∀ t ∈ tuples (domains.map List.length),
        (elementsAt domains t).map some = List.zipWith (fun d i => d[i]?) domains t) ∧
      (TupleCursor.start domains).Yields
      ((tuples (domains.map List.length)).map (elementsAt domains)) ∧
      (∀ calls,
        (TupleCursor.mk domains
          ((Odometer.start (domains.map List.length)).performAll calls)).reset.Yields
        ((tuples (domains.map List.length)).map (elementsAt domains))) ∧
      (tuples (domains.map List.length)).map (elementsAt domains) = product domains := by
  have hstart : ∀ sizes, (Odometer.start sizes).Yields (tuples sizes) :=
    fun sizes => (remaining_start sizes).yields
  refine ⟨fun sizes =>
    ⟨fun t => mem_tuples, nodup_of_ascending (ascending_tuples sizes), ascending_tuples sizes,
    length_tuples sizes, hstart sizes, fun calls => ⟨?_, ?_⟩⟩, fun domains =>
      ⟨fun t => map_some_elementsAt, ?_,
    fun calls => ?_, map_elementsAt_tuples domains⟩⟩
  · rw [reset_performAll]
    exact hstart sizes
  · rw [total_eq, sizes_performAll]
    rfl
  · exact yields_of_odometer (c := TupleCursor.start domains) (hstart _)
  · rw [TupleCursor.reset, reset_performAll]
    exact yields_of_odometer (c := TupleCursor.start domains) (hstart _)

/-- A grid of two letters and two numbers, walked through again from the middle. -/
theorem yields_tuples_grid :
    (((Odometer.start [2, 2]).performAll [.next, .advance, .next]).reset.take 9).1 =
      [[0, 0], [0, 1], [1, 0], [1, 1]] ∧
    ((Odometer.start [3, 0, 2]).take 1).1 = [] ∧
    (Odometer.start [2 ^ 40, 2 ^ 40]).total = 2 ^ 64 - 1 ∧
    (elementsAt [[.name "a", .name "b"], [.int 1, .int 2]] [1, 0]).map some =
    [some (.name "b"), some (.int 1)] := by
  obtain ⟨hodometer, hcursor⟩ := yields_tuples
  obtain ⟨-, -, -, -, -, hagain⟩ := hodometer [2, 2]
  obtain ⟨-, -, -, -, hempty, -⟩ := hodometer [3, 0, 2]
  obtain ⟨-, -, -, -, -, htotal⟩ := hodometer [2 ^ 40, 2 ^ 40]
  obtain ⟨helements, -⟩ := hcursor [[.name "a", .name "b"], [.int 1, .int 2]]
  refine ⟨((hagain [.next, .advance, .next]).1.take 9).trans (by decide),
    (hempty.take 1).trans (by decide),
    (htotal []).2.trans (by decide), (helements [1, 0] (by decide)).trans rfl⟩

end ModelExpansion
