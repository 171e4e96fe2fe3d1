import AvroIdl.Text.Distance
import Mathlib.Data.List.Induction

/-!
# The least number of edits

The table of which one row is kept goes over both texts from the front, so its cells are told by the
last bytes of what has been read, while the usual recursion goes by the first bytes. What connects
the two is the alignment of the texts, column by column: the number of columns that differ does not
depend on the end from which they are read. A distance that is the least such number is a metric.
-/
namespace AvroIdl.Distance

/-- The distance by the usual recursion: a byte is kept or substituted, deleted, or inserted. -/
def least : Text → Text → Nat
  | [], b => b.length
  | a, [] => a.length
  | c :: a, d :: b =>
    min (min (least a b + if c = d then 0 else 1) (least a (d :: b) + 1)) (least (c :: a) b + 1)

/-- The cost of a column, in which a side may be left empty for an insertion or a deletion. -/
def cost (x y : Option UInt8) : Nat := if x = y then 0 else 1

/-- The texts can be written in columns so that these cost so much together. -/
inductive Aligns : Text → Text → Nat → Prop
  | nil : Aligns [] [] 0
  | column {a b : Text} {n : Nat} (x y : Option UInt8) (more : Aligns a b n) :
      Aligns (x.toList ++ a) (y.toList ++ b) (n + cost x y)

/-! ### Alignments -/

theorem cost_comm (x y : Option UInt8) : cost x y = cost y x := by
  simp only [cost, eq_comm]

theorem cost_triangle (x y z : Option UInt8) : cost x z ≤ cost x y + cost y z := by
  grind [cost]

namespace Aligns

variable {a b c a' b' : Text} {m n : Nat}

theorem refl (a : Text) : Aligns a a 0 := by
  induction a with
  | nil => exact .nil
  | cons c a ih => simpa [cost] using ih.column (some c) (some c)

theorem eq_of_zero (h : Aligns a b 0) : a = b := by
  generalize hn : 0 = n at h
  induction h with
  | nil => rfl
  | column x y more ih =>
    have hxy : x = y := by
      by_contra hne
      simp [cost, hne] at hn
    rw [ih (by omega), hxy]

theorem symm (h : Aligns a b n) : Aligns b a n := by
  induction h with
  | nil => exact .nil
  | column x y more ih =>
    rw [cost_comm]
    exact ih.column y x

theorem append (h : Aligns a b m) (h' : Aligns a' b' n) : Aligns (a ++ a') (b ++ b') (m + n) := by
  induction h with
  | nil => rwa [Nat.zero_add]
  | column x y more ih =>
    rw [List.append_assoc, List.append_assoc, Nat.add_right_comm]
    exact ih.column x y

theorem reverse (h : Aligns a b n) : Aligns a.reverse b.reverse n := by
  induction h with
  | nil => exact .nil
  | column x y more ih =>
    have hlast : Aligns x.toList.reverse y.toList.reverse (cost x y) := by
      have hone := Aligns.nil.column x y
      cases x <;> cases y <;> simpa using hone
    rw [List.reverse_append, List.reverse_append]
    exact ih.append hlast

theorem min (h : Aligns a b m) (h' : Aligns a b n) : Aligns a b (min m n) := by
  rcases Nat.le_total m n with hle | hle
  · rwa [Nat.min_eq_left hle]
  · rwa [Nat.min_eq_right hle]

/-- A byte of the text in the middle stands in a column of both alignments. Before that column the
second one may have others, which the inner induction passes. -/
theorem trans (h : Aligns a b m) (h' : Aligns b c n) : ∃ k ≤ m + n, Aligns a c k := by
  induction h generalizing c n with
  | nil => exact ⟨n, by omega, h'⟩
  | @column a b m x y more ih =>
    cases y with
    | none =>
      obtain ⟨k, hk, halign⟩ := ih h'
      exact ⟨k + cost x none, by omega, halign.column x none⟩
    | some d =>
      generalize hb : (some d).toList ++ b = whole at h'
      induction h' with
      | nil => cases hb
      | @column b' c n y z more' ih' =>
        cases y with
        | none =>
          obtain ⟨k, hk, halign⟩ := ih' hb
          exact ⟨k + cost none z, by omega, halign.column none z⟩
        | some e =>
          obtain ⟨rfl, rfl⟩ : d = e ∧ b = b' := by simpa using hb
          obtain ⟨k, hk, halign⟩ := ih more'
          have hcost := cost_triangle x (some d) z
          exact ⟨k + cost x z, by omega, halign.column x z⟩

end Aligns

/-! ### The recursion finds the best alignment -/

theorem least_nil_right (a : Text) : least a [] = a.length := by
  cases a <;> simp [least]

theorem aligns_least (a b : Text) : Aligns a b (least a b) := by
  fun_induction least a b with
  | case1 b =>
    induction b with
    | nil => exact .nil
    | cons d b ih => exact ih.column none (some d)
  | case2 a ha =>
    clear ha
    induction a with
    | nil => exact .nil
    | cons c a ih => exact ih.column (some c) none
  | case3 c a d b hsubstitute hdelete hinsert =>
    have hsubstitute := hsubstitute.column (some c) (some d)
    have hdelete := hdelete.column (some c) none
    have hinsert := hinsert.column none (some d)
    simp only [cost, Option.some.injEq, reduceCtorEq, if_false] at hsubstitute hdelete hinsert
    exact (hsubstitute.min hdelete).min hinsert

theorem least_column_le (x y : Option UInt8) (a b : Text) :
    least (x.toList ++ a) (y.toList ++ b) ≤ least a b + cost x y := by
  have hcons (c d : UInt8) (a b : Text) :
      least (c :: a) (d :: b) ≤ least a b + (if c = d then 0 else 1) ∧
        least (c :: a) (d :: b) ≤ least a (d :: b) + 1 ∧
        least (c :: a) (d :: b) ≤ least (c :: a) b + 1 := by
    rw [least]
    omega
  cases x with
  | none =>
    cases y with
    | none => exact Nat.le_add_right _ _
    | some d =>
      cases a with
      | nil => simp [least, cost]
      | cons c a => exact (hcons c d a b).2.2
  | some c =>
    cases y with
    | none =>
      cases b with
      | nil => simp [least_nil_right, cost]
      | cons d b => exact (hcons c d a b).2.1
    | some d => simpa [cost] using (hcons c d a b).1

/-- No alignment costs less. -/
theorem Aligns.least_le {a b : Text} {n : Nat} (h : Aligns a b n) : least a b ≤ n := by
  induction h with
  | nil => simp [least]
  | column x y more ih => exact Nat.le_trans (least_column_le x y _ _) (Nat.add_le_add_right ih _)

theorem least_comm (a b : Text) : least a b = least b a :=
  Nat.le_antisymm (aligns_least b a).symm.least_le (aligns_least a b).symm.least_le

theorem least_eq_zero_iff {a b : Text} : least a b = 0 ↔ a = b := by
  constructor
  · intro h
    exact Aligns.eq_of_zero (h ▸ aligns_least a b)
  · rintro rfl
    exact Nat.le_zero.mp (Aligns.refl a).least_le

theorem least_triangle (a b c : Text) : least a c ≤ least a b + least b c := by
  obtain ⟨k, hk, halign⟩ := (aligns_least a b).trans (aligns_least b c)
  exact Nat.le_trans halign.least_le hk

theorem least_reverse (a b : Text) : least a.reverse b.reverse = least a b := by
  refine Nat.le_antisymm (aligns_least a b).reverse.least_le ?_
  simpa using (aligns_least a.reverse b.reverse).reverse.least_le

/-- The recursion by the last bytes. -/
theorem least_concat_concat (a b : Text) (c d : UInt8) :
    least (a ++ [c]) (b ++ [d]) =
      min (min (least a b + if c = d then 0 else 1) (least a (b ++ [d]) + 1))
        (least (a ++ [c]) b + 1) := by
  have hconcat (t : Text) (x : UInt8) : (t ++ [x]).reverse = x :: t.reverse := by simp
  rw [← least_reverse (a ++ [c]) (b ++ [d]), ← least_reverse a b, ← least_reverse a (b ++ [d]),
    ← least_reverse (a ++ [c]) b, hconcat, hconcat, least]

/-! ### The table -/

/-- The distances from `a` to `p` and to every longer beginning of `p ++ b`. -/
def row (a p : Text) : Text → List Nat
  | [] => [least a p]
  | d :: b => least a p :: row a (p ++ [d]) b

theorem row_eq_cons (a p b : Text) : row a p b = least a p :: (row a p b).tail := by
  cases b <;> rfl

theorem getLast?_row (a p b : Text) : (row a p b).getLast? = some (least a (p ++ b)) := by
  induction b generalizing p with
  | nil => simp [row]
  | cons d b ih =>
    rw [row, row_eq_cons, List.getLast?_cons_cons, ← row_eq_cons, ih]
    simp

theorem row_nil (p b : Text) : row [] p b = List.range' p.length (b.length + 1) := by
  induction b generalizing p with
  | nil => simp [row, least]
  | cons d b ih =>
    rw [row, ih, List.length_append, List.length_singleton, least, List.length_cons]
    rfl

/-- Each cell is the least of its three neighbours with their costs. -/
theorem cells_row (a p b : Text) (c : UInt8) :
    cells c b (row a p b) (least (a ++ [c]) p) = (row (a ++ [c]) p b).tail := by
  induction b generalizing p with
  | nil => rfl
  | cons d b ih =>
    have hcell := least_concat_concat a p c d
    rw [row, row_eq_cons a, cells, ← hcell, ← row_eq_cons, ih, row, List.tail_cons, ← row_eq_cons]

theorem nextRow_row (a b : Text) (c : UInt8) : nextRow b (row a [] b) c = row (a ++ [c]) [] b := by
  have hcorner (t : Text) : least t [] = t.length := least_nil_right t
  rw [row_eq_cons a, nextRow, ← row_eq_cons, row_eq_cons (a ++ [c]), ← cells_row, hcorner, hcorner]
  simp

theorem foldl_nextRow (a b : Text) : a.foldl (nextRow b) (row [] [] b) = row a [] b := by
  induction a using List.reverseRecOn with
  | nil => rfl
  | append_singleton a c ih =>
    rw [List.foldl_append, ih, List.foldl_cons, List.foldl_nil, nextRow_row]

theorem edits_eq_least (a b : Text) : edits a b = least a b := by
  have hstart : List.range (b.length + 1) = row [] [] b := by
    rw [row_nil, List.range_eq_range']
    rfl
  rw [edits, hstart, foldl_nextRow, getLast?_row]
  rfl

/-! ### The nearest candidate -/

/-- The laws of a distance. -/
structure IsMetric (distance : Text → Text → Nat) : Prop where
  comm : ∀ a b, distance a b = distance b a
  eq_zero_iff : ∀ a b, distance a b = 0 ↔ a = b
  triangle : ∀ a b c, distance a c ≤ distance a b + distance b c

/-- A candidate that may be suggested for a name: near enough, but not the name itself. -/
def Near (name candidate : Text) : Prop :=
  1 ≤ least name candidate ∧ least name candidate ≤ limit name.length

/-- A near candidate at this place: those before it are further away, and those after it are not
nearer. -/
structure IsEarliest (name : Text) (before : List Text) (c : Text) (after : List Text) : Prop where
  near : Near name c
  before : ∀ x ∈ before, Near name x → least name c < least name x
  after : ∀ x ∈ after, Near name x → least name c ≤ least name x

/-- What has to be chosen among the candidates: the earliest of the nearest ones, and nothing if
none is near. -/
def Chosen (name : Text) (candidates : List Text) : Option Text → Prop
  | none => ∀ x ∈ candidates, ¬Near name x
  | some c => ∃ before after, candidates = before ++ c :: after ∧ IsEarliest name before c after

theorem isNear_iff {name c : Text} : isNear name c = true ↔ Near name c := by
  simp only [isNear, edits_eq_least, Bool.and_eq_true, decide_eq_true_eq, Near]
  rfl

theorem isMetric_edits : IsMetric edits := by
  simp only [funext fun a => funext (edits_eq_least a)]
  exact ⟨least_comm, fun _ _ => least_eq_zero_iff, least_triangle⟩

theorem IsEarliest.concat {name c x : Text} {before after : List Text}
    (h : IsEarliest name before c after) (hx : Near name x → least name c ≤ least name x) :
    IsEarliest name before c (after ++ [x]) := by
  refine ⟨h.near, h.before, fun y hy hnear => ?_⟩
  rcases List.mem_append.mp hy with hy | hy
  · exact h.after y hy hnear
  · rw [List.mem_singleton.mp hy] at hnear ⊢
    exact hx hnear

theorem closest_concat (name : Text) (candidates : List Text) (x : Text) :
    closest name (candidates ++ [x]) =
      if isNear name x then
        match closest name candidates with
        | none => some x
        | some b => if edits name x < edits name b then some x else some b
      else closest name candidates := by
  rw [closest, List.filter_append, List.foldl_append, ← closest, List.filter_cons]
  split <;> rfl

theorem chosen_closest (name : Text) (candidates : List Text) :
    Chosen name candidates (closest name candidates) := by
  induction candidates using List.reverseRecOn with
  | nil => simp [closest, Chosen]
  | append_singleton candidates x ih =>
    rw [closest_concat]
    cases hbest : closest name candidates with
    | none =>
      rw [hbest] at ih
      split
      · next hx =>
        refine ⟨candidates, [], rfl, isNear_iff.mp hx, fun y hy hnear => ?_, by simp⟩
        exact absurd hnear (ih y hy)
      · next hx =>
        intro y hy hnear
        rcases List.mem_append.mp hy with hy | hy
        · exact ih y hy hnear
        · exact hx (isNear_iff.mpr (List.mem_singleton.mp hy ▸ hnear))
    | some b =>
      rw [hbest] at ih
      obtain ⟨before, after, rfl, hb⟩ := ih
      have hkept (hx : Near name x → least name b ≤ least name x) :
          Chosen name (before ++ b :: after ++ [x]) (some b) :=
        ⟨before, after ++ [x], by simp, hb.concat hx⟩
      split
      · next hx =>
        dsimp only
        rw [edits_eq_least, edits_eq_least]
        split
        · next hless =>
          refine ⟨before ++ b :: after, [], rfl, isNear_iff.mp hx, fun y hy hnear => ?_, by simp⟩
          rcases List.mem_append.mp hy with hy | hy
          · exact Nat.lt_trans hless (hb.before y hy hnear)
          · rcases List.mem_cons.mp hy with rfl | hy
            · exact hless
            · exact Nat.lt_of_lt_of_le hless (hb.after y hy hnear)
        · next hless => exact hkept fun _ => Nat.le_of_not_lt hless
      · next hx => exact hkept fun hnear => absurd (isNear_iff.mpr hnear) hx

/-- The table gives the least number of edits, which is a metric, and the suggestion for a name is
the earliest of the nearest candidates within the limit. -/
theorem edits_and_closest :
    (∀ a b, edits a b = least a b) ∧ IsMetric edits ∧
      ∀ name candidates, Chosen name candidates (closest name candidates) :=
  ⟨edits_eq_least, isMetric_edits, chosen_closest⟩

end AvroIdl.Distance
