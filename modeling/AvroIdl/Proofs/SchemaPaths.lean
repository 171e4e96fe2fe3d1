import AvroIdl.Proofs.Unbound

/-!
# Paths into a schema

A path tells for every step down a schema which child is entered. Paths are compared step by step,
so a type that is read before another one has the smaller path. In the order of their paths the
references of a schema stand in the list in which they are gathered.
-/
namespace AvroIdl

/-- The list has what stands at the paths, once for each path and in the order of the paths. -/
def Enumerates {α : Type} (stands : List Nat → α → Prop) (xs : List α) : Prop :=
  ∃ ps : List (List Nat × α), ps.map (·.2) = xs ∧ (ps.map (·.1)).Pairwise (· < ·) ∧
    ∀ path x, (path, x) ∈ ps ↔ stands path x

namespace Enumerates

variable {α β : Type} {P Q : List Nat → α → Prop} {xs : List α}

theorem congr (h : Enumerates P xs) (hpq : ∀ path x, P path x ↔ Q path x) : Enumerates Q xs := by
  obtain ⟨ps, hxs, hsorted, hmem⟩ := h
  exact ⟨ps, hxs, hsorted, fun path x => (hmem path x).trans (hpq path x)⟩

theorem of_forall_not (h : ∀ path x, ¬P path x) : Enumerates P [] :=
  ⟨[], rfl, .nil, fun path x => by simpa using h path x⟩

theorem singleton (a : α) : Enumerates (fun path x => path = [] ∧ x = a) [a] :=
  ⟨[([], a)], rfl, List.pairwise_singleton _ _, by simp⟩

theorem map (h : Enumerates P xs) (g : α → β) :
    Enumerates (fun path y => ∃ x, P path x ∧ g x = y) (xs.map g) := by
  obtain ⟨ps, rfl, hsorted, hmem⟩ := h
  refine ⟨ps.map fun p => (p.1, g p.2), ?_, ?_, fun path y => ?_⟩
  · simp
  · rw [List.map_map]
    exact hsorted
  · simp only [List.mem_map, Prod.mk.injEq, Prod.exists, ← hmem]
    constructor
    · rintro ⟨path, x, hx, rfl, rfl⟩
      exact ⟨x, hx, rfl⟩
    · rintro ⟨x, hx, rfl⟩
      exact ⟨path, x, hx, rfl, rfl⟩

theorem filter (h : Enumerates P xs) (keep : α → Bool) :
    Enumerates (fun path x => P path x ∧ keep x = true) (xs.filter keep) := by
  obtain ⟨ps, rfl, hsorted, hmem⟩ := h
  refine ⟨ps.filter fun p => keep p.2, ?_, ?_, fun path x => ?_⟩
  · simp [List.filter_map, Function.comp_def]
  · exact hsorted.sublist (List.filter_sublist.map _)
  · simp [hmem]

theorem eq_nil_iff (h : Enumerates P xs) : xs = [] ↔ ∀ path x, ¬P path x := by
  obtain ⟨ps, rfl, -, hmem⟩ := h
  rw [List.map_eq_nil_iff, List.eq_nil_iff_forall_not_mem, Prod.forall]
  simp only [hmem]

/-- Behind the elements of one type come those of the types after it, whose first step is
greater. -/
theorem flatMap {σ : Type} {R : σ → List Nat → α → Prop} {f : σ → List α} {ts : List σ}
    (h : ∀ t ∈ ts, Enumerates (R t) (f t)) (start : Nat) :
    Enumerates (fun path x => ∃ i p t, path = (start + i) :: p ∧ ts[i]? = some t ∧ R t p x)
      (ts.flatMap f) := by
  induction ts generalizing start with
  | nil => exact of_forall_not (by simp)
  | cons t ts ih =>
    obtain ⟨ht, hts⟩ := List.forall_mem_cons.mp h
    obtain ⟨ps, hps, hsorted, hmem⟩ := ht
    obtain ⟨qs, hqs, hsorted', hmem'⟩ := ih hts (start + 1)
    refine ⟨ps.map (fun p => (start :: p.1, p.2)) ++ qs, ?_, ?_, fun path x => ?_⟩
    · simp [List.flatMap_cons, ← hps, hqs]
    · rw [List.map_append, List.map_map, List.pairwise_append]
      refine ⟨?_, hsorted', ?_⟩
      · rw [List.pairwise_map] at hsorted ⊢
        exact hsorted.imp fun hlt => List.cons_lt_cons_iff.mpr (.inr ⟨rfl, hlt⟩)
      · intro path hpath later hlater
        obtain ⟨p, -, rfl⟩ := List.mem_map.mp hpath
        obtain ⟨q, hq, rfl⟩ := List.mem_map.mp hlater
        obtain ⟨i, rest, -, hqpath, -⟩ := (hmem' q.1 q.2).mp hq
        rw [hqpath]
        exact List.cons_lt_cons_iff.mpr (.inl (by omega))
    · rw [List.mem_append, hmem', List.mem_map]
      constructor
      · rintro (⟨⟨p, y⟩, hy, heq⟩ | ⟨i, p, u, rfl, hu, hx⟩)
        · obtain ⟨rfl, rfl⟩ := Prod.mk.inj heq
          exact ⟨0, p, t, rfl, rfl, (hmem p y).mp hy⟩
        · exact ⟨i + 1, p, u, by rw [Nat.add_assoc, Nat.add_comm 1], hu, hx⟩
      · rintro ⟨i, p, u, rfl, hu, hx⟩
        cases i with
        | zero =>
          obtain rfl := Option.some.inj hu
          exact .inl ⟨(p, x), (hmem p x).mpr hx, rfl⟩
        | succ i => exact .inr ⟨i, p, u, by rw [Nat.add_assoc, Nat.add_comm 1], hu, hx⟩

end Enumerates

namespace Schema

/-- The types directly inside a type, in their order. -/
def children : Schema → List Schema
  | record _ _ fields => fields.map (·.type)
  | compound _ parts _ => parts
  | _ => []

/-- The type at the end of a path. -/
def at? : Schema → List Nat → Option Schema
  | s, [] => some s
  | s, i :: path => s.children[i]?.bind fun t => t.at? path

section Paths

variable {s t : Schema} {i : Nat} {path : List Nat}

@[simp]
theorem at?_nil (s : Schema) : s.at? [] = some s := rfl

theorem at?_cons_eq_some_iff :
    s.at? (i :: path) = some t ↔ ∃ u, s.children[i]? = some u ∧ u.at? path = some t :=
  Option.bind_eq_some_iff

/-- Whether no path into a schema has more than the given number of steps. -/
def fits : Nat → Schema → Bool
  | 0, s => s.children.isEmpty
  | steps + 1, s => s.children.all (fits steps)

theorem fits_iff {steps : Nat} :
    s.fits steps = true ↔ ∀ path t, s.at? path = some t → path.length ≤ steps := by
  induction steps generalizing s with
  | zero =>
    rw [fits, List.isEmpty_iff]
    constructor
    · intro hnone path t ht
      cases path with
      | nil => exact Nat.le_refl _
      | cons i path =>
        obtain ⟨u, hu, -⟩ := at?_cons_eq_some_iff.mp ht
        rw [hnone] at hu
        cases hu
    · intro h
      cases hchildren : s.children with
      | nil => rfl
      | cons u rest =>
        have hstep : s.at? [0] = some u :=
          at?_cons_eq_some_iff.mpr ⟨u, by rw [hchildren]; rfl, rfl⟩
        exact absurd (h [0] u hstep) (by simp)
  | succ steps ih =>
    rw [fits, List.all_eq_true]
    constructor
    · intro h path t ht
      cases path with
      | nil => exact Nat.zero_le _
      | cons i path =>
        obtain ⟨u, hu, ht⟩ := at?_cons_eq_some_iff.mp ht
        exact Nat.succ_le_succ (ih.mp (h u (List.mem_of_getElem? hu)) path t ht)
    · intro h u hu
      obtain ⟨i, hi⟩ := List.mem_iff_getElem?.mp hu
      refine ih.mpr fun path t ht => ?_
      exact Nat.le_of_succ_le_succ (h (i :: path) t (at?_cons_eq_some_iff.mpr ⟨u, hi, ht⟩))

theorem references_zero (s : Schema) : references 0 s = [] := by
  cases s <;> rfl

/-- A reference has no parts, and every other type has the references of its children. -/
theorem references_succ (levels : Nat) (s : Schema) :
    (∃ r, s = .reference r ∧ references (levels + 1) s = [r]) ∨
      (∀ r, s ≠ .reference r) ∧
        references (levels + 1) s = s.children.flatMap (references levels) := by
  cases s with
  | reference r => exact .inl ⟨r, rfl, rfl⟩
  | record h e fields =>
    refine .inr ⟨by simp, ?_⟩
    rw [references, fieldReferences_eq_flatMap, children, List.flatMap_map]
  | compound shape parts n =>
    refine .inr ⟨by simp, ?_⟩
    rw [references, partReferences_eq_flatMap, children]
  | _ => exact .inr ⟨by simp, rfl⟩

/-- The references of a schema within some levels are gathered in the order of their paths. -/
theorem enumerates_references (levels : Nat) (s : Schema) :
    Enumerates (fun path ref => path.length < levels ∧ s.at? path = some (.reference ref))
      (references levels s) := by
  induction levels generalizing s with
  | zero =>
    rw [references_zero]
    exact .of_forall_not (by simp)
  | succ levels ih =>
    obtain ⟨r, rfl, hrefs⟩ | ⟨hother, hrefs⟩ := references_succ levels s
    · rw [hrefs]
      refine (Enumerates.singleton r).congr fun path ref => ?_
      cases path with
      | nil => simp [eq_comm]
      | cons i path => simp [at?_cons_eq_some_iff, children]
    · rw [hrefs]
      refine (Enumerates.flatMap (fun t _ => ih t) 0).congr fun path ref => ?_
      cases path with
      | nil => simp [hother]
      | cons i path =>
        rw [at?_cons_eq_some_iff]
        constructor
        · rintro ⟨i', p, t, hpath, ht, hlength, hp⟩
          obtain ⟨rfl, rfl⟩ := List.cons.inj hpath
          rw [Nat.zero_add]
          exact ⟨Nat.succ_lt_succ hlength, t, ht, hp⟩
        · rintro ⟨hlength, t, ht, hp⟩
          exact ⟨i, path, t, by rw [Nat.zero_add], ht, Nat.lt_of_succ_lt_succ hlength, hp⟩

theorem children_bind (place : Placement) (levels : Nat) (s : Schema) :
    (bind place (levels + 1) s).children = s.children.map (bind place levels) := by
  cases s <;> simp [children]

/-- Binding keeps every type in its place. -/
theorem at?_bind (place : Placement) (levels : Nat) (s : Schema) (path : List Nat) :
    (bind place levels s).at? path = (s.at? path).map (bind place (levels - path.length)) := by
  induction path generalizing levels s with
  | nil => rfl
  | cons i path ih =>
    cases levels with
    | zero =>
      have hid : bind place 0 = id := funext (bind_zero place)
      rw [Nat.zero_sub, hid, Option.map_id]
      rfl
    | succ levels =>
      rw [at?, at?, children_bind, List.getElem?_map, List.length_cons, Nat.add_sub_add_right]
      cases s.children[i]? with
      | none => rfl
      | some t => exact ih levels t

end Paths

end Schema

end AvroIdl
