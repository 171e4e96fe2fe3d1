import AvroIdl.Json.Read
import AvroIdl.Proofs.Guarantee

/-!
# The members of an object

Putting, merging and leaving out members, told through their keys. An object whose keys are distinct
stays one, and a text that is read as JSON has only such objects.
-/
namespace AvroIdl

namespace Members

def keys (ms : Members) : List Text := ms.map Prod.fst

/-- No key is there twice. -/
def Distinct (ms : Members) : Prop := ms.keys.Nodup

instance (ms : Members) : Decidable ms.Distinct := inferInstanceAs (Decidable ms.keys.Nodup)

@[simp]
theorem keys_append (ms others : Members) : (ms ++ others).keys = ms.keys ++ others.keys := by
  simp [keys]

@[simp]
theorem get?_nil (key : Text) : get? [] key = none := rfl

@[simp]
theorem get?_cons (k : Text) (v : Json) (ms : Members) (key : Text) :
    get? ((k, v) :: ms) key = if key = k then some v else get? ms key := by
  by_cases h : key = k
  · simp [get?, h]
  · have hb : (key == k) = false := by simpa using h
    simp [get?, List.lookup_cons, h, hb]

@[simp]
theorem get?_append (ms others : Members) (key : Text) :
    get? (ms ++ others) key = (ms.get? key).or (others.get? key) :=
  List.lookup_append

theorem get?_eq_none_iff {ms : Members} {key : Text} : ms.get? key = none ↔ key ∉ ms.keys := by
  induction ms with
  | nil => simp [keys]
  | cons m ms ih =>
    obtain ⟨k, v⟩ := m
    by_cases h : key = k
    · simp [keys, h]
    · simpa [keys, h] using ih

theorem contains_eq_true_iff {ms : Members} {key : Text} :
    ms.contains key = true ↔ key ∈ ms.keys := by
  rw [contains, Option.isSome_iff_ne_none, ne_eq, get?_eq_none_iff, Classical.not_not]

theorem contains_eq_false_iff {ms : Members} {key : Text} :
    ms.contains key = false ↔ key ∉ ms.keys := by
  rw [← contains_eq_true_iff, Bool.not_eq_true]

theorem distinct_nil : Distinct [] := List.nodup_nil

theorem Distinct.append_new {ms : Members} {key : Text} {value : Json} (h : ms.Distinct)
    (hnew : key ∉ ms.keys) : Distinct (ms ++ [(key, value)]) := by
  rw [Distinct, keys_append, List.nodup_append]
  refine ⟨h, by simp [keys], ?_⟩
  intro a ha b hb hab
  simp only [keys, List.map_cons, List.map_nil, List.mem_singleton] at hb
  exact hnew (hb ▸ hab ▸ ha)

theorem Distinct.get?_of_mem {ms : Members} {key : Text} {value : Json} (h : ms.Distinct)
    (hm : (key, value) ∈ ms) : ms.get? key = some value := by
  induction ms with
  | nil => cases hm
  | cons m ms ih =>
    obtain ⟨k, v⟩ := m
    obtain ⟨hnew, hd⟩ := List.nodup_cons.mp h
    rw [get?_cons]
    rcases List.mem_cons.mp hm with heq | hm
    · cases heq
      rw [if_pos rfl]
    · have hk : key ≠ k := fun hk => hnew (hk ▸ List.mem_map.mpr ⟨_, hm, rfl⟩)
      rw [if_neg hk]
      exact ih hd hm

theorem mem_of_get? {ms : Members} {key : Text} {value : Json} (h : ms.get? key = some value) :
    (key, value) ∈ ms := by
  obtain ⟨before, after, rfl, -⟩ := List.lookup_eq_some_iff.mp h
  simp

theorem put_of_notMem {ms : Members} {key : Text} (h : key ∉ ms.keys) (value : Json) :
    ms.put key value = ms ++ [(key, value)] := by
  induction ms with
  | nil => rfl
  | cons m ms ih =>
    obtain ⟨k, v⟩ := m
    simp only [keys, List.map_cons, List.mem_cons, not_or] at h
    simp [put, Ne.symm h.1, ih h.2]

theorem keys_put_of_mem {ms : Members} {key : Text} (h : key ∈ ms.keys) (value : Json) :
    (ms.put key value).keys = ms.keys := by
  induction ms with
  | nil => cases h
  | cons m ms ih =>
    obtain ⟨k, v⟩ := m
    by_cases hk : k = key
    · simp [put, keys, hk]
    · have hmem : key ∈ keys ms := by
        rcases List.mem_cons.mp h with he | hmem
        · exact absurd he.symm hk
        · exact hmem
      have hkeys := ih hmem
      simp only [keys] at hkeys
      simp [put, keys, hk, hkeys]

theorem mem_put {ms : Members} {key : Text} {value : Json} {m : Text × Json}
    (h : m ∈ ms.put key value) : m = (key, value) ∨ m ∈ ms := by
  induction ms with
  | nil => exact .inl (List.mem_singleton.mp h)
  | cons first ms ih =>
    obtain ⟨k, v⟩ := first
    rw [put] at h
    by_cases hk : k = key
    · rw [if_pos hk, hk] at h
      rcases List.mem_cons.mp h with rfl | h
      · exact .inl rfl
      · exact .inr (List.mem_cons_of_mem _ h)
    · rw [if_neg hk] at h
      rcases List.mem_cons.mp h with rfl | h
      · exact .inr (List.mem_cons_self)
      · rcases ih h with he | h
        · exact .inl he
        · exact .inr (List.mem_cons_of_mem _ h)

theorem Distinct.put {ms : Members} (h : ms.Distinct) (key : Text) (value : Json) :
    (ms.put key value).Distinct := by
  by_cases hk : key ∈ ms.keys
  · rw [Distinct, keys_put_of_mem hk]
    exact h
  · rw [put_of_notMem hk]
    exact h.append_new hk

section Without

variable {ms others : Members} {left : List Text}

theorem without_append : (ms ++ others).without left = ms.without left ++ others.without left := by
  simp [without]

theorem without_cons (k : Text) (v : Json) :
    without ((k, v) :: ms) left =
      if k ∈ left then ms.without left else (k, v) :: ms.without left := by
  by_cases h : k ∈ left <;> simp [without, h]

theorem without_eq_nil (h : ∀ key ∈ ms.keys, key ∈ left) : ms.without left = [] := by
  rw [without, List.filter_eq_nil_iff]
  rintro ⟨k, v⟩ hm
  simpa using h k (List.mem_map.mpr ⟨(k, v), hm, rfl⟩)

theorem without_eq_self (h : ∀ key ∈ left, key ∉ ms.keys) : ms.without left = ms := by
  rw [without, List.filter_eq_self]
  rintro ⟨k, v⟩ hm
  have hk : k ∉ left := fun hk => h k hk (List.mem_map.mpr ⟨(k, v), hm, rfl⟩)
  simpa using hk

theorem without_without {right : List Text} :
    (ms.without left).without right = ms.without (left ++ right) := by
  rw [without, without, List.filter_filter, without]
  congr 1
  funext m
  simp [Bool.and_comm]

theorem get?_without (key : Text) :
    (ms.without left).get? key = if key ∈ left then none else ms.get? key := by
  induction ms with
  | nil => simp [without]
  | cons m ms ih =>
    obtain ⟨k, v⟩ := m
    rw [without_cons]
    by_cases hk : k ∈ left
    · rw [if_pos hk, ih]
      by_cases he : key = k
      · simp [he, hk]
      · simp [he]
    · by_cases he : key = k
      · simp [he, hk]
      · simp [hk, he, ih]

theorem mem_keys_without_iff {key : Text} :
    key ∈ (ms.without left).keys ↔ key ∈ ms.keys ∧ key ∉ left := by
  rw [← contains_eq_true_iff, ← contains_eq_true_iff, contains, contains, get?_without]
  by_cases hk : key ∈ left <;> simp [hk]

theorem Distinct.without (h : ms.Distinct) (left : List Text) : (ms.without left).Distinct :=
  (List.filter_sublist.map Prod.fst).nodup h

theorem without_put {key : Text} (h : key ∈ left) (value : Json) :
    (ms.put key value).without left = ms.without left := by
  induction ms with
  | nil => simp [put, without, h]
  | cons m ms ih =>
    obtain ⟨k, v⟩ := m
    by_cases hk : k = key
    · simp [put, hk, without_cons, h]
    · by_cases hl : k ∈ left <;> simp [put, hk, without_cons, hl, ih]

end Without

section Merge

variable {ms others : Members}

theorem merge_cons (k : Text) (v : Json) : ms.merge ((k, v) :: others) =
    (if k ∈ ms.keys then ms else ms ++ [(k, v)]).merge others := by
  by_cases h : k ∈ ms.keys
  · simp [merge, putNew, contains_eq_true_iff.mpr h, h]
  · simp [merge, putNew, contains_eq_false_iff.mpr h, h]

theorem merge_eq_append (h : others.Distinct) :
    ms.merge others = ms ++ others.without ms.keys := by
  induction others generalizing ms with
  | nil => simp [merge, without]
  | cons m others ih =>
    obtain ⟨k, v⟩ := m
    obtain ⟨hk, hd⟩ := List.nodup_cons.mp h
    rw [merge_cons, ih hd, without_cons]
    by_cases hmem : k ∈ ms.keys
    · simp [hmem]
    · have hsame : without others (ms.keys ++ [k]) = without others ms.keys := by
        rw [← without_without, without_eq_self]
        intro key hkey hin
        rw [List.mem_singleton.mp hkey] at hin
        exact hk (mem_keys_without_iff.mp hin).1
      have hkeys : keys (ms ++ [(k, v)]) = ms.keys ++ [k] := by simp [keys]
      rw [if_neg hmem, if_neg hmem, hkeys, hsame, List.append_assoc]
      rfl

theorem get?_merge (key : Text) :
    (ms.merge others).get? key = (ms.get? key).or (others.get? key) := by
  induction others generalizing ms with
  | nil => simp [merge]
  | cons m others ih =>
    obtain ⟨k, v⟩ := m
    rw [merge_cons, ih]
    by_cases hk : key = k
    · subst hk
      by_cases hmem : key ∈ ms.keys
      · obtain ⟨w, hw⟩ := Option.isSome_iff_exists.mp (contains_eq_true_iff.mpr hmem)
        simp [hmem, hw]
      · simp [hmem, get?_eq_none_iff.mpr hmem]
    · by_cases hmem : k ∈ ms.keys <;> simp [hmem, hk]

theorem Distinct.merge (h : ms.Distinct) (others : Members) : (ms.merge others).Distinct := by
  induction others generalizing ms with
  | nil => exact h
  | cons m others ih =>
    obtain ⟨k, v⟩ := m
    rw [merge_cons]
    by_cases hmem : k ∈ ms.keys
    · rw [if_pos hmem]
      exact ih h
    · rw [if_neg hmem]
      exact ih (h.append_new hmem)

/-- Of merged members only others are left if all keys that were there are left out. -/
theorem without_merge {left : List Text} (h : others.Distinct)
    (hkeys : ∀ key ∈ ms.keys, key ∈ left) :
    (ms.merge others).without left = others.without left := by
  rw [merge_eq_append h, without_append, without_eq_nil hkeys, List.nil_append, without, without,
    without, List.filter_filter]
  apply List.filter_congr
  rintro ⟨k, v⟩ -
  by_cases hk : k ∈ left
  · simp [hk]
  · have hm : k ∉ ms.keys := fun hm => hk (hkeys k hm)
    simp [hk, hm]

end Merge

end Members

namespace Json

/-- Every object in the value has distinct keys. -/
inductive Tidy : Json → Prop
  | null : Tidy null
  | bool (b : Bool) : Tidy (bool b)
  | integer (i : Int) : Tidy (integer i)
  | float (x : Binary64) : Tidy (float x)
  | string (s : Text) : Tidy (string s)
  | array {elements : List Json} (inner : ∀ e ∈ elements, Tidy e) : Tidy (array elements)
  | object {members : Members} (distinct : members.Distinct) (inner : ∀ m ∈ members, Tidy m.2) :
    Tidy (object members)

theorem Tidy.get? {ms : Members} (h : Tidy (.object ms)) {key : Text} {j : Json}
    (hj : ms.get? key = some j) : j.Tidy := by
  cases h with
  | object _ inner => exact inner _ (Members.mem_of_get? hj)

theorem Tidy.put {ms : Members} (h : Tidy (.object ms)) (key : Text) {value : Json}
    (hv : value.Tidy) : Tidy (.object (ms.put key value)) := by
  cases h with
  | object distinct inner =>
    refine .object (distinct.put key value) ?_
    intro m hm
    rcases Members.mem_put hm with rfl | hm
    · exact hv
    · exact inner m hm

/-- Whether a value is a string or made of others. -/
def hasParts : Json → Bool
  | string _ | array _ | object _ => true
  | _ => false

theorem tidy_of_hasParts_eq_false {j : Json} (h : j.hasParts = false) : j.Tidy := by
  cases j with
  | null => exact .null
  | bool b => exact .bool b
  | integer i => exact .integer i
  | float x => exact .float x
  | _ => cases h

theorem hasParts_of_numberValue {isNegative : Bool} {whole : Text} {fraction : Option Text}
    {exponent : Option Int} {j : Json}
    (h : numberValue isNegative whole fraction exponent = some j) : j.hasParts = false := by
  unfold numberValue at h
  dsimp only at h
  have hinexact : ∀ {x : Option Binary64}, x.map Json.float = some j → j.hasParts = false := by
    intro x hx
    obtain ⟨y, -, rfl⟩ := Option.map_eq_some_iff.mp hx
    rfl
  split at h
  · split at h
    · split at h
      · cases h
        rfl
      · exact hinexact h
    · split at h
      · cases h
        rfl
      · exact hinexact h
  · exact hinexact h

theorem hasParts_of_readNumber (t : Text) :
    Yields (readNumber t) fun r => r.1.hasParts = false := by
  unfold readNumber
  dsimp only
  refine .bind (.any _) fun whole _ => ?_
  split
  · exact .error
  · refine .bind (.any _) fun fraction _ => .bind (.any _) fun exponent _ => ?_
    split
    · next value hvalue => exact .ok (hasParts_of_numberValue hvalue)
    · exact .error

theorem expected_eq_ok_iff {α : Type} {x : Option α} {a : α} : expected x = .ok a ↔ x = some a := by
  cases x <;> simp [expected]

theorem hasParts_of_readWord (t : Text) : Yields (readWord t) fun r => r.1.hasParts = false := by
  intro r h
  obtain ⟨⟨w, value⟩, hw, h⟩ := List.exists_of_findSome?_eq_some (expected_eq_ok_iff.mp h)
  obtain ⟨_, -, rfl⟩ := Option.map_eq_some_iff.mp h
  simp only [words, List.mem_cons, Prod.mk.injEq, List.not_mem_nil, or_false] at hw
  rcases hw with ⟨-, rfl⟩ | ⟨-, rfl⟩ | ⟨-, rfl⟩
  all_goals rfl

/-- What a reader of values gives is tidy, and so is what the readers of elements and of members
give with it. -/
structure TidyReaders (levels : Nat) : Prop where
  value : ∀ t, Yields (readValue levels t) fun r => Tidy r.1
  elements : ∀ t, Yields (readElements levels t) fun r => ∀ e ∈ r.1, Tidy e
  members : ∀ ms t, Tidy (.object ms) → Yields (readMembers levels ms t) fun r => Tidy (.object r.1)

theorem tidyReaders (levels : Nat) : TidyReaders levels := by
  induction levels with
  | zero =>
    refine ⟨fun t => ?_, fun t => ?_, fun ms t _ => ?_⟩
    · rw [readValue]
      exact .error
    · rw [readElements]
      exact .error
    · rw [readMembers]
      exact .error
  | succ levels ih =>
    have hempty : Tidy (.object []) := .object Members.distinct_nil (by simp)
    refine ⟨fun t => ?_, fun t => ?_, fun ms t hms => ?_⟩
    · rw [readValue]
      split
      · exact .error
      · next b tail _ =>
        split
        · split
          · exact .ok hempty
          · exact (ih.members [] tail hempty).map fun _ h => h
        · split
          · split
            · exact .ok (.array (by simp))
            · exact (ih.elements tail).map fun _ h => .array h
          · split
            · intro r h
              obtain ⟨⟨s, _⟩, -, rfl⟩ := Option.map_eq_some_iff.mp (expected_eq_ok_iff.mp h)
              exact .string s
            · split
              · exact fun r h => tidy_of_hasParts_eq_false (hasParts_of_readNumber _ r h)
              · exact fun r h => tidy_of_hasParts_eq_false (hasParts_of_readWord _ r h)
    · rw [readElements]
      refine .bind (ih.value t) fun r he => ?_
      dsimp only
      split
      · exact .ok (by simpa using he)
      · refine .bind (.any _) fun t _ => .bind (ih.elements t) fun rs hes => .ok ?_
        exact List.forall_mem_cons.mpr ⟨he, hes⟩
    · rw [readMembers]
      refine .bind (.any _) fun key _ => .bind (.any _) fun t _ => .bind (ih.value t) fun r hv => ?_
      have hput := hms.put key.1 hv
      dsimp only
      split
      · exact .ok hput
      · exact .bind (.any _) fun t _ => ih.members _ t hput

/-- What is read as a whole text is a value that the text begins with. -/
theorem readValue_of_parse? {t : Text} {j : Json} (h : parse? t = some j) :
    ∃ levels rest, readValue levels ((Text.dropStart byteOrderMark t).getD t) = .ok (j, rest) := by
  have hparse := eq_ok_of_toOption h
  unfold parse at hparse
  dsimp only at hparse
  split at hparse
  · next value rest hread =>
    split at hparse
    · cases hparse
      exact ⟨_, rest, hread⟩
    · cases hparse
  · cases hparse
  · split at hparse
    all_goals cases hparse

theorem tidy_of_parse? {t : Text} {j : Json} (h : parse? t = some j) : j.Tidy := by
  obtain ⟨levels, rest, hread⟩ := readValue_of_parse? h
  exact (tidyReaders levels).value _ _ hread

end Json

end AvroIdl
