import AvroIdl.Registry

/-!
# Registering types

A registered name is found at the place of its entry. A registry to which types were added one by
one has only named types with legal names, and no name twice.
-/
namespace AvroIdl

namespace Registry

theorem exists_entry_of_indexOf? {r : Registry} {full : Text} {i : Nat}
    (h : r.indexOf? full = some i) : ∃ e, r.entries[i]? = some e ∧ e.schema.full = full := by
  rw [indexOf?, List.idxOf?, List.findIdx?_eq_some_iff_getElem] at h
  obtain ⟨hi, hf, -⟩ := h
  have hi' : i < r.entries.length := by simpa [names] using hi
  refine ⟨r.entries[i], by simp [hi'], ?_⟩
  simpa [names] using hf

theorem exists_indexOf?_of_mem {r : Registry} {full : Text} (h : full ∈ r.names) :
    ∃ i, r.indexOf? full = some i := by
  rw [← Option.isSome_iff_exists, indexOf?, List.isSome_idxOf?]
  exact h

/-- What registering types one by one leads to. -/
structure Lawful (r : Registry) : Prop where
  named : ∀ e ∈ r.entries, e.schema.isNamed = true
  legal : ∀ e ∈ r.entries, isLegalName e.schema.core.ownName.1 e.schema.core.ownName.2 = true
  distinct : r.names.Nodup

instance (r : Registry) : Decidable r.Lawful :=
  decidable_of_iff
    ((∀ e ∈ r.entries, e.schema.isNamed = true) ∧
      (∀ e ∈ r.entries, isLegalName e.schema.core.ownName.1 e.schema.core.ownName.2 = true) ∧
      r.names.Nodup)
    ⟨fun ⟨named, legal, distinct⟩ => ⟨named, legal, distinct⟩,
      fun h => ⟨h.named, h.legal, h.distinct⟩⟩

theorem lawful_empty (file : Text) : Lawful { file := file } := ⟨by simp, by simp, by simp [names]⟩

theorem entry?_eq_none_iff {r : Registry} {full : Text} :
    r.entry? full = none ↔ full ∉ r.names := by
  rw [ entry?, Option.bind_eq_none_iff]
  constructor
  · intro h hmem
    obtain ⟨i, hi⟩ := exists_indexOf?_of_mem hmem
    obtain ⟨e, he, -⟩ := exists_entry_of_indexOf? hi
    rw [h i hi] at he
    cases he
  · intro hmem i hi
    obtain ⟨e, he, rfl⟩ := exists_entry_of_indexOf? hi
    exact absurd (List.mem_map.mpr ⟨e, List.mem_of_getElem? he, rfl⟩) hmem

/-- Everything that registering a type asks for, and what it does. -/
theorem insert_eq_ok {r r' : Registry} {s : Schema} {origin : Text}
    (h : r.insert s origin = .ok r') :
    s.isNamed = true ∧ isLegalName s.core.ownName.1 s.core.ownName.2 = true ∧ s.full ∉ r.names ∧
      r' = { r with entries := r.entries ++ [⟨s, origin⟩] } := by
  unfold insert at h
  split at h
  · cases h
  · next hnamed =>
    split at h
    · cases h
    · next hlegal =>
      split at h
      · cases h
      · next hnone =>
        cases h
        exact ⟨by simpa using hnamed, by simpa using hlegal, entry?_eq_none_iff.mp hnone, rfl⟩

theorem register_eq_ok {r r' : Registry} {s : Schema} {origin : Text}
    (h : r.register s origin = .ok r') : ∃ file, r.insert s file = .ok r' := by
  unfold register at h
  dsimp only at h
  split at h
  · next heq =>
    cases h
    exact ⟨_, heq⟩
  · cases h

theorem Lawful.insert {r r' : Registry} {s : Schema} {origin : Text} (hr : r.Lawful)
    (h : r.insert s origin = .ok r') : r'.Lawful := by
  have hnames := names_of_insert h
  obtain ⟨hnamed, hlegal, hnew, rfl⟩ := insert_eq_ok h
  refine ⟨?_, ?_, ?_⟩
  · intro e he
    rcases List.mem_append.mp he with he | he
    · exact hr.named e he
    · rw [List.mem_singleton.mp he]
      exact hnamed
  · intro e he
    rcases List.mem_append.mp he with he | he
    · exact hr.legal e he
    · rw [List.mem_singleton.mp he]
      exact hlegal
  · rw [hnames, List.nodup_append]
    refine ⟨hr.distinct, by simp, ?_⟩
    intro a ha b hb hab
    rw [List.mem_singleton.mp hb] at hab
    exact hnew (hab ▸ ha)

end Registry

end AvroIdl
