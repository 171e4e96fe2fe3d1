import AvroIdl.Document.Read
import AvroIdl.Document.Write
import AvroIdl.Proofs.Shape

/-!
# Names between writing and reading

A name is written relative to the namespace in force and read in the same one. It comes back unless
it has no namespace where one is in force, or is the name of a primitive type.
-/
namespace AvroIdl

theorem splitLast_dotted {name : Text} (h : Byte.dot ∉ name) (space : Text) :
    Text.splitLast Byte.dot (space ++ ("." : Text) ++ name) = some (space, name) := by
  rw [Text.splitLast_eq_some_iff]
  exact ⟨by simp [Text.ofAscii, Byte.dot], h⟩

theorem fullName_of_none {name : Text} {space : Option Text} (h : normalizeNamespace space = none) :
    fullName name space = name := by
  simp [fullName, QualifiedName.full, h]

theorem fullName_of_some {name : Text} {space : Option Text} {t : Text}
    (h : normalizeNamespace space = some t) : fullName name space = t ++ ("." : Text) ++ name := by
  simp [fullName, QualifiedName.full, h]

/-- A full name says its name and its namespace. -/
theorem eq_of_fullName_eq {name other : Text} {space space' : Option Text}
    (hn : Byte.dot ∉ name) (ho : Byte.dot ∉ other)
    (h : fullName name space = fullName other space') :
    name = other ∧ normalizeNamespace space = normalizeNamespace space' := by
  have hdot : ∀ (t u : Text), Byte.dot ∈ t ++ ("." : Text) ++ u := by
    intro t u
    simp [Text.ofAscii, Byte.dot]
  cases hs : normalizeNamespace space with
  | none =>
    rw [fullName_of_none hs] at h
    cases hs' : normalizeNamespace space' with
    | none => exact ⟨h.trans (fullName_of_none hs'), rfl⟩
    | some t =>
      rw [fullName_of_some hs'] at h
      exact absurd (h ▸ hdot t other) hn
  | some t =>
    rw [fullName_of_some hs] at h
    cases hs' : normalizeNamespace space' with
    | none =>
      rw [fullName_of_none hs'] at h
      exact absurd (h ▸ hdot t name) ho
    | some t' =>
      rw [fullName_of_some hs'] at h
      have hsplit := splitLast_dotted hn t
      rw [h, splitLast_dotted ho t'] at hsplit
      cases hsplit
      exact ⟨rfl, rfl⟩

@[simp]
theorem normalizeNamespace_idem (space : Option Text) :
    normalizeNamespace (normalizeNamespace space) = normalizeNamespace space := by
  match space with
  | none => rfl
  | some [] => rfl
  | some (_ :: _) => rfl

theorem normalizeNamespace_of_some {space : Option Text} {t : Text}
    (h : normalizeNamespace space = some t) : normalizeNamespace (some t) = some t := by
  rw [← h, normalizeNamespace_idem]

namespace Primitive

theorem text_of_ofText? {name : Text} {p : Primitive} (h : ofText? name = some p) :
    name = p.text := by
  have hb := List.find?_some h
  exact (beq_iff_eq.mp hb).symm

@[simp]
theorem ofText?_text (p : Primitive) : ofText? p.text = some p := by
  cases p <;> decide

theorem ofText?_eq_none_of_dot {name : Text} (h : Byte.dot ∈ name) : ofText? name = none := by
  cases hp : ofText? name with
  | none => rfl
  | some p =>
    rw [text_of_ofText? hp] at h
    cases p <;> exact absurd h (by decide)

end Primitive

namespace Document

/-- Whether a name of a namespace can be told at a place: one without a namespace only where none is
in force. -/
def Tellable (space enclosing : Option Text) : Prop :=
  normalizeNamespace space = none → normalizeNamespace enclosing = none

/-- A name that is not that of a primitive type is read as it was written. -/
theorem readName_relativeName {name : Text} {space enclosing : Option Text}
    (hdot : Byte.dot ∉ name) (hprimitive : Primitive.ofText? name = none)
    (htell : Tellable space enclosing) (properties : Members) :
    readName (normalizeNamespace enclosing) (relativeName name space enclosing) properties =
      .reference { name := name, space := normalizeNamespace space, properties := properties } := by
  have hplain : Text.splitLast Byte.dot name = none := Text.splitLast_eq_none_iff.mpr hdot
  unfold relativeName
  split
  · next hsame =>
    have hs : normalizeNamespace space = normalizeNamespace enclosing := by
      simpa [sameNamespace] using hsame
    simp [readName, hprimitive, Scope.qualify, Scope.of, hplain, hs]
  · next hother =>
    cases hs : normalizeNamespace space with
    | none =>
      -- nothing but the same namespace is left if there is none
      have he := htell hs
      simp [sameNamespace, hs, he] at hother
    | some t =>
      have hp : Primitive.ofText? (t ++ ("." : Text) ++ name) = none := by
        apply Primitive.ofText?_eq_none_of_dot
        simp [Text.ofAscii, Byte.dot]
      have hsplit := splitLast_dotted hdot t
      rw [fullName_of_some hs]
      simp only [readName, hp, Scope.qualify, hsplit, normalizeNamespace_of_some hs]

/-- The namespace that a definition writes, if it writes one. -/
def writtenSpace (space enclosing : Option Text) : Option Text :=
  if sameNamespace space enclosing then none else normalizeNamespace space

theorem definedName_written {name : Text} {space enclosing : Option Text}
    (hdot : Byte.dot ∉ name) (htell : Tellable space enclosing) :
    definedName name ((writtenSpace space enclosing).map some) (normalizeNamespace enclosing) =
      ⟨name, normalizeNamespace space⟩ := by
  unfold definedName writtenSpace
  rw [if_neg (by simpa using hdot)]
  split
  · next hsome =>
    split at hsome
    · cases hsome
    · cases hs : normalizeNamespace space with
      | none => simp [hs] at hsome
      | some t =>
        simp only [hs, Option.map_some, Option.some.injEq] at hsome
        rw [← hsome, normalizeNamespace_of_some hs]
  · next hnone =>
    split at hnone
    · next hsame =>
      have hs : normalizeNamespace space = normalizeNamespace enclosing := by
        simpa [sameNamespace] using hsame
      rw [hs]
    · have hs : normalizeNamespace space = none := by simpa using hnone
      rw [hs, htell hs]

theorem normalizeNamespace_fieldNamespace {h : Head} {enclosing : Option Text}
    (htell : Tellable h.space enclosing) :
    normalizeNamespace (fieldNamespace h enclosing) = normalizeNamespace h.space := by
  cases hs : normalizeNamespace h.space with
  | none => simpa [fieldNamespace, hs] using htell hs
  | some t =>
    rw [fieldNamespace, hs, Option.some_or]
    exact normalizeNamespace_of_some hs

end Document

end AvroIdl
