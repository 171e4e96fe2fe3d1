import AvroIdl.Build.Type
import AvroIdl.Proofs.ScopedNames

/-!
# Full names

Types are registered and found under their full names, which are joined in some places and taken
apart at a dot in others. A valid name in a valid namespace, or in none, shares its full name with
no other one, and what is written with a dot already says its namespace. So a name with a dot means
the same everywhere, whatever the namespace in force.
-/
namespace AvroIdl

namespace Name

theorem isPart_of_mem {name : Text} (h : isValid name = true) {b : UInt8} (hb : b ∈ name) :
    isPart b = true := by
  cases name with
  | nil => cases hb
  | cons c rest =>
    rw [isValid, Bool.and_eq_true, List.all_eq_true] at h
    rcases List.mem_cons.mp hb with rfl | hb
    · rw [isPart, h.1, Bool.true_or]
    · exact h.2 b hb

theorem dot_notMem {name : Text} (h : isValid name = true) : Byte.dot ∉ name :=
  fun hmem => absurd (isPart_of_mem h hmem) (by decide)

/-! ### Namespaces -/

theorem isValidNamespace_of_notMem {t : Text} (h : Byte.dot ∉ t) :
    isValidNamespace t = isValid t := by
  rw [isValidNamespace, Text.split_of_notMem h]
  simp

/-- What stands on both sides of a dot is looked at on its own. -/
theorem isValidNamespace_append (s t : Text) :
    isValidNamespace (s ++ Byte.dot :: t) = (isValidNamespace s && isValidNamespace t) := by
  rw [isValidNamespace, Text.split_append_cons, List.all_append]
  rfl

theorem ne_nil_of_isValidNamespace {s : Text} (h : isValidNamespace s = true) : s ≠ [] := by
  rintro rfl
  cases h

/-- The valid namespaces are the valid names, one or more, with dots between them. -/
theorem isValidNamespace_iff_exists_join {t : Text} :
    isValidNamespace t = true ↔
      ∃ names, names ≠ [] ∧ (∀ n ∈ names, isValid n = true) ∧ t = Text.join [Byte.dot] names := by
  constructor
  · intro h
    have hvalid : ∀ n ∈ Text.split Byte.dot t, isValid n = true := List.all_eq_true.mp h
    exact ⟨_, Text.split_ne_nil _ t, hvalid, (Text.join_split _ t).symm⟩
  · rintro ⟨names, hne, hvalid, rfl⟩
    rw [isValidNamespace, Text.split_join hne fun n hn => dot_notMem (hvalid n hn)]
    exact List.all_eq_true.mpr hvalid

end Name

/-! ### Joining -/

theorem full_of_some (name space : Text) :
    QualifiedName.full ⟨name, some space⟩ = space ++ Byte.dot :: name := by
  simp [QualifiedName.full, Text.ofAscii, Byte.dot]

theorem normalizeNamespace_of_ne_nil {space : Text} (h : space ≠ []) :
    normalizeNamespace (some space) = some space := by
  cases space with
  | nil => exact absurd rfl h
  | cons b t => rfl

/-- A valid name in a valid namespace, or in none. -/
structure QualifiedName.IsValid (q : QualifiedName) : Prop where
  name : Name.isValid q.name = true
  space : ∀ s ∈ q.space, Name.isValidNamespace s = true

namespace QualifiedName

variable {q q' : QualifiedName}

instance (q : QualifiedName) : Decidable q.IsValid :=
  decidable_of_iff (Name.isValid q.name = true ∧ ∀ s ∈ q.space, Name.isValidNamespace s = true)
    ⟨fun ⟨name, space⟩ => ⟨name, space⟩, fun h => ⟨h.name, h.space⟩⟩

theorem IsValid.normalizeNamespace_space (h : q.IsValid) :
    normalizeNamespace q.space = q.space := by
  cases hs : q.space with
  | none => rfl
  | some s => exact normalizeNamespace_of_ne_nil (Name.ne_nil_of_isValidNamespace (h.space s hs))

theorem IsValid.fullName_eq (h : q.IsValid) : fullName q.name q.space = q.full := by
  rw [fullName, h.normalizeNamespace_space]

theorem IsValid.eq_of_fullName (h : q.IsValid) (h' : q'.IsValid)
    (he : fullName q.name q.space = fullName q'.name q'.space) : q = q' := by
  obtain ⟨hname, hspace⟩ :=
    eq_of_fullName_eq (Name.dot_notMem h.name) (Name.dot_notMem h'.name) he
  rw [h.normalizeNamespace_space, h'.normalizeNamespace_space] at hspace
  cases q
  cases q'
  cases hname
  cases hspace
  rfl

/-- Where the name has no dot of its own, the full name shows whether it is valid. -/
theorem isValid_iff (h : Byte.dot ∉ q.name) :
    q.IsValid ↔ Name.isValidNamespace q.full = true := by
  obtain ⟨name, space⟩ := q
  cases space with
  | none =>
    -- the full name is the name, which is a namespace of one piece
    have hfull : Name.isValidNamespace (full ⟨name, none⟩) = Name.isValid name :=
      Name.isValidNamespace_of_notMem h
    rw [hfull]
    exact ⟨fun hq => hq.name, fun hname => ⟨hname, by simp⟩⟩
  | some s =>
    rw [full_of_some, Name.isValidNamespace_append, Name.isValidNamespace_of_notMem h,
      Bool.and_eq_true]
    constructor
    · intro hq
      exact ⟨hq.space s rfl, hq.name⟩
    · rintro ⟨hs, hname⟩
      refine ⟨hname, fun s' hs' => ?_⟩
      cases hs'
      exact hs

end QualifiedName

theorem Registry.isLegalName_iff {name : Text} {space : Option Text} :
    isLegalName name space = true ↔ QualifiedName.IsValid ⟨name, space⟩ := by
  rw [isLegalName, Bool.and_eq_true, Option.all_eq_true]
  exact ⟨fun ⟨name, space⟩ => ⟨name, space⟩, fun h => ⟨h.name, h.space⟩⟩

/-! ### Taking apart -/

namespace Scope

variable {t : Text}

/-- The text is told by its last dot. -/
theorem exists_append_of_dot_mem (h : Byte.dot ∈ t) :
    ∃ before last, t = before ++ Byte.dot :: last ∧ Byte.dot ∉ last := by
  cases hsplit : Text.splitLast Byte.dot t with
  | none => exact absurd h (Text.splitLast_eq_none_iff.mp hsplit)
  | some p => exact ⟨p.1, p.2, Text.splitLast_eq_some_iff.mp hsplit⟩

theorem qualify_append (c : Scope) (before : Text) {last : Text} (h : Byte.dot ∉ last) :
    c.qualify (before ++ Byte.dot :: last) = ⟨last, normalizeNamespace (some before)⟩ := by
  have hsplit : Text.splitLast Byte.dot (before ++ Byte.dot :: last) = some (before, last) :=
    Text.splitLast_eq_some_iff.mpr ⟨rfl, h⟩
  rw [qualify, hsplit]

/-- A name with a dot is not taken in the scope. -/
theorem qualify_eq_of_dot_mem (h : Byte.dot ∈ t) (c c' : Scope) : c.qualify t = c'.qualify t := by
  obtain ⟨before, last, rfl, hlast⟩ := exists_append_of_dot_mem h
  rw [qualify_append c before hlast, qualify_append c' before hlast]

/-- Joining and then taking apart. An empty namespace would not come back, since it counts as
none. -/
theorem qualify_fullName (c : Scope) {name space : Text} (hname : Byte.dot ∉ name)
    (hspace : space ≠ []) : c.qualify (fullName name (some space)) = ⟨name, some space⟩ := by
  have hnormal := normalizeNamespace_of_ne_nil hspace
  rw [fullName, hnormal, full_of_some, qualify_append c space hname, hnormal]

/-- Taking apart and then joining. -/
theorem full_qualify (c : Scope) (h : Name.isValidNamespace t = true) (hdot : Byte.dot ∈ t) :
    (c.qualify t).full = t := by
  obtain ⟨before, last, rfl, hlast⟩ := exists_append_of_dot_mem hdot
  rw [Name.isValidNamespace_append, Bool.and_eq_true] at h
  rw [qualify_append c before hlast,
    normalizeNamespace_of_ne_nil (Name.ne_nil_of_isValidNamespace h.1), full_of_some]

theorem isValid_qualify (c : Scope) (h : Name.isValidNamespace t = true) (hdot : Byte.dot ∈ t) :
    (c.qualify t).IsValid := by
  rw [QualifiedName.isValid_iff (c.dot_notMem_qualify t), full_qualify c h hdot]
  exact h

end Scope

/-! ### References -/

theorem Reference.binding_bind_of_unbound {place : Placement} {r : Reference}
    (h : r.binding = none) : (r.bind place).binding = place r.full := by
  cases hplace : place r.full with
  | none => simpa [bind, hplace] using h
  | some i => exact binding_bind hplace

/-- A reference with a dot is the same in every scope. Made of valid names, it is bound to the place
of the text as it is written. -/
theorem Build.exists_referenceTo_eq {name : Identifier} (hdot : Byte.dot ∈ name.text) :
    ∃ ref, (∀ c : Context, referenceTo c name = .reference ref) ∧
      (Name.isValidNamespace name.text = true →
        ∀ r : Registry, (ref.bind r.indexOf?).binding = r.indexOf? name.text) := by
  let outside : Scope := .of none
  let q := outside.qualify name.text
  let ref : Reference := { name := q.name, space := q.space, span := some name.span }
  refine ⟨ref, fun c => ?_, fun h r => ?_⟩
  · rw [referenceTo, Scope.qualify_eq_of_dot_mem hdot c.scope outside]
  · have hfull : ref.full = name.text :=
      (outside.isValid_qualify h hdot).fullName_eq.trans (outside.full_qualify h hdot)
    rw [Reference.binding_bind_of_unbound rfl, hfull]

/-- Different valid names have different full names, and a namespace is valid if it is made of valid
names with dots between them. In every scope the full name of a name in a namespace means that name,
and nothing that is written with a dot depends on the scope: made of valid names, it is the full
name of what it means, and a reference to it is bound to the type that is registered under it. -/
theorem fullName_identifies :
    (∀ q q' : QualifiedName, q.IsValid → q'.IsValid →
        fullName q.name q.space = fullName q'.name q'.space → q = q') ∧
      (∀ t, Name.isValidNamespace t = true ↔
        ∃ names, names ≠ [] ∧ (∀ n ∈ names, Name.isValid n = true) ∧
          t = Text.join [Byte.dot] names) ∧
      (∀ (c : Scope) (name space : Text), Name.isValid name = true → space ≠ [] →
        c.qualify (fullName name (some space)) = ⟨name, some space⟩ ∧
          (c.qualify (fullName name (some space))).full = fullName name (some space)) ∧
      (∀ t, Byte.dot ∈ t → ∃ q : QualifiedName, (∀ c : Scope, c.qualify t = q) ∧
        (Name.isValidNamespace t = true → q.IsValid ∧ q.full = t)) ∧
      ∀ name : Identifier, Byte.dot ∈ name.text →
        ∃ ref, (∀ c : Build.Context, Build.referenceTo c name = .reference ref) ∧
          (Name.isValidNamespace name.text = true →
            ∀ r : Registry, (ref.bind r.indexOf?).binding = r.indexOf? name.text) := by
  refine ⟨fun q q' h h' he => h.eq_of_fullName h' he,
    fun t => Name.isValidNamespace_iff_exists_join, fun c name space hname hspace => ?_,
    fun t hdot => ?_, fun name hdot => Build.exists_referenceTo_eq hdot⟩
  · have hmeans := c.qualify_fullName (Name.dot_notMem hname) hspace
    refine ⟨hmeans, ?_⟩
    rw [hmeans, fullName, normalizeNamespace_of_ne_nil hspace]
  · -- any scope shows what the text means
    let outside : Scope := .of none
    exact ⟨outside.qualify t, fun c => Scope.qualify_eq_of_dot_mem hdot c outside,
      fun h => ⟨outside.isValid_qualify h hdot, outside.full_qualify h hdot⟩⟩

/-- A type in a namespace, and a scope that has a namespace of its own. -/
def demoPoint : QualifiedName := ⟨"Point", some "org.demo"⟩

def otherScope : Scope := .of (some "com.other")

def demoRegistry : Registry :=
  { entries := [⟨.record { name := "Point", space := some "com.other" } false [], "a.avdl"⟩,
      ⟨.record { name := "Point", space := some "org.demo" } false [], "b.avdl"⟩] }

theorem demoPoint_identified :
    (demoPoint.IsValid ∧ (otherScope.qualify "org.demo.Point").IsValid ∧
        demoPoint = otherScope.qualify "org.demo.Point") ∧
      Name.isValidNamespace "org.demo" = true ∧
      otherScope.qualify (fullName "Point" (some "org.demo")) = demoPoint ∧
      (∃ q : QualifiedName, (∀ c : Scope, c.qualify "org.demo.Point" = q) ∧ q.IsValid) ∧
      ∃ ref, (∀ c : Build.Context,
          Build.referenceTo c { text := "org.demo.Point" } = .reference ref) ∧
        (ref.bind demoRegistry.indexOf?).binding = some 1 := by
  obtain ⟨hinjective, hnamespaces, hmeans, hdotted, hreferences⟩ := fullName_identifies
  have hvalid : demoPoint.IsValid := by decide
  have hqualified : (otherScope.qualify "org.demo.Point").IsValid := by decide
  obtain ⟨q, hq, hfull⟩ := hdotted "org.demo.Point" (by decide)
  obtain ⟨ref, href, hbound⟩ := hreferences { text := "org.demo.Point" } (by decide)
  refine ⟨⟨hvalid, hqualified, hinjective _ _ hvalid hqualified (by decide)⟩,
    (hnamespaces _).mpr ⟨["org", "demo"], by decide, by decide, by decide⟩,
    (hmeans otherScope "Point" "org.demo" (by decide) (by decide)).1,
    ⟨q, hq, (hfull (by decide)).1⟩, ref, href, ?_⟩
  rw [hbound (by decide)]
  decide

end AvroIdl
